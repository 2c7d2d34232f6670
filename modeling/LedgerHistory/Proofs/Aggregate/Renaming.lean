import LedgerHistory.Proofs.Aggregate.Consistent

/-!
# New ids

The rows of a consistent chronicle keep what they tell under other ids (`NewRows.rename`), and this
is the only freedom there is: two consistent chronicles that tell the same groups differ in ids alone
(`NewRows.Consistent.eq_rename`).
-/

namespace LedgerHistory

variable {d : ListDomain}

/-! ## Ids that stand in the place of others -/

/-- The id that stands in a list where an id stands in another. -/
def counterpart (xs ys : List Int64) (id : Int64) : Int64 := (ys[xs.idxOf id]?).getD id

section Counterpart

variable {xs ys zs : List Int64}

theorem map_counterpart_of_nodup (hx : xs.Nodup) (hlen : xs.length = ys.length) :
    xs.map (counterpart xs ys) = ys := by
  refine List.ext_getElem (by rw [List.length_map, hlen]) fun i hi hj => ?_
  rw [List.getElem_map, counterpart, hx.idxOf_getElem, List.getElem?_eq_getElem hj, Option.getD_some]

theorem map_counterpart (hx : xs.Pairwise (· < ·)) (hlen : xs.length = ys.length) :
    xs.map (counterpart xs ys) = ys :=
  map_counterpart_of_nodup (nodup_of_increasing hx) hlen

/-- An id that stands in neither list stands for itself. -/
theorem counterpart_of_notMem (hlen : xs.length = ys.length) {id : Int64} (hid : id ∉ xs) :
    counterpart xs ys id = id := by
  rw [counterpart, List.idxOf_eq_length hid, hlen, List.getElem?_length, Option.getD_none]

/-- An id that both lists begin with stands in its own place. -/
theorem counterpart_of_prefix (hx : zs <+: xs) (hy : zs <+: ys) {id : Int64} (hid : id ∈ zs) :
    counterpart xs ys id = id := by
  obtain ⟨xs, rfl⟩ := hx
  obtain ⟨ys, rfl⟩ := hy
  have hi := List.idxOf_lt_length_of_mem hid
  rw [counterpart, List.idxOf_append_of_mem hid, List.getElem?_append_left hi,
    List.getElem?_eq_getElem hi, List.getElem_idxOf, Option.getD_some]

/-- Where both lists increase, what stands in the place of ids increases with them. -/
theorem counterpart_lt (hx : xs.Pairwise (· < ·)) (hy : ys.Pairwise (· < ·))
    (hlen : xs.length = ys.length) {i j : Int64} (hi : i ∈ xs) (hj : j ∈ xs) (hij : i < j) :
    counterpart xs ys i < counterpart xs ys j := by
  rw [← map_counterpart hx hlen, List.pairwise_map] at hy
  obtain ⟨a, ha, rfl⟩ := List.mem_iff_getElem.1 hi
  obtain ⟨b, hb, rfl⟩ := List.mem_iff_getElem.1 hj
  have hab : a < b := by
    rcases Nat.lt_trichotomy a b with hlt | rfl | hgt
    · exact hlt
    · exact absurd hij Int64.lt_irrefl
    · have hji := List.pairwise_iff_getElem.1 hx b a hb ha hgt
      exact absurd (Int64.lt_trans hij hji) Int64.lt_irrefl
  exact List.pairwise_iff_getElem.1 hy a b ha hb hab

end Counterpart

/-! ## Rows with other ids -/

/-- Other ids for the rows of a domain. -/
structure NewIds where
  entry : Int64 → Int64
  aggregate : Int64 → Int64
  singleton : Int64 → Int64

def HistoryRow.rename {χ : Type} (f : Int64 → Int64) (x : HistoryRow χ) : HistoryRow χ :=
  { x with id := f x.id }

/-- An aggregate with other ids, its own and those of the rows that it refers to. -/
def Aggregate.rename (f : NewIds) (a : Aggregate) : Aggregate :=
  { a with
    id := f.aggregate a.id
    list := ⟨a.list.ids.map f.entry⟩
    singleton := a.singleton.map f.singleton }

/-- The rows of a domain with other ids. -/
def NewRows.rename (f : NewIds) (C : NewRows d) : NewRows d :=
  ⟨C.entries.map (·.rename f.entry), C.aggregates.map (·.rename f),
    C.singletons.map (·.rename f.singleton)⟩

section Rows

variable {χ : Type} {f : Int64 → Int64} {xs ys : List (HistoryRow χ)}

theorem eq_of_map_eq {α β γ : Type} {f : α → β} {g : α → γ} {xs ys : List α}
    (hinj : ∀ x ∈ xs, ∀ y ∈ ys, f x = f y → g x = g y → x = y) (hf : xs.map f = ys.map f)
    (hg : xs.map g = ys.map g) : xs = ys := by
  induction xs generalizing ys with
  | nil => exact (List.map_eq_nil_iff.1 hf.symm).symm
  | cons x xs ih =>
    cases ys with
    | nil => cases hf
    | cons y ys =>
      obtain ⟨hfx, hf⟩ := List.cons.inj hf
      obtain ⟨hgx, hg⟩ := List.cons.inj hg
      rw [hinj x List.mem_cons_self y List.mem_cons_self hfx hgx, ih (fun x hx y hy =>
        hinj x (List.mem_cons_of_mem _ hx) y (List.mem_cons_of_mem _ hy)) hf hg]

theorem map_rename (f : Int64 → Int64) (xs : List (HistoryRow χ)) :
    (xs.map (·.rename f)).map (fun x => (x.groupKey, x.change))
      = xs.map fun x => (x.groupKey, x.change) := by
  rw [List.map_map]
  rfl

theorem map_id_rename (f : Int64 → Int64) (xs : List (HistoryRow χ)) :
    (xs.map (·.rename f)).map (·.id) = (xs.map (·.id)).map f := by
  rw [List.map_map, List.map_map]
  rfl

/-- Rows that tell the same changes differ in ids alone. -/
theorem eq_map_rename (hc : xs.map (fun x => (x.groupKey, x.change))
    = ys.map fun x => (x.groupKey, x.change)) (hid : (xs.map (·.id)).map f = ys.map (·.id)) :
    ys = xs.map (·.rename f) := by
  refine (eq_of_map_eq (f := fun x => (x.groupKey, x.change)) (g := (·.id)) ?_ ?_ ?_).symm
  · rintro ⟨i, v, e, c⟩ _ ⟨i', v', e', c'⟩ _ hxy hi
    cases hxy
    cases hi
    rfl
  · rw [map_rename, hc]
  · rw [map_id_rename, hid]

theorem upTo_rename (e : EntityId) (v : Int64) (xs : List (HistoryRow χ)) :
    upTo e v (xs.map (·.rename f)) = (upTo e v xs).map (·.rename f) := by
  rw [upTo, List.filter_map]
  rfl

theorem NewRows.liveEntries_rename (xs : List d.Entry) :
    liveEntries (xs.map (·.rename f)) = (liveEntries xs).map (·.rename f) := by
  have h : List.Forall₂ (fun x y : d.Entry => x.rename f = y) xs (xs.map (·.rename f)) := by
    rw [List.forall₂_map_right_iff, List.forall₂_same]
    exact fun x _ => rfl
  have hlive := forall₂_liveEntries (fun x y (hxy : x.rename f = y) => hxy ▸ ⟨rfl, rfl, rfl⟩) h
  exact (List.map_id _).symm.trans (map_eq_map_of_forall₂ (hlive.imp fun _ _ h => h)).symm

end Rows

namespace NewRows

variable {C C' : NewRows d} {f : NewIds} {gs : List d.Group}

/-- Consistent chronicles that tell the same groups differ in ids alone. -/
theorem Consistent.eq_rename (h : C.Consistent) (h' : C'.Consistent) (ht : C.Tells gs)
    (ht' : C'.Tells gs) (he : (C.entries.map (·.id)).map f.entry = C'.entries.map (·.id))
    (ha : (C.aggregates.map (·.id)).map f.aggregate = C'.aggregates.map (·.id))
    (hs : (C.singletons.map (·.id)).map f.singleton = C'.singletons.map (·.id)) :
    C' = C.rename f := by
  have hentries := eq_map_rename (ht.entries.trans ht'.entries.symm) he
  have hsingletons := eq_map_rename (ht.singletons.trans ht'.singletons.symm) hs
  have haggregates : C.aggregates.map (·.rename f) = C'.aggregates := by
    refine eq_of_map_eq (f := Aggregate.groupKey) (g := (·.id)) ?_ ?_ ?_
    · intro b' hb' b hb hkey hid
      obtain ⟨a, hm, rfl⟩ := List.mem_map.1 hb'
      obtain ⟨hentity, hversion⟩ := GroupKey.mk.inj hkey
      have hlist : b.list = ⟨a.list.ids.map f.entry⟩ := by
        refine congrArg RecencyList.mk ?_
        rw [h'.lists b hb, h.lists a hm, hentries, upTo_rename, liveEntries_rename, map_id_rename,
          ← hentity, ← hversion]
        rfl
      have hsingleton : b.singleton = a.singleton.map f.singleton := by
        rw [h'.singleton b hb, h.singleton a hm, hsingletons, upTo_rename, ← List.getLast?_map,
          ← List.getLast?_map, map_id_rename, List.getLast?_map, ← hentity, ← hversion]
        rfl
      obtain ⟨i, v, e, l, v'⟩ := b
      rw [Aggregate.rename, Aggregate.mk.injEq]
      exact ⟨hid, hversion, hentity, hlist.symm, hsingleton.symm⟩
    · rw [List.map_map]
      exact ht.aggregates.trans ht'.aggregates.symm
    · rw [← ha, List.map_map, List.map_map]
      rfl
  show C' = ⟨_, _, _⟩
  rw [← hentries, haggregates, ← hsingletons]

theorem Consistent.exists_rename (h : C.Consistent) (h' : C'.Consistent) (ht : C.Tells gs)
    (ht' : C'.Tells gs) : ∃ f, C' = C.rename f := by
  have hlen : ∀ {α β : Type} {g : α → β} {g' : α → Int64} {xs ys : List α},
      xs.map g = ys.map g → (xs.map g').length = (ys.map g').length := by
    intro α β g g' xs ys he
    simpa using congrArg List.length he
  refine ⟨⟨counterpart (C.entries.map (·.id)) (C'.entries.map (·.id)),
    counterpart (C.aggregates.map (·.id)) (C'.aggregates.map (·.id)),
    counterpart (C.singletons.map (·.id)) (C'.singletons.map (·.id))⟩,
    h.eq_rename h' ht ht' (map_counterpart ?_ ?_) (map_counterpart ?_ ?_) (map_counterpart ?_ ?_)⟩
  · exact h.ordered.entries.increasing
  · exact hlen (ht.entries.trans ht'.entries.symm)
  · exact h.ordered.aggregates.increasing
  · exact hlen (ht.aggregates.trans ht'.aggregates.symm)
  · exact h.ordered.singletons.increasing
  · exact hlen (ht.singletons.trans ht'.singletons.symm)

/-- Behind chronicles with which they tell the same, rows that tell the same differ in ids alone. -/
theorem Consistent.exists_rename_behind {R R' : NewRows d} {gs' : List d.Group}
    (h : (C ++ R).Consistent) (h' : (C' ++ R').Consistent) (ht : (C ++ R).Tells gs)
    (ht' : (C' ++ R').Tells gs) (hR : R.Tells gs') (hR' : R'.Tells gs') : ∃ f, R' = R.rename f := by
  obtain ⟨f, hf⟩ := h.exists_rename h' ht ht'
  have hlen : ∀ {α β : Type} {g : α → β} {r : α → α} {xs ys : List α}, xs.map g = ys.map g →
      ys.length = (xs.map r).length := by
    intro α β g r xs ys he
    simpa using (congrArg List.length he).symm
  have hentries := congrArg NewRows.entries hf
  have haggregates := congrArg NewRows.aggregates hf
  have hsingletons := congrArg NewRows.singletons hf
  simp only [rename, entries_append, aggregates_append, singletons_append, List.map_append]
    at hentries haggregates hsingletons
  refine ⟨f, ?_⟩
  show R' = ⟨_, _, _⟩
  rw [← List.append_inj_right' hentries (hlen (hR.entries.trans hR'.entries.symm)),
    ← List.append_inj_right' haggregates (hlen (hR.aggregates.trans hR'.aggregates.symm)),
    ← List.append_inj_right' hsingletons (hlen (hR.singletons.trans hR'.singletons.symm))]

end NewRows

end LedgerHistory
