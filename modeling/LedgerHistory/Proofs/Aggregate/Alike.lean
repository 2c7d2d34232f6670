import Mathlib.Data.List.Forall2
import Mathlib.Data.List.Perm.Basic
import Mathlib.Logic.Relator
import LedgerHistory.Proofs.Aggregate.Grouped
import LedgerHistory.Proofs.Aggregate.Prior

/-!
# Alike chronicles

Two chronicles are alike when, row for row, they differ in ids alone, each id standing for one id of
the other wherever it occurs (`NewRows.Alike`). What is most recent and what a group adds depend on
which ids are the same, and on the order of those of rows, so groups that are alike add alike rows to
alike chronicles (`NewRows.Alike.rowsAfter`).
-/

namespace LedgerHistory

open LatestLookup (distinctKeys)

/-! ## Related lists -/

section Lists

variable {α β κ κ' : Type} {R : α → β → Prop} {xs : List α} {ys : List β}

theorem rel_getLast? (h : List.Forall₂ R xs ys) : Option.Rel R xs.getLast? ys.getLast? := by
  induction h with
  | nil => exact .none
  | cons hxy h ih =>
    rw [List.getLast?_cons, List.getLast?_cons]
    generalize List.getLast? _ = a at ih
    generalize List.getLast? _ = b at ih
    cases ih with
    | some hl => exact .some hl
    | none => exact .some hxy

theorem rel_lastWith [DecidableEq κ] [DecidableEq κ'] {key : α → κ} {key' : β → κ'} {k : κ} {k' : κ'}
    (hkey : ∀ x y, R x y → (key x = k ↔ key' y = k')) (h : List.Forall₂ R xs ys) :
    Option.Rel R (lastWith key k xs) (lastWith key' k' ys) :=
  rel_getLast? (forall₂_filter (fun x y hxy => decide_eq_decide.2 (hkey x y hxy)) h)

theorem forall₂_erase [DecidableEq α] [DecidableEq β] (hR : Relator.BiUnique R) {x : α} {y : β}
    (hxy : R x y) (h : List.Forall₂ R xs ys) : List.Forall₂ R (xs.erase x) (ys.erase y) := by
  induction h with
  | nil => exact .nil
  | @cons x' y' xs ys hxy' h ih =>
    have heq : x' = x ↔ y' = y := Relator.rel_eq hR hxy' hxy
    by_cases hx : x' = x
    · rw [hx, heq.1 hx, List.erase_cons_head, List.erase_cons_head]
      exact h
    · rw [List.erase_cons_tail (by simpa using hx),
        List.erase_cons_tail (by simpa using fun hy => hx (heq.2 hy))]
      exact .cons hxy' ih

theorem pairwise_of_forall₂ {S : α → α → Prop} {S' : β → β → Prop}
    (hS : ∀ x x' y y', R x y → R x' y' → S x x' → S' y y') (h : List.Forall₂ R xs ys)
    (hxs : xs.Pairwise S) : ys.Pairwise S' := by
  induction h with
  | nil => exact .nil
  | @cons x y xs ys hxy h ih =>
    obtain ⟨hx, hxs⟩ := List.pairwise_cons.1 hxs
    refine List.pairwise_cons.2 ⟨fun y' hy' => ?_, ih hxs⟩
    obtain ⟨x', hx', hxy'⟩ := exists_of_forall₂ h hy'
    exact hS x x' y y' hxy hxy' (hx x' hx')

theorem distinctKeys_cons [DecidableEq κ] (k : κ) (ks : List κ) :
    distinctKeys (k :: ks) = k :: (distinctKeys ks).filter (· ≠ k) := by
  have h := distinctKeys_append [k] ks
  rw [show distinctKeys [k] = [k] from rfl] at h
  simpa using h

theorem forall₂_distinctKeys [DecidableEq α] [DecidableEq β] (hR : Relator.BiUnique R)
    (h : List.Forall₂ R xs ys) : List.Forall₂ R (distinctKeys xs) (distinctKeys ys) := by
  induction h with
  | nil => exact .nil
  | @cons x y xs ys hxy h ih =>
    rw [distinctKeys_cons, distinctKeys_cons]
    exact .cons hxy (forall₂_filter
      (fun x' y' hxy' => decide_eq_decide.2 (not_congr (Relator.rel_eq hR hxy' hxy))) ih)

theorem forall₂_append_split {xs xs' : List α} {ys ys' : List β} (hlen : xs.length = ys.length)
    (h : List.Forall₂ R (xs ++ xs') (ys ++ ys')) : List.Forall₂ R xs ys ∧ List.Forall₂ R xs' ys' := by
  have htake := List.forall₂_take_append _ _ _ h
  have hdrop := List.forall₂_drop_append _ _ _ h
  rw [← hlen, List.take_left] at htake
  rw [← hlen, List.drop_left] at hdrop
  exact ⟨htake, hdrop⟩

end Lists

/-! ## What is alike -/

/-- Whether ids stand in the order of those that they stand for. -/
def KeepsOrder (P : Int64 → Int64 → Prop) : Prop :=
  ∀ {i i' j j'}, P i i' → P j j' → (i < j ↔ i' < j')

theorem KeepsOrder.biUnique {P : Int64 → Int64 → Prop} (h : KeepsOrder P) : Relator.BiUnique P := by
  constructor
  · intro i i' j hi hi'
    have hlt := h hi hi'
    have hgt := h hi' hi
    simp only [Int64.lt_iff_toInt_lt, ← Int64.toInt_inj] at *
    omega
  · intro i j j' hj hj'
    have hlt := h hj hj'
    have hgt := h hj' hj
    simp only [Int64.lt_iff_toInt_lt, ← Int64.toInt_inj] at *
    omega

/-- Which ids stand for which, and which changes are the same but for ids. -/
structure Likeness (d : ListDomain) where
  entity : EntityId → EntityId → Prop
  change : d.Change → d.Change → Prop
  entry : Int64 → Int64 → Prop
  aggregate : Int64 → Int64 → Prop
  singleton : Int64 → Int64 → Prop

variable {d : ListDomain} {L : Likeness d}

/-- Whether ids stand for one id each, changes of one key for changes of one key, and the ids of rows
in order. -/
structure Likeness.Lawful (L : Likeness d) : Prop where
  entity : Relator.BiUnique L.entity
  key {c c' e e' : d.Change} (hc : L.change c c') (he : L.change e e') :
    d.keyOf c = d.keyOf e ↔ d.keyOf c' = d.keyOf e'
  deletion {c c' : d.Change} (h : L.change c c') : d.isDeletion c = d.isDeletion c'
  entry : KeepsOrder L.entry
  aggregate : KeepsOrder L.aggregate

/-- Whether group keys are of entities that stand for each other, at one version. -/
structure GroupKey.Alike (E : EntityId → EntityId → Prop) (k k' : GroupKey) : Prop where
  entity : E k.entity k'.entity
  stateVersion : k.stateVersion = k'.stateVersion

theorem GroupKey.biUnique_alike {E : EntityId → EntityId → Prop} (h : Relator.BiUnique E) :
    Relator.BiUnique (GroupKey.Alike E) := by
  constructor
  · rintro ⟨e, v⟩ ⟨e', v'⟩ ⟨f, w⟩ ⟨he, hv⟩ ⟨he', hv'⟩
    exact congrArg₂ GroupKey.mk (h.1 he he') (hv.trans hv'.symm)
  · rintro ⟨f, w⟩ ⟨e, v⟩ ⟨e', v'⟩ ⟨he, hv⟩ ⟨he', hv'⟩
    exact congrArg₂ GroupKey.mk (h.2 he he') (hv.symm.trans hv')

/-- Whether rows differ in ids alone. -/
structure HistoryRow.Alike {χ : Type} (E : EntityId → EntityId → Prop) (P : Int64 → Int64 → Prop)
    (K : χ → χ → Prop) (x y : HistoryRow χ) : Prop where
  id : P x.id y.id
  key : x.groupKey.Alike E y.groupKey
  change : K x.change y.change

/-- Whether aggregates differ in ids alone. -/
structure Aggregate.Alike (L : Likeness d) (a b : Aggregate) : Prop where
  id : L.aggregate a.id b.id
  key : a.groupKey.Alike L.entity b.groupKey
  list : List.Forall₂ L.entry a.list.ids b.list.ids
  singleton : Option.Rel L.singleton a.singleton b.singleton

/-- Whether the rows of a domain differ in ids alone, row for row. -/
structure NewRows.Alike (L : Likeness d) (C C' : NewRows d) : Prop where
  entries : List.Forall₂ (HistoryRow.Alike L.entity L.entry L.change) C.entries C'.entries
  aggregates : List.Forall₂ (Aggregate.Alike L) C.aggregates C'.aggregates
  singletons : List.Forall₂ (HistoryRow.Alike L.entity L.singleton (· = ·)) C.singletons C'.singletons

/-- Whether groups of changes differ in ids alone. -/
structure ListDomain.Group.Alike (L : Likeness d) (g g' : d.Group) : Prop where
  key : g.1.Alike L.entity g'.1
  entries : List.Forall₂ L.change g.2.entries g'.2.entries
  singletons : g.2.singletons = g'.2.singletons

/-! ## Groups -/

/-- Whether meanings differ in ids alone. -/
def Meaning.Alike (L : Likeness d) : Meaning d.Change d.Singleton → Meaning d.Change d.Singleton → Prop
  | .entry c, .entry c' => L.change c c'
  | .singleton v, .singleton v' => v = v'
  | _, _ => False

theorem GroupedChanges.alike_toList (hE : Relator.BiUnique L.entity)
    {xs ys : List (GroupKey × Meaning d.Change d.Singleton)}
    (h : List.Forall₂ (fun x y => x.1.Alike L.entity y.1 ∧ x.2.Alike L y.2) xs ys) :
    List.Forall₂ (ListDomain.Group.Alike L) (ofList xs).toList (ofList ys).toList := by
  have hkeys : List.Forall₂ (GroupKey.Alike L.entity) (xs.map (·.1)) (ys.map (·.1)) := by
    rw [List.forall₂_map_left_iff, List.forall₂_map_right_iff]
    exact h.imp fun _ _ hxy => hxy.1
  rw [toList_ofList, toList_ofList, List.forall₂_map_left_iff, List.forall₂_map_right_iff]
  refine (forall₂_distinctKeys (GroupKey.biUnique_alike hE) hkeys).imp fun k k' hk => ?_
  have hchanges : List.Forall₂ (Meaning.Alike L) (changesOf xs k) (changesOf ys k') := by
    rw [changesOf, changesOf, List.forall₂_map_left_iff, List.forall₂_map_right_iff]
    refine (forall₂_filter (fun x y hxy => decide_eq_decide.2 ?_) h).imp fun _ _ hxy => hxy.2
    exact Relator.rel_eq (GroupKey.biUnique_alike hE) hxy.1 hk
  refine ⟨hk, ?_, ?_⟩
  · rw [ChangeGroup.ofList_eq, ChangeGroup.ofList_eq]
    refine List.rel_filterMap (fun m m' hm => ?_) hchanges
    cases m <;> cases m' <;> first | exact hm.elim | exact .some hm | exact .none
  · rw [ChangeGroup.ofList_eq, ChangeGroup.ofList_eq, ← List.forall₂_eq_eq_eq]
    refine List.rel_filterMap (fun m m' hm => ?_) hchanges
    cases m <;> cases m' <;> first | exact hm.elim | exact .some hm | exact .none

/-! ## Look-ups -/

namespace NewRows

variable {C C' R B : NewRows d}

theorem alike_empty : ({} : NewRows d).Alike L {} := ⟨.nil, .nil, .nil⟩

theorem Alike.append {R R' : NewRows d} (h : C.Alike L C') (h' : R.Alike L R') :
    (C ++ R).Alike L (C' ++ R') :=
  ⟨List.rel_append h.entries h'.entries, List.rel_append h.aggregates h'.aggregates,
    List.rel_append h.singletons h'.singletons⟩

theorem Alike.within (h : C.Alike L C') (bound : Option Int64) :
    (C.within bound).Alike L (C'.within bound) := by
  refine ⟨forall₂_filter (fun x y hxy => ?_) h.entries, forall₂_filter (fun x y hxy => ?_) h.aggregates,
    forall₂_filter (fun x y hxy => ?_) h.singletons⟩
  all_goals exact congrArg _ hxy.key.stateVersion

theorem entryKey_eq_iff (hL : L.Lawful) {x x' y y' : d.Entry}
    (hx : x.Alike L.entity L.entry L.change x') (hy : y.Alike L.entity L.entry L.change y') :
    d.entryKey x = d.entryKey y ↔ d.entryKey x' = d.entryKey y' := by
  rw [ListDomain.entryKey, ListDomain.entryKey, Prod.mk.injEq, ListDomain.entryKey,
    ListDomain.entryKey, Prod.mk.injEq, hL.key hx.change hy.change]
  exact and_congr_left fun _ => Relator.rel_eq hL.entity hx.key.entity hy.key.entity

theorem Alike.latest? (hL : L.Lawful) (h : C.Alike L C') {e e' : EntityId} (he : L.entity e e') :
    Option.Rel (Aggregate.Alike L) (C.latest? e) (C'.latest? e') :=
  rel_lastWith (fun _ _ hab => Relator.rel_eq hL.entity hab.key.entity he) h.aggregates

theorem older_of_alike {α : Type} {m : Versioned α} {P : Int64 → Int64 → Prop} (hP : KeepsOrder P)
    {x x' y y' : α} (hv : m.version x = m.version y) (hv' : m.version x' = m.version y')
    (hi : P (m.id x) (m.id y)) (hi' : P (m.id x') (m.id y')) (h : m.Older x x') : m.Older y y' := by
  rw [Versioned.Older, ← hv, ← hv', ← hP hi hi']
  exact h

/-- Alike chronicles are ranked alike. -/
theorem Alike.exists_ranks (hL : L.Lawful) (h : C.Alike L C') (hr : C.Ranks B) :
    ∃ B', C'.Ranks B' ∧ B.Alike L B' := by
  obtain ⟨entries, he, hep⟩ := List.perm_comp_forall₂ hr.entries.perm h.entries
  obtain ⟨aggregates, ha, hap⟩ := List.perm_comp_forall₂ hr.aggregates.perm h.aggregates
  refine ⟨⟨entries, aggregates, C'.singletons⟩, ⟨⟨hep, ?_⟩, ⟨hap, ?_⟩, rfl⟩, he, ha, ?_⟩
  · refine pairwise_of_forall₂ (fun x x' y y' hxy hxy' => ?_) he hr.entries.sorted
    exact older_of_alike (m := HistoryRow.versioned d.Change) hL.entry hxy.key.stateVersion
      hxy'.key.stateVersion hxy.id hxy'.id
  · refine pairwise_of_forall₂ (fun x x' y y' hxy hxy' => ?_) ha hr.aggregates.sorted
    exact older_of_alike (m := Aggregate.versioned) hL.aggregate hxy.key.stateVersion
      hxy'.key.stateVersion hxy.id hxy'.id
  · rw [hr.singletons]
    exact h.singletons

end NewRows

/-! ## New rows -/

/-- Whether the ids that rows get from two places stand for each other. -/
structure Likeness.Numbers (L : Likeness d) (ids ids' : FirstIds) (R : NewRows d) : Prop where
  entry : List.Forall₂ L.entry (idsFrom ids.entry R.entries.length)
    (idsFrom ids'.entry R.entries.length)
  aggregate : List.Forall₂ L.aggregate (idsFrom ids.aggregate R.aggregates.length)
    (idsFrom ids'.aggregate R.aggregates.length)
  singleton : List.Forall₂ L.singleton (idsFrom ids.singleton R.singletons.length)
    (idsFrom ids'.singleton R.singletons.length)

theorem forall₂_idsFrom_append {P : Int64 → Int64 → Prop} {i i' : Int64} {m n : Nat}
    (h : List.Forall₂ P (idsFrom i (m + n)) (idsFrom i' (m + n))) :
    List.Forall₂ P (idsFrom i m) (idsFrom i' m)
      ∧ List.Forall₂ P (idsFrom (i + Int64.ofNat m) n) (idsFrom (i' + Int64.ofNat m) n) := by
  rw [idsFrom_append, idsFrom_append] at h
  exact forall₂_append_split (by simp) h

theorem Likeness.Numbers.left {ids ids' : FirstIds} {R R' : NewRows d}
    (h : L.Numbers ids ids' (R ++ R')) : L.Numbers ids ids' R := by
  obtain ⟨he, ha, hs⟩ := h
  rw [NewRows.entries_append, List.length_append] at he
  rw [NewRows.aggregates_append, List.length_append] at ha
  rw [NewRows.singletons_append, List.length_append] at hs
  exact ⟨(forall₂_idsFrom_append he).1, (forall₂_idsFrom_append ha).1, (forall₂_idsFrom_append hs).1⟩

theorem Likeness.Numbers.right {ids ids' : FirstIds} {R R' S : NewRows d}
    (h : L.Numbers ids ids' (R ++ R')) (hS : R.Alike L S) :
    L.Numbers (ids.after R) (ids'.after S) R' := by
  obtain ⟨he, ha, hs⟩ := h
  rw [NewRows.entries_append, List.length_append] at he
  rw [NewRows.aggregates_append, List.length_append] at ha
  rw [NewRows.singletons_append, List.length_append] at hs
  rw [FirstIds.after, FirstIds.after, ← hS.entries.length_eq, ← hS.aggregates.length_eq,
    ← hS.singletons.length_eq]
  exact ⟨(forall₂_idsFrom_append he).2, (forall₂_idsFrom_append ha).2, (forall₂_idsFrom_append hs).2⟩

theorem alike_enumerated {χ : Type} {E : EntityId → EntityId → Prop} {P : Int64 → Int64 → Prop}
    {K : χ → χ → Prop} {ys ys' : List (GroupKey × χ)}
    (h : List.Forall₂ (fun y y' => y.1.Alike E y'.1 ∧ K y.2 y'.2) ys ys') {i i' : Int64}
    (hids : List.Forall₂ P (idsFrom i ys.length) (idsFrom i' ys.length)) :
    List.Forall₂ (HistoryRow.Alike E P K) (enumerated i ys) (enumerated i' ys') := by
  induction h generalizing i i' with
  | nil => exact .nil
  | cons hy _ ih =>
    rw [List.length_cons, idsFrom, idsFrom] at hids
    obtain ⟨hid, hids⟩ := List.forall₂_cons.1 hids
    exact .cons ⟨hid, hy.1, hy.2⟩ (ih hids)

theorem alike_numbered {χ : Type} {E : EntityId → EntityId → Prop} {P : Int64 → Int64 → Prop}
    {K : χ → χ → Prop} {key key' : GroupKey} (hkey : key.Alike E key') {cs cs' : List χ}
    (h : List.Forall₂ K cs cs') {i i' : Int64}
    (hids : List.Forall₂ P (idsFrom i cs.length) (idsFrom i' cs.length)) :
    List.Forall₂ (HistoryRow.Alike E P K) (numbered i key cs) (numbered i' key' cs') := by
  refine alike_enumerated ?_ (by rwa [List.length_map])
  rw [List.forall₂_map_left_iff, List.forall₂_map_right_iff]
  exact h.imp fun _ _ hc => ⟨hkey, hc⟩

theorem alike_moveToFront {P : Int64 → Int64 → Prop} (hP : Relator.BiUnique P) {o o' : Option Int64}
    (ho : Option.Rel P o o') {i i' : Int64} (hi : P i i') (isDeletion : Bool) {l l' : RecencyList}
    (hl : List.Forall₂ P l.ids l'.ids) :
    List.Forall₂ P (Pass.moveToFront o isDeletion i l).ids (Pass.moveToFront o' isDeletion i' l').ids := by
  cases ho with
  | none =>
    cases isDeletion with
    | false => exact .cons hi hl
    | true => exact hl
  | some hold =>
    cases isDeletion with
    | false => exact .cons hi (forall₂_erase hP hold hl)
    | true => exact forall₂_erase hP hold hl

namespace NewRows

variable {C C' R : NewRows d}

/-- Lists stay alike while alike entries move to their front. -/
theorem alike_carry (hL : L.Lawful) {before before' xs xs' : List d.Entry} {l l' : RecencyList}
    (hb : List.Forall₂ (HistoryRow.Alike L.entity L.entry L.change) before before')
    (hx : List.Forall₂ (HistoryRow.Alike L.entity L.entry L.change) xs xs')
    (hl : List.Forall₂ L.entry l.ids l'.ids) :
    List.Forall₂ L.entry (carry before xs l).ids (carry before' xs' l').ids := by
  induction hx generalizing before before' l l' with
  | nil => exact hl
  | @cons x x' xs xs' hx _ ih =>
    rw [carry, carry]
    refine ih (List.rel_append hb (.cons hx .nil)) ?_
    rw [hL.deletion hx.change]
    refine alike_moveToFront (KeepsOrder.biUnique hL.entry) ?_ hx.id _ hl
    have hlast := rel_lastWith (fun y y' hy => entryKey_eq_iff hL hy hx) hb
    generalize lastWith d.entryKey _ before = o at hlast
    generalize lastWith d.entryKey _ before' = o' at hlast
    cases hlast with
    | none => exact .none
    | some ho => exact .some ho.id

theorem Alike.rowsOf (hL : L.Lawful) (hC : C.Alike L C') {g g' : d.Group} (hg : g.Alike L g')
    {ids ids' : FirstIds} (hids : L.Numbers ids ids' (C.rowsOf ids g)) :
    (C.rowsOf ids g).Alike L (C'.rowsOf ids' g') := by
  obtain ⟨hentry, haggregate, hsingleton⟩ := hids
  simp only [NewRows.rowsOf, length_numbered] at hentry hsingleton
  have hentries := alike_numbered hg.key hg.entries hentry
  have hsingletons := alike_numbered (K := (· = ·)) hg.key
    (List.forall₂_eq_eq_eq ▸ hg.singletons) hsingleton
  have hlatest := hC.latest? hL hg.key.entity
  refine ⟨hentries, .cons ⟨?_, hg.key, ?_, ?_⟩ .nil, hsingletons⟩
  · exact (List.forall₂_cons.1 haggregate).1
  · refine alike_carry hL hC.entries hentries ?_
    generalize C.latest? _ = o at hlatest
    generalize C'.latest? _ = o' at hlatest
    cases hlatest with
    | none => exact .nil
    | some ha => exact ha.list
  · have hlast := rel_getLast? hsingletons
    show Option.Rel _ (((numbered ids.singleton g.1 g.2.singletons).getLast?.map (·.id)).or _)
      (((numbered ids'.singleton g'.1 g'.2.singletons).getLast?.map (·.id)).or _)
    generalize (numbered ids.singleton g.1 g.2.singletons).getLast? = o at hlast
    generalize (numbered ids'.singleton g'.1 g'.2.singletons).getLast? = o' at hlast
    generalize C.latest? _ = a at hlatest
    generalize C'.latest? _ = a' at hlatest
    cases hlast with
    | some hx => exact .some hx.id
    | none =>
      cases hlatest with
      | none => exact .none
      | some ha => exact ha.singleton

theorem Alike.fault?_eq (hL : L.Lawful) (hC : C.Alike L C') {g g' : d.Group} (hg : g.Alike L g') :
    C.fault? g = C'.fault? g' := by
  have hlatest := hC.latest? hL hg.key.entity
  rw [NewRows.fault?, NewRows.fault?, hg.singletons, hg.key.stateVersion]
  generalize C.latest? _ = a at hlatest
  generalize C'.latest? _ = a' at hlatest
  cases hlatest with
  | none => rfl
  | @some a b hab =>
    have hv : a.stateVersion = b.stateVersion := hab.key.stateVersion
    have hs : a.singleton.isNone = b.singleton.isNone := by
      rcases a with ⟨_, _, _, _, _ | _⟩ <;> rcases b with ⟨_, _, _, _, _ | _⟩ <;>
        first | rfl | cases hab.singleton
    simp only [Option.any_some, Option.bind_some, hv, hs]

/-- Groups that are alike add alike rows to alike chronicles. -/
theorem Alike.rowsAfter (hL : L.Lawful) (hC : C.Alike L C') {gs gs' : List d.Group}
    (hgs : List.Forall₂ (ListDomain.Group.Alike L) gs gs') {ids ids' : FirstIds}
    (hids : L.Numbers ids ids' R) (hR : C.rowsAfter ids gs = .ok R) :
    ∃ R', C'.rowsAfter ids' gs' = .ok R' ∧ R.Alike L R' := by
  induction hgs generalizing C C' ids ids' R with
  | nil =>
    cases hR
    exact ⟨{}, rfl, alike_empty⟩
  | @cons g g' gs gs' hg _ ih =>
    obtain ⟨hfault, S, hS, rfl⟩ := rowsAfter_cons_eq_ok.1 hR
    have hnew := hC.rowsOf hL hg hids.left
    obtain ⟨S', hS', halike⟩ := ih (hC.append hnew) (hids.right hnew) hS
    refine ⟨_, rowsAfter_cons_eq_ok.2 ⟨?_, S', hS', rfl⟩, hnew.append halike⟩
    rw [← hC.fault?_eq hL hg]
    exact hfault

end NewRows

end LedgerHistory
