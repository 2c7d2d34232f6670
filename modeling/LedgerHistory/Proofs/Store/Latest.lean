import Mathlib.Data.List.Induction
import Mathlib.Data.List.Pairwise
import LedgerHistory.Proofs.Invocation.Grouping
import LedgerHistory.Proofs.Outcome
import LedgerHistory.Proofs.Script.Calm

/-!
# The most recent rows

Whatever order the rows of a table stand in, the most recent row of a key is the last one once they
are ranked by version and id (`LatestQuery.Layout.best_eq`). So loading the values of keys finds for
each the last one of this ranking up to the bound (`LatestLookup.calm_load`).
-/

namespace LedgerHistory

variable {κ α : Type}

/-- Values with the state versions and ids of their rows. -/
structure Versioned (α : Type) where
  version : α → Int64
  id : α → Int64

/-- Whether values stand in the order of their versions, with increasing ids. -/
def Versioned.Ordered (m : Versioned α) (xs : List α) : Prop :=
  xs.Pairwise fun x y => m.version x ≤ m.version y ∧ m.id x < m.id y

theorem Versioned.Ordered.increasing {m : Versioned α} {xs : List α} (h : m.Ordered xs) :
    (xs.map m.id).Pairwise (· < ·) := List.pairwise_map.2 (h.imp And.right)

/-- Whether a value is less recent than another: of an older version, or of the same one with a
smaller id. -/
def Versioned.Older (m : Versioned α) (x y : α) : Prop :=
  m.version x < m.version y ∨ m.version x = m.version y ∧ m.id x < m.id y

theorem Versioned.Older.trans {m : Versioned α} {x y z : α} (h : m.Older x y) (h' : m.Older y z) :
    m.Older x z := by
  simp only [Older, Int64.lt_iff_toInt_lt, ← Int64.toInt_inj] at *
  omega

theorem Versioned.Older.asymm {m : Versioned α} {x y : α} (h : m.Older x y) : ¬m.Older y x := by
  simp only [Older, Int64.lt_iff_toInt_lt, ← Int64.toInt_inj] at *
  omega

theorem Versioned.older_of_le {m : Versioned α} {x y : α} (hv : m.version x ≤ m.version y)
    (hid : m.id x < m.id y) : m.Older x y := by
  simp only [Older, Int64.lt_iff_toInt_lt, Int64.le_iff_toInt_le, ← Int64.toInt_inj] at *
  omega

/-- Whether values are those of a list, the most recent one last. -/
structure Versioned.Ranks (m : Versioned α) (xs ranked : List α) : Prop where
  perm : ranked.Perm xs
  sorted : ranked.Pairwise m.Older

theorem Versioned.Ordered.ranks {m : Versioned α} {xs : List α} (h : m.Ordered xs) :
    m.Ranks xs xs := ⟨.refl _, h.imp fun hxy => older_of_le hxy.1 hxy.2⟩

theorem Versioned.Ranks.total {m : Versioned α} {xs ranked : List α} (h : m.Ranks xs ranked)
    {x y : α} (hx : x ∈ xs) (hy : y ∈ xs) : x = y ∨ m.Older x y ∨ m.Older y x := by
  by_cases hxy : x = y
  · exact .inl hxy
  · have hsymm : Std.Symm fun a b => m.Older a b ∨ m.Older b a := ⟨fun _ _ => Or.symm⟩
    have hpairs : ranked.Pairwise fun a b => m.Older a b ∨ m.Older b a := h.sorted.imp Or.inl
    exact .inr (hpairs.forall (h.perm.mem_iff.2 hx) (h.perm.mem_iff.2 hy) hxy)

/-- Values with distinct ids can be ranked. -/
theorem Versioned.exists_ranks (m : Versioned α) {xs : List α} (h : (xs.map m.id).Nodup) :
    ∃ ranked, m.Ranks xs ranked := by
  classical
  let le : α → α → Bool := fun x y => !decide (m.Older y x)
  have hle : ∀ {x y}, le x y = true ↔ ¬m.Older y x := by simp [le]
  have hsorted : (xs.mergeSort le).Pairwise fun x y => le x y = true := by
    refine List.pairwise_mergeSort (fun x y z hxy hyz => ?_) (fun x y => ?_) xs
    · simp only [hle, Older, Int64.lt_iff_toInt_lt, ← Int64.toInt_inj] at *
      omega
    · rw [Bool.or_eq_true, hle, hle, ← not_and_or]
      exact fun hxy => hxy.1.asymm hxy.2
  have hperm := List.mergeSort_perm xs le
  have hdistinct := List.pairwise_map.1 ((hperm.map m.id).nodup_iff.2 h)
  refine ⟨_, hperm, (hsorted.and hdistinct).imp fun {x y} ⟨hxy, hne⟩ => ?_⟩
  rw [hle] at hxy
  simp only [Older, Int64.lt_iff_toInt_lt, ← Int64.toInt_inj, ne_eq] at *
  omega

/-- Whether a value is the one with a property that all others with it are older than; there is none
when no value has the property. -/
def Versioned.IsLatest (m : Versioned α) (xs : List α) (p : α → Prop) : Option α → Prop
  | none => ∀ x ∈ xs, ¬p x
  | some x => x ∈ xs ∧ p x ∧ ∀ y ∈ xs, p y → y = x ∨ m.Older y x

theorem Versioned.IsLatest.unique {m : Versioned α} {xs : List α} {p : α → Prop} :
    ∀ {r r' : Option α}, m.IsLatest xs p r → m.IsLatest xs p r' → r = r'
  | none, none, _, _ => rfl
  | none, some y, h, h' => absurd h'.2.1 (h y h'.1)
  | some x, none, h, h' => absurd h.2.1 (h' x h.1)
  | some x, some y, h, h' => by
    rcases h.2.2 y h'.1 h'.2.1 with rfl | hyx
    · rfl
    · rcases h'.2.2 x h.1 h.2.1 with rfl | hxy
      · rfl
      · exact absurd hxy hyx.asymm

theorem Versioned.IsLatest.concat_of_not {m : Versioned α} {xs : List α} {p : α → Prop}
    {r : Option α} {x : α} (h : m.IsLatest xs p r) (hx : ¬p x) : m.IsLatest (xs ++ [x]) p r := by
  rcases r with _ | y
  · intro z hz
    rcases List.mem_append.1 hz with hz | hz
    · exact h z hz
    · rwa [List.mem_singleton.1 hz]
  · refine ⟨List.mem_append_left _ h.1, h.2.1, fun z hz hp => ?_⟩
    rcases List.mem_append.1 hz with hz | hz
    · exact h.2.2 z hz hp
    · exact absurd (List.mem_singleton.1 hz ▸ hp) hx

theorem Versioned.IsLatest.concat_newer {m : Versioned α} {xs : List α} {p : α → Prop}
    {r : Option α} {x : α} (h : m.IsLatest xs p r) (hx : p x) (hnew : ∀ y, r = some y → m.Older y x) :
    m.IsLatest (xs ++ [x]) p (some x) := by
  refine ⟨List.mem_append_right _ List.mem_cons_self, hx, fun z hz hp => ?_⟩
  rcases List.mem_append.1 hz with hz | hz
  · rcases r with _ | y
    · exact absurd hp (h z hz)
    · rcases h.2.2 z hz hp with rfl | hzy
      · exact .inr (hnew z rfl)
      · exact .inr (hzy.trans (hnew y rfl))
  · exact .inl (List.mem_singleton.1 hz)

theorem Versioned.IsLatest.concat_older {m : Versioned α} {xs : List α} {p : α → Prop} {x y : α}
    (h : m.IsLatest xs p (some y)) (hxy : x = y ∨ m.Older x y) :
    m.IsLatest (xs ++ [x]) p (some y) := by
  refine ⟨List.mem_append_left _ h.1, h.2.1, fun z hz hp => ?_⟩
  rcases List.mem_append.1 hz with hz | hz
  · exact h.2.2 z hz hp
  · rwa [List.mem_singleton.1 hz]

/-- The last of ranked values is the latest one. -/
theorem Versioned.Ranks.isLatest {m : Versioned α} {xs ranked : List α} (h : m.Ranks xs ranked)
    (p : α → Bool) : m.IsLatest xs (p · = true) (ranked.filter p).getLast? := by
  rcases hl : (ranked.filter p).getLast? with _ | l
  · rw [List.getLast?_eq_none_iff, List.filter_eq_nil_iff] at hl
    exact fun x hx => hl x (h.perm.mem_iff.2 hx)
  · obtain ⟨ls, hls⟩ := List.getLast?_eq_some_iff.1 hl
    have hmem := List.mem_filter.1 (List.mem_of_getLast? hl)
    refine ⟨h.perm.mem_iff.1 hmem.1, hmem.2, fun y hy hp => ?_⟩
    have hym : y ∈ ranked.filter p := List.mem_filter.2 ⟨h.perm.mem_iff.2 hy, hp⟩
    have hsorted := h.sorted.filter p
    rw [hls] at hym hsorted
    rcases List.mem_append.1 hym with hym | hym
    · exact .inr ((List.pairwise_append.1 hsorted).2.2 y hym l List.mem_cons_self)
    · exact .inl (List.mem_singleton.1 hym)

theorem Versioned.Ranks.getLast?_filter {m : Versioned α} {xs ranked : List α}
    (h : m.Ranks xs ranked) {p : α → Bool} {y : α} (hy : y ∈ xs) (hp : p y = true)
    (hlast : ∀ z ∈ xs, p z = true → z = y ∨ m.Older z y) : (ranked.filter p).getLast? = some y :=
  (h.isLatest p).unique ⟨hy, hp, hlast⟩

theorem nodup_of_increasing {ids : List Int64} (h : ids.Pairwise (· < ·)) : ids.Nodup := by
  refine List.Pairwise.imp (fun {i j} hij he => ?_) h
  rw [he] at hij
  exact Int64.lt_irrefl hij

def within (bound : Option Int64) (version : Int64) : Bool := bound.all (version ≤ ·)

theorem any_lt_eq_not_within (bound : Option Int64) (version : Int64) :
    bound.any (· < version) = !within bound version := by
  cases bound with
  | none => rfl
  | some b =>
    simp only [Option.any_some, within, Option.all_some, ← decide_not, decide_eq_decide]
    rw [Int64.lt_iff_toInt_lt, Int64.le_iff_toInt_le]
    omega

namespace LatestQuery.Layout

/-- Whether a layout finds the version and id of the rows of values. -/
def Places (l : Layout) (m : Versioned α) (row : α → Row) (xs : List α) : Prop :=
  ∀ x ∈ xs, Row.at (row x) l.version = .int8 (m.version x) ∧ Row.at (row x) l.id = .int8 (m.id x)

/-- The values with a key up to a bound. -/
def matching (l : Layout) (m : Versioned α) (row : α → Row) (bound : Option Int64) (key : Row)
    (xs : List α) : List α :=
  xs.filter fun x => l.hasKey key (row x) && within bound (m.version x)

variable {l : Layout} {m : Versioned α} {row : α → Row} {xs : List α}

theorem improve_none {x : α} (h : l.Places m row [x]) (bound : Option Int64) (key : Row) :
    l.improve bound key none (row x)
      = .ok (if l.hasKey key (row x) && within bound (m.version x)
          then some ⟨row x, m.version x, m.id x⟩ else none) := by
  obtain ⟨hv, hi⟩ := h x List.mem_cons_self
  by_cases hk : l.hasKey key (row x) = true
  · by_cases hb : within bound (m.version x) = true
    · simp [improve, hk, hv, hi, ColumnValue.readInt64, any_lt_eq_not_within, hb, bind, Except.bind,
        pure, Except.pure]
    · simp [improve, hk, hv, ColumnValue.readInt64, any_lt_eq_not_within, hb, bind, Except.bind,
        pure, Except.pure]
  · simp [improve, hk, pure, Except.pure]

theorem isOlder_eq_true (m : Versioned α) (row : α → Row) (x y : α) :
    Candidate.isOlder ⟨row y, m.version y, m.id y⟩ (m.version x) (m.id x) = true ↔ m.Older y x := by
  simp [Candidate.isOlder, Versioned.Older]

open scoped Classical in
theorem improve_some {x y : α} (h : l.Places m row [x]) (bound : Option Int64) (key : Row) :
    l.improve bound key (some ⟨row y, m.version y, m.id y⟩) (row x)
      = .ok (if (l.hasKey key (row x) && within bound (m.version x)) = true ∧ m.Older y x
          then some ⟨row x, m.version x, m.id x⟩ else some ⟨row y, m.version y, m.id y⟩) := by
  obtain ⟨hrv, hri⟩ := h x List.mem_cons_self
  by_cases hk : l.hasKey key (row x) = true
  · by_cases hb : within bound (m.version x) = true
    · simp [improve, hk, hrv, hri, ColumnValue.readInt64, any_lt_eq_not_within, hb,
        isOlder_eq_true, bind, Except.bind, pure, Except.pure]
    · simp [improve, hk, hrv, ColumnValue.readInt64, any_lt_eq_not_within, hb, bind, Except.bind,
        pure, Except.pure]
  · simp [improve, hk, pure, Except.pure]

/-- Going through the rows ends with the most recent one of those with the key. -/
theorem foldlM_improve (hp : l.Places m row xs)
    (htotal : ∀ x ∈ xs, ∀ y ∈ xs, x = y ∨ m.Older x y ∨ m.Older y x) (bound : Option Int64)
    (key : Row) : ∃ best : Option α, (xs.map row).foldlM (l.improve bound key) none
        = .ok (best.map fun x => ⟨row x, m.version x, m.id x⟩)
      ∧ m.IsLatest xs (fun x => (l.hasKey key (row x) && within bound (m.version x)) = true) best := by
  induction xs using List.reverseRecOn with
  | nil => exact ⟨none, rfl, fun x hx => absurd hx List.not_mem_nil⟩
  | append_singleton xs x ih =>
    have hx : l.Places m row [x] := fun y hy => hp y (List.mem_append_right xs hy)
    obtain ⟨best, hfold, hbest⟩ := ih (fun y hy => hp y (List.mem_append_left [x] hy))
      fun y hy z hz => htotal y (List.mem_append_left [x] hy) z (List.mem_append_left [x] hz)
    rw [List.map_append, List.foldlM_append, hfold]
    simp only [List.map_singleton, List.foldlM_cons, List.foldlM_nil, bind, Except.bind]
    by_cases hb : (l.hasKey key (row x) && within bound (m.version x)) = true
    swap
    · refine ⟨best, ?_, hbest.concat_of_not hb⟩
      rcases best with _ | y
      · simp [improve_none hx, hb, pure, Except.pure]
      · simp [improve_some hx, hb, pure, Except.pure]
    rcases best with _ | y
    · refine ⟨some x, ?_, hbest.concat_newer hb fun y hy => absurd hy (Option.some_ne_none y).symm⟩
      rw [Option.map_none, improve_none hx, if_pos hb]
      rfl
    · by_cases hold : m.Older y x
      · refine ⟨some x, ?_, hbest.concat_newer hb fun z hz => ?_⟩
        · rw [Option.map_some, improve_some hx, if_pos ⟨hb, hold⟩]
          rfl
        · rwa [← Option.some.inj hz]
      · have hyx := htotal x (List.mem_append_right xs List.mem_cons_self) y
          (List.mem_append_left [x] hbest.1)
        refine ⟨some y, ?_, hbest.concat_older (hyx.imp_right fun h => h.resolve_right hold)⟩
        rw [Option.map_some, improve_some hx, if_neg fun h => hold h.2]
        rfl

theorem best_eq {ranked : List α} (hp : l.Places m row xs) (hr : m.Ranks xs ranked)
    (bound : Option Int64) (key : Row) :
    l.best bound key (xs.map row) = .ok ((l.matching m row bound key ranked).getLast?.map row) := by
  obtain ⟨best, hfold, hbest⟩ := foldlM_improve hp (fun x hx y hy => hr.total hx hy) bound key
  rw [LatestQuery.Layout.best, hfold, matching, (hr.isLatest _).unique hbest]
  rcases best with _ | y <;> rfl

end LatestQuery.Layout

section Queries

variable {q : LatestQuery} {l : LatestQuery.Layout} {cs : List ColumnType} {m : Versioned α}
  {row : α → Row} {xs ranked : List α} (hv : q.validate = .ok cs) (hl : q.layout = .ok l)
  (hp : l.Places m row xs) (hr : m.Ranks xs ranked)

include hv hl hp hr

/-- A valid query finds for each key the most recent row, if there is one. -/
theorem LatestQuery.evaluate_eq : q.evaluate (xs.map row)
    = .ok ((q.keys.filterMap fun key => (l.matching m row q.bound key ranked).getLast?).map row) := by
  have hm : q.keys.mapM (fun key => l.best q.bound key (xs.map row))
      = .ok (q.keys.map fun key => (l.matching m row q.bound key ranked).getLast?.map row) := by
    rw [mapM_eq_ok, List.forall₂_map_right_iff, List.forall₂_same]
    exact fun key _ => Layout.best_eq hp hr q.bound key
  simp only [evaluate, hv, hl, hm, bind, Except.bind, pure, Except.pure, Except.ok.injEq]
  rw [List.filterMap_map, List.map_filterMap]
  rfl

theorem Snapshot.latest_eq {s : Snapshot} (hs : s.rows q.table.name = xs.map row) : s.latest q
    = .ok ((q.keys.filterMap fun key => (l.matching m row q.bound key ranked).getLast?).map row) := by
  unfold latest
  rcases ht : s.tables.get? q.table.name with _ | stored
  · have hnil : xs = [] := by
      rw [Snapshot.rows, Snapshot.table, Dictionary.getD, ht] at hs
      exact List.map_eq_nil_iff.1 hs.symm
    have hperm := hr.perm
    rw [hnil] at hperm
    have hnone : (q.keys.filterMap fun key => (l.matching m row q.bound key ranked).getLast?) = [] := by
      rw [hperm.eq_nil]
      exact List.filterMap_eq_nil_iff.2 fun _ _ => rfl
    simp only [hv, hnone]
    rfl
  · have hrows : stored.rows = xs.map row := by
      rw [← hs, Snapshot.rows, Snapshot.table, Dictionary.getD, ht]
      rfl
    simp only [hrows]
    exact LatestQuery.evaluate_eq hv hl hp hr

end Queries

/-! ## Look-ups -/

namespace LatestLookup

/-- What a look-up needs of a table whose rows hold values: it asks well, and it finds and reads the
rows. -/
structure Reads (l : LatestLookup κ α) (m : Versioned α) (row : α → Row) (key : α → κ)
    (xs : List α) : Prop where
  valid (keys : List κ) (bound : Option Int64) : ∃ cs, (l.query keys bound).validate = .ok cs
  layout : ∃ layout : LatestQuery.Layout, (∀ keys bound, (l.query keys bound).layout = .ok layout)
    ∧ layout.Places m row xs
    ∧ ∀ x ∈ xs, ∀ k, layout.hasKey (l.keyValues k) (row x) = true ↔ key x = k
  decode (x : α) (h : x ∈ xs) : l.decode (row x) = .ok (key x, x)

variable [DecidableEq κ] {l : LatestLookup κ α} {m : Versioned α} {row : α → Row} {key : α → κ}
  {xs ranked : List α}

/-- The last value with a key up to a bound. -/
def lastOf (m : Versioned α) (key : α → κ) (bound : Option Int64) (xs : List α) (k : κ) : Option α :=
  (xs.filter fun x => key x = k && within bound (m.version x)).getLast?

theorem latest_eq (h : l.Reads m row key xs) (hr : m.Ranks xs ranked) {s : Snapshot}
    (hs : s.rows l.table.name = xs.map row) (keys : List κ) (bound : Option Int64) :
    s.latest (l.query keys bound) = .ok ((keys.filterMap (lastOf m key bound ranked)).map row) := by
  obtain ⟨cs, hcs⟩ := h.valid keys bound
  obtain ⟨layout, hl, hp, hkey⟩ := h.layout
  rw [Snapshot.latest_eq hcs (hl keys bound) hp hr hs]
  show Except.ok (((keys.map l.keyValues).filterMap _).map row) = _
  rw [List.filterMap_map]
  congr 3
  funext k
  rw [Function.comp_apply, lastOf, LatestQuery.Layout.matching]
  congr 1
  refine List.filter_congr fun x hx => ?_
  rw [Bool.eq_iff_iff, Bool.and_eq_true, Bool.and_eq_true, hkey x (hr.perm.mem_iff.1 hx),
    decide_eq_true_eq]
  rfl

/-- The values found: for each key once, in order, the last one up to the bound. -/
def found (m : Versioned α) (key : α → κ) (xs : List α) (keys : List κ) (bound : Option Int64) :
    List α :=
  (distinctKeys keys).filterMap (lastOf m key bound xs)

theorem key_of_lastOf {bound : Option Int64} {k : κ} {x : α} (h : lastOf m key bound xs k = some x) :
    key x = k ∧ x ∈ xs := by
  have hm := List.mem_filter.1 (List.mem_of_getLast? h)
  simp only [Bool.and_eq_true, decide_eq_true_eq] at hm
  exact ⟨hm.2.1, hm.1⟩

theorem calm_load (h : l.Reads m row key xs) (hr : m.Ranks xs ranked) {w : World}
    (hs : w.working.rows l.table.name = xs.map row) (keys : List κ) (bound : Option Int64) :
    (l.load keys bound).run.calm w
      = (.ok (.ofList ((found m key ranked keys bound).map fun x => (key x, x))), w) := by
  unfold load found
  split
  · rename_i hnil
    rw [hnil]
    rfl
  · generalize distinctKeys keys = ks
    have hdec : ((ks.filterMap (lastOf m key bound ranked)).map row).mapM l.decode
        = .ok ((ks.filterMap (lastOf m key bound ranked)).map fun x => (key x, x)) := by
      rw [mapM_eq_ok, List.forall₂_map_left_iff, List.forall₂_map_right_iff, List.forall₂_same]
      intro x hx
      obtain ⟨k, _, hk⟩ := List.mem_filterMap.1 hx
      exact h.decode x (hr.perm.mem_iff.1 (key_of_lastOf hk).2)
    have hcall : (Action.request .loadPriorState (.latest (l.query ks bound))).run.calm w
        = (.ok ((ks.filterMap (lastOf m key bound ranked)).map row), w) := by
      rw [Action.calm_request, World.serve_latest, latest_eq h hr hs]
      rfl
    rw [Action.calm_bind_of_ok hcall, hdec]
    rfl

end LatestLookup

end LedgerHistory
