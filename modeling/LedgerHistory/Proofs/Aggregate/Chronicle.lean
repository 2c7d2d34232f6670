import LedgerHistory.Proofs.Aggregate.Live
import LedgerHistory.Proofs.Outcome

/-!
# Chronicles

The rows of a domain are its chronicle. A group of changes adds rows to it (`NewRows.rowsOf`) or is
at fault (`NewRows.fault?`), and groups do so one after another (`NewRows.rowsAfter`). What a pass
makes of its groups is told here without counters and places.
-/

namespace LedgerHistory

variable {d : ListDomain}

/-- A group of changes under its key. -/
abbrev ListDomain.Group (d : ListDomain) := GroupKey × ChangeGroup d.Change d.Singleton

/-- The entity and the state version of a row. -/
def HistoryRow.groupKey {χ : Type} (r : HistoryRow χ) : GroupKey := ⟨r.entity, r.stateVersion⟩

/-- The entity and the state version of an aggregate. -/
def Aggregate.groupKey (a : Aggregate) : GroupKey := ⟨a.entity, a.stateVersion⟩

/-! ## Rows with consecutive ids -/

/-- Consecutive ids. -/
def idsFrom (first : Int64) : Nat → List Int64
  | 0 => []
  | n + 1 => first :: idsFrom (first + 1) n

@[simp] theorem length_idsFrom (first : Int64) (n : Nat) : (idsFrom first n).length = n := by
  induction n generalizing first with
  | zero => rfl
  | succ n ih => rw [idsFrom, List.length_cons, ih]

theorem idsFrom_append (first : Int64) (m n : Nat) :
    idsFrom first (m + n) = idsFrom first m ++ idsFrom (first + Int64.ofNat m) n := by
  induction m generalizing first with
  | zero => simp [idsFrom]
  | succ m ih =>
    have hfirst : first + Int64.ofNat (m + 1) = first + 1 + Int64.ofNat m := by
      rw [Int64.ofNat_add, Int64.add_comm (Int64.ofNat m), ← Int64.add_assoc]
      rfl
    rw [Nat.add_right_comm, idsFrom, idsFrom, ih, hfirst, List.cons_append]

/-- Rows of changes, each under its key, with consecutive ids. -/
def enumerated {χ : Type} (first : Int64) : List (GroupKey × χ) → List (HistoryRow χ)
  | [] => []
  | y :: ys => ⟨first, y.1.stateVersion, y.1.entity, y.2⟩ :: enumerated (first + 1) ys

/-- Rows of changes of one group, with consecutive ids. -/
def numbered {χ : Type} (first : Int64) (key : GroupKey) (cs : List χ) : List (HistoryRow χ) :=
  enumerated first (cs.map (key, ·))

section Enumerated

variable {χ : Type} {first : Int64} {key : GroupKey}

@[simp] theorem length_enumerated (first : Int64) (ys : List (GroupKey × χ)) :
    (enumerated first ys).length = ys.length := by
  induction ys generalizing first with
  | nil => rfl
  | cons y ys ih => exact congrArg (· + 1) (ih (first + 1))

theorem map_id_enumerated (first : Int64) (ys : List (GroupKey × χ)) :
    (enumerated first ys).map (·.id) = idsFrom first ys.length := by
  induction ys generalizing first with
  | nil => rfl
  | cons y ys ih => exact congrArg (first :: ·) (ih (first + 1))

/-- The rows are the changes under their keys. -/
theorem map_enumerated (first : Int64) (ys : List (GroupKey × χ)) :
    (enumerated first ys).map (fun x => (x.groupKey, x.change)) = ys := by
  induction ys generalizing first with
  | nil => rfl
  | cons y ys ih => exact congrArg (y :: ·) (ih (first + 1))

@[simp] theorem length_numbered (first : Int64) (key : GroupKey) (cs : List χ) :
    (numbered first key cs).length = cs.length := by
  simp [numbered]

theorem numbered_nil (first : Int64) (key : GroupKey) : numbered first key ([] : List χ) = [] := rfl

theorem numbered_cons (first : Int64) (key : GroupKey) (c : χ) (cs : List χ) :
    numbered first key (c :: cs)
      = ⟨first, key.stateVersion, key.entity, c⟩ :: numbered (first + 1) key cs := rfl

theorem map_numbered (first : Int64) (key : GroupKey) (cs : List χ) :
    (numbered first key cs).map (fun x => (x.groupKey, x.change)) = cs.map (key, ·) :=
  map_enumerated first _

theorem groupKey_of_mem_numbered {cs : List χ} {x : HistoryRow χ} (h : x ∈ numbered first key cs) :
    x.groupKey = key := by
  have hm := List.mem_map_of_mem (f := fun x => (x.groupKey, x.change)) h
  rw [map_numbered] at hm
  obtain ⟨c, _, he⟩ := List.mem_map.1 hm
  exact (Prod.mk.inj he).1.symm

theorem isNone_last (first : Int64) (key : GroupKey) (cs : List χ) :
    ((numbered first key cs).getLast?.map (·.id)).isNone = cs.isEmpty := by
  cases cs with
  | nil => rfl
  | cons c cs => simp [numbered_cons, List.getLast?_cons]

end Enumerated

/-! ## Rows of groups -/

namespace NewRows

/-- The rows of two chronicles, one behind the other. -/
def append (C R : NewRows d) : NewRows d :=
  ⟨C.entries ++ R.entries, C.aggregates ++ R.aggregates, C.singletons ++ R.singletons⟩

instance : Append (NewRows d) := ⟨append⟩

variable (C R R' : NewRows d)

@[simp] theorem entries_append : (C ++ R).entries = C.entries ++ R.entries := rfl

@[simp] theorem aggregates_append : (C ++ R).aggregates = C.aggregates ++ R.aggregates := rfl

@[simp] theorem singletons_append : (C ++ R).singletons = C.singletons ++ R.singletons := rfl

theorem append_assoc : C ++ R ++ R' = C ++ (R ++ R') := by
  show NewRows.mk _ _ _ = NewRows.mk _ _ _
  simp

@[simp] theorem append_empty : C ++ ({} : NewRows d) = C := by
  show NewRows.mk _ _ _ = _
  simp

@[simp] theorem empty_append : ({} : NewRows d) ++ C = C := rfl

end NewRows

/-- The first ids of new rows. -/
structure FirstIds where
  entry : Int64
  aggregate : Int64
  singleton : Int64

/-- The first ids behind those of rows. -/
def FirstIds.after (ids : FirstIds) (R : NewRows d) : FirstIds :=
  ⟨ids.entry + Int64.ofNat R.entries.length, ids.aggregate + Int64.ofNat R.aggregates.length,
    ids.singleton + Int64.ofNat R.singletons.length⟩

@[simp] theorem FirstIds.after_empty (ids : FirstIds) : ids.after ({} : NewRows d) = ids := by
  obtain ⟨e, a, s⟩ := ids
  simp [after]

theorem FirstIds.after_append (ids : FirstIds) (R R' : NewRows d) :
    ids.after (R ++ R') = (ids.after R).after R' := by
  simp [after, Int64.ofNat_add, Int64.add_assoc]

namespace NewRows

/-- The list of an entity after its entries moved to the front, one after another. -/
def carry (before : List d.Entry) : List d.Entry → RecencyList → RecencyList
  | [], l => l
  | x :: xs, l => carry (before ++ [x]) xs
      (Pass.moveToFront ((lastWith d.entryKey (d.entryKey x) before).map (·.id))
        (d.isDeletion x.change) x.id l)

/-- The most recent aggregate of an entity. -/
def latest? (C : NewRows d) (entity : EntityId) : Option Aggregate :=
  lastWith (·.entity) entity C.aggregates

/-- The rows that a group adds to a chronicle. -/
def rowsOf (C : NewRows d) (ids : FirstIds) (g : d.Group) : NewRows d where
  entries := numbered ids.entry g.1 g.2.entries
  aggregates := [⟨ids.aggregate, g.1.stateVersion, g.1.entity,
    carry C.entries (numbered ids.entry g.1 g.2.entries)
      (((C.latest? g.1.entity).map (·.list)).getD {}),
    ((numbered ids.singleton g.1 g.2.singletons).getLast?.map (·.id)).or
      ((C.latest? g.1.entity).bind (·.singleton))⟩]
  singletons := numbered ids.singleton g.1 g.2.singletons

/-- What is wrong with a group. -/
def fault? (C : NewRows d) (g : d.Group) : Option Violation :=
  if !g.2.singletons.isEmpty && d.singletonTable.isNone then some .noSingletonTable
  else if (C.latest? g.1.entity).any (·.stateVersion = g.1.stateVersion) then some .alreadyPersisted
  else if d.aggregateSchema.singletonColumn.isSome && g.2.singletons.isEmpty
      && ((C.latest? g.1.entity).bind (·.singleton)).isNone then some .noSingleton
  else none

/-- The rows that groups add to a chronicle, up to the first that is at fault. -/
def rowsAfter (C : NewRows d) (ids : FirstIds) : List d.Group → Except InvocationError (NewRows d)
  | [] => .ok {}
  | g :: gs =>
    match C.fault? g with
    | some v => .error (.invariantViolation d.name g.1.entity g.1.stateVersion v)
    | none => (rowsAfter (C ++ C.rowsOf ids g) (ids.after (C.rowsOf ids g)) gs).map
        (C.rowsOf ids g ++ ·)

variable {C : NewRows d} {ids : FirstIds}

theorem rowsAfter_cons_eq_ok {g : d.Group} {gs : List d.Group} {R : NewRows d} :
    C.rowsAfter ids (g :: gs) = .ok R ↔ C.fault? g = none
      ∧ ∃ R', (C ++ C.rowsOf ids g).rowsAfter (ids.after (C.rowsOf ids g)) gs = .ok R'
        ∧ R = C.rowsOf ids g ++ R' := by
  rw [rowsAfter]
  rcases C.fault? g with _ | v
  · simp only [map_eq_ok, true_and]
    exact exists_congr fun R' => and_congr_right fun _ => eq_comm
  · simp

theorem rowsAfter_append_eq_ok {gs hs : List d.Group} {R : NewRows d} :
    C.rowsAfter ids (gs ++ hs) = .ok R ↔ ∃ R₁ R₂, C.rowsAfter ids gs = .ok R₁
      ∧ (C ++ R₁).rowsAfter (ids.after R₁) hs = .ok R₂ ∧ R = R₁ ++ R₂ := by
  induction gs generalizing C ids R with
  | nil =>
    constructor
    · exact fun h => ⟨{}, R, rfl, by simpa using h, rfl⟩
    · rintro ⟨_, R₂, ⟨⟩, h, rfl⟩
      simpa using h
  | cons g gs ih =>
    rw [List.cons_append, rowsAfter_cons_eq_ok]
    constructor
    · rintro ⟨hg, R', h, rfl⟩
      obtain ⟨R₁, R₂, h₁, h₂, rfl⟩ := ih.1 h
      refine ⟨_, R₂, rowsAfter_cons_eq_ok.2 ⟨hg, R₁, h₁, rfl⟩, ?_, (append_assoc ..).symm⟩
      rwa [← append_assoc, FirstIds.after_append]
    · rintro ⟨_, R₂, h₁, h₂, rfl⟩
      obtain ⟨hg, R₁, hR, rfl⟩ := rowsAfter_cons_eq_ok.1 h₁
      refine ⟨hg, R₁ ++ R₂, ih.2 ⟨R₁, R₂, hR, ?_, rfl⟩, append_assoc ..⟩
      rwa [append_assoc, ← FirstIds.after_append]

/-- Groups are at fault in no other way than by an invariant. -/
theorem rowsAfter_eq_error {gs : List d.Group} {e : InvocationError}
    (h : C.rowsAfter ids gs = .error e) :
    ∃ g ∈ gs, ∃ v, e = .invariantViolation d.name g.1.entity g.1.stateVersion v := by
  induction gs generalizing C ids with
  | nil => cases h
  | cons g gs ih =>
    rw [rowsAfter] at h
    rcases hf : C.fault? g with _ | v
    · rw [hf] at h
      rcases hr : (C ++ C.rowsOf ids g).rowsAfter (ids.after (C.rowsOf ids g)) gs with e' | R
      · simp only [hr, Except.map, Except.error.injEq] at h
        subst h
        obtain ⟨g', hg, he⟩ := ih hr
        exact ⟨g', List.mem_cons_of_mem g hg, he⟩
      · simp [hr, Except.map] at h
    · rw [hf] at h
      cases h
      exact ⟨g, List.mem_cons_self, v, rfl⟩

/-! ## What rows tell -/

/-- The changes of entries of groups, each under its group's key. -/
def entriesOf (gs : List d.Group) : List (GroupKey × d.Change) :=
  gs.flatMap fun g => g.2.entries.map (g.1, ·)

/-- The singletons of groups, each under its group's key. -/
def singletonsOf (gs : List d.Group) : List (GroupKey × d.Singleton) :=
  gs.flatMap fun g => g.2.singletons.map (g.1, ·)

/-- Whether rows have the changes of groups, one aggregate for each. -/
structure Tells (R : NewRows d) (gs : List d.Group) : Prop where
  entries : R.entries.map (fun x => (x.groupKey, x.change)) = entriesOf gs
  aggregates : R.aggregates.map Aggregate.groupKey = gs.map (·.1)
  singletons : R.singletons.map (fun x => (x.groupKey, x.change)) = singletonsOf gs

theorem tells_nil : ({} : NewRows d).Tells [] := ⟨rfl, rfl, rfl⟩

theorem Tells.append {R R' : NewRows d} {gs gs' : List d.Group} (h : R.Tells gs) (h' : R'.Tells gs') :
    (R ++ R').Tells (gs ++ gs') where
  entries := by
    rw [entries_append, List.map_append, h.entries, h'.entries, entriesOf, entriesOf, entriesOf,
      List.flatMap_append]
  aggregates := by rw [aggregates_append, List.map_append, h.aggregates, h'.aggregates, List.map_append]
  singletons := by
    rw [singletons_append, List.map_append, h.singletons, h'.singletons, singletonsOf, singletonsOf,
      singletonsOf, List.flatMap_append]

theorem tells_rowsOf (C : NewRows d) (ids : FirstIds) (g : d.Group) : (C.rowsOf ids g).Tells [g] where
  entries := by
    rw [rowsOf, map_numbered, entriesOf, List.flatMap_singleton]
  aggregates := rfl
  singletons := by
    rw [rowsOf, map_numbered, singletonsOf, List.flatMap_singleton]

/-- The ids of rows are consecutive, table by table. -/
theorem ids_rowsAfter {gs : List d.Group} {R : NewRows d} (h : C.rowsAfter ids gs = .ok R) :
    R.entries.map (·.id) = idsFrom ids.entry R.entries.length
      ∧ R.aggregates.map (·.id) = idsFrom ids.aggregate R.aggregates.length
      ∧ R.singletons.map (·.id) = idsFrom ids.singleton R.singletons.length := by
  induction gs generalizing C ids R with
  | nil =>
    cases h
    exact ⟨rfl, rfl, rfl⟩
  | cons g gs ih =>
    obtain ⟨_, R', h', rfl⟩ := rowsAfter_cons_eq_ok.1 h
    obtain ⟨he, ha, hs⟩ := ih h'
    have hnumbered : ∀ {χ : Type} (first : Int64) (cs : List χ), (numbered first g.1 cs).map (·.id)
        = idsFrom first (numbered first g.1 cs).length := by
      intro χ first cs
      rw [numbered, map_id_enumerated, length_enumerated]
    refine ⟨?_, ?_, ?_⟩
    · rw [entries_append, List.map_append, List.length_append, idsFrom_append, he]
      exact congrArg (· ++ _) (hnumbered ..)
    · rw [aggregates_append, List.map_append, List.length_append, idsFrom_append, ha]
      rfl
    · rw [singletons_append, List.map_append, List.length_append, idsFrom_append, hs]
      exact congrArg (· ++ _) (hnumbered ..)

theorem tells_rowsAfter {gs : List d.Group} {R : NewRows d} (h : C.rowsAfter ids gs = .ok R) :
    R.Tells gs := by
  induction gs generalizing C ids R with
  | nil =>
    cases h
    exact tells_nil
  | cons g gs ih =>
    obtain ⟨_, R', h', rfl⟩ := rowsAfter_cons_eq_ok.1 h
    exact (tells_rowsOf C ids g).append (ih h')

end NewRows

end LedgerHistory
