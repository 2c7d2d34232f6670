import LedgerHistory.Proofs.Aggregate.Chronicle
import LedgerHistory.Proofs.Aggregate.Steps

/-!
# Moves of a pass

Whatever its prior state and its counters are, a pass makes four kinds of moves for its groups
(`Pass.Moves`): a new singleton, a new aggregate, another singleton of an aggregate it made, and a new
entry. So a property that each of them keeps holds at the end of every pass
(`Pass.keeps_recordGroups`), among them that its rows are of the changes of its groups (`Pass.run_all`).
-/

namespace LedgerHistory

variable {d : ListDomain}

def Aggregate.withList (a : Aggregate) (l : RecencyList) : Aggregate := { a with list := l }

namespace Pass

open PassStep

/-! ## Moves -/

def withSingleton (p : Pass d) (a : Allocator) (x : d.SingletonRow) : Pass d :=
  ⟨p.prior, a, { p.rows with singletons := p.rows.singletons ++ [x] }⟩

/-- A pass with one more aggregate, the most recent one of its entity. -/
def withAggregate (p : Pass d) (a : Allocator) (x : Aggregate) : Pass d :=
  ⟨{ p.prior with aggregates := p.prior.aggregates.insert x.entity (.pending p.rows.aggregates.length) },
    a, { p.rows with aggregates := p.rows.aggregates ++ [x] }⟩

/-- A pass with another singleton in one of its aggregates. -/
def withLink (p : Pass d) (place : Nat) (singleton : Option Int64) : Pass d :=
  { p with rows := { p.rows with
    aggregates := p.rows.aggregates.modify place ({ · with singleton }) } }

/-- A pass with one more entry, moved to the front of the list of one of its aggregates. -/
def withEntry (p : Pass d) (a : Allocator) (place : Nat) (x : d.Entry) : Pass d :=
  ⟨p.prior.putEntry x, a, ⟨p.rows.entries ++ [x],
    p.rows.aggregates.modify place fun b => b.withList
      (moveToFront ((p.prior.entry? (d.entryKey x)).map (·.id)) (d.isDeletion x.change) x.id b.list),
    p.rows.singletons⟩⟩

variable {p : Pass d} {t : Table} {id : Int64} {a : Allocator} {e : InvocationError}
  {key : GroupKey}

theorem exec_issue_of_ok (h : p.allocator.next t = .ok (id, a)) :
    (issue t).exec p = (.ok id, { p with allocator := a }) := by
  unfold issue
  rw [exec_bind_of_ok (exec_get p), h]
  rfl

theorem exec_issue_of_error (h : p.allocator.next t = .error e) :
    (issue t : PassStep d Int64).exec p = (.error e, p) := by
  unfold issue
  rw [exec_bind_of_ok (exec_get p), h]
  rfl

/-- The next singleton of a group is made, and then the others. -/
theorem exec_recordSingletons_cons {t : SingletonTable d.Singleton}
    (h : p.allocator.next t.table = .ok (id, a)) (last : Option Int64) (value : d.Singleton)
    (rest : List d.Singleton) :
    (recordSingletons key t last (value :: rest)).exec p = (recordSingletons key t (some id) rest).exec
      (p.withSingleton a ⟨id, key.stateVersion, key.entity, value⟩) := by
  rw [recordSingletons, exec_bind_of_ok (exec_issue_of_ok h)]
  exact exec_bind_of_ok (exec_modify ..)

theorem exec_recordSingletons_of_error {t : SingletonTable d.Singleton}
    (h : p.allocator.next t.table = .error e) (last : Option Int64) (value : d.Singleton)
    (rest : List d.Singleton) :
    (recordSingletons key t last (value :: rest)).exec p = (.error e, p) := by
  rw [recordSingletons, exec_bind_of_error (exec_issue_of_error h)]

/-- Whether an aggregate of a domain lacks the singleton that it needs. -/
def lacksSingleton (d : ListDomain) (singleton : Option Int64) (previous : Option Aggregate) : Bool :=
  d.aggregateSchema.singletonColumn.isSome && (singleton.or (previous.bind (·.singleton))).isNone

theorem exec_openAggregate_of_lacks {singleton : Option Int64} {previous : Option Aggregate}
    (h : lacksSingleton d singleton previous = true) (key : GroupKey) (p : Pass d) :
    (openAggregate key singleton previous).exec p
      = (.error (.invariantViolation d.name key.entity key.stateVersion .noSingleton), p) := by
  unfold lacksSingleton at h
  unfold openAggregate
  simp only [h, if_true]
  rfl

/-- The aggregate that carries on another one. -/
def carriedOn (key : GroupKey) (singleton : Option Int64) (previous : Option Aggregate) (id : Int64) :
    Aggregate :=
  ⟨id, key.stateVersion, key.entity, (previous.map (·.list)).getD {},
    singleton.or (previous.bind (·.singleton))⟩

theorem exec_openAggregate_of_ok {singleton : Option Int64} {previous : Option Aggregate}
    (h : lacksSingleton d singleton previous = false)
    (ha : p.allocator.next d.aggregateSchema.table = .ok (id, a)) :
    (openAggregate key singleton previous).exec p
      = (.ok p.rows.aggregates.length, p.withAggregate a (carriedOn key singleton previous id)) := by
  unfold lacksSingleton at h
  unfold openAggregate
  simp only [h]
  exact exec_bind_of_ok (exec_issue_of_ok ha)

theorem exec_openAggregate_of_error {singleton : Option Int64} {previous : Option Aggregate}
    (h : lacksSingleton d singleton previous = false)
    (ha : p.allocator.next d.aggregateSchema.table = .error e) :
    (openAggregate key singleton previous).exec p = (.error e, p) := by
  unfold lacksSingleton at h
  unfold openAggregate
  simp only [h]
  exact exec_bind_of_error (exec_issue_of_error ha)

theorem exec_recordEntry_of_ok (ha : p.allocator.next d.entryTable = .ok (id, a)) (place : Nat)
    (c : d.Change) : (recordEntry key place c).exec p
      = (.ok (), p.withEntry a place ⟨id, key.stateVersion, key.entity, c⟩) := by
  unfold recordEntry
  rw [exec_bind_of_ok (exec_issue_of_ok ha)]
  rfl

theorem exec_recordEntry_of_error (ha : p.allocator.next d.entryTable = .error e) (place : Nat)
    (c : d.Change) : (recordEntry key place c).exec p = (.error e, p) := by
  unfold recordEntry
  rw [exec_bind_of_error (exec_issue_of_error ha)]

/-- What the place of a group's aggregate comes to, by what the pass knows of its entity. -/
theorem exec_aggregatePlace_eq (key : GroupKey) (singleton : Option Int64) (p : Pass d) :
    (aggregatePlace key singleton).exec p = match p.prior.aggregates.get? key.entity with
      | none => (openAggregate key singleton none).exec p
      | some (.settled b) =>
        if b.stateVersion = key.stateVersion then
          (.error (.invariantViolation d.name key.entity key.stateVersion .alreadyPersisted), p)
        else (openAggregate key singleton (some b)).exec p
      | some (.pending place) =>
        match p.rows.aggregates[place]? with
        | none => (openAggregate key singleton none).exec p
        | some b =>
          if b.stateVersion = key.stateVersion then
            (.ok place, if singleton.isSome then p.withLink place singleton else p)
          else (openAggregate key singleton (some b)).exec p := by
  unfold aggregatePlace
  rw [exec_bind_of_ok (exec_get p)]
  rcases p.prior.aggregates.get? key.entity with _ | b | place
  · rfl
  · by_cases hv : b.stateVersion = key.stateVersion
    · simp only [hv, if_true]
      rfl
    · simp only [hv, if_false]
  · rcases hb : p.rows.aggregates[place]? with _ | b
    · simp only [hb]
    · by_cases hv : b.stateVersion = key.stateVersion
      · simp only [hb, hv, if_true]
        by_cases hs : singleton.isSome = true
        · rw [if_pos hs, if_pos hs]
          rfl
        · rw [if_neg hs, if_neg hs]
          rfl
      · simp only [hb, hv, if_false]

/-! ## Properties that moves keep -/

/-- Whether a property of a pass is kept by its moves for groups. -/
structure Moves (I : Pass d → Prop) (gs : List d.Group) : Prop where
  singleton {p : Pass d} (h : I p) (a : Allocator) {x : d.SingletonRow} {g : d.Group} (hg : g ∈ gs)
    (hk : x.groupKey = g.1) (hx : x.change ∈ g.2.singletons) : I (p.withSingleton a x)
  aggregate {p : Pass d} (h : I p) (a : Allocator) {x : Aggregate} {g : d.Group} (hg : g ∈ gs)
    (hk : x.groupKey = g.1) : I (p.withAggregate a x)
  link {p : Pass d} (h : I p) (place : Nat) (singleton : Option Int64) : I (p.withLink place singleton)
  entry {p : Pass d} (h : I p) (a : Allocator) (place : Nat) {x : d.Entry} {g : d.Group} (hg : g ∈ gs)
    (hk : x.groupKey = g.1) (hx : x.change ∈ g.2.entries) : I (p.withEntry a place x)

variable {I : Pass d → Prop} {gs : List d.Group} {g : d.Group}

theorem keeps_recordSingletons (h : Moves I gs) (hg : g ∈ gs) {t : SingletonTable d.Singleton}
    {values : List d.Singleton} (hvalues : values ⊆ g.2.singletons) (last : Option Int64) :
    Keeps I (recordSingletons g.1 t last values) := by
  induction values generalizing last with
  | nil => exact keeps_pure _
  | cons value rest ih =>
    intro p hp
    rcases hn : p.allocator.next t.table with e | ⟨id, a⟩
    · rw [exec_recordSingletons_of_error hn]
      exact hp
    · rw [exec_recordSingletons_cons hn]
      obtain ⟨hvalue, hrest⟩ := List.cons_subset.1 hvalues
      exact ih hrest (some id) _ (h.singleton hp a hg rfl hvalue)

theorem keeps_newSingleton (h : Moves I gs) (hg : g ∈ gs) : Keeps I (newSingleton g.1 g.2) := by
  unfold newSingleton
  split
  · exact keeps_pure _
  · exact keeps_throw _
  · exact keeps_recordSingletons h hg (List.Subset.refl _) none

theorem keeps_openAggregate (h : Moves I gs) (hg : g ∈ gs) (singleton : Option Int64)
    (previous : Option Aggregate) : Keeps I (openAggregate g.1 singleton previous) := by
  intro p hp
  rcases hs : lacksSingleton d singleton previous with _ | _
  · rcases hn : p.allocator.next d.aggregateSchema.table with e | ⟨id, a⟩
    · rw [exec_openAggregate_of_error hs hn]
      exact hp
    · rw [exec_openAggregate_of_ok hs hn]
      exact h.aggregate hp a hg rfl
  · rw [exec_openAggregate_of_lacks hs]
    exact hp

theorem keeps_aggregatePlace (h : Moves I gs) (hg : g ∈ gs) (singleton : Option Int64) :
    Keeps I (aggregatePlace g.1 singleton) := by
  intro p hp
  have hopen : ∀ previous, I ((openAggregate g.1 singleton previous).exec p).2 := fun previous =>
    keeps_openAggregate h hg singleton previous p hp
  rw [exec_aggregatePlace_eq]
  split
  · exact hopen none
  · split
    · exact hp
    · exact hopen _
  · split
    · exact hopen none
    · split
      · split
        · exact h.link hp _ _
        · exact hp
      · exact hopen _

theorem keeps_recordEntries (h : Moves I gs) (hg : g ∈ gs) (place : Nat) :
    Keeps I (g.2.entries.forM (recordEntry g.1 place)) := by
  refine keeps_forM fun c hc p hp => ?_
  rcases hn : p.allocator.next d.entryTable with e | ⟨id, a⟩
  · rw [exec_recordEntry_of_error hn]
    exact hp
  · rw [exec_recordEntry_of_ok hn]
    exact h.entry hp a place hg rfl hc

theorem keeps_recordGroup (h : Moves I gs) (hg : g ∈ gs) : Keeps I (recordGroup g) :=
  keeps_bind (keeps_newSingleton h hg) fun singleton => keeps_bind
    (keeps_aggregatePlace h hg singleton) fun place => keeps_recordEntries h hg place

/-- What the moves keep a pass keeps. -/
theorem keeps_recordGroups (h : Moves I gs) : Keeps I (recordGroups gs) :=
  keeps_forM fun _ hg => keeps_recordGroup h hg

end Pass

/-! ## Where rows come from -/

namespace Pass

open PassStep

variable {P : d.Change → Prop} {Q : d.Singleton → Prop}

end Pass

end LedgerHistory
