import LedgerHistory.Proofs.Aggregate.Moves

/-!
# Passes side by side

Two passes over the same groups make the same rows, or fail alike, when their counters issue the same
ids and their prior states agree on what the groups touch (`Coupling.Lawful`). One of them may have
made rows before that the other has settled: it then knows by place what the other knows by value
(`SameSlot`), and its rows stand behind the earlier ones (`Coupling.steps_recordGroups`).
-/

namespace LedgerHistory

variable {d : ListDomain} {α β γ δ : Type}

/-- Whether two passes know the same most recent aggregate of an entity, the first of them having made
the given ones before the second began. -/
inductive SameSlot (front : List Aggregate) (e : EntityId) :
    Option LatestAggregate → Option LatestAggregate → Prop
  | none : SameSlot front e none none
  | settled (a : Aggregate) : SameSlot front e (some (.settled a)) (some (.settled a))
  | pending (i : Nat) : SameSlot front e (some (.pending (front.length + i))) (some (.pending i))
  | finished {i : Nat} {a : Aggregate} (h : front[i]? = some a) (he : a.entity = e) :
      SameSlot front e (some (.pending i)) (some (.settled a))

/-- Where the first pass had made nothing, both know the same by place. -/
theorem SameSlot.refl (e : EntityId) (s : Option LatestAggregate) : SameSlot [] e s s := by
  rcases s with _ | a | i
  · exact .none
  · exact .settled a
  · have h : SameSlot [] e (some (.pending (0 + i))) (some (.pending i)) := .pending i
    rwa [Nat.zero_add] at h

/-- How two passes stand to each other. -/
structure Coupling (d : ListDomain) where
  /-- The rows that the first one made before the second began. -/
  front : NewRows d
  allocators : Allocator → Allocator → Prop
  priors : LatestRows d → LatestRows d → Prop
  /-- Whether the first one may fail for want of a counter that the second one has. -/
  wanting : Prop

namespace Coupling

/-- Whether passes that stand so to each other get the same ids, know the same of what is touched, and
keep standing so. -/
structure Lawful (c : Coupling d) (es : List EntityId) (ks : List d.EntryKey) : Prop where
  next {a b : Allocator} (h : c.allocators a b) {t : Table} (ht : t ∈ d.tables) :
    (∃ id a' b', a.next t = .ok (id, a') ∧ b.next t = .ok (id, b') ∧ c.allocators a' b')
      ∨ ∃ e, a.next t = .error e ∧ (c.wanting ∨ b.next t = .error e)
  slot {P Q : LatestRows d} (h : c.priors P Q) {e : EntityId} (he : e ∈ es) :
    SameSlot c.front.aggregates e (P.aggregates.get? e) (Q.aggregates.get? e)
  entry {P Q : LatestRows d} (h : c.priors P Q) {k : d.EntryKey} (hk : k ∈ ks) :
    P.entry? k = Q.entry? k
  pending {P Q : LatestRows d} (h : c.priors P Q) (e : EntityId) (i : Nat) :
    c.priors { P with aggregates := P.aggregates.insert e (.pending (c.front.aggregates.length + i)) }
      { Q with aggregates := Q.aggregates.insert e (.pending i) }
  putEntry {P Q : LatestRows d} (h : c.priors P Q) (x : d.Entry) :
    c.priors (P.putEntry x) (Q.putEntry x)

variable {c : Coupling d}

/-- Whether two passes stand to each other as a coupling says. -/
structure Holds (c : Coupling d) (p q : Pass d) : Prop where
  priors : c.priors p.prior q.prior
  allocators : c.allocators p.allocator q.allocator
  rows : p.rows = c.front ++ q.rows

/-- Whether steps succeed on coupled passes with answers that are related, and leave them coupled, or
fail with the same error. -/
def Steps (c : Coupling d) (V : α → β → Prop) (x : PassStep d α) (y : PassStep d β) : Prop :=
  ∀ {p q : Pass d}, c.Holds p q →
    (∃ a p' b q', x.exec p = (.ok a, p') ∧ y.exec q = (.ok b, q') ∧ V a b ∧ c.Holds p' q')
      ∨ ∃ e p', x.exec p = (.error e, p') ∧ (c.wanting ∨ (y.exec q).1 = .error e)

section Steps

open PassStep

variable {V : α → β → Prop} {W : γ → δ → Prop} {es : List EntityId} {ks : List d.EntryKey}

theorem steps_pure {a : α} {b : β} (h : V a b) :
    c.Steps V (pure a : PassStep d α) (pure b : PassStep d β) :=
  fun hpq => .inl ⟨a, _, b, _, rfl, rfl, h, hpq⟩

theorem steps_throw (e : InvocationError) :
    c.Steps V (throw e : PassStep d α) (throw e : PassStep d β) :=
  fun _ => .inr ⟨e, _, rfl, .inr rfl⟩

theorem steps_bind {x : PassStep d α} {y : PassStep d β} {f : α → PassStep d γ} {g : β → PassStep d δ}
    (hx : c.Steps V x y) (hf : ∀ a b, V a b → c.Steps W (f a) (g b)) :
    c.Steps W (x >>= f) (y >>= g) := by
  intro p q h
  obtain ⟨a, p', b, q', hp, hq, hv, h'⟩ | ⟨e, p', hp, he⟩ := hx h
  · rw [exec_bind_of_ok hp, exec_bind_of_ok hq]
    exact hf a b hv h'
  · refine .inr ⟨e, p', exec_bind_of_error hp, he.imp_right fun hq => ?_⟩
    rcases hy : y.exec q with ⟨r, q'⟩
    rw [hy] at hq
    subst hq
    rw [exec_bind_of_error hy]

theorem steps_forM {f g : α → PassStep d Unit} {as : List α}
    (h : ∀ a ∈ as, c.Steps (fun _ _ => True) (f a) (g a)) :
    c.Steps (fun _ _ => True) (as.forM f) (as.forM g) := by
  induction as with
  | nil => exact steps_pure trivial
  | cons a as ih =>
    exact steps_bind (h a List.mem_cons_self) fun _ _ _ =>
      ih fun b hb => h b (List.mem_cons_of_mem a hb)

open Pass

variable {key : GroupKey}

theorem modify_append_left (as bs : List α) (i : Nat) (f : α → α) :
    (as ++ bs).modify (as.length + i) f = as ++ bs.modify i f := by
  induction as with
  | nil => rw [List.nil_append, List.nil_append, List.length_nil, Nat.zero_add]
  | cons a as ih =>
    rw [List.cons_append, List.length_cons, Nat.add_right_comm, List.modify_succ_cons, ih,
      List.cons_append]

theorem steps_recordSingletons (hc : c.Lawful es ks) {t : SingletonTable d.Singleton}
    (ht : t.table ∈ d.tables) (values : List d.Singleton) (last : Option Int64) :
    c.Steps (· = ·) (recordSingletons key t last values) (recordSingletons key t last values) := by
  induction values generalizing last with
  | nil => exact steps_pure rfl
  | cons value rest ih =>
    intro p q h
    obtain ⟨id, a, b, ha, hb, hab⟩ | ⟨e, ha, he⟩ := hc.next h.allocators ht
    · rw [exec_recordSingletons_cons ha, exec_recordSingletons_cons hb]
      refine ih (some id) ⟨h.priors, hab, ?_⟩
      simp only [withSingleton, h.rows, NewRows.singletons_append, List.append_assoc]
      rfl
    · refine .inr ⟨e, p, exec_recordSingletons_of_error ha .., he.imp_right fun hb => ?_⟩
      rw [exec_recordSingletons_of_error hb]

theorem steps_newSingleton (hc : c.Lawful es ks) (g : ChangeGroup d.Change d.Singleton) :
    c.Steps (· = ·) (newSingleton key g : PassStep d (Option Int64)) (newSingleton key g) := by
  unfold newSingleton
  split
  · exact steps_pure rfl
  · exact steps_throw _
  · rename_i t ht _
    exact steps_recordSingletons hc (by simp [ListDomain.tables, ht]) _ none

/-- The places of coupled passes: the first one's lie behind the rows that it made before. -/
def Places (c : Coupling d) (i j : Nat) : Prop := i = c.front.aggregates.length + j

theorem steps_openAggregate (hc : c.Lawful es ks) (key : GroupKey) (singleton : Option Int64)
    (previous : Option Aggregate) :
    c.Steps c.Places (openAggregate key singleton previous) (openAggregate key singleton previous) := by
  intro p q h
  have hlen : p.rows.aggregates.length = c.front.aggregates.length + q.rows.aggregates.length := by
    rw [h.rows, NewRows.aggregates_append, List.length_append]
  rcases hs : lacksSingleton d singleton previous with _ | _
  · obtain ⟨id, a, b, ha, hb, hab⟩ | ⟨e, ha, he⟩ :=
      hc.next h.allocators (t := d.aggregateSchema.table) (by simp [ListDomain.tables])
    · refine .inl ⟨_, _, _, _, exec_openAggregate_of_ok hs ha, exec_openAggregate_of_ok hs hb, hlen,
        ?_, hab, ?_⟩
      · have := hc.pending h.priors key.entity q.rows.aggregates.length
        rwa [← hlen] at this
      · simp only [withAggregate, h.rows, NewRows.aggregates_append, List.append_assoc]
        rfl
    · refine .inr ⟨e, p, exec_openAggregate_of_error hs ha, he.imp_right fun hb => ?_⟩
      rw [exec_openAggregate_of_error hs hb]
  · refine .inr ⟨_, p, exec_openAggregate_of_lacks hs key p, .inr ?_⟩
    rw [exec_openAggregate_of_lacks hs]

theorem steps_aggregatePlace (hc : c.Lawful es ks) (he : key.entity ∈ es)
    (hnew : key ∉ c.front.aggregates.map Aggregate.groupKey) (singleton : Option Int64) :
    c.Steps c.Places (aggregatePlace key singleton) (aggregatePlace key singleton) := by
  intro p q h
  have hopen : ∀ previous, _ := fun previous => steps_openAggregate hc key singleton previous h
  rw [exec_aggregatePlace_eq, exec_aggregatePlace_eq]
  have hslot := hc.slot h.priors he
  generalize p.prior.aggregates.get? key.entity = s at hslot
  generalize q.prior.aggregates.get? key.entity = s' at hslot
  cases hslot with
  | none => exact hopen none
  | settled a =>
    by_cases hv : a.stateVersion = key.stateVersion
    · simp only [hv, if_true]
      exact .inr ⟨_, _, rfl, .inr rfl⟩
    · simp only [hv, if_false]
      exact hopen (some a)
  | pending i =>
    have hget : p.rows.aggregates[c.front.aggregates.length + i]? = q.rows.aggregates[i]? := by
      rw [h.rows, NewRows.aggregates_append, List.getElem?_append_right (Nat.le_add_right ..),
        Nat.add_sub_cancel_left]
    simp only [hget]
    rcases q.rows.aggregates[i]? with _ | a
    · exact hopen none
    by_cases hv : a.stateVersion = key.stateVersion
    · simp only [hv, if_true]
      refine .inl ⟨_, _, _, _, rfl, rfl, rfl, ?_⟩
      split
      · refine ⟨h.priors, h.allocators, ?_⟩
        simp only [withLink, h.rows, NewRows.aggregates_append, modify_append_left]
        rfl
      · exact h
    · simp only [hv, if_false]
      exact hopen (some a)
  | @finished i a ha hae =>
    -- an aggregate made before is of none of the groups, so both passes carry it on
    have hget : p.rows.aggregates[i]? = some a := by
      rw [h.rows, NewRows.aggregates_append,
        List.getElem?_append_left (List.getElem?_eq_some_iff.1 ha).1, ha]
    have hv : a.stateVersion ≠ key.stateVersion := fun hv =>
      hnew (List.mem_map.2 ⟨a, List.mem_of_getElem? ha, by rw [Aggregate.groupKey, hae, hv]⟩)
    simp only [hget, hv, if_false]
    exact hopen (some a)

theorem steps_recordEntry (hc : c.Lawful es ks) {i j : Nat} (hij : c.Places i j) {x : d.Change}
    (hk : (key.entity, d.keyOf x) ∈ ks) :
    c.Steps (fun _ _ => True) (recordEntry key i x) (recordEntry key j x) := by
  intro p q h
  obtain ⟨id, a, b, ha, hb, hab⟩ | ⟨e, ha, he⟩ :=
    hc.next h.allocators (t := d.entryTable) (by simp [ListDomain.tables])
  · refine .inl ⟨_, _, _, _, exec_recordEntry_of_ok ha i x, exec_recordEntry_of_ok hb j x, trivial,
      hc.putEntry h.priors _, hab, ?_⟩
    have hentry := hc.entry h.priors hk
    simp only [withEntry, h.rows, ListDomain.entryKey, hentry, NewRows.entries_append,
      NewRows.aggregates_append, List.append_assoc]
    rw [show i = c.front.aggregates.length + j from hij, modify_append_left]
    rfl
  · refine .inr ⟨e, p, exec_recordEntry_of_error ha .., he.imp_right fun hb => ?_⟩
    rw [exec_recordEntry_of_error hb]

theorem steps_recordGroup (hc : c.Lawful es ks) {g : d.Group} (he : g.1.entity ∈ es)
    (hks : ∀ x ∈ g.2.entries, (g.1.entity, d.keyOf x) ∈ ks)
    (hnew : g.1 ∉ c.front.aggregates.map Aggregate.groupKey) :
    c.Steps (fun _ _ => True) (recordGroup g) (recordGroup g) := by
  refine steps_bind (steps_newSingleton hc g.2) fun s s' hs => ?_
  subst hs
  refine steps_bind (steps_aggregatePlace hc he hnew s) fun i j hij => ?_
  exact steps_forM fun x hx => steps_recordEntry hc hij (hks x hx)

/-- Coupled passes make the same rows of groups that the first one had not before, or fail alike. -/
theorem steps_recordGroups {gs : List d.Group} (hc : c.Lawful es ks)
    (hes : ∀ g ∈ gs, g.1.entity ∈ es) (hks : ∀ g ∈ gs, ∀ x ∈ g.2.entries, (g.1.entity, d.keyOf x) ∈ ks)
    (hnew : ∀ g ∈ gs, g.1 ∉ c.front.aggregates.map Aggregate.groupKey) :
    c.Steps (fun _ _ => True) (recordGroups gs) (recordGroups gs) :=
  steps_forM fun g hg => steps_recordGroup hc (hes g hg) (hks g hg) (hnew g hg)

end Steps

/-- Passes that begin together, without rows, come to the same. -/
theorem run_eq {changes : GroupedChanges d} (hc : c.Lawful changes.entities changes.entryKeys)
    (hfront : c.front = {}) {P Q : LatestRows d} (hprior : c.priors P Q) {a b : Allocator}
    (hab : c.allocators a b) :
    (∃ R, (Pass.run changes P a).result = .ok R ∧ (Pass.run changes Q b).result = .ok R
        ∧ c.allocators (Pass.run changes P a).allocator (Pass.run changes Q b).allocator)
      ∨ ∃ e, (Pass.run changes P a).result = .error e
        ∧ (c.wanting ∨ (Pass.run changes Q b).result = .error e) := by
  have hes : ∀ g ∈ changes.toList, g.1.entity ∈ changes.entities := fun g hg =>
    List.mem_map_of_mem (f := (·.entity)) (List.mem_map_of_mem (f := (·.1)) hg)
  have hks : ∀ g ∈ changes.toList, ∀ x ∈ g.2.entries, (g.1.entity, d.keyOf x) ∈ changes.entryKeys :=
    fun g hg x hx => List.mem_flatMap.2 ⟨g, hg, List.mem_map.2 ⟨x, hx, rfl⟩⟩
  have hnew : ∀ g ∈ changes.toList, g.1 ∉ c.front.aggregates.map Aggregate.groupKey := by
    rw [hfront]
    exact fun _ _ => List.not_mem_nil
  obtain ⟨_, p, _, q, hp, hq, _, h⟩ | ⟨e, p, hp, he⟩ :=
    steps_recordGroups hc hes hks hnew (p := ⟨P, a, {}⟩) (q := ⟨Q, b, {}⟩)
      ⟨hprior, hab, by rw [hfront]; rfl⟩
  · rw [Pass.run_of_exec_ok hp, Pass.run_of_exec_ok hq, h.rows, hfront, NewRows.empty_append]
    exact .inl ⟨q.rows, rfl, rfl, h.allocators⟩
  · rw [Pass.run_of_exec_error hp]
    refine .inr ⟨e, rfl, he.imp_right fun hq => ?_⟩
    rcases hx : (Pass.recordGroups changes.toList).exec ⟨Q, b, {}⟩ with ⟨r, q⟩
    rw [hx] at hq
    subst hq
    rw [Pass.run_of_exec_error hx]

end Coupling

end LedgerHistory
