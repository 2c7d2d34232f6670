import Mathlib.Logic.Relation
import LedgerHistory.Proofs.Interleaved.Stages

/-!
# Identifiers of interleaved invocations

Any number of invocations act on one store, call by call and in any order (`BusyStore.Step`). In every
state that this leads to, the committed state is tidy and all invocations under way are safe
(`BusyStore.steady_of_reachable`), so no two rows of a table share an id and no two addresses a number
(`BusyStore.identifiers_distinct`).
-/

namespace LedgerHistory

/-- An invocation under way: the rest of its script, and the copy that its transaction works on. -/
structure Invocation where
  script : Script (Except InvocationError InvocationReport)
  working : Snapshot

/-- A store with the invocations that are under way. -/
structure BusyStore where
  committed : Snapshot := {}
  invocations : List Invocation := []

namespace BusyStore

/-- One step of one of the invocations: it starts, has a call answered or fail, asks for its token,
lets something be known, or is dropped. -/
inductive Step : BusyStore → BusyStore → Prop
  | start (s : Snapshot) (is : List Invocation) (config : Configuration) (x : LedgerExtension) :
    Step ⟨s, is⟩ ⟨s, is ++ [⟨recordExtension config x, s⟩]⟩
  | serve (is js : List Invocation) {c : StoreCall}
    {next : Except StoreError c.Reply → Script (Except InvocationError InvocationReport)}
    {s k : Snapshot} (hroom : (World.mk s k).HasRoom c) :
    Step ⟨s, is ++ ⟨.call c next, k⟩ :: js⟩ ⟨((World.mk s k).serve c).2.committed,
      is ++ ⟨next ((World.mk s k).serve c).1, ((World.mk s k).serve c).2.working⟩ :: js⟩
  | fail (is js : List Invocation) {c : StoreCall}
    {next : Except StoreError c.Reply → Script (Except InvocationError InvocationReport)}
    {s k : Snapshot} (e : StoreError) :
    Step ⟨s, is ++ ⟨.call c next, k⟩ :: js⟩ ⟨s, is ++ ⟨next (.error e), k⟩ :: js⟩
  | check (is js : List Invocation)
    {next : Bool → Script (Except InvocationError InvocationReport)} {s k : Snapshot}
    (cancelled : Bool) :
    Step ⟨s, is ++ ⟨.ifCancelled next, k⟩ :: js⟩ ⟨s, is ++ ⟨next cancelled, k⟩ :: js⟩
  | log (is js : List Invocation) {e : LogEvent}
    {next : Script (Except InvocationError InvocationReport)} {s k : Snapshot} :
    Step ⟨s, is ++ ⟨.log e next, k⟩ :: js⟩ ⟨s, is ++ ⟨next, k⟩ :: js⟩
  | drop (s : Snapshot) (is js : List Invocation) (i : Invocation) :
    Step ⟨s, is ++ i :: js⟩ ⟨s, is ++ js⟩

/-- Whether steps lead from the empty store to a state. -/
def Reachable (s : BusyStore) : Prop := Relation.ReflTransGen Step {} s

/-- Whether the committed state is tidy and all invocations under way are safe. -/
structure Steady (s : BusyStore) : Prop where
  tidy : s.committed.IsTidy
  safe : ∀ i ∈ s.invocations, i.script.Safe (fun _ _ => True) ⟨s.committed, i.working⟩

variable {s s' : BusyStore}

/-- What one invocation does leaves the others safe. -/
theorem Steady.replace {is js : List Invocation} {i i' : Invocation} {k k' : Snapshot}
    (h : Steady ⟨k, is ++ i :: js⟩) (hk : k'.IsTidy) (hb : k.Behind k')
    (hi : i'.script.Safe (fun _ _ => True) ⟨k', i'.working⟩) : Steady ⟨k', is ++ i' :: js⟩ := by
  refine ⟨hk, fun j hj => ?_⟩
  have hothers : ∀ j ∈ is ++ i :: js, j.script.Safe (fun _ _ => True) ⟨k', j.working⟩ :=
    fun j hj => (h.safe j hj).of_behind hb
  rcases List.mem_append.1 hj with hj | hj
  · exact hothers j (List.mem_append_left _ hj)
  · rcases List.mem_cons.1 hj with rfl | hj
    · exact hi
    · exact hothers j (List.mem_append_right _ (List.mem_cons_of_mem _ hj))

theorem Steady.step (h : s.Steady) (hstep : Step s s') : s'.Steady := by
  cases hstep with
  | start k is config x =>
    refine ⟨h.tidy, fun i hi => ?_⟩
    rcases List.mem_append.1 hi with hi | hi
    · exact h.safe i hi
    · rw [List.mem_singleton.1 hi]
      exact safe_recordExtension config x _
  | @serve is js c next s k hroom =>
    obtain ⟨hok, -⟩ := h.safe ⟨.call c next, k⟩ (List.mem_append_right _ List.mem_cons_self) s
      h.tidy (.refl _)
    obtain ⟨hpermits, hnext⟩ := hok hroom
    obtain ⟨htidy, hbehind⟩ := World.serve_committed h.tidy hroom hpermits
    exact h.replace htidy hbehind hnext
  | @fail is js c next s k e =>
    obtain ⟨-, hfail⟩ := h.safe ⟨.call c next, k⟩ (List.mem_append_right _ List.mem_cons_self) s
      h.tidy (.refl _)
    exact h.replace h.tidy (.refl _) (hfail e)
  | @check is js next s k b =>
    have hsafe := h.safe ⟨.ifCancelled next, k⟩ (List.mem_append_right _ List.mem_cons_self)
    exact h.replace h.tidy (.refl _) (hsafe b)
  | @log is js e next s k =>
    have hsafe := h.safe ⟨.log e next, k⟩ (List.mem_append_right _ List.mem_cons_self)
    exact h.replace h.tidy (.refl _) hsafe
  | drop k is js i =>
    refine ⟨h.tidy, fun j hj => h.safe j ?_⟩
    rcases List.mem_append.1 hj with hj | hj
    · exact List.mem_append_left _ hj
    · exact List.mem_append_right _ (List.mem_cons_of_mem _ hj)

theorem steady_of_reachable (h : s.Reachable) : s.Steady := by
  induction h with
  | refl => exact ⟨Snapshot.isTidy_empty, nofun⟩
  | tail _ hstep ih => exact ih.step hstep

/-- What never happens to identifiers: rows of a table that share an id or have one above the table's
sequence, addresses that share a number or have one above the entity sequence, and a bulk load that is
refused for an id in use although the counters have room. -/
structure Distinct (s : BusyStore) : Prop where
  ids (name : String) : ∃ ids : List Int64, (s.committed.rows name).map (Row.at · 0) = ids.map .int8
    ∧ ids.Nodup ∧ ∀ id ∈ ids, id.toInt ≤ (s.committed.sequence (Table.sequenceNameOf name)).toInt
  numbers {a b : Address} {e e' : Entity} (ha : s.committed.entities.get? a = some e)
    (hb : s.committed.entities.get? b = some e') (h : a ≠ b) : e.id ≠ e'.id
  bound {a : Address} {e : Entity} (ha : s.committed.entities.get? a = some e) :
    e.id.number.toInt ≤ (s.committed.sequence entitySequence).toInt
  accepted {i : Invocation} (hi : i ∈ s.invocations) {t : Table} {stream : List UInt8}
    {next : Except StoreError Nat → Script (Except InvocationError InvocationReport)}
    (hcall : i.script = .call (.bulkLoad t stream) next)
    (hroom : (World.mk s.committed i.working).HasRoom (.bulkLoad t stream)) (name : String)
    (id : Int64) : ((World.mk s.committed i.working).serve (.bulkLoad t stream)).1
      ≠ .error (.duplicateKey name id)

/-- However invocations are interleaved, identifiers do not collide. -/
theorem identifiers_distinct (h : s.Reachable) : s.Distinct := by
  obtain ⟨htidy, hsafe⟩ := steady_of_reachable h
  refine ⟨fun name => ⟨_, htidy.keyed name, htidy.nodup name, htidy.ids name⟩,
    fun {a b e e'} ha hb hab he => hab (htidy.numbered.distinct ha hb he),
    fun {a e} ha => htidy.numbered.bound ha, fun {i} hi {t stream next} hcall hroom => ?_⟩
  have hi := hsafe i hi
  rw [hcall] at hi
  exact ((hi s.committed htidy (.refl _)).1 hroom).1

/-- A configuration that records the default rules of accounts alone. -/
def ruleConfiguration : Configuration where
  domains := ⟨false, false, false, false, false, true, false⟩
  stageTimings := false

/-- An invocation about to record the rule of one account. -/
def ruleInvocation : Invocation where
  script := recordExtension ruleConfiguration
    ⟨[⟨1, [⟨⟨"account_e", by decide⟩, .defaultDepositRule .accept⟩]⟩]⟩
  working := {}

/-- Two invocations that both began before either took an id: the first has taken 1, the second 2. -/
theorem identifiers_distinct_sample : ∃ s : BusyStore, s.Reachable
    ∧ s.invocations.map (·.working.tops DepositRule.table.name) = [1, 2] ∧ s.Distinct := by
  have hstart : Reachable ⟨{}, [ruleInvocation, ruleInvocation]⟩ :=
    (Relation.ReflTransGen.refl.tail (.start {} [] ruleConfiguration _)).tail
      (.start {} [ruleInvocation] ruleConfiguration _)
  have hbegin := (((hstart.tail (.check [] [_] false)).tail (.serve [] [_] (c := .begin) trivial)).tail
    (.check [_] [] false)).tail (.serve [_] [] (c := .begin) trivial)
  have hload := (((hbegin.tail (.check [] [_] false)).tail
    (.serve [] [_] (c := .advanceSequences [DepositRule.table]) (by
      show ∀ t ∈ [DepositRule.table], _
      decide))).tail (.check [_] [] false)).tail
    (.serve [_] [] (c := .advanceSequences [DepositRule.table]) (by
      show ∀ t ∈ [DepositRule.table], _
      decide))
  exact ⟨_, hload, by with_unfolding_all rfl, identifiers_distinct hload⟩

end BusyStore

end LedgerHistory
