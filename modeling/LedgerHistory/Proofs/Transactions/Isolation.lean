import LedgerHistory.Domain.Plain
import LedgerHistory.Proofs.Recording.AllOrNothing
import LedgerHistory.Proofs.Store.Writes
import LedgerHistory.Proofs.Transactions.Sequences

/-!
# Isolation of interleaved transactions

Rows and entities of the committed state change at a commit, and become those that the transaction began
with together with those that its own operations loaded and bound
(`OpenStore.extendedBy_throughCommit`). What a transaction reads is told in the same way
(`OpenStore.extendedBy_opened`). Sequences alone are shared, and go forward (`OpenStore.isolated`).
-/

namespace LedgerHistory

/-! ## Rows and entities of a copy -/

/-- The rows that an answered operation loaded into a table. -/
def loadedBy (table : String) : StoreOperation × StoreAnswer → List Row
  | (.copy _ t stream, .count _) =>
    if t.name = table then (t.decodeStream stream).toOption.getD [] else []
  | _ => []

/-- The entity that an answered operation found for an address. -/
def boundBy? (a : Address) : StoreOperation × StoreAnswer → Option Entity
  | (.resolve _ a' _, .entity e) => if a' = a then some e else none
  | _ => none

/-- The rows that answered operations loaded into a table. -/
def loaded (table : String) (acts : List (StoreOperation × StoreAnswer)) : List Row :=
  acts.flatMap (loadedBy table)

/-- The entity that answered operations found for an address at first. -/
def bound? (a : Address) (acts : List (StoreOperation × StoreAnswer)) : Option Entity :=
  acts.findSome? (boundBy? a)

theorem loaded_append (table : String) (as bs : List (StoreOperation × StoreAnswer)) :
    loaded table (as ++ bs) = loaded table as ++ loaded table bs := List.flatMap_append

theorem bound?_append (a : Address) (as bs : List (StoreOperation × StoreAnswer)) :
    bound? a (as ++ bs) = (bound? a as).or (bound? a bs) := List.findSome?_append

namespace Snapshot

/-- Whether two states have the same rows and entities. -/
def SameContents (s s' : Snapshot) : Prop := s.tables = s'.tables ∧ s.entities = s'.entities

/-- Whether a state has, after the rows of another one and beside its entities, what answered operations
loaded and found. -/
structure ExtendedBy (s : Snapshot) (acts : List (StoreOperation × StoreAnswer)) (s' : Snapshot) :
    Prop where
  rows (table : String) : s'.rows table = s.rows table ++ loaded table acts
  entities (a : Address) : s'.entities.get? a = (s.entities.get? a).or (bound? a acts)

theorem ExtendedBy.refl (s : Snapshot) : s.ExtendedBy [] s :=
  ⟨fun _ => (List.append_nil _).symm, fun _ => (Option.or_none ..).symm⟩

theorem ExtendedBy.trans {s s' s'' : Snapshot} {as bs : List (StoreOperation × StoreAnswer)}
    (h : s.ExtendedBy as s') (h' : s'.ExtendedBy bs s'') : s.ExtendedBy (as ++ bs) s'' := by
  refine ⟨fun table => ?_, fun a => ?_⟩
  · rw [h'.rows, h.rows, loaded_append, List.append_assoc]
  · rw [h'.entities, h.entities, bound?_append, Option.or_assoc]

theorem ExtendedBy.of_sameContents {s s' s'' : Snapshot} {acts : List (StoreOperation × StoreAnswer)}
    (h : s.ExtendedBy acts s') (hc : s''.SameContents s') : s.ExtendedBy acts s'' := by
  refine ⟨fun table => ?_, fun a => ?_⟩
  · rw [← h.rows, Snapshot.rows, Snapshot.rows, Snapshot.table, Snapshot.table, hc.1]
  · rw [← h.entities, hc.2]

/-- A batch that is refused leaves the rows of every table, and one that is accepted follows those of its
table. -/
theorem rows_appendRows (s : Snapshot) (t : Table) (rows : List Row) (name : String) :
    (s.appendRows t rows).1.rows name = s.rows name
      ++ if (s.appendRows t rows).2.isOk ∧ t.name = name then rows else [] := by
  rcases hpos : t.positionOf idColumn with e | i
  · simp [appendRows, hpos, Except.isOk, Except.toBool]
  · rcases hids : checkIds t i (s.table t.name).ids [] rows with e | ids <;>
      simp only [appendRows, hpos, hids, Snapshot.rows, table_insert] <;>
      by_cases hname : t.name = name <;> simp [Except.isOk, Except.toBool, hname]

theorem entities_load (s : Snapshot) (t : Table) (stream : List UInt8) :
    (s.load t stream).entities = s.entities := by
  unfold load
  split
  · exact s.entities_appendRows t _
  · rfl

theorem get?_bindAddress (s : Snapshot) (a a' : Address) (e : Entity) :
    (s.bindAddress a' e).entities.get? a
      = (s.entities.get? a).or (if a' = a then some e else none) := by
  unfold bindAddress
  by_cases ha : a' = a
  · subst ha
    rcases hb : s.entities.get? a' with _ | e'
    · simp
    · simp [hb]
  · split <;> simp [ha]

end Snapshot

theorem Connection.rows_bulkLoad (c : Connection) (name : String) (t : Table) (stream : List UInt8)
    (table : String) : (c.bulkLoad t stream).2.transaction.working.rows table
      = c.transaction.working.rows table
        ++ loadedBy table (.copy name t stream, .ofExcept .count (c.bulkLoad t stream).1) := by
  unfold bulkLoad
  split
  · exact (List.append_nil _).symm
  · rcases hd : t.decodeStream stream with e | rows
    · exact (List.append_nil _).symm
    · refine (c.transaction.working.rows_appendRows t rows table).trans (congrArg _ ?_)
      dsimp only
      rcases (c.transaction.working.appendRows t rows).2 with e | n
      · simp [Except.isOk, Except.toBool, StoreAnswer.ofExcept, loadedBy]
      · by_cases hname : t.name = table <;>
          simp [Except.isOk, Except.toBool, StoreAnswer.ofExcept, loadedBy, hd, hname, Except.toOption]

theorem Connection.sameContents_commit (c : Connection) :
    c.commit.committed.SameContents c.transaction.working := by
  obtain ⟨htables, hentities, -⟩ :=
    World.foldl_raise_frame c.store.committed.sequences.entries c.transaction.working
  exact ⟨htables, hentities⟩

namespace OpenStore

variable {s : OpenStore}

section Step

variable {name : String} {t : Transaction} {op : StoreOperation}

/-- An operation of a transaction leaves the tables of its copy, unless it is a load. -/
theorem tables_act (h : s.live.get? name = some t) (hop : op.transaction? = some name)
    (hopen : op.leavesOpen name = true) :
    (t.working.act (op, (s.step op).1)).tables = t.working.tables
        ∧ (∀ table, loadedBy table (op, (s.step op).1) = [])
      ∨ ∃ t' stream, op = .copy name t' stream := by
  obtain ⟨ts, rfl⟩ | ⟨values, rfl⟩ | ⟨q, rfl⟩ | ⟨t', stream, rfl⟩ | ⟨a, v, rfl⟩ :=
    StoreOperation.eq_of_leavesOpen hop hopen
  · refine .inl ⟨?_, fun _ => rfl⟩
    rw [answer_next h]
    exact Snapshot.tables_withSequences _ _
  · exact .inl ⟨(Allocator.frame_raiseAll values).1, fun _ => rfl⟩
  · exact .inl ⟨rfl, fun _ => rfl⟩
  · exact .inr ⟨t', stream, rfl⟩
  · refine .inl ⟨?_, fun _ => rfl⟩
    rw [answer_resolve h]
    show (t.working.bindAddress a _).tables = _
    unfold Snapshot.bindAddress
    split <;> rfl

theorem rows_act (h : s.live.get? name = some t) (hop : op.transaction? = some name)
    (hopen : op.leavesOpen name = true) (table : String) :
    (t.working.act (op, (s.step op).1)).rows table
      = t.working.rows table ++ loadedBy table (op, (s.step op).1) := by
  obtain ⟨htables, hnil⟩ | ⟨t', stream, rfl⟩ := tables_act h hop hopen
  · rw [hnil, List.append_nil, Snapshot.rows, Snapshot.table, htables]
    rfl
  · rw [answer_copy h, ← (Connection.bulkLoad_eq ⟨s.store, t⟩ name t' stream).2]
    exact Connection.rows_bulkLoad ⟨s.store, t⟩ name t' stream table

theorem entities_act (h : s.live.get? name = some t) (hop : op.transaction? = some name)
    (hopen : op.leavesOpen name = true) (a : Address) :
    (t.working.act (op, (s.step op).1)).entities.get? a
      = (t.working.entities.get? a).or (boundBy? a (op, (s.step op).1)) := by
  have hkept : ∀ k : Snapshot, k.entities = t.working.entities → boundBy? a (op, (s.step op).1) = none →
      k.entities.get? a = (t.working.entities.get? a).or (boundBy? a (op, (s.step op).1)) := by
    intro k hk hnone
    rw [hnone, Option.or_none, hk]
  obtain ⟨ts, rfl⟩ | ⟨values, rfl⟩ | ⟨q, rfl⟩ | ⟨t', stream, rfl⟩ | ⟨a', v, rfl⟩ :=
    StoreOperation.eq_of_leavesOpen hop hopen
  · refine hkept _ ?_ rfl
    rw [answer_next h]
    exact Snapshot.entities_withSequences _ _
  · exact hkept _ (Allocator.frame_raiseAll values).2 rfl
  · exact hkept _ rfl rfl
  · refine hkept _ ?_ rfl
    rcases t.working.act_copy name t' stream (s.step (.copy name t' stream)).1 with he | he
    · rw [he]
    · rw [he, Snapshot.entities_load]
  · rw [answer_resolve h]
    exact Snapshot.get?_bindAddress ..

theorem extendedBy_act (h : s.live.get? name = some t) (hop : op.transaction? = some name)
    (hopen : op.leavesOpen name = true) :
    t.working.ExtendedBy [(op, (s.step op).1)] (t.working.act (op, (s.step op).1)) := by
  refine ⟨fun table => ?_, fun a => ?_⟩
  · rw [rows_act h hop hopen, loaded, List.flatMap_singleton]
  · rw [entities_act h hop hopen, bound?, List.findSome?_singleton]

end Step

section Run

variable {name : String} {t : Transaction} {ops : List StoreOperation}

/-- A copy has what it began with and what its own transaction loaded and found. -/
theorem extendedBy_replay (h : s.live.get? name = some t)
    (hopen : ∀ op ∈ ops, op.leavesOpen name = true) :
    t.working.ExtendedBy (s.acts name ops) (t.working.replay (s.acts name ops)) := by
  induction ops generalizing s t with
  | nil => exact .refl _
  | cons op ops ih =>
    have hops : ∀ op ∈ ops, op.leavesOpen name = true := fun op hop =>
      hopen op (List.mem_cons_of_mem _ hop)
    by_cases hop : op.transaction? = some name
    · have hopen' := hopen op List.mem_cons_self
      rw [acts_cons, if_pos hop, Snapshot.replay_append]
      exact (extendedBy_act h hop hopen').trans (ih (live_step h hop hopen') hops)
    · rw [acts_cons, if_neg hop]
      exact ih ((live_step_of_ne hop).trans h) hops

theorem extendedBy_opened (s : OpenStore) (hopen : ∀ op ∈ ops, op.leavesOpen name = true) :
    s.store.committed.ExtendedBy (s.acts name (.begin name :: ops))
      (s.store.committed.replay (s.acts name (.begin name :: ops))) := by
  have hbegin : s.store.committed.ExtendedBy [(.begin name, .done)] s.store.committed :=
    ⟨(Snapshot.ExtendedBy.refl _).rows, (Snapshot.ExtendedBy.refl _).entities⟩
  rw [acts_cons, StoreOperation.transaction?, if_pos rfl, Snapshot.replay_append]
  exact hbegin.trans (extendedBy_replay (s.live_begin name) hopen)

/-- A commit leaves what its transaction began with and what it loaded and found. -/
theorem extendedBy_throughCommit (s : OpenStore) (hopen : ∀ op ∈ ops, op.leavesOpen name = true) :
    s.store.committed.ExtendedBy (s.acts name (.begin name :: ops))
      (s.throughCommit name ops).store.committed := by
  rw [throughCommit_eq, step_commit (s.live_opened hopen)]
  exact (s.extendedBy_opened hopen).of_sameContents (Connection.sameContents_commit _)

end Run

/-! ## Isolation -/

/-- What holds of a store, however operations of its transactions interleave. -/
structure Isolates (s : OpenStore) : Prop where
  /-- Committed rows and entities change at a commit only, or when they are put there directly. -/
  published {op : StoreOperation} (hp : op.publishes = false) :
    (s.step op).2.store.committed.SameContents s.store.committed
  /-- A commit puts there what the transaction began with and what it loaded and found. -/
  committed {name : String} {ops : List StoreOperation} (hopen : ∀ op ∈ ops, op.leavesOpen name = true) :
    s.store.committed.ExtendedBy (s.acts name (.begin name :: ops))
      (s.throughCommit name ops).store.committed
  /-- No operation of a transaction that is given up changes committed rows or entities. -/
  abandoned {name : String} {ops : List StoreOperation} (hopen : ∀ op ∈ ops, op.leavesOpen name = true)
    {before after : List StoreOperation} {op : StoreOperation}
    (hops : .begin name :: (ops ++ [.rollback name]) = before ++ op :: after)
    (hop : op.transaction? = some name) :
    ((s.after before).step op).2.store.committed.SameContents (s.after before).store.committed
  /-- A bulk load that fails changes neither committed rows and entities nor those of a copy. -/
  refused {name : String} {t : Table} {stream : List UInt8} {e : StoreError}
    (hfailed : (s.step (.copy name t stream)).1 = .error e) :
    (s.step (.copy name t stream)).2.store.committed.SameContents s.store.committed
      ∧ ∀ {name' : String} {u : Transaction}, s.live.get? name' = some u →
        ∃ u', (s.step (.copy name t stream)).2.live.get? name' = some u'
          ∧ u.working.ExtendedBy [] u'.working
  /-- What a transaction reads is told by the committed state that it began with and by its own answered
  operations. -/
  read {name : String} {ops : List StoreOperation} (hopen : ∀ op ∈ ops, op.leavesOpen name = true)
    (q : LatestQuery) : ((s.opened name ops).step (.latest name q)).1
      = .ofExcept .rows ((s.store.committed.replay (s.acts name (.begin name :: ops))).latest q)
  /-- So is the entity of an address that it knows. -/
  known {name : String} {ops : List StoreOperation} (hopen : ∀ op ∈ ops, op.leavesOpen name = true)
    {a : Address} {e : Entity} (v : Int64)
    (ha : (s.store.committed.entities.get? a).or (bound? a (s.acts name (.begin name :: ops))) = some e) :
    ((s.opened name ops).step (.resolve name a v)).1 = .entity e
  /-- No sequence goes back. -/
  forward {ops : List StoreOperation} (hroom : s.Roomy ops) {q : String} {v : Int64}
    (h : s.store.sequenceValue? q = some v) :
    ∃ v', (s.after ops).store.sequenceValue? q = some v' ∧ v ≤ v'
  /-- Each value that a sequence issues is greater than all that it issued before, to whichever
  transaction. -/
  increasing {ops : List StoreOperation} (hroom : s.Roomy ops) :
    (s.issuedIn ops).Pairwise fun x y => x.1 = y.1 → x.2 < y.2

/-- An operation of a transaction that does not commit publishes nothing. -/
theorem publishes_of_transaction? {name : String} {op : StoreOperation}
    (hop : op.transaction? = some name) (hne : op ≠ .commit name) : op.publishes = false := by
  cases op with
  | seed | register => cases hop
  | commit name' =>
    cases hop
    exact absurd rfl hne
  | _ => rfl

theorem sameContents_step {op : StoreOperation} (hp : op.publishes = false) :
    (s.step op).2.store.committed.SameContents s.store.committed := by
  rw [committed_step hp]
  exact ⟨Snapshot.tables_withSequences _ _, Snapshot.entities_withSequences _ _⟩

/-- Transactions are isolated from each other in every state that operations lead to. -/
theorem isolated (hs : s.Reached) : s.Isolates where
  published := sameContents_step
  committed := s.extendedBy_throughCommit
  abandoned {name ops} hopen {before after op} hops hop := by
    refine sameContents_step (publishes_of_transaction? hop ?_)
    rintro rfl
    have hmem : .commit name ∈ .begin name :: (ops ++ [.rollback name]) := by simp [hops]
    have hcommit : .commit name ∈ ops := by simpa using hmem
    simpa [StoreOperation.leavesOpen] using hopen _ hcommit
  refused {name t stream e} hfailed := by
    refine ⟨sameContents_step rfl, fun {name' u} hu => ?_⟩
    by_cases hname : name' = name
    · subst hname
      refine ⟨_, live_step hu rfl rfl, ?_⟩
      have hact : u.working.ExtendedBy [(.copy name' t stream, _)] _ := extendedBy_act hu rfl rfl
      rw [hfailed] at hact ⊢
      exact ⟨hact.rows, hact.entities⟩
    · refine ⟨u, (live_step_of_ne ?_).trans hu, .refl _⟩
      exact fun he => hname (Option.some.inj he).symm
  read {name ops} hopen q := by
    rw [step, inTransaction_of_some (s.live_opened hopen)]
    rfl
  known {name ops} hopen {a e} v ha := by
    rw [answer_resolve (s.live_opened hopen), Connection.resolve_of_some]
    exact ((s.extendedBy_opened hopen).entities a).trans ha
  forward hroom _ _ h := hs.regular.sequenceValue?_after hroom h
  increasing hroom := (hs.regular.increasing_issuedIn hroom).imp fun h he => Int64.lt_iff_toInt_lt.2 (h he)

def accountSample : Address := ⟨"account_f", by decide⟩

/-- The row of a deposit rule of entity 1 with a given id, at state version 1. -/
def ruleRow (id : Int64) : Row := DepositRule.domain.encode ⟨id, 1, ⟨1⟩, .accept⟩

/-- Loads the row of a deposit rule with a given id. -/
def copyRule (name : String) (id : Int64) : StoreOperation :=
  .copy name DepositRule.table ((BulkStream.new DepositRule.table).offerAll [ruleRow id]).1.bytes

/-- A transaction that commits a row and an entity while another one is open and has taken the id before. -/
def isolationSample : List StoreOperation :=
  [.begin "a", .next "a" [DepositRule.table], .begin "b", .next "b" [DepositRule.table],
    .resolve "b" accountSample 1, copyRule "b" 2, .commit "b"]

/-- The row and the entity are committed, and the transaction that is still open does not see the row. -/
theorem isolated_sample : (after {} isolationSample).Reached
    ∧ (after {} isolationSample).store.rows DepositRule.table.name = [ruleRow 2]
    ∧ (after {} isolationSample).store.entityCount = 1
    ∧ ((after {} isolationSample).step (.latest "a"
      ⟨DepositRule.table, ["account_entity_id"], [[.int8 1]], none⟩)).1 = .rows []
    ∧ (after {} isolationSample).Isolates := by
  have hs : Reached (after {} isolationSample) := ⟨isolationSample, by decide +kernel, rfl⟩
  exact ⟨hs, by decide +kernel, by decide +kernel, by decide +kernel, isolated hs⟩

end OpenStore

end LedgerHistory
