import LedgerHistory.Store.Interleaving
import LedgerHistory.Proofs.Outcome
import LedgerHistory.Proofs.Store.Sequences

/-!
# Operations of interleaved transactions

An operation acts on no transaction but its own (`OpenStore.live_step_of_ne`), and what it makes of
that one's copy is told by the copy, the operation and its answer (`OpenStore.live_step`). So a
transaction works on what its own answered operations made of the state it began with, whatever the
others did meanwhile (`OpenStore.live_after`). The committed state, for its part, changes in nothing
but sequences until a commit (`OpenStore.committed_step`).
-/

namespace LedgerHistory

namespace StoreOperation

/-- The transaction that an operation is of. -/
def transaction? : StoreOperation → Option String
  | .begin name | .next name _ | .set name _ | .latest name _ | .copy name _ _ | .resolve name _ _
  | .commit name | .rollback name => some name
  | .seed _ _ | .register _ | .rows _ | .sequence _ | .entityCount | .failNextCopy => none

/-- Whether an operation is one that puts rows or entities into the committed state. -/
def publishes : StoreOperation → Bool
  | .seed _ _ | .register _ | .commit _ => true
  | _ => false

/-- Whether an operation neither opens nor ends a transaction. -/
def leavesOpen (name : String) : StoreOperation → Bool
  | .begin name' | .commit name' | .rollback name' => name' ≠ name
  | _ => true

/-- The sequences that an operation advances, if its transaction works on a given copy. -/
def advances (k : Snapshot) : StoreOperation → List String
  | .next _ ts => ts.map (·.sequenceName)
  | .resolve _ a _ => if (k.entities.get? a).isSome then [] else [entitySequence]
  | _ => []

/-- What an operation of a transaction may be that neither opens nor ends it. -/
theorem eq_of_leavesOpen {name : String} {op : StoreOperation} (hop : op.transaction? = some name)
    (hopen : op.leavesOpen name = true) : (∃ ts, op = .next name ts) ∨ (∃ values, op = .set name values)
      ∨ (∃ q, op = .latest name q) ∨ (∃ t stream, op = .copy name t stream)
      ∨ ∃ a v, op = .resolve name a v := by
  cases op with
  | seed | register | rows | sequence | entityCount | failNextCopy => cases hop
  | begin name' | commit name' | rollback name' =>
    cases hop
    simp [leavesOpen] at hopen
  | next _ ts =>
    cases hop
    exact .inl ⟨ts, rfl⟩
  | set _ values =>
    cases hop
    exact .inr (.inl ⟨values, rfl⟩)
  | latest _ q =>
    cases hop
    exact .inr (.inr (.inl ⟨q, rfl⟩))
  | copy _ t stream =>
    cases hop
    exact .inr (.inr (.inr (.inl ⟨t, stream, rfl⟩)))
  | resolve _ a v =>
    cases hop
    exact .inr (.inr (.inr (.inr ⟨a, v, rfl⟩)))

theorem leavesOpen_of_ne {name : String} {op : StoreOperation}
    (h : op.transaction? ≠ some name) : op.leavesOpen name = true := by
  cases op with
  | begin name' | commit name' | rollback name' =>
    have hne : name' ≠ name := fun he => h (congrArg some he)
    simp [leavesOpen, hne]
  | _ => rfl

/-- What an operation may be that publishes. -/
theorem eq_of_publishes {op : StoreOperation} (hp : op.publishes = true) :
    (∃ t rows, op = .seed t rows) ∨ (∃ e, op = .register e) ∨ ∃ name, op = .commit name := by
  cases op with
  | seed t rows => exact .inl ⟨t, rows, rfl⟩
  | register e => exact .inr (.inl ⟨e, rfl⟩)
  | commit name => exact .inr (.inr ⟨name, rfl⟩)
  | _ => cases hp

end StoreOperation

namespace Snapshot

variable (s : Snapshot)

/-- The values that sequences issue when they are advanced in order. -/
def issues (s : Snapshot) : List String → List (String × Int64)
  | [] => []
  | name :: names => (name, s.nextValue name) :: (s.withSequence name (s.nextValue name)).issues names

/-- The snapshot with sequences at values, of which the last one counts. -/
def withSequences (s : Snapshot) (values : List (String × Int64)) : Snapshot :=
  values.foldl (fun s x => s.withSequence x.1 x.2) s

/-- The snapshot with the rows of a stream, as far as it is accepted. -/
def load (t : Table) (stream : List UInt8) : Snapshot :=
  match t.decodeStream stream with
  | .ok rows => (s.appendRows t rows).1
  | .error _ => s

/-- The snapshot with an address bound to an entity, unless it is bound already. -/
def bindAddress (a : Address) (e : Entity) : Snapshot :=
  if (s.entities.get? a).isSome then s
  else { s.withSequence entitySequence e.id.number with entities := s.entities.insert a e }

/-- What an answered operation of its transaction makes of a copy. -/
def act (s : Snapshot) : StoreOperation × StoreAnswer → Snapshot
  | (.next _ ts, .values ns) => s.withSequences ((ts.map (·.sequenceName)).zip ns)
  | (.set _ values, _) => s.raiseAll values
  | (.copy _ _ _, .error (.transport _)) => s
  | (.copy _ t stream, _) => s.load t stream
  | (.resolve _ a _, .entity e) => s.bindAddress a e
  | _ => s

/-- What the answered operations of its transaction make of a copy, one after another. -/
def replay (acts : List (StoreOperation × StoreAnswer)) : Snapshot := acts.foldl act s

theorem replay_append (as bs : List (StoreOperation × StoreAnswer)) :
    s.replay (as ++ bs) = (s.replay as).replay bs := List.foldl_append

theorem zip_issues (names : List String) :
    names.zip ((s.issues names).map (·.2)) = s.issues names := by
  induction names generalizing s with
  | nil => rfl
  | cons name names ih => simp only [issues, List.map_cons, List.zip_cons_cons, ih]

theorem sequences_appendRows (t : Table) (rows : List Row) :
    (s.appendRows t rows).1.sequences = s.sequences := by
  unfold appendRows
  split
  · rfl
  · dsimp only
    split <;> rfl

theorem sequences_load (t : Table) (stream : List UInt8) :
    (s.load t stream).sequences = s.sequences := by
  unfold load
  split
  · exact s.sequences_appendRows t _
  · rfl

theorem act_copy (name : String) (t : Table) (stream : List UInt8) (answer : StoreAnswer) :
    s.act (.copy name t stream, answer) = s
      ∨ s.act (.copy name t stream, answer) = s.load t stream := by
  cases answer with
  | error e =>
    cases e with
    | transport m => exact .inl rfl
    | _ => exact .inr rfl
  | _ => exact .inr rfl

@[simp] theorem tables_withSequences (values : List (String × Int64)) :
    (s.withSequences values).tables = s.tables := by
  induction values generalizing s with
  | nil => rfl
  | cons x values ih => exact ih _

@[simp] theorem entities_withSequences (values : List (String × Int64)) :
    (s.withSequences values).entities = s.entities := by
  induction values generalizing s with
  | nil => rfl
  | cons x values ih => exact ih _

end Snapshot

/-! ## Calls of a transaction -/

theorem Snapshot.checkIds_ne_transport {t : Table} {i : Nat} {used batch : List Int64}
    {rows : List Row} {m : String} : checkIds t i used batch rows ≠ .error (.transport m) := by
  induction rows generalizing batch with
  | nil => exact nofun
  | cons row rows ih =>
    intro h
    rw [checkIds] at h
    rcases hid : (Row.at row i).readInt64 with e | id
    · rw [hid] at h
      cases h
      cases hv : Row.at row i <;> rw [hv] at hid <;> cases hid
    · rw [hid] at h
      simp only [bind, Except.bind] at h
      split at h
      · cases h
      · rcases hr : checkIds t i used (id :: batch) rows with e | ids
        · rw [hr] at h
          cases h
          exact ih hr
        · rw [hr] at h
          cases h

theorem Snapshot.appendRows_ne_transport {s : Snapshot} {t : Table} {rows : List Row} {m : String} :
    (s.appendRows t rows).2 ≠ .error (.transport m) := by
  intro h
  unfold appendRows at h
  split at h
  · rename_i hid
    unfold Table.positionOf at hid
    split at hid <;> cases hid
    cases h
  · simp only at h
    split at h
    · rename_i hids
      cases h
      exact checkIds_ne_transport hids
    · cases h

namespace Connection

variable (c : Connection)

theorem advanceSequences_eq (ts : List Table) :
    c.advanceSequences ts
      = let values := c.store.committed.issues (ts.map (·.sequenceName))
        (values.map (·.2), ⟨{ c.store with committed := c.store.committed.withSequences values },
          ⟨c.transaction.working.withSequences values⟩⟩) := by
  induction ts generalizing c with
  | nil => rfl
  | cons t ts ih =>
    simp only [advanceSequences, ih]
    rfl

/-- A bulk load that is not to fail leaves the rows of the stream as far as it is accepted. -/
theorem bulkLoad_eq (name : String) (t : Table) (stream : List UInt8) :
    (c.bulkLoad t stream).2.store.committed = c.store.committed
      ∧ (c.bulkLoad t stream).2.transaction.working
        = c.transaction.working.act (.copy name t stream, .ofExcept .count (c.bulkLoad t stream).1) := by
  unfold bulkLoad
  split
  · exact ⟨rfl, rfl⟩
  · rcases hd : t.decodeStream stream with e | rows
    · have he : ∃ m n o, e = .corruptStream m n o := by
        unfold Table.decodeStream at hd
        rcases hc : Copy.decode t.columns stream with f | rows <;> rw [hc] at hd <;> cases hd
        exact ⟨_, _, _, rfl⟩
      obtain ⟨m, n, o, rfl⟩ := he
      refine ⟨rfl, ?_⟩
      show _ = c.transaction.working.load t stream
      rw [Snapshot.load, hd]
    · refine ⟨rfl, ?_⟩
      show (c.transaction.working.appendRows t rows).1 = _
      have hload : (c.transaction.working.appendRows t rows).1 = c.transaction.working.load t stream := by
        rw [Snapshot.load, hd]
      have hne : ∀ m, (c.transaction.working.appendRows t rows).2 ≠ .error (.transport m) :=
        fun _ => Snapshot.appendRows_ne_transport
      rw [hload]
      simp only
      generalize (c.transaction.working.appendRows t rows).2 = r at hne
      rcases r with e | n
      · cases e with
        | transport m => exact absurd rfl (hne m)
        | _ => rfl
      · rfl

theorem resolve_of_some {a : Address} {e : Entity}
    (h : c.transaction.working.entities.get? a = some e) (v : Int64) : c.resolve a v = (e, c) := by
  rw [resolve, h]

/-- A new address is bound to an entity under the next number. -/
theorem resolve_of_none {a : Address} (h : c.transaction.working.entities.get? a = none) (v : Int64) :
    (c.resolve a v).1.id = ⟨c.store.committed.nextValue entitySequence⟩
      ∧ (c.resolve a v).2.store = { c.store with
        committed := c.store.committed.withSequences (c.store.committed.issues [entitySequence]) }
      ∧ (c.resolve a v).2.transaction.working
        = c.transaction.working.bindAddress a (c.resolve a v).1 := by
  have hid : (c.resolve a v).1.id = ⟨c.store.committed.nextValue entitySequence⟩ := by
    simp only [resolve, h, advance]
    split <;> rfl
  refine ⟨hid, ?_, ?_⟩
  · simp only [resolve, h, advance]
    rfl
  · rw [Snapshot.bindAddress, h, hid]
    simp only [resolve, h, advance]
    rfl

end Connection

namespace OpenStore

variable (s : OpenStore)

def after (ops : List StoreOperation) : OpenStore := (s.run ops).2

/-- Operations with their answers. -/
def trace (ops : List StoreOperation) : List (StoreOperation × StoreAnswer) := ops.zip (s.run ops).1

/-- The operations of a transaction with their answers. -/
def acts (name : String) (ops : List StoreOperation) : List (StoreOperation × StoreAnswer) :=
  (s.trace ops).filter (·.1.transaction? = some name)

/-- The store after a transaction was opened and operations followed. -/
def opened (name : String) (ops : List StoreOperation) : OpenStore := s.after (.begin name :: ops)

/-- The store after a transaction was opened, operations followed and the transaction committed. -/
def throughCommit (name : String) (ops : List StoreOperation) : OpenStore :=
  s.after (.begin name :: (ops ++ [.commit name]))

def advances (op : StoreOperation) : List String :=
  ((op.transaction?.bind s.live.get?).map fun t => op.advances t.working).getD []

/-! ## Runs -/

variable {s}

@[simp] theorem after_nil : s.after [] = s := rfl

@[simp] theorem after_cons (op : StoreOperation) (ops : List StoreOperation) :
    s.after (op :: ops) = (s.step op).2.after ops := rfl

theorem after_append (ops ops' : List StoreOperation) :
    s.after (ops ++ ops') = (s.after ops).after ops' := by
  induction ops generalizing s with
  | nil => rfl
  | cons op ops ih => exact ih

theorem throughCommit_eq (name : String) (ops : List StoreOperation) :
    s.throughCommit name ops = ((s.opened name ops).step (.commit name)).2 := by
  rw [throughCommit, ← List.cons_append, after_append]
  rfl

@[simp] theorem trace_cons (op : StoreOperation) (ops : List StoreOperation) :
    s.trace (op :: ops) = (op, (s.step op).1) :: (s.step op).2.trace ops := rfl

theorem acts_cons (name : String) (op : StoreOperation) (ops : List StoreOperation) :
    s.acts name (op :: ops) = (if op.transaction? = some name then [(op, (s.step op).1)] else [])
      ++ (s.step op).2.acts name ops := by
  unfold acts
  rw [trace_cons, List.filter_cons]
  by_cases h : op.transaction? = some name <;> simp [h]

/-! ## Steps -/

section Step

variable {name : String} {t : Transaction} {op : StoreOperation}

theorem inTransaction_of_some (h : s.live.get? name = some t)
    (f : Connection → StoreAnswer × OpenStore) : s.inTransaction name f = f ⟨s.store, t⟩ := by
  rw [inTransaction, h]

theorem inTransaction_of_none (h : s.live.get? name = none)
    (f : Connection → StoreAnswer × OpenStore) :
    s.inTransaction name f = (.noTransaction, s) := by
  rw [inTransaction, h]

/-- Without its transaction an operation does nothing, unless it opens it. -/
theorem step_of_none (h : s.live.get? name = none) (hop : op.transaction? = some name)
    (hbegin : op ≠ .begin name) : s.step op = (.noTransaction, s) := by
  cases op with
  | seed | register | rows | sequence | entityCount | failNextCopy => cases hop
  | begin name' =>
    cases hop
    exact absurd rfl hbegin
  | next | set | latest | copy | resolve | commit | rollback =>
    cases hop
    simp only [step, inTransaction_of_none h]

theorem answer_next (h : s.live.get? name = some t) (ts : List Table) :
    (s.step (.next name ts)).1
      = .values ((s.store.committed.issues (ts.map (·.sequenceName))).map (·.2)) := by
  rw [step, inTransaction_of_some h, Connection.advanceSequences_eq]

theorem answer_resolve (h : s.live.get? name = some t) (a : Address) (v : Int64) :
    (s.step (.resolve name a v)).1 = .entity (Connection.resolve ⟨s.store, t⟩ a v).1 := by
  rw [step, inTransaction_of_some h]

theorem answer_copy (h : s.live.get? name = some t) (t' : Table) (stream : List UInt8) :
    (s.step (.copy name t' stream)).1
      = .ofExcept .count (Connection.bulkLoad ⟨s.store, t⟩ t' stream).1 := by
  rw [step, inTransaction_of_some h]

/-- What an operation makes of its transaction's copy. -/
theorem live_step (h : s.live.get? name = some t) (hop : op.transaction? = some name)
    (hopen : op.leavesOpen name = true) :
    (s.step op).2.live.get? name = some ⟨t.working.act (op, (s.step op).1)⟩ := by
  obtain ⟨ts, rfl⟩ | ⟨values, rfl⟩ | ⟨q, rfl⟩ | ⟨t', stream, rfl⟩ | ⟨a, v, rfl⟩ :=
    StoreOperation.eq_of_leavesOpen hop hopen
  · simp [step, inTransaction_of_some h, Connection.advanceSequences_eq, withConnection,
      Snapshot.act, Snapshot.zip_issues]
  · simp [step, inTransaction_of_some h, withConnection, Snapshot.act, Connection.raiseSequences,
      Connection.withWorking, Snapshot.raiseAll]
  · simp [step, inTransaction_of_some h, h, Snapshot.act]
  · have hload := (Connection.bulkLoad_eq ⟨s.store, t⟩ name t' stream).2
    simp only [step, inTransaction_of_some h, withConnection, Dictionary.get?_insert, if_true]
    rw [← hload]
  · simp only [step, inTransaction_of_some h, withConnection, Dictionary.get?_insert, if_true,
      Snapshot.act]
    rcases ha : t.working.entities.get? a with _ | e
    · rw [← (Connection.resolve_of_none ⟨s.store, t⟩ ha v).2.2]
    · rw [Connection.resolve_of_some ⟨s.store, t⟩ ha, Snapshot.bindAddress, ha]
      rfl

/-- An operation leaves other transactions as they are. -/
theorem live_step_of_ne (hop : op.transaction? ≠ some name) :
    (s.step op).2.live.get? name = s.live.get? name := by
  cases op with
  | seed | register | rows | sequence | entityCount | failNextCopy => rfl
  | begin name' =>
    have hne : name' ≠ name := fun he => hop (congrArg some he)
    simp [step, hne]
  | next name' _ | set name' _ | latest name' _ | copy name' _ _ | resolve name' _ _ =>
    have hne : name' ≠ name := fun he => hop (congrArg some he)
    rcases ht : s.live.get? name' with _ | t
    · simp [step, inTransaction_of_none ht]
    · simp [step, inTransaction_of_some ht, withConnection, hne]
  | commit name' | rollback name' =>
    have hne : name' ≠ name := fun he => hop (congrArg some he)
    rcases ht : s.live.get? name' with _ | t
    · simp [step, inTransaction_of_none ht]
    · simp [step, inTransaction_of_some ht, Dictionary.get?_erase, hne]

/-- A transaction that is open after an operation was opened by it, or was open already. -/
theorem live_of_live_step (h : (s.step op).2.live.get? name = some t) (hne : op ≠ .begin name) :
    op.leavesOpen name = true ∧ ∃ t', s.live.get? name = some t' := by
  by_cases hop : op.transaction? = some name
  · rcases ht : s.live.get? name with _ | t'
    · rw [step_of_none ht hop hne, ht] at h
      cases h
    · refine ⟨?_, t', rfl⟩
      cases op with
      | begin name' =>
        cases hop
        exact absurd rfl hne
      | commit name' | rollback name' =>
        cases hop
        simp [step, inTransaction_of_some ht, Dictionary.get?_erase] at h
      | _ => rfl
  · exact ⟨StoreOperation.leavesOpen_of_ne hop, t, (live_step_of_ne hop).symm.trans h⟩

theorem live_begin (s : OpenStore) (name : String) :
    (s.step (.begin name)).2.live.get? name = some ⟨s.store.committed⟩ := by
  simp [step, Store.begin]

/-- A transaction works on what its own answered operations made of its copy. -/
theorem live_after (h : s.live.get? name = some t) {ops : List StoreOperation}
    (hopen : ∀ op ∈ ops, op.leavesOpen name = true) :
    (s.after ops).live.get? name = some ⟨t.working.replay (s.acts name ops)⟩ := by
  induction ops generalizing s t with
  | nil => exact h
  | cons op ops ih =>
    have hops : ∀ op ∈ ops, op.leavesOpen name = true := fun op hop =>
      hopen op (List.mem_cons_of_mem _ hop)
    rw [after_cons, acts_cons, Snapshot.replay_append]
    by_cases hop : op.transaction? = some name
    · rw [if_pos hop]
      exact ih (live_step h hop (hopen op List.mem_cons_self)) hops
    · rw [if_neg hop]
      exact ih ((live_step_of_ne hop).trans h) hops

/-- A transaction that was opened works on what its own answered operations made of the committed state
at that time. -/
theorem live_opened (s : OpenStore) {ops : List StoreOperation}
    (hopen : ∀ op ∈ ops, op.leavesOpen name = true) :
    (s.opened name ops).live.get? name
      = some ⟨s.store.committed.replay (s.acts name (.begin name :: ops))⟩ := by
  rw [opened, after_cons, live_after (s.live_begin name) hopen, acts_cons,
    StoreOperation.transaction?, if_pos rfl, Snapshot.replay_append]
  rfl

theorem advances_of_some (h : s.live.get? name = some t) (hop : op.transaction? = some name) :
    s.advances op = op.advances t.working := by
  simp [advances, hop, h]

theorem advances_of_none (h : s.live.get? name = none) (hop : op.transaction? = some name) :
    s.advances op = [] := by
  simp [advances, hop, h]

theorem advances_eq_nil (h : ∀ k, op.advances k = []) : s.advances op = [] := by
  unfold advances
  rcases op.transaction?.bind s.live.get? with _ | t
  · rfl
  · exact h t.working

theorem committed_step_of_some (h : s.live.get? name = some t) (hop : op.transaction? = some name)
    (hopen : op.leavesOpen name = true) : (s.step op).2.store.committed
      = s.store.committed.withSequences (s.store.committed.issues (op.advances t.working)) := by
  obtain ⟨ts, rfl⟩ | ⟨values, rfl⟩ | ⟨q, rfl⟩ | ⟨t', stream, rfl⟩ | ⟨a, v, rfl⟩ :=
    StoreOperation.eq_of_leavesOpen hop hopen
  · rw [step, inTransaction_of_some h, Connection.advanceSequences_eq]
    rfl
  · rw [step, inTransaction_of_some h]
    rfl
  · rw [step, inTransaction_of_some h]
    rfl
  · rw [step, inTransaction_of_some h]
    exact (Connection.bulkLoad_eq ⟨s.store, t⟩ name t' stream).1
  · rw [step, inTransaction_of_some h, StoreOperation.advances]
    rcases ha : t.working.entities.get? a with _ | e
    · exact congrArg Store.committed (Connection.resolve_of_none ⟨s.store, t⟩ ha v).2.1
    · rw [Connection.resolve_of_some ⟨s.store, t⟩ ha]
      rfl

/-- An operation that publishes nothing changes the committed state in nothing but sequences. -/
theorem committed_step (hp : op.publishes = false) : (s.step op).2.store.committed
    = s.store.committed.withSequences (s.store.committed.issues (s.advances op)) := by
  have hkept : s.advances op = [] → (s.step op).2.store.committed = s.store.committed →
      (s.step op).2.store.committed
        = s.store.committed.withSequences (s.store.committed.issues (s.advances op)) := by
    rintro hnil he
    rw [hnil, he]
    rfl
  cases op with
  | seed | register | commit => cases hp
  | rows | sequence | entityCount | failNextCopy | begin =>
    exact hkept (advances_eq_nil fun _ => rfl) rfl
  | rollback name' =>
    refine hkept (advances_eq_nil fun _ => rfl) ?_
    rcases ht : s.live.get? name' with _ | t
    · rw [step_of_none ht rfl (by simp)]
    · rw [step, inTransaction_of_some ht]
  | next name' _ | set name' _ | latest name' _ | copy name' _ _ | resolve name' _ _ =>
    rcases ht : s.live.get? name' with _ | t
    · refine hkept (advances_of_none ht rfl) ?_
      rw [step_of_none ht rfl (by simp)]
    · rw [advances_of_some ht rfl]
      exact committed_step_of_some ht rfl rfl

/-- A commit puts the transaction's copy in the place of the committed state, sequences apart. -/
theorem step_commit (h : s.live.get? name = some t) : s.step (.commit name)
    = (.done, ⟨Connection.commit ⟨s.store, t⟩, s.live.erase name⟩) := by
  rw [step, inTransaction_of_some h]

end Step

end OpenStore

end LedgerHistory
