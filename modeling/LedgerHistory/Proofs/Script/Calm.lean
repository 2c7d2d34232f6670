import LedgerHistory.Proofs.Script.Runs

/-!
# The run in which nothing goes wrong

An action's calm run goes through its binds one after another up to the first that fails
(`Action.calm_bind`), and a session with nothing to come takes it (`Session.run_calm`).
-/

namespace LedgerHistory

namespace Action

variable {α β : Type}

@[simp] theorem calm_pure (a : α) (w : World) : (pure a : Action α).run.calm w = (.ok a, w) := rfl

@[simp] theorem calm_ofExcept (r : Except InvocationError α) (w : World) :
    (ofExcept r).run.calm w = (r, w) := rfl

@[simp] theorem calm_log (e : LogEvent) (w : World) : (log e).run.calm w = (.ok (), w) := rfl

@[simp] theorem calm_failIfCancelled (stage : Stage) (w : World) :
    (failIfCancelled stage).run.calm w = (.ok (), w) := rfl

theorem calm_bind (x : Action α) (f : α → Action β) (w : World) :
    (x >>= f).run.calm w = match x.run.calm w with
      | (.ok a, w) => (f a).run.calm w
      | (.error e, w) => (.error e, w) := by
  refine (Script.calm_bind x.run _ w).trans ?_
  rcases x.run.calm w with ⟨e | a, w⟩ <;> rfl

theorem calm_bind_of_ok {x : Action α} {f : α → Action β} {a : α} {w w' : World}
    (h : x.run.calm w = (.ok a, w')) : (x >>= f).run.calm w = (f a).run.calm w' := by
  rw [calm_bind, h]

theorem calm_bind_of_error {x : Action α} {f : α → Action β} {e : InvocationError} {w w' : World}
    (h : x.run.calm w = (.error e, w')) : (x >>= f).run.calm w = (.error e, w') := by
  rw [calm_bind, h]

theorem calm_bind_eq_ok {x : Action α} {f : α → Action β} {b : β} {w w' : World} :
    (x >>= f).run.calm w = (.ok b, w')
      ↔ ∃ a w₁, x.run.calm w = (.ok a, w₁) ∧ (f a).run.calm w₁ = (.ok b, w') := by
  rw [calm_bind]
  rcases x.run.calm w with ⟨e | a, w₁⟩
  · simp
  · constructor
    · exact fun h => ⟨a, w₁, rfl, h⟩
    · rintro ⟨_, _, h, h'⟩
      cases h
      exact h'

theorem calm_perform (stage : Stage) (c : StoreCall) (w : World) :
    (perform stage c).run.calm w = ((w.serve c).1.mapError (.store stage), (w.serve c).2) := rfl

theorem calm_request (stage : Stage) (c : StoreCall) (w : World) :
    (request stage c).run.calm w = ((w.serve c).1.mapError (.store stage), (w.serve c).2) :=
  (calm_bind_of_ok (calm_failIfCancelled stage w)).trans (calm_perform stage c w)

/-- Whether the calm runs of an action leave every world as it is. -/
def Reads (x : Action α) : Prop := ∀ w, (x.run.calm w).2 = w

theorem reads_pure (a : α) : (pure a : Action α).Reads := fun _ => rfl

theorem reads_ofExcept (r : Except InvocationError α) : (ofExcept r).Reads := fun _ => rfl

theorem reads_bind {x : Action α} {f : α → Action β} (hx : x.Reads) (hf : ∀ a, (f a).Reads) :
    (x >>= f).Reads := by
  intro w
  have h := hx w
  rw [calm_bind]
  rcases hc : x.run.calm w with ⟨e | a, w₁⟩ <;> rw [hc] at h <;> subst h
  · rfl
  · exact hf a w₁

theorem reads_mapM {f : α → Action β} (hf : ∀ a, (f a).Reads) : ∀ as : List α, (as.mapM f).Reads
  | [] => by simpa using reads_pure _
  | a :: as => by
    rw [List.mapM_cons]
    exact reads_bind (hf a) fun b => reads_bind (reads_mapM hf as) fun bs => reads_pure _

end Action

namespace Session

variable {α : Type}

/-- Whether nothing is to go wrong in a session. -/
structure IsCalm (s : Session) : Prop where
  live : s.cancelled = false
  awaited : s.awaited = []
  failNextCopy : s.store.failNextCopy = false

theorem failNextCopy_advanceSequences (ts : List Table) (c : Connection) :
    (c.advanceSequences ts).2.store.failNextCopy = c.store.failNextCopy := by
  induction ts generalizing c with
  | nil => rfl
  | cons t ts ih => exact ih (c.advance t.sequenceName).2

theorem failNextCopy_resolve (c : Connection) (a : Address) (v : Int64) :
    (c.resolve a v).2.store.failNextCopy = c.store.failNextCopy := by
  unfold Connection.resolve
  split <;> rfl

theorem failNextCopy_bulkLoad {c : Connection} (h : c.store.failNextCopy = false) (t : Table)
    (stream : List UInt8) : (c.bulkLoad t stream).2.store.failNextCopy = false := by
  unfold Connection.bulkLoad
  rw [h, if_neg Bool.false_ne_true]
  split <;> exact h

theorem isCalm_serve {s : Session} (h : s.IsCalm) (c : StoreCall) : (s.serve c).2.IsCalm := by
  refine ⟨?_, ?_, ?_⟩
  · cases c <;> exact h.live
  · cases c <;> exact h.awaited
  · cases c with
    | advanceSequences ts => exact (failNextCopy_advanceSequences ts _).trans h.failNextCopy
    | resolveEntity a v => exact (failNextCopy_resolve _ a v).trans h.failNextCopy
    | bulkLoad t stream => exact failNextCopy_bulkLoad (c := s.connection) h.failNextCopy t stream
    | commit =>
      show (s.connection.commit).failNextCopy = false
      exact h.failNextCopy
    | _ => exact h.failNextCopy

theorem serve_of_isCalm {s : Session} (h : s.IsCalm) (c : StoreCall) :
    (s.serve c).1 = (s.world.serve c).1 ∧ (s.serve c).2.world = (s.world.serve c).2 := by
  obtain ⟨⟨committed, fails⟩, transaction, _, _, _, _⟩ := s
  obtain ⟨_, _, rfl⟩ := h
  cases c <;> exact ⟨rfl, rfl⟩

theorem answer_of_isCalm {s : Session} (h : s.IsCalm) (c : StoreCall) :
    (s.answer c).1 = (s.world.serve c).1 ∧ (s.answer c).2.world = (s.world.serve c).2
      ∧ (s.answer c).2.IsCalm := by
  have ha : s.answer c = { s with calls := c :: s.calls }.serve c := by
    simp [answer, incidents, h.awaited, undergo]
  have hc : { s with calls := c :: s.calls }.IsCalm := ⟨h.1, h.2, h.3⟩
  obtain ⟨hr, hw⟩ := serve_of_isCalm hc c
  rw [ha]
  exact ⟨hr, hw, isCalm_serve hc c⟩

theorem run_calm (script : Script α) {s : Session} (h : s.IsCalm) :
    (s.run script).1 = (script.calm s.world).1
      ∧ (s.run script).2.world = (script.calm s.world).2 := by
  induction script generalizing s with
  | done a => exact ⟨rfl, rfl⟩
  | call c next ih =>
    obtain ⟨hr, hw, hc⟩ := answer_of_isCalm h c
    have := ih (s.answer c).1 hc
    rw [hw] at this
    simp only [run, Script.calm]
    rw [hr] at this ⊢
    exact this
  | ifCancelled next ih =>
    have := ih s.cancelled h
    simp only [run, Script.calm]
    rw [h.live] at this ⊢
    exact this
  | log e next ih => exact ih (s := { s with logged := e :: s.logged }) ⟨h.1, h.2, h.3⟩

theorem isCalm_run (script : Script α) {s : Session} (h : s.IsCalm) : (s.run script).2.IsCalm := by
  induction script generalizing s with
  | done a => exact h
  | call c next ih => exact ih _ (answer_of_isCalm h c).2.2
  | ifCancelled next ih => exact ih _ h
  | log e next ih => exact ih (s := { s with logged := e :: s.logged }) ⟨h.1, h.2, h.3⟩

end Session

end LedgerHistory
