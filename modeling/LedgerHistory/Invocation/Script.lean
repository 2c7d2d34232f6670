import LedgerHistory.Invocation.Error
import LedgerHistory.Store.Transaction

/-!
# Scripts

A script is a program that talks to the store: a tree whose nodes are calls with a branch for each
reply. It says nothing of who answers, so the same script runs alone, under failing calls or
interleaved with others.
-/

namespace LedgerHistory

inductive StoreCall
  | begin
  | advanceSequences (tables : List Table)
  | raiseSequences (values : List (Table × Int64))
  | latest (query : LatestQuery)
  | bulkLoad (table : Table) (stream : List UInt8)
  | resolveEntity (address : Address) (stateVersion : Int64)
  | commit
  | rollback

/-- What a call that succeeds replies. -/
abbrev StoreCall.Reply : StoreCall → Type
  | .advanceSequences _ => List Int64
  | .latest _ => List Row
  | .bulkLoad _ _ => Nat
  | .resolveEntity _ _ => Entity
  | .begin | .raiseSequences _ | .commit | .rollback => Unit

/-- What a script lets be known. -/
inductive LogEvent
  | warning (w : Warning)
  | stageComplete (stage : Stage)
  deriving DecidableEq

/-- A program that talks to the store. -/
inductive Script (α : Type) : Type
  | done (a : α)
  /-- Makes a call and goes on with its reply. -/
  | call (c : StoreCall) (next : Except StoreError c.Reply → Script α)
  /-- Asks whether the invocation was cancelled. -/
  | ifCancelled (next : Bool → Script α)
  | log (e : LogEvent) (next : Script α)

namespace Script

variable {α β : Type}

/-- Runs a script and then another on its result. -/
def bind (s : Script α) (f : α → Script β) : Script β :=
  match s with
  | done a => f a
  | call c next => call c fun r => (next r).bind f
  | ifCancelled next => ifCancelled fun b => (next b).bind f
  | log e next => log e (next.bind f)

instance : Monad Script where
  pure := done
  bind := bind

theorem bind_done (s : Script α) : s.bind done = s := by
  induction s with
  | done a => rfl
  | call c next ih => simp [bind, ih]
  | ifCancelled next ih => simp [bind, ih]
  | log e next ih => simp [bind, ih]

theorem bind_assoc {γ : Type} (s : Script α) (f : α → Script β) (g : β → Script γ) :
    (s.bind f).bind g = s.bind fun a => (f a).bind g := by
  induction s with
  | done a => rfl
  | call c next ih => simp [bind, ih]
  | ifCancelled next ih => simp [bind, ih]
  | log e next ih => simp [bind, ih]

instance : LawfulMonad Script :=
  .mk' Script (fun s => bind_done s) (fun _ _ => rfl) (fun s f g => bind_assoc s f g)

def perform (c : StoreCall) : Script (Except StoreError c.Reply) := call c done

end Script

/-- A script that may fail. -/
abbrev Action := ExceptT InvocationError Script

namespace Action

variable {α : Type}

/-- Fails when the invocation was cancelled. -/
def failIfCancelled (stage : Stage) : Action Unit :=
  ExceptT.mk <| .ifCancelled fun cancelled =>
    .done (if cancelled then .error (.cancelled stage) else .ok ())

/-- Makes a call, whose failure is that of a stage. -/
def perform (stage : Stage) (c : StoreCall) : Action c.Reply :=
  ExceptT.mk <| .call c fun r => .done (r.mapError (.store stage))

/-- Makes a call unless the invocation was cancelled. -/
def request (stage : Stage) (c : StoreCall) : Action c.Reply := do
  failIfCancelled stage
  perform stage c

/-- Lets something be known. -/
def log (e : LogEvent) : Action Unit := ExceptT.mk <| .log e (.done (.ok ()))

/-- A computation that needs no store. -/
def ofExcept (r : Except InvocationError α) : Action α := ExceptT.mk (.done r)

end Action

end LedgerHistory
