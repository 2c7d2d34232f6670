import LedgerHistory.Invocation.Script

/-!
# Sessions

A session answers a script out of a store. It keeps a record of the calls and of what the script let
be known, and it holds the failures that are to come: the how-manieth call of a kind fails, or is the
one during which the invocation is cancelled.
-/

namespace LedgerHistory

inductive CallKind
  | begin
  | advanceSequences
  | raiseSequences
  | latest
  | bulkLoad
  | resolveEntity
  | commit
  | rollback
  deriving DecidableEq, Repr

def CallKind.name : CallKind → String
  | .begin => "begin"
  | .advanceSequences => "next_sequence_values"
  | .raiseSequences => "set_sequence_values"
  | .latest => "most_recent"
  | .bulkLoad => "copy_in"
  | .resolveEntity => "resolve_entity"
  | .commit => "commit"
  | .rollback => "rollback"

def CallKind.all : List CallKind :=
  [.begin, .advanceSequences, .raiseSequences, .latest, .bulkLoad, .resolveEntity, .commit,
    .rollback]

def StoreCall.kind : StoreCall → CallKind
  | .begin => .begin
  | .advanceSequences _ => .advanceSequences
  | .raiseSequences _ => .raiseSequences
  | .latest _ => .latest
  | .bulkLoad _ _ => .bulkLoad
  | .resolveEntity _ _ => .resolveEntity
  | .commit => .commit
  | .rollback => .rollback

/-- What a call is about, in short. -/
def StoreCall.summary : StoreCall → String
  | .advanceSequences tables => String.intercalate "," (tables.map (·.name))
  | .raiseSequences values =>
    String.intercalate "," (values.map fun v => s!"{v.1.name}={v.2}")
  | .latest query =>
    let bound := (query.bound.map toString).getD "none"
    s!"{query.table.name} keys={query.keys.length} bound={bound}"
  | .bulkLoad table stream => s!"{table.name} bytes={stream.length}"
  | .resolveEntity address version => s!"{address.text}@{version}"
  | .begin | .commit | .rollback => ""

def StoreCall.line (c : StoreCall) : String :=
  if c.summary = "" then c.kind.name else c.kind.name ++ " " ++ c.summary

/-- What befalls a call. -/
inductive Incident
  /-- It fails and has no effect. -/
  | fails (e : StoreError)
  /-- The invocation is cancelled while the call goes on. -/
  | cancels
  deriving DecidableEq

/-- An incident that awaits a call: the `nth` of its kind, counted from one. -/
structure Awaited where
  kind : CallKind
  nth : Nat
  incident : Incident
  deriving DecidableEq

/-- The surroundings of a script. -/
structure Session where
  store : Store
  transaction : Option Transaction := none
  cancelled : Bool := false
  awaited : List Awaited := []
  /-- The calls made, the last one first. -/
  calls : List StoreCall := []
  /-- What was let be known, the last event first. -/
  logged : List LogEvent := []

namespace Session

variable {α : Type}

/-- The number of calls of a kind so far. -/
def callCount (s : Session) (k : CallKind) : Nat := (s.calls.filter (·.kind = k)).length

/-- What befalls the next call of a kind, in order. -/
def incidents (s : Session) (k : CallKind) : List Incident :=
  (s.awaited.filter fun a => a.kind = k && a.nth = s.callCount k + 1).map (·.incident)

/-- The session after the incidents of a call, and the error that the call fails with, if it does. The
first failure ends the call, so that what was to befall it afterwards has no effect. -/
def undergo (s : Session) : List Incident → Option StoreError × Session
  | [] => (none, s)
  | .cancels :: rest => { s with cancelled := true }.undergo rest
  | .fails e :: _ => (some e, s)

/-- The open transaction with its store. Without one, a transaction is opened. -/
def connection (s : Session) : Connection := ⟨s.store, s.transaction.getD s.store.begin⟩

/-- The session after its connection changed. -/
def withConnection (s : Session) (c : Connection) : Session :=
  { s with store := c.store, transaction := some c.transaction }

/-- Answers a call out of the store. -/
def serve (s : Session) : (c : StoreCall) → Except StoreError c.Reply × Session
  | .begin => (.ok (), { s with transaction := some s.store.begin })
  | .advanceSequences tables =>
    let (values, c) := s.connection.advanceSequences tables
    (.ok values, s.withConnection c)
  | .raiseSequences values => (.ok (), s.withConnection (s.connection.raiseSequences values))
  | .latest query => (s.connection.latest query, s)
  | .bulkLoad table stream =>
    let (r, c) := s.connection.bulkLoad table stream
    (r, s.withConnection c)
  | .resolveEntity address version =>
    let (e, c) := s.connection.resolve address version
    (.ok e, s.withConnection c)
  | .commit => (.ok (), { s with store := s.connection.commit, transaction := none })
  | .rollback => (.ok (), { s with transaction := none })

/-- Answers a call, after recording it, as its incidents have it. -/
def answer (s : Session) (c : StoreCall) : Except StoreError c.Reply × Session :=
  match { s with calls := c :: s.calls }.undergo (s.incidents c.kind) with
  | (some e, s) => (.error e, s)
  | (none, s) => s.serve c

def run (s : Session) : Script α → α × Session
  | .done a => (a, s)
  | .call c next =>
    let (r, s') := s.answer c
    s'.run (next r)
  | .ifCancelled next => s.run (next s.cancelled)
  | .log e next => { s with logged := e :: s.logged }.run next

def warnings (s : Session) : List Warning :=
  s.logged.reverse.filterMap fun
    | .warning w => some w
    | .stageComplete _ => none

/-- The stages whose end was let be known, in order. -/
def completedStages (s : Session) : List Stage :=
  s.logged.reverse.filterMap fun
    | .stageComplete stage => some stage
    | .warning _ => none

end Session

end LedgerHistory
