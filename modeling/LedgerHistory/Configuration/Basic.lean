import LedgerHistory.Json.Decoder
import LedgerHistory.Ledger.Substate

/-!
# Configuration

Which domains are recorded, from which length on lists are warned of, and whether the ends of stages
are let be known. What a configuration leaves out has its default.
-/

namespace LedgerHistory

/-- Whether each domain is recorded. -/
structure DomainSwitches where
  metadata : Bool := true
  roleAssignment : Bool := true
  methodRoyalty : Bool := true
  resourcePreference : Bool := true
  authorizedDepositor : Bool := true
  defaultDepositRule : Bool := true
  componentState : Bool := true
  deriving DecidableEq, Repr

namespace DomainSwitches

def isEnabled (t : DomainSwitches) : DomainName → Bool
  | .metadata => t.metadata
  | .roleAssignment => t.roleAssignment
  | .methodRoyalty => t.methodRoyalty
  | .resourcePreference => t.resourcePreference
  | .authorizedDepositor => t.authorizedDepositor
  | .defaultDepositRule => t.defaultDepositRule
  | .componentState => t.componentState

/-- The domains that are recorded, in order. -/
def enabled (t : DomainSwitches) : List DomainName := DomainName.all.filter t.isEnabled

/-- Switches a domain on or off. -/
def set (t : DomainSwitches) (on : Bool) : DomainName → DomainSwitches
  | .metadata => { t with metadata := on }
  | .roleAssignment => { t with roleAssignment := on }
  | .methodRoyalty => { t with methodRoyalty := on }
  | .resourcePreference => { t with resourcePreference := on }
  | .authorizedDepositor => { t with authorizedDepositor := on }
  | .defaultDepositRule => { t with defaultDepositRule := on }
  | .componentState => { t with componentState := on }

/-- The field of a domain in switches that are being read, with the domains read so far. -/
def field (d : DomainName) : Decoder.RecordField (DomainSwitches × List DomainName) :=
  ⟨d.text, fun st => d ∈ st.2, fun o s st => do
    return (st.1.set (← Decoder.bool o s) d, d :: st.2), true⟩

def decode : Decoder DomainSwitches :=
  Decoder.record (DomainName.all.map field) ({}, []) fun st => .ok st.1

def encode (t : DomainSwitches) : Json :=
  .object (DomainName.all.map fun d => (d.text, .bool (t.isEnabled d)))

end DomainSwitches

structure Configuration where
  domains : DomainSwitches := {}
  maxAggregateWarnLength : Nat := 1000
  stageTimings : Bool := true
  deriving DecidableEq, Repr

namespace Configuration

/-- A configuration that is being read. -/
structure Partial where
  domains : Option DomainSwitches := none
  warnLength : Option Nat := none
  stageTimings : Option Bool := none

def fields : List (Decoder.RecordField Partial) :=
  [⟨"domains", (·.domains.isSome), fun o s p => do
      return { p with domains := some (← DomainSwitches.decode o s) }, true⟩,
    ⟨"max_aggregate_warn_len", (·.warnLength.isSome), fun o s p => do
      return { p with warnLength := some (← Decoder.nat64 o s) }, true⟩,
    ⟨"stage_timings", (·.stageTimings.isSome), fun o s p => do
      return { p with stageTimings := some (← Decoder.bool o s) }, true⟩]

def decode : Decoder Configuration := Decoder.record fields {} fun p =>
  let default : Configuration := {}
  .ok ⟨p.domains.getD default.domains, p.warnLength.getD default.maxAggregateWarnLength,
    p.stageTimings.getD default.stageTimings⟩

def encode (c : Configuration) : Json :=
  .object [("domains", c.domains.encode),
    ("max_aggregate_warn_len", .ofNat c.maxAggregateWarnLength),
    ("stage_timings", .bool c.stageTimings)]

end Configuration

end LedgerHistory
