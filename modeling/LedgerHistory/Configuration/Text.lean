import LedgerHistory.Configuration.Basic
import LedgerHistory.Invocation.Error
import LedgerHistory.Toml.Text

/-!
# The text of a configuration

A configuration as a TOML text. Keys that are not known are passed over, and what is left out has its
default.
-/

namespace LedgerHistory

namespace DomainSwitches

/-- Switches a domain by a truth value. -/
def switch (t : DomainSwitches) (d : DomainName) : Toml → Option DomainSwitches
  | .boolean b => some (t.set b d)
  | _ => none

/-- The switches of a table, by the names of the domains. -/
def ofFields? (fields : Toml.Fields) : Option DomainSwitches :=
  fields.entries.foldlM (fun t e =>
    match DomainName.all.find? (·.text = e.1) with
    | some d => t.switch d e.2
    | none => some t) {}

/-- The switches of an array, in the order of the domains. Those behind the last domain are passed over. -/
def ofItems? (items : List Toml) : Option DomainSwitches :=
  (DomainName.all.zip items).foldlM (fun t e => t.switch e.1 e.2) {}

/-- The switches of a value: a table, or an array with the domains in order. A date is a table that names
no domain. -/
def ofToml? : Toml → Option DomainSwitches
  | .table _ fields => ofFields? fields
  | .tables items => ofItems? (items.map (.table .header))
  | .array items => ofItems? items
  | .datetime _ => some {}
  | _ => none

def lines (t : DomainSwitches) : List String :=
  DomainName.all.map fun d => s!"{d.text} = {t.isEnabled d}"

end DomainSwitches

namespace Configuration

/-- Takes a field over. -/
def assign (c : Configuration) (name : String) (v : Toml) : Option Configuration :=
  if name = "domains" then (DomainSwitches.ofToml? v).map fun domains => { c with domains }
  else if name = "max_aggregate_warn_len" then
    match v with
    | .integer n => if 0 ≤ n then some { c with maxAggregateWarnLength := n.toInt.toNat } else none
    | _ => none
  else if name = "stage_timings" then
    match v with
    | .boolean stageTimings => some { c with stageTimings }
    | _ => none
  else some c

def ofText? (text : String) : Option Configuration := do
  let fields ← Toml.ofChars? text.toList
  fields.entries.foldlM (fun c e => assign c e.1 e.2) {}

/-- The configuration that a text holds, or the error that it holds none. -/
def ofText (text : String) : Except InvocationError Configuration :=
  match ofText? text with
  | some c => .ok c
  | none => .error (.config .malformed)

/-- The text of a configuration. A length beyond 63 bits cannot be written. -/
def text (c : Configuration) : Except InvocationError String :=
  if c.maxAggregateWarnLength ≤ Int64.maxValue.toInt then
    let lines := [s!"max_aggregate_warn_len = {c.maxAggregateWarnLength}",
      s!"stage_timings = {c.stageTimings}", "", "[domains]"] ++ c.domains.lines
    .ok (String.join (lines.map (· ++ "\n")))
  else .error (.config .unwritable)

end Configuration

end LedgerHistory
