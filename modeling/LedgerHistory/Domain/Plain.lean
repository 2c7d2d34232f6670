import LedgerHistory.Aggregate.Domain

/-!
# Domains without lists

Default deposit rules and component states: the latest row of an entity is its current value, so the
history alone is kept.
-/

namespace LedgerHistory

namespace DepositRule

def table : Table :=
  ⟨"account_default_deposit_rule_history", historyColumns "account_entity_id" ++
    [.required "default_deposit_rule" (.enum (Label.storeType DefaultDepositRule))]⟩

def domain : PlainDomain where
  name := .defaultDepositRule
  Change := DefaultDepositRule
  table := table
  meaningOf
    | .defaultDepositRule rule => some rule
    | _ => none
  encode r := historyFields r ++ [.ofLabel r.change]

end DepositRule

namespace ComponentState

def table : Table :=
  ⟨"state_history", historyColumns "entity_id" ++ [.required "json_state" .jsonb]⟩

def domain : PlainDomain where
  name := .componentState
  Change := Document
  table := table
  meaningOf
    | .componentState state => some state
    | _ => none
  encode r := historyFields r ++ [.jsonb r.change]

end ComponentState

end LedgerHistory
