import LedgerHistory.Domain.Catalog
import LedgerHistory.Proofs.Dictionary

/-!
# What substates mean

The meaning of a substate depends on nothing but the numbers of the addresses that it mentions
(`ListKind.meaningOf_eq`), and the domain that records a substate is the one that has a meaning for
it (`ListKind.isSome_meaning`).
-/

namespace LedgerHistory

/-- The numbers of entities by their addresses. -/
abbrev Numbering := Address → EntityId

/-- The meaning of a substate once the entities have numbers. -/
def ListKind.meaning (number : Numbering) :
    (k : ListKind) → Substate → Option (Meaning k.domain.Change k.domain.Singleton)
  | .metadata, .metadataEntry key value isLocked =>
    some (.entry (⟨key, value, isLocked⟩ : Metadata.Change))
  | .roleAssignment, .roleAssignmentOwner ownerRole => some (.singleton ownerRole)
  | .roleAssignment, .roleAssignmentRule roleKey scope rule =>
    some (.entry (⟨roleKey, scope, rule⟩ : RoleAssignment.Change))
  | .methodRoyalty, .methodRoyalty name amount isLocked =>
    some (.entry (⟨name, amount, isLocked⟩ : MethodRoyalty.Change))
  | .resourcePreference, .resourcePreference resource preference =>
    some (.entry (⟨number resource, preference⟩ : Preference.Change))
  | .authorizedDepositor, .authorizedDepositor badge isDeleted =>
    some (.entry (⟨.ofBadge (number badge.resourceAddress) badge, isDeleted⟩ : Depositor.Change))
  | _, _ => none

namespace ListKind

variable {number : Numbering} {s : Substate}

theorem meaningOf_eq (k : ListKind) {known : KnownEntities}
    (h : ∀ a ∈ s.mentions, ∃ e, (known.lookupGlobal a).1 = .ok e ∧ e.id = number a) :
    k.domain.meaningOf s known = .ok (k.meaning number s) := by
  cases k <;> cases s <;> try rfl
  case resourcePreference resource preference =>
    obtain ⟨e, he, hn⟩ := h resource List.mem_cons_self
    simp [domain, Preference.domain, meaning, he, hn, bind, Except.bind, pure, Except.pure]
  case authorizedDepositor badge isDeleted =>
    obtain ⟨e, he, hn⟩ := h badge.resourceAddress List.mem_cons_self
    simp [domain, Depositor.domain, meaning, he, hn, bind, Except.bind, pure, Except.pure]

theorem isSome_meaning (k : ListKind) (number : Numbering) :
    (k.meaning number s).isSome ↔ s.domain? = some k.domain.name := by
  cases k <;> cases s <;> simp [meaning, Substate.domain?, domain, Metadata.domain,
    RoleAssignment.domain, MethodRoyalty.domain, Preference.domain, Depositor.domain]

theorem meaning_congr {number' : Numbering} (k : ListKind)
    (h : ∀ a ∈ s.mentions, number a = number' a) : k.meaning number s = k.meaning number' s := by
  cases k <;> cases s <;> try rfl
  case resourcePreference resource preference =>
    rw [meaning, meaning, h resource List.mem_cons_self]
  case authorizedDepositor badge isDeleted =>
    rw [meaning, meaning, h badge.resourceAddress List.mem_cons_self]

theorem isDeletion_of_meaning {k : ListKind} {c : k.domain.Change}
    (h : k.meaning number s = some (.entry c)) : k.domain.isDeletion c = s.isDeletion := by
  cases k <;> cases s <;> cases h <;> rfl

/-- A substate of the domain is refused when an address that it mentions is not found. -/
theorem meaningOf_eq_error {k : ListKind} {known : KnownEntities} {a : Address} {e : InvocationError}
    (hd : s.domain? = some k.domain.name) (ha : a ∈ s.mentions)
    (h : (known.lookupGlobal a).1 = .error e) : k.domain.meaningOf s known = .error e := by
  cases s <;> simp only [Substate.mentions, List.not_mem_nil, List.mem_singleton] at ha
  all_goals
    subst ha
    cases k <;> cases hd
  · simp [domain, Preference.domain, h, bind, Except.bind]
  · simp [domain, Depositor.domain, h, bind, Except.bind]

/-- A substate of another domain is passed over, whatever is known. -/
theorem meaningOf_of_ne {k : ListKind} (hd : s.domain? ≠ some k.domain.name) (known : KnownEntities) :
    k.domain.meaningOf s known = .ok none := by
  cases k <;> cases s <;> try rfl
  all_goals exact absurd rfl hd

end ListKind

theorem PlainKind.isSome_meaningOf {s : Substate} (k : PlainKind) :
    (k.domain.meaningOf s).isSome ↔ s.domain? = some k.domain.name := by
  cases k <;> cases s <;> simp [Substate.domain?, domain, DepositRule.domain, ComponentState.domain]

end LedgerHistory
