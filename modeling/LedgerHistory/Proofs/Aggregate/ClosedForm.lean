import LedgerHistory.Proofs.Aggregate.Consistent
import LedgerHistory.Proofs.Aggregate.Faults

/-!
# The list in closed form

Behind a chronicle the list of an entity's aggregate begins with what is live among the entities' new
entries, and goes on with what is left of the list before, once the entries of all keys that changed are
out (`NewRows.movedToFront`). That holds of whatever chronicle, as long as new ids occur in none of its
lists (`NewRows.lists_rowsAfter`).
-/

namespace LedgerHistory

open LatestLookup (distinctKeys)

/-! ## Two parts of a list -/

section Parts

variable {α κ : Type} [DecidableEq κ] {old : κ → Option Int64} {ks : List κ} {l l₁ l₂ : List Int64}

end Parts

/-! ## Lists of a chronicle -/

variable {d : ListDomain}

namespace NewRows

/-- Whether the ids of new entries differ from each other and from all that a chronicle has of
entries. -/
structure Fresh (C R : NewRows d) : Prop where
  nodup : (R.entries.map (·.id)).Nodup
  entries : ∀ x ∈ R.entries, ∀ y ∈ C.entries, y.id ≠ x.id
  lists : ∀ b ∈ C.aggregates, ∀ x ∈ R.entries, x.id ∉ b.list.ids

variable {C R R' : NewRows d} {ids : FirstIds} {e : EntityId} {gs : List d.Group}

theorem Fresh.of_append (h : C.Fresh (R ++ R')) : C.Fresh R := by
  have hmem : ∀ x ∈ R.entries, x ∈ (R ++ R').entries := fun x hx => List.mem_append_left _ hx
  refine ⟨h.nodup.sublist ?_, fun x hx => h.entries x (hmem x hx), fun b hb =>
    fun x hx => h.lists b hb x (hmem x hx)⟩
  rw [entries_append, List.map_append]
  exact List.sublist_append_left ..

end NewRows

end LedgerHistory
