import LedgerHistory.Proofs.Script.Calm
import LedgerHistory.Proofs.Store.Directory

/-!
# Known entities

An invocation meets the entities of the directory and no others (`KnownEntities.Meets`), so a global
address is looked up to the directory's entity once it was met (`KnownEntities.lookupGlobal_eq`).
-/

namespace LedgerHistory

/-- What holds of the entities met: they are those of the directory, and no index was built. -/
structure KnownEntities.Meets (r : KnownEntities) (w : World) : Prop where
  index : r.byGlobalAddress = {}
  known {e : Entity} (h : e ∈ r.order) : w.working.entities.get? e.address = some e

theorem EntityIndex.mem_build {κ : Type} {keyOf : Entity → Option κ} {es : List Entity} {key : κ}
    {e : Entity} : (key, e) ∈ (build keyOf es).entries ↔ e ∈ es ∧ keyOf e = some key := by
  simp only [build, List.mem_reverse, List.mem_filterMap, Option.map_eq_some_iff, Prod.mk.injEq]
  constructor
  · rintro ⟨e', he, key', hkey, rfl, rfl⟩
    exact ⟨he, hkey⟩
  · rintro ⟨he, hkey⟩
    exact ⟨e, he, key, hkey, rfl, rfl⟩

namespace KnownEntities

variable {r : KnownEntities} {w : World}

theorem globalKey_eq_some_iff {e : Entity} {a : Address} :
    globalKey e = some a ↔ e.isGlobal ∧ e.address = a := by
  by_cases hg : e.isGlobal <;> simp [globalKey, hg]

theorem meets_empty (w : World) : empty.Meets w := ⟨rfl, fun h => absurd h List.not_mem_nil⟩

theorem Meets.demand (h : r.Meets w) (d : Demand) : r.Meets (w.demand d) :=
  ⟨h.index, fun he => World.get?_demand_of_some (h.known he) d⟩

theorem lookupGlobal_eq (h : r.Meets w) {e : Entity} (he : e ∈ r.order)
    (hg : e.address.isGlobal) : (r.lookupGlobal e.address).1 = .ok e := by
  have hne : ¬0 = r.order.length := by
    have := List.length_pos_of_mem he
    omega
  have hmem : (e.address, e) ∈ (EntityIndex.build globalKey r.order).entries :=
    EntityIndex.mem_build.2 ⟨he, globalKey_eq_some_iff.2 ⟨hg, rfl⟩⟩
  have hfind : Dictionary.find? e.address (EntityIndex.build globalKey r.order).entries = some e := by
    rcases hf : Dictionary.find? e.address (EntityIndex.build globalKey r.order).entries with _ | e'
    · exact absurd (List.mem_map.2 ⟨_, hmem, rfl⟩) (Dictionary.find?_eq_none_iff.1 hf)
    · obtain ⟨he', hkey⟩ := EntityIndex.mem_build.1 (Dictionary.find?_mem hf)
      have hknown := h.known he'
      rw [(globalKey_eq_some_iff.1 hkey).2, h.known he] at hknown
      exact hknown.symm
  simp only [lookupGlobal, EntityIndex.lookup, h.index, EntityIndex.find?, Dictionary.find?, hne,
    if_false, hfind]
  rfl

theorem isGlobal_of_lookupGlobal (h : r.byGlobalAddress = {}) {a : Address} {e : Entity}
    (he : (r.lookupGlobal a).1 = .ok e) : a.isGlobal := by
  simp only [lookupGlobal, EntityIndex.lookup, h, EntityIndex.find?, Dictionary.find?] at he
  generalize hindex : (if 0 = r.order.length then ({} : EntityIndex Address)
    else EntityIndex.build globalKey r.order) = index at he
  rcases hf : Dictionary.find? a index.entries with _ | e'
  · rw [hf] at he
    cases he
  · have hm := Dictionary.find?_mem hf
    subst hindex
    split at hm
    · cases hm
    · obtain ⟨hglobal, ha⟩ := globalKey_eq_some_iff.1 (EntityIndex.mem_build.1 hm).2
      exact ha ▸ hglobal

theorem lookupGlobal_of_not_isGlobal (h : r.byGlobalAddress = {}) {a : Address} (ha : ¬a.isGlobal) :
    (r.lookupGlobal a).1 = .error (.notFound (.globalAddress a)) := by
  rcases hl : (r.byGlobalAddress.lookup globalKey r.order a).1 with _ | e
  · simp [lookupGlobal, hl]
  · exact absurd (isGlobal_of_lookupGlobal h (e := e) (by simp [lookupGlobal, hl])) ha

theorem mem_insert_of_mem {e e' : Entity} (h : e' ∈ r.order) : e' ∈ (r.insert e).2.order := by
  unfold insert
  split
  · exact h
  · exact List.mem_append_left _ h

theorem insert_fst {e : Entity} (h : r.Meets w) (he : w.working.entities.get? e.address = some e) :
    (r.insert e).1 = e ∧ e ∈ (r.insert e).2.order := by
  unfold insert
  split
  · rename_i known hk
    have hm := List.mem_of_find?_eq_some hk
    have ha : known.address = e.address := by simpa using List.find?_some hk
    have := h.known hm
    rw [ha, he] at this
    cases this
    exact ⟨rfl, hm⟩
  · exact ⟨rfl, List.mem_append_right _ List.mem_cons_self⟩

theorem Meets.insert {e : Entity} (h : r.Meets w)
    (he : w.working.entities.get? e.address = some e) : (r.insert e).2.Meets w := by
  unfold KnownEntities.insert
  split
  · exact h
  · refine ⟨h.index, fun hm => ?_⟩
    rcases List.mem_append.1 hm with hm | hm
    · exact h.known hm
    · rw [List.mem_singleton.1 hm]
      exact he

end KnownEntities

end LedgerHistory
