import LedgerHistory.Proofs.Invocation.Grouping
import LedgerHistory.Proofs.Store.Sequences

/-!
# The entity directory

An address that is demanded stays with the entity that the directory has for it, or gets a new one
under the next number (`World.demand`). Demanding addresses one after another adds the new ones in
the order of their first demand (`World.keys_demandAll`), and the numbers stay distinct
(`World.numbered_demandAll`).
-/

namespace LedgerHistory

/-- An address, with the state version at which it is demanded. -/
abbrev Demand := Address × Int64

/-- Whether each address of the directory stands once, with an entity of that address. -/
structure Snapshot.Addressed (s : Snapshot) : Prop where
  nodup : s.entities.keys.Nodup
  address {a : Address} {e : Entity} (h : s.entities.get? a = some e) : e.address = a

theorem Snapshot.Addressed.of_entities_eq {s s' : Snapshot} (h : s.Addressed)
    (he : s'.entities = s.entities) : s'.Addressed :=
  ⟨he ▸ h.nodup, fun ha => h.address (he ▸ ha)⟩

namespace World

variable (w : World)

/-- The entity that the directory makes for a new address. -/
def newEntity (a : Address) (version : Int64) : Entity :=
  if a.isGlobal then .global a ⟨w.committed.nextValue entitySequence⟩ version
  else .internal a ⟨w.committed.nextValue entitySequence⟩ none version

/-- The world with a new address in the copy's directory. -/
def register (a : Address) (version : Int64) : World :=
  { w.advance entitySequence with
    working := { (w.advance entitySequence).working with
      entities := w.working.entities.insert a (w.newEntity a version) } }

/-- The world after an address is demanded. -/
def demand (d : Demand) : World :=
  match w.working.entities.get? d.1 with
  | some _ => w
  | none => w.register d.1 d.2

/-- The world after addresses are demanded in order. -/
def demandAll (w : World) (ds : List Demand) : World := ds.foldl demand w

theorem demandAll_cons (d : Demand) (ds : List Demand) :
    w.demandAll (d :: ds) = (w.demand d).demandAll ds := rfl

theorem demandAll_append (ds ds' : List Demand) :
    w.demandAll (ds ++ ds') = (w.demandAll ds).demandAll ds' := List.foldl_append

@[simp] theorem address_newEntity (a : Address) (v : Int64) : (w.newEntity a v).address = a := by
  unfold newEntity
  split <;> rfl

@[simp] theorem number_newEntity (a : Address) (v : Int64) :
    (w.newEntity a v).id = ⟨w.committed.nextValue entitySequence⟩ := by
  unfold newEntity
  split <;> rfl

variable {w}

theorem serve_resolveEntity_some {a : Address} {e : Entity} (h : w.working.entities.get? a = some e)
    (v : Int64) : w.serve (.resolveEntity a v) = (.ok e, w) := by
  rw [serve_resolveEntity]
  simp [Connection.resolve, connection, h]

theorem serve_resolveEntity_none {a : Address} (h : w.working.entities.get? a = none) (v : Int64) :
    w.serve (.resolveEntity a v) = (.ok (w.newEntity a v), w.register a v) := by
  rw [serve_resolveEntity]
  simp only [Connection.resolve, connection, h]
  rfl

theorem demand_of_some {a : Address} {e : Entity} (h : w.working.entities.get? a = some e)
    (v : Int64) : w.demand (a, v) = w := by
  simp [demand, h]

theorem demand_of_none {a : Address} (h : w.working.entities.get? a = none) (v : Int64) :
    w.demand (a, v) = w.register a v := by
  simp [demand, h]

theorem get?_demand_of_some {b : Address} {e : Entity} (h : w.working.entities.get? b = some e)
    (d : Demand) : (w.demand d).working.entities.get? b = some e := by
  obtain ⟨a, v⟩ := d
  rcases ha : w.working.entities.get? a with _ | e'
  · rw [demand_of_none ha]
    have hne : a ≠ b := by
      rintro rfl
      rw [ha] at h
      cases h
    simp [register, hne, h]
  · rw [demand_of_some ha]
    exact h

theorem get?_demandAll_of_some {b : Address} {e : Entity} (h : w.working.entities.get? b = some e)
    (ds : List Demand) : (w.demandAll ds).working.entities.get? b = some e := by
  induction ds generalizing w with
  | nil => exact h
  | cons d ds ih => exact ih (get?_demand_of_some h d)

theorem exists_get?_demand (d : Demand) :
    ∃ e, (w.demand d).working.entities.get? d.1 = some e := by
  obtain ⟨a, v⟩ := d
  rcases ha : w.working.entities.get? a with _ | e
  · exact ⟨w.newEntity a v, by simp [demand_of_none ha, register]⟩
  · exact ⟨e, by rw [demand_of_some ha]; exact ha⟩

theorem exists_get?_demandAll {ds : List Demand} {d : Demand} (hd : d ∈ ds) :
    ∃ e, (w.demandAll ds).working.entities.get? d.1 = some e := by
  induction ds generalizing w with
  | nil => cases hd
  | cons d' ds ih =>
    rcases List.mem_cons.1 hd with rfl | hd
    · obtain ⟨e, he⟩ := exists_get?_demand (w := w) d
      exact ⟨e, get?_demandAll_of_some he ds⟩
    · exact ih hd

/-! ## What a demand leaves alone -/

theorem tables_demand (d : Demand) : (w.demand d).working.tables = w.working.tables := by
  unfold demand
  split <;> rfl

theorem tables_demandAll (ds : List Demand) :
    (w.demandAll ds).working.tables = w.working.tables := by
  induction ds generalizing w with
  | nil => rfl
  | cons d ds ih => exact ih.trans (tables_demand d)

theorem Alone.demandAll (h : w.Alone) (ds : List Demand) : (w.demandAll ds).Alone := by
  induction ds generalizing w with
  | nil => exact h
  | cons d ds ih =>
    refine ih ?_
    unfold demand
    split
    · exact h
    · exact h.advance entitySequence

/-! ## What a demand adds -/

theorem entries_demand (d : Demand) :
    w.working.entities.entries <+: (w.demand d).working.entities.entries := by
  obtain ⟨a, v⟩ := d
  rcases ha : w.working.entities.get? a with _ | e
  · rw [demand_of_none ha]
    simp [register, Dictionary.entries_insert_of_none ha]
  · exact (demand_of_some ha v).symm ▸ List.prefix_refl _

theorem entries_demandAll (ds : List Demand) :
    w.working.entities.entries <+: (w.demandAll ds).working.entities.entries := by
  induction ds generalizing w with
  | nil => exact List.prefix_refl _
  | cons d ds ih => exact (entries_demand d).trans ih

theorem keys_demand (d : Demand) : (w.demand d).working.entities.keys
    = if d.1 ∈ w.working.entities.keys then w.working.entities.keys
      else w.working.entities.keys ++ [d.1] := by
  obtain ⟨a, v⟩ := d
  rcases ha : w.working.entities.get? a with _ | e
  · rw [demand_of_none ha]
    exact Dictionary.keys_insert ..
  · have hm : a ∈ w.working.entities.keys := by
      by_contra hm
      rw [Dictionary.get?_eq_none_iff.2 hm] at ha
      cases ha
    rw [demand_of_some ha, if_pos hm]

theorem keys_demandAll (ds : List Demand) : (w.demandAll ds).working.entities.keys
    = w.working.entities.keys
      ++ (LatestLookup.distinctKeys (ds.map (·.1))).filter (· ∉ w.working.entities.keys) := by
  induction ds using List.reverseRecOn with
  | nil => simp [demandAll, LatestLookup.distinctKeys]
  | append_singleton ds d ih =>
    rw [demandAll, List.foldl_append, List.foldl_cons, List.foldl_nil, ← demandAll, keys_demand, ih,
      List.map_append, List.map_singleton, distinctKeys_concat]
    by_cases hk : d.1 ∈ w.working.entities.keys
    · by_cases hd : d.1 ∈ LatestLookup.distinctKeys (ds.map (·.1)) <;> simp [hk, hd]
    · by_cases hd : d.1 ∈ ds.map (·.1)
      · simp [hk, hd]
      · simp [hk, hd]

/-- What demands add depends on the directory and on the sequence of its numbers. -/
theorem entities_demandAll_congr {w' : World} (he : w'.working.entities = w.working.entities)
    (hs : w'.committed.sequence entitySequence = w.committed.sequence entitySequence)
    (ds : List Demand) :
    (w'.demandAll ds).working.entities = (w.demandAll ds).working.entities := by
  induction ds generalizing w w' with
  | nil => exact he
  | cons d ds ih =>
    obtain ⟨a, v⟩ := d
    rw [demandAll_cons, demandAll_cons]
    rcases ha : w.working.entities.get? a with _ | e
    · have hnew : w'.newEntity a v = w.newEntity a v := by
        simp only [newEntity, Snapshot.nextValue_eq, hs]
      rw [demand_of_none ha, demand_of_none (he ▸ ha)]
      refine ih ?_ ?_
      · simp only [register, he, hnew]
      · simp [register, advance, Snapshot.nextValue_eq, hs]
    · rw [demand_of_some ha, demand_of_some (he ▸ ha)]
      exact ih he hs

theorem addressed_demandAll (h : w.working.Addressed) (ds : List Demand) :
    (w.demandAll ds).working.Addressed := by
  induction ds generalizing w with
  | nil => exact h
  | cons d ds ih =>
    obtain ⟨a, v⟩ := d
    refine ih ?_
    rcases ha : w.working.entities.get? a with _ | e
    · rw [demand_of_none ha]
      refine ⟨Dictionary.nodup_keys_insert h.nodup _ _, fun {b e} hb => ?_⟩
      simp only [register, Dictionary.get?_insert] at hb
      split at hb
      · rename_i hab
        cases hb
        rw [address_newEntity, hab]
      · exact h.address hb
    · rw [demand_of_some ha]
      exact h

end World

/-! ## Numbers -/

/-- Whether entities of different addresses have different numbers, none above the sequence. -/
structure Snapshot.Numbered (s : Snapshot) : Prop where
  distinct {a b : Address} {e e' : Entity} (ha : s.entities.get? a = some e)
    (hb : s.entities.get? b = some e') (h : e.id = e'.id) : a = b
  bound {a : Address} {e : Entity} (h : s.entities.get? a = some e) :
    e.id.number.toInt ≤ (s.sequence entitySequence).toInt

theorem Snapshot.Numbered.of_entities_eq {s s' : Snapshot} (h : s.Numbered)
    (he : s'.entities = s.entities)
    (hs : (s.sequence entitySequence).toInt ≤ (s'.sequence entitySequence).toInt) : s'.Numbered :=
  ⟨fun ha hb => h.distinct (he ▸ ha) (he ▸ hb), fun ha => Int.le_trans (h.bound (he ▸ ha)) hs⟩

namespace World

variable {w : World}

theorem sequence_of_alone (h : w.Alone) (name : String) :
    w.working.sequence name = w.committed.sequence name := by
  rw [Snapshot.sequence, h]
  rfl

theorem numbered_register
    (hle : (w.working.sequence entitySequence).toInt ≤ (w.committed.sequence entitySequence).toInt)
    (h : w.working.Numbered) {a : Address}
    (hroom : (w.committed.sequence entitySequence).toInt + 1 < 2 ^ 63) (v : Int64) :
    (w.register a v).working.Numbered := by
  have hnext : (w.committed.nextValue entitySequence).toInt
      = (w.committed.sequence entitySequence).toInt + 1 := toInt_add_one hroom
  have hold : ∀ {b e}, w.working.entities.get? b = some e →
      e.id.number.toInt ≤ (w.committed.sequence entitySequence).toInt := by
    intro b e hb
    exact Int.le_trans (h.bound hb) hle
  have hseq : (w.register a v).working.sequence entitySequence
      = w.committed.nextValue entitySequence := by
    show (w.working.withSequence entitySequence _).sequence entitySequence = _
    rw [Snapshot.sequence_withSequence, if_pos rfl]
  refine ⟨fun {b c e e'} hb hc he => ?_, fun {b e} hb => ?_⟩
  · simp only [register, Dictionary.get?_insert] at hb hc
    split at hb
    · rename_i hab
      cases hb
      split at hc
      · rename_i hac
        exact hab.symm.trans hac
      · have := hold hc
        rw [← he, number_newEntity, hnext] at this
        omega
    · split at hc
      · cases hc
        have := hold hb
        rw [he, number_newEntity, hnext] at this
        omega
      · exact h.distinct hb hc he
  · rw [hseq, hnext]
    simp only [register, Dictionary.get?_insert] at hb
    split at hb
    · cases hb
      exact Int.le_of_eq (by rw [number_newEntity, hnext])
    · have := hold hb
      omega

theorem numbered_demandAll (ha : w.Alone) (h : w.working.Numbered) {ds : List Demand}
    (hroom : (w.committed.sequence entitySequence).toInt + ds.length < 2 ^ 63) :
    (w.demandAll ds).working.Numbered
      ∧ (w.committed.sequence entitySequence).toInt
        ≤ ((w.demandAll ds).committed.sequence entitySequence).toInt
      ∧ ((w.demandAll ds).committed.sequence entitySequence).toInt
        ≤ (w.committed.sequence entitySequence).toInt + ds.length := by
  induction ds generalizing w with
  | nil => exact ⟨h, Int.le_refl _, by simp [demandAll]⟩
  | cons d ds ih =>
    obtain ⟨a, v⟩ := d
    rw [List.length_cons, Int.natCast_add] at hroom
    rw [demandAll_cons, List.length_cons, Int.natCast_add]
    rcases hn : w.working.entities.get? a with _ | e
    · rw [demand_of_none hn]
      have hnext : ((w.register a v).committed.sequence entitySequence).toInt
          = (w.committed.sequence entitySequence).toInt + 1 := by
        show ((w.committed.withSequence entitySequence _).sequence entitySequence).toInt = _
        rw [Snapshot.sequence_withSequence, if_pos rfl, Snapshot.nextValue_eq]
        exact toInt_add_one (by omega)
      obtain ⟨hnum, hge, hle⟩ := ih (w := w.register a v) (ha.advance entitySequence)
        (numbered_register (Int.le_of_eq (by rw [sequence_of_alone ha])) h (by omega) v) (by omega)
      exact ⟨hnum, by omega, by omega⟩
    · rw [demand_of_some hn]
      obtain ⟨hnum, hge, hle⟩ := ih ha h (by omega)
      exact ⟨hnum, hge, by omega⟩

end World

end LedgerHistory
