import LedgerHistory.Proofs.Recording.Outcome

/-!
# Sound states

In a sound state the addresses and the numbers of the entities are distinct, and no sequence has
issued fewer values than there are ids of its table, nor more than a given number
(`Snapshot.Sound`). An invocation that fails keeps it so (`Snapshot.Sound.advanced`), and so do the
stages up to the rows (`Snapshot.Sound.prepared`).
-/

namespace LedgerHistory

/-- Whether directory, ids and sequences fit together, with no sequence beyond `n`. -/
structure Snapshot.Sound (n : Nat) (s : Snapshot) : Prop where
  addressed : s.Addressed
  numbered : s.Numbered
  keyed : s.Keyed
  nodup : s.sequences.keys.Nodup
  ids (name : String) : ∀ id ∈ (s.table name).ids,
    id.toInt ≤ (s.sequence (Table.sequenceNameOf name)).toInt
  bound (name : String) : (s.sequence name).toInt ≤ n

section Advanced

variable {n m : Nat} {s s' : Snapshot}

theorem Snapshot.sound_empty : ({} : Snapshot).Sound 0 where
  addressed := ⟨List.nodup_nil, fun h => by cases h⟩
  numbered := {
    distinct := fun ha _ _ => nomatch ha
    bound := fun h => nomatch h }
  keyed _ := rfl
  nodup := List.nodup_nil
  ids _ := nofun
  bound _ := Int.le_refl _

/-- A state that differs in sequences alone, which have not gone back, is sound. -/
theorem Snapshot.Sound.of_sequence_le (h : s.Sound n) (ht : s'.tables = s.tables)
    (he : s'.entities = s.entities) (hnodup : s'.sequences.keys.Nodup)
    (hle : ∀ name, (s.sequence name).toInt ≤ (s'.sequence name).toInt)
    (hbound : ∀ name, (s'.sequence name).toInt ≤ m) : s'.Sound m := by
  have htable : ∀ name, s'.table name = s.table name := fun name => by
    simp only [Snapshot.table, ht]
  refine ⟨h.addressed.of_entities_eq he, h.numbered.of_entities_eq he (hle entitySequence),
    fun name => ?_, hnodup, fun name id hid => ?_, hbound⟩
  · rw [Snapshot.rows, htable]
    exact h.keyed name
  · rw [htable] at hid
    exact Int.le_trans (h.ids name id hid) (hle _)

theorem Snapshot.Sound.mono (h : s.Sound n) (hnm : n ≤ m) : s.Sound m :=
  h.of_sequence_le rfl rfl h.nodup (fun _ => Int.le_refl _) fun name => by
    have hb := h.bound name
    omega

theorem World.Advanced.sequence_bounds {w w' : World} (hadv : w.Advanced m w') {name : String}
    (hroom : (w.committed.sequence name).toInt + m < 2 ^ 63) :
    (w.committed.sequence name).toInt ≤ (w'.committed.sequence name).toInt
      ∧ (w'.committed.sequence name).toInt ≤ (w.committed.sequence name).toInt + m := by
  obtain ⟨k, hk, he⟩ := hadv.sequence name
  rw [he, toInt_add_ofNat (by omega)]
  omega

/-- What fails without a trace but in the sequences keeps a state sound. -/
theorem Snapshot.Sound.advanced (h : s.Sound n) {w' : World} (hadv : s.idle.Advanced m w')
    (hroom : n + m < 2 ^ 63) : w'.committed.Sound (n + m) := by
  have hseq : ∀ name, (s.sequence name).toInt ≤ (w'.committed.sequence name).toInt
      ∧ (w'.committed.sequence name).toInt ≤ (s.sequence name).toInt + m := by
    intro name
    have hb := h.bound name
    refine hadv.sequence_bounds ?_
    show (s.sequence name).toInt + m < 2 ^ 63
    omega
  refine h.of_sequence_le hadv.tables hadv.entities (hadv.nodup h.nodup) (fun name => (hseq name).1)
    fun name => ?_
  have hb := h.bound name
  have hs := (hseq name).2
  omega

end Advanced

/-! ## Up to the rows -/

section Prepared

variable {n : Nat} {s : Snapshot} {config : Configuration} {x : LedgerExtension} {w : World}

theorem World.advanced_demand (w : World) (d : Demand) : w.Advanced 1 (w.demand d) := by
  have h := w.advanced_resolveEntity d.1 d.2
  rcases hd : w.working.entities.get? d.1 with _ | e
  · rw [serve_resolveEntity_none hd] at h
    rw [demand, hd]
    exact h
  · rw [serve_resolveEntity_some hd] at h
    rw [demand, hd]
    exact h

theorem World.advanced_demandAll (w : World) (ds : List Demand) :
    w.Advanced ds.length (w.demandAll ds) := by
  induction ds generalizing w with
  | nil => exact .refl
  | cons d ds ih =>
    refine ((w.advanced_demand d).trans (ih (w.demand d))).mono ?_
    rw [List.length_cons]
    omega

theorem length_demandsOf_le (ds : List DomainName) (y : Int64 × SubstateEvent) :
    (demandsOf ds y).length ≤ 2 := by
  have hm := length_mentions y.2.substate
  unfold demandsOf
  split
  · split
    · simp only [List.length_cons, List.length_map]
      omega
    · simp
  · simp

theorem length_demands_le (ds : List DomainName) (xs : List (Int64 × SubstateEvent)) :
    (xs.flatMap (demandsOf ds)).length ≤ 2 * xs.length := by
  induction xs with
  | nil => simp
  | cons y xs ih =>
    have hy := length_demandsOf_le ds y
    rw [List.flatMap_cons, List.length_append, List.length_cons]
    omega

theorem advanced_prepared (config : Configuration) (x : LedgerExtension) (w : World) :
    w.Advanced (1 + 2 * x.eventCount) (w.prepared config x) := by
  have hlen := length_demands_le config.domains.enabled x.events
  refine ((w.advanced_advanceAll (nodup_sequenceNames config.domains.nodup_tables)).trans
    (World.advanced_demandAll _ _)).mono ?_
  rw [LedgerExtension.eventCount]
  omega

theorem Snapshot.alone_idle (s : Snapshot) : s.idle.Alone := rfl

theorem alone_prepared (config : Configuration) (x : LedgerExtension) (s : Snapshot) :
    (s.idle.prepared config x).Alone :=
  (s.alone_idle.advanceAll _).demandAll _

/-- The sequence of the entities is none of the tables'. -/
theorem sequence_advanceAll_entity (config : Configuration) (w : World) :
    (w.advanceAll (config.domains.tables.map (·.sequenceName))).committed.sequence entitySequence
      = w.committed.sequence entitySequence := by
  rw [World.sequence_advanceAll _ (nodup_sequenceNames config.domains.nodup_tables), if_neg]
  intro hm
  obtain ⟨t, ht, he⟩ := List.mem_map.1 hm
  obtain ⟨d, _, htd⟩ := DomainSwitches.mem_tables ht
  exact d.sequenceName_ne t htd he

theorem World.sequence_demandAll {name : String} (hn : name ≠ entitySequence) (w : World)
    (ds : List Demand) : (w.demandAll ds).committed.sequence name = w.committed.sequence name := by
  induction ds generalizing w with
  | nil => rfl
  | cons d ds ih =>
    refine (ih (w.demand d)).trans ?_
    unfold demand
    split
    · rfl
    · simp [register, advance, Ne.symm hn]

/-- The stages up to the rows advance the sequence of each table that is written to. -/
theorem sequence_prepared {t : Table} (ht : t ∈ config.domains.tables) (w : World) :
    (w.prepared config x).committed.sequence t.sequenceName
      = w.committed.sequence t.sequenceName + 1 := by
  obtain ⟨d, _, htd⟩ := DomainSwitches.mem_tables ht
  rw [World.prepared, World.sequence_demandAll (d.sequenceName_ne t htd),
    World.sequence_advanceAll _ (nodup_sequenceNames config.domains.nodup_tables),
    if_pos (List.mem_map_of_mem ht)]

/-- The stages up to the rows leave the entities of the directory. -/
theorem get?_prepared_of_some {a : Address} {e : Entity} (h : s.entities.get? a = some e) :
    (s.idle.prepared config x).working.entities.get? a = some e := by
  refine World.get?_demandAll_of_some ?_ _
  rw [(World.working_advanceAll ..).2]
  exact h

/-- The stages up to the rows keep the copy sound. -/
theorem Snapshot.Sound.prepared (h : s.Sound n) (config : Configuration)
    (hroom : n + (1 + 2 * x.eventCount) < 2 ^ 63) :
    (s.idle.prepared config x).working.Sound (n + (1 + 2 * x.eventCount)) := by
  have hadv := advanced_prepared config x s.idle
  have halone := alone_prepared config x s
  have hcommitted := h.advanced hadv hroom
  have hseq := World.sequence_of_alone halone
  have htables : (s.idle.prepared config x).working.tables
      = (s.idle.prepared config x).committed.tables :=
    (tables_prepared config x s.idle).trans hadv.tables.symm
  have htable : ∀ name, (s.idle.prepared config x).working.table name
      = (s.idle.prepared config x).committed.table name := fun name => by
    simp only [Snapshot.table, htables]
  refine ⟨?_, ?_, fun name => ?_, ?_, fun name => ?_, fun name => ?_⟩
  · exact World.addressed_demandAll (addressed_advanceAll h.addressed _) _
  · have hlen := length_demands_le config.domains.enabled x.events
    have hb := h.bound entitySequence
    have hentity : (s.idle.advanceAll _).committed.sequence _ = s.sequence _ :=
      sequence_advanceAll_entity config s.idle
    refine (World.numbered_demandAll (s.alone_idle.advanceAll _) ?_ ?_).1
    · refine h.numbered.of_entities_eq (World.working_advanceAll ..).2 ?_
      exact Int.le_of_eq (by rw [World.sequence_of_alone (s.alone_idle.advanceAll _), hentity])
    · rw [hentity]
      rw [LedgerExtension.eventCount] at hroom
      omega
  · rw [Snapshot.rows, htable]
    exact hcommitted.keyed name
  · rw [halone]
    exact hcommitted.nodup
  · rw [htable, hseq]
    exact hcommitted.ids name
  · rw [hseq]
    exact hcommitted.bound name

end Prepared

/-! ## Raised sequences -/

namespace Snapshot

variable {n m : Nat} {s : Snapshot}

theorem le_sequence_raiseAll (s : Snapshot) (values : List (Table × Int64)) (name : String) :
    (s.sequence name).toInt ≤ ((s.raiseAll values).sequence name).toInt := by
  induction values generalizing s with
  | nil => exact Int.le_refl _
  | cons x values ih =>
    refine Int.le_trans ?_ (ih (s.raise x.1.sequenceName x.2))
    rw [raise_eq, sequence_withSequence]
    split
    · rename_i hname
      rw [toInt_max, hname]
      omega
    · exact Int.le_refl _

theorem sequence_raiseAll_le {b : Int} {values : List (Table × Int64)} {name : String}
    (hs : (s.sequence name).toInt ≤ b) (hv : ∀ x ∈ values, x.2.toInt ≤ b) :
    ((s.raiseAll values).sequence name).toInt ≤ b := by
  induction values generalizing s with
  | nil => exact hs
  | cons x values ih =>
    refine ih (s := s.raise x.1.sequenceName x.2) ?_ fun y hy => hv y (List.mem_cons_of_mem x hy)
    rw [raise_eq, sequence_withSequence]
    split
    · rename_i hname
      have hx := hv x List.mem_cons_self
      rw [toInt_max, hname]
      omega
    · exact hs

theorem nodup_raiseAll (h : s.sequences.keys.Nodup) (values : List (Table × Int64)) :
    (s.raiseAll values).sequences.keys.Nodup := by
  induction values generalizing s with
  | nil => exact h
  | cons x values ih =>
    exact ih (s := s.raise x.1.sequenceName x.2) (Dictionary.nodup_keys_insert h _ _)

end Snapshot

/-- The commit of a copy that was alone and whose sequences were raised. -/
theorem World.commit_raiseAll {w : World} (hnodup : w.committed.sequences.keys.Nodup) {s : Snapshot}
    (hs : s.sequences = w.committed.sequences) (values : List (Table × Int64)) :
    (World.mk w.committed (s.raiseAll values)).commit.committed = s.raiseAll values := by
  refine World.commit_eq fun e he => ?_
  refine Allocator.get?_raiseAll values ?_
  rw [hs]
  exact (Dictionary.get?_eq_some_iff hnodup).2 he

end LedgerHistory
