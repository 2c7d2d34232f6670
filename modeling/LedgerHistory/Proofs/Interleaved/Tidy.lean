import LedgerHistory.Proofs.Recording.Sound

/-!
# Tidy states

In a tidy state the addresses and the numbers of the entities are distinct, the ids of each table are
distinct, and none is above its sequence (`Snapshot.IsTidy`). A call that is answered leaves the
committed state tidy and moves no sequence back (`World.serve_committed`), if the sequences have room
(`World.HasRoom`) and a copy is tidy when it is committed.
-/

namespace LedgerHistory

/-- Whether no sequence of a state is beyond that of another. -/
def Snapshot.Behind (s s' : Snapshot) : Prop :=
  ∀ name, (s.sequence name).toInt ≤ (s'.sequence name).toInt

/-- Whether directory and ids are distinct, with no id of a table above a bound. -/
structure Snapshot.Tidy (top : String → Int) (s : Snapshot) : Prop where
  addressed : s.Addressed
  numbered : s.Numbered
  keyed : s.Keyed
  nonneg (name : String) : 0 ≤ (s.sequence name).toInt
  nodup (name : String) : (s.table name).ids.Nodup
  ids (name : String) : ∀ id ∈ (s.table name).ids, id.toInt ≤ top name

/-- The values of the tables' sequences. -/
def Snapshot.tops (s : Snapshot) (name : String) : Int :=
  (s.sequence (Table.sequenceNameOf name)).toInt

/-- Whether directory and ids are distinct, with no id of a table above its sequence. -/
def Snapshot.IsTidy (s : Snapshot) : Prop := s.Tidy s.tops

/-- Whether the copy is tidy and none of its sequences is beyond the committed one. -/
structure World.Trailing (w : World) : Prop where
  tidy : w.working.IsTidy
  behind : w.working.Behind w.committed

/-- Whether the counters that a call moves on stay inside their range: the sequences that it advances,
and the private counter that issued the ids of the rows that it loads. -/
def World.HasRoom (w : World) : StoreCall → Prop
  | .advanceSequences ts =>
    ∀ t ∈ ts, (w.committed.sequence t.sequenceName).toInt + 1 < 2 ^ 63
  | .resolveEntity a _ => w.working.entities.get? a = none →
    (w.committed.sequence entitySequence).toInt + 1 < 2 ^ 63
  | .bulkLoad t stream => ∀ row rows id, t.decodeStream stream = .ok (row :: rows) →
    Row.at row 0 = .int8 id → id.toInt + (row :: rows).length < 2 ^ 63
  | .begin | .raiseSequences _ | .latest _ | .commit | .rollback => True

/-- What a call must not do: advance a sequence twice, load rows with an id in use, or commit a copy
that is not tidy. -/
def World.Permits (w : World) : StoreCall → Prop
  | .advanceSequences ts => (ts.map (·.name)).Nodup
  | .bulkLoad t stream =>
    ∀ name id, (w.serve (.bulkLoad t stream)).1 ≠ .error (.duplicateKey name id)
  | .commit => w.working.IsTidy
  | .begin | .raiseSequences _ | .latest _ | .resolveEntity _ _ | .rollback => True

namespace Snapshot

variable {s s' s'' : Snapshot} {top top' : String → Int} {name : String} {v : Int64}

theorem Behind.refl (s : Snapshot) : s.Behind s := fun _ => Int.le_refl _

theorem Behind.trans (h : s.Behind s') (h' : s'.Behind s'') : s.Behind s'' :=
  fun name => Int.le_trans (h name) (h' name)

theorem behind_withSequence (hle : (s.sequence name).toInt ≤ v.toInt) :
    s.Behind (s.withSequence name v) := by
  intro name'
  rw [sequence_withSequence]
  split
  · rename_i he
    rw [← he]
    exact hle
  · exact Int.le_refl _

theorem Tidy.mono (h : s.Tidy top) (hle : ∀ name, top name ≤ top' name) : s.Tidy top' :=
  ⟨h.addressed, h.numbered, h.keyed, h.nonneg, h.nodup,
    fun name id hid => Int.le_trans (h.ids name id hid) (hle name)⟩

/-- Sequences may go forward. -/
theorem Tidy.of_behind (h : s.Tidy top) (ht : s'.tables = s.tables) (he : s'.entities = s.entities)
    (hb : s.Behind s') : s'.Tidy top := by
  have htable : ∀ name, s'.table name = s.table name := fun name => by
    simp only [Snapshot.table, ht]
  refine ⟨h.addressed.of_entities_eq he, h.numbered.of_entities_eq he (hb entitySequence),
    fun name => ?_, fun name => Int.le_trans (h.nonneg name) (hb name), fun name => ?_,
    fun name => ?_⟩
  · rw [Snapshot.rows, htable]
    exact h.keyed name
  · rw [htable]
    exact h.nodup name
  · rw [htable]
    exact h.ids name

theorem IsTidy.of_behind (h : s.IsTidy) (ht : s'.tables = s.tables) (he : s'.entities = s.entities)
    (hb : s.Behind s') : s'.IsTidy :=
  (Tidy.of_behind h ht he hb).mono fun _ => hb _

theorem isTidy_empty : ({} : Snapshot).IsTidy where
  addressed := Snapshot.sound_empty.addressed
  numbered := Snapshot.sound_empty.numbered
  keyed _ := rfl
  nonneg _ := Int.le_refl _
  nodup _ := List.nodup_nil
  ids _ := nofun

end Snapshot

namespace World

variable {w : World} {s : Snapshot} {name : String} {ts : List Table}

theorem trailing_idle (h : s.IsTidy) : s.idle.Trailing := ⟨h, .refl s⟩

/-- The committed state may go forward. -/
theorem Trailing.of_behind (h : w.Trailing) (hb : w.committed.Behind s) :
    (World.mk s w.working).Trailing := ⟨h.tidy, h.behind.trans hb⟩

theorem behind_advance (hroom : (w.committed.sequence name).toInt + 1 < 2 ^ 63) :
    w.committed.Behind (w.advance name).committed := by
  refine Snapshot.behind_withSequence ?_
  rw [Snapshot.nextValue_eq, toInt_add_one hroom]
  omega

theorem Trailing.advance (h : w.Trailing)
    (hroom : (w.committed.sequence name).toInt + 1 < 2 ^ 63) : (w.advance name).Trailing := by
  have hnext : (w.committed.nextValue name).toInt = (w.committed.sequence name).toInt + 1 :=
    toInt_add_one hroom
  refine ⟨h.tidy.of_behind rfl rfl (Snapshot.behind_withSequence ?_), fun name' => ?_⟩
  · have := h.behind name
    omega
  · have := h.behind name'
    simp only [World.advance, Snapshot.sequence_withSequence]
    split
    · exact Int.le_refl _
    · exact this

/-- Each of different sequences has room when all have before. -/
theorem hasRoom_advance {t : Table} (hnd : ((t :: ts).map (·.name)).Nodup)
    (hroom : w.HasRoom (.advanceSequences (t :: ts))) :
    (w.advance t.sequenceName).HasRoom (.advanceSequences ts) := by
  intro u hu
  have hne : t.sequenceName ≠ u.sequenceName := fun he =>
    (List.nodup_cons.1 hnd).1 (List.mem_map.2 ⟨u, hu, (Table.sequenceName_inj.1 he).symm⟩)
  have := hroom u (List.mem_cons_of_mem t hu)
  simpa [World.advance, hne] using this

theorem Trailing.advanceAll (h : w.Trailing) (hnd : (ts.map (·.name)).Nodup)
    (hroom : w.HasRoom (.advanceSequences ts)) :
    (w.advanceAll (ts.map (·.sequenceName))).Trailing := by
  induction ts generalizing w with
  | nil => exact h
  | cons t ts ih =>
    exact ih (h.advance (hroom t List.mem_cons_self)) (List.nodup_cons.1 hnd).2
      (hasRoom_advance hnd hroom)

theorem behind_advanceAll (hnd : (ts.map (·.name)).Nodup)
    (hroom : w.HasRoom (.advanceSequences ts)) :
    w.committed.Behind (w.advanceAll (ts.map (·.sequenceName))).committed := by
  induction ts generalizing w with
  | nil => exact .refl _
  | cons t ts ih =>
    exact (behind_advance (hroom t List.mem_cons_self)).trans
      (ih (List.nodup_cons.1 hnd).2 (hasRoom_advance hnd hroom))

theorem Trailing.demand (h : w.Trailing) {a : Address} {v : Int64}
    (hroom : w.HasRoom (.resolveEntity a v)) : (w.demand (a, v)).Trailing := by
  rcases hn : w.working.entities.get? a with _ | e
  · have hadv := h.advance (hroom hn)
    have hnum := numbered_register (a := a) (h.behind entitySequence) h.tidy.numbered (hroom hn) v
    have haddr := addressed_demandAll h.tidy.addressed [(a, v)]
    rw [demandAll, List.foldl_cons, List.foldl_nil, demand_of_none hn] at haddr
    rw [demand_of_none hn]
    exact ⟨⟨haddr, hnum, hadv.tidy.keyed, hadv.tidy.nonneg, hadv.tidy.nodup, hadv.tidy.ids⟩,
      hadv.behind⟩
  · rw [demand_of_some hn]
    exact h

theorem serve_resolveEntity_eq (w : World) (a : Address) (v : Int64) :
    (w.serve (.resolveEntity a v)).2 = w.demand (a, v) := by
  rcases hn : w.working.entities.get? a with _ | e
  · rw [serve_resolveEntity_none hn, demand_of_none hn]
  · rw [serve_resolveEntity_some hn, demand_of_some hn]

/-! ## Commits -/

theorem foldl_raise_frame (es : List (String × Int64)) (s : Snapshot) :
    (es.foldl (fun s e => s.raise e.1 e.2) s).tables = s.tables
      ∧ (es.foldl (fun s e => s.raise e.1 e.2) s).entities = s.entities
      ∧ s.Behind (es.foldl (fun s e => s.raise e.1 e.2) s)
      ∧ ∀ e ∈ es, e.2.toInt ≤ ((es.foldl (fun s e => s.raise e.1 e.2) s).sequence e.1).toInt := by
  induction es generalizing s with
  | nil => exact ⟨rfl, rfl, .refl s, nofun⟩
  | cons e es ih =>
    obtain ⟨ht, he, hb, hall⟩ := ih (s.raise e.1 e.2)
    have hmax := toInt_max (s.sequence e.1) e.2
    have hraise : s.Behind (s.raise e.1 e.2) := by
      rw [Snapshot.raise_eq]
      exact Snapshot.behind_withSequence (by omega)
    refine ⟨ht, he, hraise.trans hb, fun e' he' => ?_⟩
    rcases List.mem_cons.1 he' with rfl | he'
    · refine Int.le_trans ?_ (hb e'.1)
      rw [Snapshot.raise_eq, Snapshot.sequence_withSequence, if_pos rfl]
      omega
    · exact hall e' he'

/-- A tidy copy that is committed leaves the committed state tidy, with no sequence moved back. -/
theorem commit_of_isTidy (h : w.working.IsTidy) :
    w.commit.committed.IsTidy ∧ w.committed.Behind w.commit.committed := by
  have hcommit : w.commit.committed
      = w.committed.sequences.entries.foldl (fun s e => s.raise e.1 e.2) w.working := rfl
  obtain ⟨ht, he, hb, hall⟩ := foldl_raise_frame w.committed.sequences.entries w.working
  rw [hcommit]
  refine ⟨h.of_behind ht he hb, fun name => ?_⟩
  rcases hg : w.committed.sequences.get? name with _ | v
  · have hzero : w.committed.sequence name = 0 := by simp [Snapshot.sequence, Dictionary.getD, hg]
    rw [hzero]
    exact Int.le_trans (h.nonneg name) (hb name)
  · have hv : w.committed.sequence name = v := by simp [Snapshot.sequence, Dictionary.getD, hg]
    rw [hv]
    exact hall (name, v) (Dictionary.find?_mem hg)

/-! ## Calls -/

/-- A call that has room and is permitted leaves the committed state tidy and moves no sequence
back. -/
theorem serve_committed (hc : w.committed.IsTidy) {c : StoreCall} (hroom : w.HasRoom c)
    (hp : w.Permits c) :
    (w.serve c).2.committed.IsTidy ∧ w.committed.Behind (w.serve c).2.committed := by
  have hkept : ∀ {w' : World}, w'.committed = w.committed →
      w'.committed.IsTidy ∧ w.committed.Behind w'.committed := by
    rintro ⟨c', _⟩ rfl
    exact ⟨hc, .refl _⟩
  cases c with
  | begin | raiseSequences _ | latest _ | rollback => exact hkept rfl
  | bulkLoad t stream => exact hkept (w.committed_bulkLoad t stream)
  | advanceSequences ts =>
    rw [World.serve_advanceSequences_eq w hp]
    have hb := behind_advanceAll hp hroom
    have hadv := w.advanced_advanceAll (nodup_sequenceNames hp)
    exact ⟨hc.of_behind hadv.tables hadv.entities hb, hb⟩
  | resolveEntity a v =>
    rw [serve_resolveEntity_eq]
    rcases hn : w.working.entities.get? a with _ | e
    · have hb := behind_advance (hroom hn)
      have hcommitted : (w.register a v).committed = (w.advance entitySequence).committed := rfl
      rw [demand_of_none hn, hcommitted]
      exact ⟨hc.of_behind rfl rfl hb, hb⟩
    · rw [demand_of_some hn]
      exact hkept rfl
  | commit => exact commit_of_isTidy hp

end World

end LedgerHistory
