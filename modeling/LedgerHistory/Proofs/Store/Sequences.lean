import Mathlib.Algebra.Group.Int.Defs
import Mathlib.Algebra.Group.Nat.Defs
import LedgerHistory.Proofs.Dictionary
import LedgerHistory.Proofs.Script.Strict

/-!
# Sequences

A sequence advances in the committed state and in the copy alike (`World.advance`), so a transaction
that runs alone finds the same sequences in both (`World.Alone`), and when it has raised those of its
copy its commit leaves the copy as it is (`World.commit_eq`).
-/

namespace LedgerHistory

theorem toInt_max (a b : Int64) : (max a b).toInt = max a.toInt b.toInt := by
  show (if a ≤ b then b else a).toInt = _
  split <;> rename_i h <;> rw [Int64.le_iff_toInt_le] at h <;> omega

theorem toInt_add_ofNat {first : Int64} {k : Nat} (h : first.toInt + k < 2 ^ 63) :
    (first + Int64.ofNat k).toInt = first.toInt + k := by
  have hl := Int64.le_toInt first
  rw [Int64.toInt_add, Int64.toInt_ofNat']
  refine (Int.add_bmod_bmod ..).trans ?_
  exact Int.bmod_eq_of_le (by simp; omega) (by simp; omega)

theorem toInt_add_one {n : Int64} (h : n.toInt + 1 < 2 ^ 63) : (n + 1).toInt = n.toInt + 1 := by
  have hl := Int64.le_toInt n
  rw [Int64.toInt_add]
  exact Int.bmod_eq_of_le (by simp; omega) (by simp; omega)

namespace Snapshot

variable (s : Snapshot)

/-- The snapshot with a sequence at a value. -/
def withSequence (name : String) (value : Int64) : Snapshot :=
  { s with sequences := s.sequences.insert name value }

@[simp] theorem tables_withSequence (name : String) (value : Int64) :
    (s.withSequence name value).tables = s.tables := rfl

@[simp] theorem entities_withSequence (name : String) (value : Int64) :
    (s.withSequence name value).entities = s.entities := rfl

@[simp] theorem sequence_withSequence (name name' : String) (value : Int64) :
    (s.withSequence name value).sequence name' = if name = name' then value else s.sequence name' :=
  Dictionary.getD_insert ..

theorem nextValue_eq (name : String) : s.nextValue name = s.sequence name + 1 := rfl

theorem raise_eq (name : String) (value : Int64) :
    s.raise name value = s.withSequence name (max (s.sequence name) value) := rfl

/-- The snapshot with the sequences of tables raised to values. -/
def raiseAll (s : Snapshot) (values : List (Table × Int64)) : Snapshot :=
  values.foldl (fun s x => s.raise x.1.sequenceName x.2) s

theorem raise_of_le {name : String} {value v : Int64} (h : s.sequences.get? name = some v)
    (hv : value ≤ v) : s.raise name value = s := by
  have hs : s.sequence name = v := by simp [sequence, Dictionary.getD, h]
  have hmax : max v value = v := by
    rw [Int64.le_iff_toInt_le] at hv
    rw [← Int64.toInt_inj, toInt_max]
    omega
  rw [raise_eq, hs, hmax, withSequence, Dictionary.insert_of_get? h]

end Snapshot

theorem Table.sequenceName_inj {t u : Table} : t.sequenceName = u.sequenceName ↔ t.name = u.name := by
  simp [Table.sequenceName, Table.sequenceNameOf, String.append_left_inj]

theorem nodup_sequenceNames {ts : List Table} (h : (ts.map (·.name)).Nodup) :
    (ts.map (·.sequenceName)).Nodup := by
  induction ts with
  | nil => exact List.nodup_nil
  | cons t ts ih =>
    simp only [List.map_cons, List.nodup_cons, List.mem_map, not_exists, not_and] at h ⊢
    exact ⟨fun u hu e => h.1 u hu (Table.sequenceName_inj.1 e), ih h.2⟩

namespace World

variable (w : World)

/-- The world with a sequence one value on. -/
def advance (name : String) : World :=
  ⟨w.committed.withSequence name (w.committed.nextValue name),
    w.working.withSequence name (w.committed.nextValue name)⟩

/-- The world with each of the sequences one value on. -/
def advanceAll (w : World) (names : List String) : World := names.foldl advance w

/-- Whether the copy has the sequences of the committed state. -/
def Alone : Prop := w.working.sequences = w.committed.sequences

theorem Alone.advance {w : World} (h : w.Alone) (name : String) : (w.advance name).Alone := by
  simp only [Alone, World.advance, Snapshot.withSequence] at h ⊢
  rw [h]

theorem Alone.advanceAll {w : World} (h : w.Alone) (names : List String) :
    (w.advanceAll names).Alone := by
  induction names generalizing w with
  | nil => exact h
  | cons name names ih => exact ih (h.advance name)

theorem working_advanceAll (names : List String) :
    (w.advanceAll names).working.tables = w.working.tables
      ∧ (w.advanceAll names).working.entities = w.working.entities := by
  induction names generalizing w with
  | nil => exact ⟨rfl, rfl⟩
  | cons name names ih => exact ih (w.advance name)

theorem sequence_advanceAll {names : List String} (h : names.Nodup) (name : String) :
    (w.advanceAll names).committed.sequence name
      = if name ∈ names then w.committed.sequence name + 1 else w.committed.sequence name := by
  induction names generalizing w with
  | nil => rfl
  | cons n names ih =>
    obtain ⟨hn, h⟩ := List.nodup_cons.1 h
    rw [advanceAll, List.foldl_cons, ← advanceAll, ih _ h]
    by_cases hname : n = name
    · subst hname
      simp [hn, advance, Snapshot.nextValue_eq]
    · simp [hname, Ne.symm hname, advance]

theorem nodup_sequences_advanceAll {w : World} (h : w.committed.sequences.keys.Nodup)
    (names : List String) : (w.advanceAll names).committed.sequences.keys.Nodup := by
  induction names generalizing w with
  | nil => exact h
  | cons name names ih => exact ih (Dictionary.nodup_keys_insert h _ _)

theorem advanced_advance (name : String) : w.Advanced 1 (w.advance name) where
  tables := rfl
  entities := rfl
  sequence name' := by
    by_cases h : name = name'
    · subst h
      exact ⟨1, le_rfl, by simp [advance, Snapshot.nextValue_eq]⟩
    · exact ⟨0, by omega, by simp [advance, h]⟩
  nodup h := Dictionary.nodup_keys_insert h _ _

theorem advanced_advanceAll {names : List String} (h : names.Nodup) :
    w.Advanced 1 (w.advanceAll names) where
  tables := by
    clear h
    induction names generalizing w with
    | nil => rfl
    | cons name names ih => exact ih (w.advance name)
  entities := by
    clear h
    induction names generalizing w with
    | nil => rfl
    | cons name names ih => exact ih (w.advance name)
  sequence name := by
    rw [sequence_advanceAll w h]
    split
    · exact ⟨1, le_rfl, rfl⟩
    · exact ⟨0, by omega, by simp⟩
  nodup h := nodup_sequences_advanceAll h names

theorem advanceSequences_eq (ts : List Table) :
    (w.connection.advanceSequences ts).2.store.committed
        = (w.advanceAll (ts.map (·.sequenceName))).committed
      ∧ (w.connection.advanceSequences ts).2.transaction.working
        = (w.advanceAll (ts.map (·.sequenceName))).working := by
  induction ts generalizing w with
  | nil => exact ⟨rfl, rfl⟩
  | cons t ts ih => exact ih (w.advance t.sequenceName)

theorem advanceSequences_values {ts : List Table} (h : (ts.map (·.name)).Nodup) :
    (w.connection.advanceSequences ts).1 = ts.map fun t => w.committed.nextValue t.sequenceName := by
  induction ts generalizing w with
  | nil => rfl
  | cons t ts ih =>
    simp only [List.map_cons, List.nodup_cons, List.mem_map, not_exists, not_and] at h
    refine congrArg (w.committed.nextValue t.sequenceName :: ·)
      ((ih (w.advance t.sequenceName) h.2).trans (List.map_congr_left fun u hu => ?_))
    have hne : t.sequenceName ≠ u.sequenceName :=
      fun e => h.1 u hu (Table.sequenceName_inj.1 e).symm
    simp [Snapshot.nextValue_eq, advance, hne]

theorem serve_advanceSequences_eq {ts : List Table} (h : (ts.map (·.name)).Nodup) :
    w.serve (.advanceSequences ts) = (.ok (ts.map fun t => w.committed.nextValue t.sequenceName),
      w.advanceAll (ts.map (·.sequenceName))) := by
  obtain ⟨hc, hw⟩ := advanceSequences_eq w ts
  rw [serve_advanceSequences, advanceSequences_values w h, hc, hw]

/-- The commit of a copy whose sequences have passed those of the committed state. -/
theorem commit_eq {w : World} (h : ∀ e ∈ w.committed.sequences.entries,
      ∃ v, w.working.sequences.get? e.1 = some v ∧ e.2 ≤ v) :
    w.connection.commit.committed = w.working := by
  show w.committed.sequences.entries.foldl (fun s e => s.raise e.1 e.2) w.working = w.working
  generalize w.committed.sequences.entries = es at h
  induction es with
  | nil => rfl
  | cons e es ih =>
    obtain ⟨v, hv, hle⟩ := h e List.mem_cons_self
    rw [List.foldl_cons, Snapshot.raise_of_le _ hv hle]
    exact ih fun e' he' => h e' (List.mem_cons_of_mem e he')

end World

end LedgerHistory
