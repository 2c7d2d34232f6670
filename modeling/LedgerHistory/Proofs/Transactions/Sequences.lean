import LedgerHistory.Proofs.Interleaved.Tidy
import LedgerHistory.Proofs.Transactions.Steps

/-!
# Sequences of interleaved transactions

While the counters stay in their range no sequence of the committed state goes back
(`OpenStore.Regular.behind_after`), and each value that it issues, to whichever transaction, is greater
than all that it issued before (`OpenStore.Regular.increasing_issuedIn`).
-/

namespace LedgerHistory

/-! ## Values that sequences issue -/

namespace Snapshot

variable (s : Snapshot)

/-- Whether sequences that are advanced in order stay in their range. -/
def RoomFor (s : Snapshot) : List String → Prop
  | [] => True
  | name :: names => (s.sequence name).toInt + 1 < 2 ^ 63
    ∧ (s.withSequence name (s.nextValue name)).RoomFor names

instance decidableRoomFor : (s : Snapshot) → (names : List String) → Decidable (s.RoomFor names)
  | _, [] => .isTrue trivial
  | s, name :: names =>
    have := decidableRoomFor (s.withSequence name (s.nextValue name)) names
    inferInstanceAs (Decidable (_ ∧ _))

variable {s}

theorem map_fst_issues (names : List String) : (s.issues names).map (·.1) = names := by
  induction names generalizing s with
  | nil => rfl
  | cons name names ih => simp only [issues, List.map_cons, ih]

theorem sequence_withSequences_of_notMem {values : List (String × Int64)} {name : String}
    (h : name ∉ values.map (·.1)) : (s.withSequences values).sequence name = s.sequence name := by
  induction values generalizing s with
  | nil => rfl
  | cons x values ih =>
    simp only [List.map_cons, List.mem_cons, not_or] at h
    refine (ih h.2).trans ?_
    rw [sequence_withSequence, if_neg (Ne.symm h.1)]

/-- A sequence that is given a value has it whatever it had before. -/
theorem sequence_withSequences_of_mem {values : List (String × Int64)} {name : String}
    (h : name ∈ values.map (·.1)) (s s' : Snapshot) :
    (s.withSequences values).sequence name = (s'.withSequences values).sequence name := by
  induction values generalizing s s' with
  | nil => cases h
  | cons x values ih =>
    by_cases hmem : name ∈ values.map (·.1)
    · exact ih hmem _ _
    · obtain rfl : name = x.1 := by simpa [hmem] using h
      refine (sequence_withSequences_of_notMem hmem).trans
        (Eq.trans ?_ (sequence_withSequences_of_notMem hmem).symm)
      simp

theorem behind_issue {name : String} (hroom : (s.sequence name).toInt + 1 < 2 ^ 63) :
    s.Behind (s.withSequence name (s.nextValue name)) := by
  refine behind_withSequence ?_
  rw [nextValue_eq, toInt_add_one hroom]
  omega

theorem behind_issues {names : List String} (hroom : s.RoomFor names) :
    s.Behind (s.withSequences (s.issues names)) := by
  induction names generalizing s with
  | nil => exact .refl s
  | cons name names ih => exact (behind_issue hroom.1).trans (ih hroom.2)

/-- What a sequence issues is beyond its value before, and not beyond its value afterwards. -/
theorem bounds_of_mem_issues {names : List String} (hroom : s.RoomFor names) :
    ∀ x ∈ s.issues names, (s.sequence x.1).toInt < x.2.toInt
      ∧ x.2.toInt ≤ ((s.withSequences (s.issues names)).sequence x.1).toInt := by
  induction names generalizing s with
  | nil => exact nofun
  | cons name names ih =>
    intro x hx
    have hbehind := behind_issue hroom.1
    rcases List.mem_cons.1 hx with rfl | hx
    · have hlater := behind_issues hroom.2 name
      rw [sequence_withSequence, if_pos rfl] at hlater
      have hnext : (s.nextValue name).toInt = (s.sequence name).toInt + 1 := toInt_add_one hroom.1
      refine ⟨?_, hlater⟩
      show (s.sequence name).toInt < (s.nextValue name).toInt
      omega
    · obtain ⟨hlt, hle⟩ := ih hroom.2 x hx
      exact ⟨Int.lt_of_le_of_lt (hbehind x.1) hlt, hle⟩

theorem pairwise_issues {names : List String} (hroom : s.RoomFor names) :
    (s.issues names).Pairwise fun x y => x.1 = y.1 → x.2.toInt < y.2.toInt := by
  induction names generalizing s with
  | nil => exact .nil
  | cons name names ih =>
    refine List.pairwise_cons.2 ⟨fun y hy he => ?_, ih hroom.2⟩
    have hlt := (bounds_of_mem_issues hroom.2 y hy).1
    rwa [← he, sequence_withSequence, if_pos rfl] at hlt

theorem nodup_withSequences (h : s.sequences.keys.Nodup) (values : List (String × Int64)) :
    (s.withSequences values).sequences.keys.Nodup := by
  induction values generalizing s with
  | nil => exact h
  | cons x values ih => exact ih (Dictionary.nodup_keys_insert h _ _)

theorem contains_withSequences {q : String} (h : s.sequences.contains q = true)
    (values : List (String × Int64)) : (s.withSequences values).sequences.contains q = true := by
  induction values generalizing s with
  | nil => exact h
  | cons x values ih => exact ih (Dictionary.contains_insert_of_contains h _ _)

/-! ## Values that sequences are raised to -/

theorem sequence_raise (name name' : String) (value : Int64) : (s.raise name value).sequence name'
    = if name = name' then max (s.sequence name') value else s.sequence name' := by
  rw [raise_eq, sequence_withSequence]
  split
  · rename_i h
    rw [h]
  · rfl

theorem sequence_foldl_raise {es : List (String × Int64)} (h : (es.map (·.1)).Nodup)
    (s : Snapshot) (name : String) :
    (es.foldl (fun s e => s.raise e.1 e.2) s).sequence name
      = ((Dictionary.find? name es).map (max (s.sequence name))).getD (s.sequence name) := by
  induction es generalizing s with
  | nil => rfl
  | cons e es ih =>
    obtain ⟨he, hes⟩ := List.nodup_cons.1 h
    rw [List.foldl_cons, ih hes, sequence_raise]
    obtain ⟨name', v⟩ := e
    by_cases hname : name' = name
    · subst hname
      rw [Dictionary.find?_eq_none_iff.2 he]
      simp [Dictionary.find?]
    · simp [Dictionary.find?, hname]

theorem nodup_foldl_raise (h : s.sequences.keys.Nodup) (es : List (String × Int64)) :
    (es.foldl (fun s e => s.raise e.1 e.2) s).sequences.keys.Nodup := by
  induction es generalizing s with
  | nil => exact h
  | cons e es ih => exact ih (s := s.raise e.1 e.2) (Dictionary.nodup_keys_insert h _ _)

theorem contains_foldl_raise {q : String} {es : List (String × Int64)}
    (h : s.sequences.contains q = true ∨ q ∈ es.map (·.1)) :
    (es.foldl (fun s e => s.raise e.1 e.2) s).sequences.contains q = true := by
  induction es generalizing s with
  | nil => simpa using h
  | cons e es ih =>
    refine ih (s := s.raise e.1 e.2) ?_
    rcases h with h | h
    · exact .inl (Dictionary.contains_insert_of_contains h _ _)
    · rcases List.mem_cons.1 h with rfl | h
      · exact .inl (by simp [raise, Dictionary.contains])
      · exact .inr h

/-- The values that a sequence is set to. -/
def settingsOf (name : String) (values : List (Table × Int64)) : List Int64 :=
  (values.filter (·.1.sequenceName = name)).map (·.2)

theorem sequence_raiseAll (s : Snapshot) (values : List (Table × Int64)) (name : String) :
    (s.raiseAll values).sequence name = (settingsOf name values).foldl max (s.sequence name) := by
  induction values generalizing s with
  | nil => rfl
  | cons x values ih =>
    refine (ih _).trans ?_
    rw [sequence_raise, settingsOf, settingsOf, List.filter_cons]
    by_cases hx : x.1.sequenceName = name <;> simp [hx]

theorem nodup_act (h : s.sequences.keys.Nodup) (a : StoreOperation × StoreAnswer) :
    (s.act a).sequences.keys.Nodup := by
  unfold act
  split
  · exact nodup_withSequences h _
  · exact nodup_raiseAll h _
  · exact h
  · rw [s.sequences_load _ _]
    exact h
  · unfold bindAddress
    split
    · exact h
    · exact Dictionary.nodup_keys_insert h _ _
  · exact h

end Snapshot

theorem toInt_foldl_max (m : Int64) (vs : List Int64) : m.toInt ≤ (vs.foldl max m).toInt := by
  induction vs generalizing m with
  | nil => exact Int.le_refl _
  | cons v vs ih =>
    have hmax := toInt_max m v
    have hle := ih (max m v)
    rw [List.foldl_cons]
    omega

/-- Whether each sequence is listed once and none is negative. -/
structure Snapshot.Regular (s : Snapshot) : Prop where
  distinct : s.sequences.keys.Nodup
  nonneg (q : String) : 0 ≤ (s.sequence q).toInt

theorem Snapshot.regular_empty : Snapshot.Regular {} := ⟨List.nodup_nil, fun _ => Int.le_refl _⟩

theorem Snapshot.Regular.of_behind {k k' : Snapshot} (h : k.Regular) (hb : k.Behind k')
    (hn : k'.sequences.keys.Nodup) : k'.Regular :=
  ⟨hn, fun q => Int.le_trans (h.nonneg q) (hb q)⟩

/-- The values that an operation sets a sequence to. -/
def StoreOperation.settings (name : String) : StoreOperation → List Int64
  | .set _ values => Snapshot.settingsOf name values
  | _ => []

/-- The values that an answer tells of the sequences that its operation advances. -/
def StoreAnswer.issued (names : List String) : StoreAnswer → List (String × Int64)
  | .values ns => names.zip ns
  | .entity e => names.map ((·, e.id.number))
  | _ => []

@[simp] theorem StoreAnswer.issued_nil (a : StoreAnswer) : a.issued [] = [] := by cases a <;> rfl

namespace OpenStore

variable (s : OpenStore)

/-- Whether the sequences that an operation advances stay in their range. -/
def HasRoom (op : StoreOperation) : Prop := s.store.committed.RoomFor (s.advances op)

instance (op : StoreOperation) : Decidable (s.HasRoom op) := Snapshot.decidableRoomFor _ _

/-- Whether operations advance no sequence out of its range. -/
def Roomy (s : OpenStore) : List StoreOperation → Prop
  | [] => True
  | op :: ops => s.HasRoom op ∧ (s.step op).2.Roomy ops

instance decidableRoomy : (s : OpenStore) → (ops : List StoreOperation) → Decidable (s.Roomy ops)
  | _, [] => .isTrue trivial
  | s, op :: ops =>
    have := decidableRoomy (s.step op).2 ops
    inferInstanceAs (Decidable (_ ∧ _))

/-- The states that operations lead to from the empty store. -/
def Reached : Prop := ∃ ops, Roomy {} ops ∧ after {} ops = s

/-- The values that sequences issue to an operation, as its answer tells. -/
def issued (op : StoreOperation) : List (String × Int64) := (s.step op).1.issued (s.advances op)

/-- The values that sequences issue to operations, in order. -/
def issuedIn (s : OpenStore) : List StoreOperation → List (String × Int64)
  | [] => []
  | op :: ops => s.issued op ++ (s.step op).2.issuedIn ops

/-- The values that sequences issue to the operations of a transaction, in order. -/
def issuedTo (s : OpenStore) (name : String) : List StoreOperation → List (String × Int64)
  | [] => []
  | op :: ops => (if op.transaction? = some name then s.issued op else [])
    ++ (s.step op).2.issuedTo name ops

/-- Whether the committed state and all copies have regular sequences. -/
structure Regular : Prop where
  committed : s.store.committed.Regular
  working {name : String} {t : Transaction} (h : s.live.get? name = some t) : t.working.Regular

variable {s}

theorem roomy_append {ops ops' : List StoreOperation} :
    s.Roomy (ops ++ ops') ↔ s.Roomy ops ∧ (s.after ops).Roomy ops' := by
  induction ops generalizing s with
  | nil => exact (and_iff_right trivial).symm
  | cons op ops ih =>
    rw [List.cons_append, Roomy, Roomy, ih, after_cons, and_assoc]

/-! ## Steps -/

section Step

variable {name q : String} {t : Transaction} {op : StoreOperation}

/-- The sequence of a transaction's copy is that of the committed state when the transaction has just
advanced it, and else it is raised to the values that it is set to. -/
theorem sequence_act (h : s.live.get? name = some t) (hop : op.transaction? = some name)
    (hopen : op.leavesOpen name = true) :
    (t.working.act (op, (s.step op).1)).sequence q
      = if q ∈ s.advances op then (s.step op).2.store.committed.sequence q
        else (op.settings q).foldl max (t.working.sequence q) := by
  obtain ⟨ts, rfl⟩ | ⟨values, rfl⟩ | ⟨query, rfl⟩ | ⟨t', stream, rfl⟩ | ⟨a, v, rfl⟩ :=
    StoreOperation.eq_of_leavesOpen hop hopen
  · rw [committed_step rfl, advances_of_some h rfl, answer_next h]
    show (t.working.withSequences ((ts.map (·.sequenceName)).zip _)).sequence q = _
    rw [Snapshot.zip_issues]
    by_cases hq : q ∈ ts.map (·.sequenceName)
    · exact (Snapshot.sequence_withSequences_of_mem (by rwa [Snapshot.map_fst_issues]) _ _).trans
        (if_pos hq).symm
    · exact (Snapshot.sequence_withSequences_of_notMem (by rwa [Snapshot.map_fst_issues])).trans
        (if_neg hq).symm
  · rw [advances_of_some h rfl]
    exact Snapshot.sequence_raiseAll _ _ _
  · rw [advances_of_some h rfl]
    rfl
  · rw [advances_of_some h rfl]
    show Snapshot.sequence _ q = t.working.sequence q
    rcases t.working.act_copy name t' stream (s.step (.copy name t' stream)).1 with he | he
    · rw [he]
    · rw [he, Snapshot.sequence, t.working.sequences_load t' stream]
      rfl
  · rw [committed_step rfl, advances_of_some h rfl, answer_resolve h]
    show (t.working.bindAddress a _).sequence q = _
    rcases ha : t.working.entities.get? a with _ | e
    · have hnum := (Connection.resolve_of_none ⟨s.store, t⟩ ha v).1
      have hadv : StoreOperation.advances t.working (.resolve name a v) = [entitySequence] := by
        simp [StoreOperation.advances, ha]
      rw [hadv, Snapshot.bindAddress, ha, hnum]
      show ((t.working.withSequence entitySequence _).sequence q) = _
      rw [Snapshot.sequence_withSequence]
      by_cases hq : entitySequence = q
      · subst hq
        simp [Snapshot.issues, Snapshot.withSequences]
      · simp [hq, Ne.symm hq, StoreOperation.settings]
    · have hadv : StoreOperation.advances t.working (.resolve name a v) = [] := by
        simp [StoreOperation.advances, ha]
      rw [hadv, Snapshot.bindAddress, ha]
      rfl

/-- What a transaction works on stays regular with its operations. -/
theorem regular_act (hs : s.Regular) (h : s.live.get? name = some t)
    (hop : op.transaction? = some name) (hopen : op.leavesOpen name = true)
    (hc : (s.step op).2.store.committed.Regular) :
    (t.working.act (op, (s.step op).1)).Regular := by
  refine ⟨Snapshot.nodup_act (hs.working h).distinct _, fun q => ?_⟩
  rw [sequence_act h hop hopen]
  split
  · exact hc.nonneg q
  · exact Int.le_trans ((hs.working h).nonneg q) (toInt_foldl_max _ _)

/-- A commit leaves the greater of the values that a sequence has in the committed state and in the
copy. -/
theorem sequence_commit (hs : s.Regular) (h : s.live.get? name = some t) :
    ((s.step (.commit name)).2.store.committed.sequence q)
      = max (s.store.committed.sequence q) (t.working.sequence q) := by
  have hmerge := Snapshot.sequence_foldl_raise hs.committed.distinct t.working q
  rw [step_commit h]
  refine hmerge.trans ?_
  have hmax := fun v => toInt_max (t.working.sequence q) v
  rcases hq : s.store.committed.sequences.get? q with _ | v
  · have hzero : s.store.committed.sequence q = 0 := by simp [Snapshot.sequence, Dictionary.getD, hq]
    have hnonneg := (hs.working h).nonneg q
    have hq : Dictionary.find? q s.store.committed.sequences.entries = none := hq
    rw [hq, hzero, ← Int64.toInt_inj, toInt_max]
    show (t.working.sequence q).toInt = max 0 _
    omega
  · have hv : s.store.committed.sequence q = v := by simp [Snapshot.sequence, Dictionary.getD, hq]
    have hq : Dictionary.find? q s.store.committed.sequences.entries = some v := hq
    rw [hq, hv, ← Int64.toInt_inj, toInt_max]
    show (max (t.working.sequence q) v).toInt = _
    rw [toInt_max]
    omega

/-- The committed state stays regular, and no sequence of it goes back. -/
theorem Regular.committed_step (hs : s.Regular) (hroom : s.HasRoom op) :
    (s.step op).2.store.committed.Regular
      ∧ s.store.committed.Behind (s.step op).2.store.committed := by
  have hforward : ∀ {k : Snapshot}, s.store.committed.Behind k → k.sequences.keys.Nodup →
      k.Regular ∧ s.store.committed.Behind k :=
    fun hb hn => ⟨hs.committed.of_behind hb hn, hb⟩
  rcases hp : op.publishes with _ | _
  · rw [OpenStore.committed_step hp]
    exact hforward (Snapshot.behind_issues hroom) (Snapshot.nodup_withSequences hs.committed.distinct _)
  obtain ⟨t', rows, rfl⟩ | ⟨e, rfl⟩ | ⟨name', rfl⟩ := StoreOperation.eq_of_publishes hp
  · have hseq := s.store.committed.sequences_appendRows t' rows
    refine hforward (fun q => ?_) ?_
    · have hq : s.store.committed.sequence q
          = (s.store.committed.appendRows t' rows).1.sequence q := by
        rw [Snapshot.sequence, Snapshot.sequence, hseq]
      exact Int.le_of_eq (congrArg Int64.toInt hq)
    · show (s.store.committed.appendRows t' rows).1.sequences.keys.Nodup
      rw [hseq]
      exact hs.committed.distinct
  · refine hforward (fun q => ?_) (Dictionary.nodup_keys_insert hs.committed.distinct _ _)
    show _ ≤ ((s.store.committed.raise entitySequence e.id.number).sequence q).toInt
    rw [Snapshot.sequence_raise]
    have hmax := toInt_max (s.store.committed.sequence q) e.id.number
    split <;> omega
  · rcases ht : s.live.get? name' with _ | t'
    · rw [step, inTransaction_of_none ht]
      exact ⟨hs.committed, .refl _⟩
    · refine hforward (fun q => ?_) ?_
      · rw [sequence_commit hs ht, toInt_max]
        omega
      · rw [step_commit ht]
        exact Snapshot.nodup_foldl_raise (hs.working ht).distinct _

/-- A sequence that was used once stays in use. -/
theorem contains_step (h : s.store.committed.sequences.contains q = true) :
    (s.step op).2.store.committed.sequences.contains q = true := by
  rcases hp : op.publishes with _ | _
  · rw [OpenStore.committed_step hp]
    exact Snapshot.contains_withSequences h _
  obtain ⟨t', rows, rfl⟩ | ⟨e, rfl⟩ | ⟨name', rfl⟩ := StoreOperation.eq_of_publishes hp
  · show (s.store.committed.appendRows t' rows).1.sequences.contains q = true
    rw [s.store.committed.sequences_appendRows t' rows]
    exact h
  · exact Dictionary.contains_insert_of_contains h _ _
  · rcases ht : s.live.get? name' with _ | t'
    · rw [step, inTransaction_of_none ht]
      exact h
    · rw [step_commit ht]
      refine Snapshot.contains_foldl_raise (.inr ?_)
      by_contra hq
      rw [Dictionary.contains, Dictionary.get?_eq_none_iff.2 hq] at h
      cases h

/-- An operation that stays in its range keeps a state regular. -/
theorem Regular.step (hs : s.Regular) (hroom : s.HasRoom op) : (s.step op).2.Regular := by
  have hc := (hs.committed_step hroom).1
  refine ⟨hc, fun {name' t'} ht' => ?_⟩
  by_cases hbegin : op = .begin name'
  · rw [hbegin, live_begin, Option.some.injEq] at ht'
    subst ht'
    exact hs.committed
  · obtain ⟨hopen, t, ht⟩ := live_of_live_step ht' hbegin
    by_cases hop : op.transaction? = some name'
    · rw [live_step ht hop hopen, Option.some.injEq] at ht'
      subst ht'
      exact regular_act hs ht hop hopen hc
    · rw [live_step_of_ne hop] at ht'
      exact hs.working ht'

/-- What an operation's answer tells is what the sequences that it advances issue. -/
theorem issued_eq (op : StoreOperation) :
    s.issued op = s.store.committed.issues (s.advances op) := by
  have hnone : s.advances op = [] →
      s.issued op = s.store.committed.issues (s.advances op) := fun hadv => by
    rw [issued, hadv, StoreAnswer.issued_nil]
    rfl
  cases op with
  | seed | register | rows | sequence | entityCount | failNextCopy | begin | set | latest | copy | commit
  | rollback => exact hnone (advances_eq_nil fun _ => rfl)
  | next name' ts =>
    rcases ht : s.live.get? name' with _ | t
    · exact hnone (advances_of_none ht rfl)
    · rw [issued, answer_next ht, advances_of_some ht rfl]
      exact Snapshot.zip_issues _ _
  | resolve name' a v =>
    rcases ht : s.live.get? name' with _ | t
    · exact hnone (advances_of_none ht rfl)
    · rcases ha : t.working.entities.get? a with _ | e
      · have hadv : s.advances (.resolve name' a v) = [entitySequence] := by
          rw [advances_of_some ht rfl]
          simp [StoreOperation.advances, ha]
        rw [issued, answer_resolve ht, hadv]
        simp [StoreAnswer.issued, (Connection.resolve_of_none ⟨s.store, t⟩ ha v).1, Snapshot.issues]
      · refine hnone ?_
        rw [advances_of_some ht rfl]
        simp [StoreOperation.advances, ha]

/-- An issued value is beyond what its sequence had before, and not beyond what it has then. -/
theorem bounds_of_mem_issued (hroom : s.HasRoom op) :
    ∀ x ∈ s.issued op, (s.store.committed.sequence x.1).toInt < x.2.toInt
      ∧ x.2.toInt ≤ ((s.step op).2.store.committed.sequence x.1).toInt := by
  intro x hx
  rw [issued_eq] at hx
  obtain ⟨hlt, hle⟩ := Snapshot.bounds_of_mem_issues hroom x hx
  rcases hp : op.publishes with _ | _
  · rw [OpenStore.committed_step hp]
    exact ⟨hlt, hle⟩
  · have hnil : s.advances op = [] := by
      obtain ⟨_, _, rfl⟩ | ⟨_, rfl⟩ | ⟨_, rfl⟩ := StoreOperation.eq_of_publishes hp <;>
        exact advances_eq_nil fun _ => rfl
    rw [hnil] at hx
    cases hx

end Step

/-! ## Runs -/

section Run

variable {op : StoreOperation} {ops : List StoreOperation}

theorem Regular.after (hs : s.Regular) (hroom : s.Roomy ops) : (s.after ops).Regular := by
  induction ops generalizing s with
  | nil => exact hs
  | cons op ops ih => exact ih (hs.step hroom.1) hroom.2

theorem Reached.regular (h : s.Reached) : s.Regular := by
  obtain ⟨ops, hroom, rfl⟩ := h
  exact Regular.after ⟨Snapshot.regular_empty, nofun⟩ hroom

/-- No sequence goes back. -/
theorem Regular.behind_after (hs : s.Regular) (hroom : s.Roomy ops) :
    s.store.committed.Behind (s.after ops).store.committed := by
  induction ops generalizing s with
  | nil => exact .refl _
  | cons op ops ih =>
    exact (hs.committed_step hroom.1).2.trans (ih (hs.step hroom.1) hroom.2)

/-- The last value of a sequence that was used does not go back. -/
theorem Regular.sequenceValue?_after (hs : s.Regular) (hroom : s.Roomy ops) {q : String} {v : Int64}
    (h : s.store.sequenceValue? q = some v) :
    ∃ v', (s.after ops).store.sequenceValue? q = some v' ∧ v ≤ v' := by
  have hused : (s.after ops).store.committed.sequences.contains q = true := by
    have hcontains : s.store.committed.sequences.contains q = true := Option.isSome_of_eq_some h
    clear hroom hs h
    induction ops generalizing s with
    | nil => exact hcontains
    | cons op ops ih => exact ih (contains_step hcontains)
  obtain ⟨v', hv'⟩ := Option.isSome_iff_exists.1 hused
  have hle := hs.behind_after hroom q
  refine ⟨v', hv', Int64.le_iff_toInt_le.2 ?_⟩
  rw [Store.sequenceValue?] at h
  simpa [Snapshot.sequence, Dictionary.getD, h, hv'] using hle

theorem Regular.bounds_of_mem_issuedIn (hs : s.Regular) (hroom : s.Roomy ops) :
    ∀ x ∈ s.issuedIn ops, (s.store.committed.sequence x.1).toInt < x.2.toInt
      ∧ x.2.toInt ≤ ((s.after ops).store.committed.sequence x.1).toInt := by
  induction ops generalizing s with
  | nil => exact nofun
  | cons op ops ih =>
    intro x hx
    have hnext := hs.step hroom.1
    rcases List.mem_append.1 hx with hx | hx
    · obtain ⟨hlt, hle⟩ := bounds_of_mem_issued hroom.1 x hx
      exact ⟨hlt, Int.le_trans hle (hnext.behind_after hroom.2 x.1)⟩
    · obtain ⟨hlt, hle⟩ := ih hnext hroom.2 x hx
      exact ⟨Int.lt_of_le_of_lt ((hs.committed_step hroom.1).2 x.1) hlt, hle⟩

/-- Each value that a sequence issues is greater than all that it issued before. -/
theorem Regular.increasing_issuedIn (hs : s.Regular) (hroom : s.Roomy ops) :
    (s.issuedIn ops).Pairwise fun x y => x.1 = y.1 → x.2.toInt < y.2.toInt := by
  induction ops generalizing s with
  | nil => exact .nil
  | cons op ops ih =>
    refine List.pairwise_append.2 ⟨?_, ih (hs.step hroom.1) hroom.2, fun x hx y hy he => ?_⟩
    · rw [issued_eq]
      exact Snapshot.pairwise_issues hroom.1
    · have hle := (bounds_of_mem_issued hroom.1 x hx).2
      have hlt := ((hs.step hroom.1).bounds_of_mem_issuedIn hroom.2 y hy).1
      rw [← he] at hlt
      exact Int.lt_of_le_of_lt hle hlt

theorem issuedTo_sublist (name : String) (ops : List StoreOperation) :
    (s.issuedTo name ops).Sublist (s.issuedIn ops) := by
  induction ops generalizing s with
  | nil => exact .slnil
  | cons op ops ih =>
    refine List.Sublist.append ?_ ih
    split
    · exact .refl _
    · exact List.nil_sublist _

end Run

end OpenStore

end LedgerHistory
