import LedgerHistory.Domain.Plain
import LedgerHistory.Proofs.Transactions.Sequences

/-!
# Sequence values that a transaction sets

A transaction sets a sequence in its copy alone, and when it advances the sequence the copy takes over
what the committed state issues. So a commit keeps the values that the transaction set the sequence to
since it last advanced it (`OpenStore.sequence_after_commit`), and those set before are lost where they
were greater than what was issued (`OpenStore.not_forall_settings_kept`).
-/

namespace LedgerHistory

theorem int64_le_max_iff {v m u : Int64} : v ≤ max m u ↔ v ≤ m ∨ v ≤ u := by
  have hmax := toInt_max m u
  simp only [Int64.le_iff_toInt_le]
  omega

theorem le_foldl_max_iff {v m : Int64} {vs : List Int64} :
    v ≤ vs.foldl max m ↔ v ≤ m ∨ ∃ u ∈ vs, v ≤ u := by
  induction vs generalizing m with
  | nil => simp
  | cons u vs ih =>
    rw [List.foldl_cons, ih, int64_le_max_iff, or_assoc]
    simp

namespace OpenStore

/-- The values that a transaction sets a sequence to. -/
def settings (name q : String) (ops : List StoreOperation) : List Int64 :=
  (ops.filter (·.transaction? = some name)).flatMap (·.settings q)

/-- The values that a transaction sets a sequence to without advancing it afterwards. -/
def pending (s : OpenStore) (name q : String) : List StoreOperation → List Int64
  | [] => []
  | op :: ops =>
    (if op.transaction? = some name ∧ q ∉ ((s.step op).2.issuedTo name ops).map (·.1)
      then op.settings q else []) ++ (s.step op).2.pending name q ops

/-- What a transaction that was opened before operations leaves of a sequence when it commits after them,
and what the sequence issues later. -/
structure KeepsPending (s : OpenStore) (name q : String) (ops later : List StoreOperation) :
    Prop where
  /-- The committed value is the greatest of the one before and of those that the transaction set since
  it last advanced the sequence. -/
  kept (v : Int64) : v ≤ (s.throughCommit name ops).store.committed.sequence q
    ↔ v ≤ (s.opened name ops).store.committed.sequence q
      ∨ ∃ u ∈ s.pending name q (.begin name :: ops), v ≤ u
  returned : ∀ x ∈ s.issuedTo name (.begin name :: ops), x.1 = q →
    x.2 ≤ (s.throughCommit name ops).store.committed.sequence q
  increasing : (s.issuedTo name (.begin name :: ops)).Pairwise fun x y => x.1 = y.1 → x.2 < y.2
  later : ∀ x ∈ (s.throughCommit name ops).issuedIn later, x.1 = q →
    (s.throughCommit name ops).store.committed.sequence q < x.2

variable {s : OpenStore} {name q : String} {t : Transaction} {ops : List StoreOperation}

/-- An operation does not set what it advances. -/
theorem settings_of_mem_advances {op : StoreOperation} (h : q ∈ s.advances op) :
    op.settings q = [] := by
  cases op with
  | set name' values =>
    rw [advances_eq_nil fun _ => rfl] at h
    cases h
  | _ => rfl

theorem map_fst_issued (op : StoreOperation) : (s.issued op).map (·.1) = s.advances op := by
  rw [issued_eq, Snapshot.map_fst_issues]

/-- A copy's sequence is at the greatest of the values set since the transaction last advanced it, and
of one that the committed state has not left behind. -/
theorem sequence_working_after (hs : s.Regular) (h : s.live.get? name = some t)
    (hopen : ∀ op ∈ ops, op.leavesOpen name = true) (hroom : s.Roomy ops) :
    ∃ m, (t.working.replay (s.acts name ops)).sequence q = (s.pending name q ops).foldl max m
      ∧ (q ∈ (s.issuedTo name ops).map (·.1) →
        m.toInt ≤ ((s.after ops).store.committed.sequence q).toInt)
      ∧ (q ∉ (s.issuedTo name ops).map (·.1) → m = t.working.sequence q) := by
  induction ops generalizing s t with
  | nil => exact ⟨_, rfl, nofun, fun _ => rfl⟩
  | cons op ops ih =>
    have hops : ∀ op ∈ ops, op.leavesOpen name = true := fun op hop =>
      hopen op (List.mem_cons_of_mem _ hop)
    have hs' := hs.step hroom.1
    rw [acts_cons, Snapshot.replay_append, pending, issuedTo, after_cons]
    by_cases hop : op.transaction? = some name
    · have hopen' := hopen op List.mem_cons_self
      obtain ⟨m, hm, hle, heq⟩ := ih hs' (live_step h hop hopen') hops hroom.2
      rw [sequence_act h hop hopen'] at heq
      simp only [if_pos hop, List.map_append, map_fst_issued, List.mem_append, not_or]
      -- what the operation sets counts only if the sequence is not advanced later
      by_cases hlater : q ∈ ((s.step op).2.issuedTo name ops).map (·.1)
      · rw [if_neg fun hcur => hcur.2 hlater]
        exact ⟨m, hm, fun _ => hle hlater, fun hnot => absurd hlater hnot.2⟩
      · have heq := heq hlater
        rw [if_pos ⟨hop, hlater⟩]
        by_cases hadv : q ∈ s.advances op
        · rw [settings_of_mem_advances hadv]
          rw [if_pos hadv] at heq
          exact ⟨m, hm, fun _ => heq ▸ hs'.behind_after hroom.2 q, fun hnot => absurd hadv hnot.1⟩
        · rw [if_neg hadv] at heq
          rw [heq] at hm
          exact ⟨_, hm.trans List.foldl_append.symm, fun hmem => (hmem.elim hadv hlater).elim,
            fun _ => rfl⟩
    · obtain ⟨m, hm, hbound⟩ := ih hs' ((live_step_of_ne hop).trans h) hops hroom.2
      rw [if_neg hop, if_neg hop, if_neg fun hcur => hop hcur.1]
      exact ⟨m, hm, hbound⟩

/-- The value of a sequence after a commit is the greatest of the one before and of those that the
transaction set since it last advanced the sequence. -/
theorem le_sequence_throughCommit_iff (hs : s.Regular)
    (hopen : ∀ op ∈ ops, op.leavesOpen name = true) (hroom : s.Roomy (.begin name :: ops)) (v : Int64) :
    v ≤ (s.throughCommit name ops).store.committed.sequence q
      ↔ v ≤ (s.opened name ops).store.committed.sequence q
        ∨ ∃ u ∈ s.pending name q (.begin name :: ops), v ≤ u := by
  have hs' := hs.step hroom.1
  obtain ⟨m, hm, hle, heq⟩ := sequence_working_after (q := q) hs' (s.live_begin name) hopen hroom.2
  have hm_le : m.toInt ≤ ((s.opened name ops).store.committed.sequence q).toInt := by
    by_cases hq : q ∈ ((s.step (.begin name)).2.issuedTo name ops).map (·.1)
    · exact hle hq
    · rw [heq hq]
      exact hs.behind_after hroom q
  have hpending : s.pending name q (.begin name :: ops)
      = (s.step (.begin name)).2.pending name q ops := by
    rw [pending]
    simp [StoreOperation.settings]
  have hlive : (s.opened name ops).live.get? name = some _ := live_after (s.live_begin name) hopen
  have hr : (s.opened name ops).Regular := hs.after hroom
  rw [hpending, throughCommit_eq, sequence_commit hr hlive, int64_le_max_iff, hm, le_foldl_max_iff]
  refine ⟨fun h => ?_, fun h => h.imp_right .inr⟩
  rcases h with h | h | h
  · exact .inl h
  · rw [Int64.le_iff_toInt_le] at h
    exact .inl (Int64.le_iff_toInt_le.2 (Int.le_trans h hm_le))
  · exact .inr h

/-- A commit keeps what its transaction set a sequence to since it last advanced it, and all that the
sequence issues afterwards is greater. -/
theorem sequence_after_commit (hs : s.Reached) {later : List StoreOperation}
    (hopen : ∀ op ∈ ops, op.leavesOpen name = true)
    (hroom : s.Roomy (.begin name :: (ops ++ .commit name :: later))) :
    s.KeepsPending name q ops later := by
  have hr := hs.regular
  rw [← List.cons_append] at hroom
  obtain ⟨hbefore, hcommit, hlater⟩ := roomy_append.1 hroom
  have hthrough : (s.throughCommit name ops).Regular := by
    rw [throughCommit_eq]
    exact (hr.after hbefore).step hcommit
  refine ⟨le_sequence_throughCommit_iff hr hopen hbefore, fun x hx he => ?_, ?_, fun x hx he => ?_⟩
  · obtain ⟨-, hle⟩ := hr.bounds_of_mem_issuedIn hbefore x ((issuedTo_sublist ..).mem hx)
    rw [he, ← Int64.le_iff_toInt_le] at hle
    exact (le_sequence_throughCommit_iff hr hopen hbefore _).2 (.inl hle)
  · refine ((hr.increasing_issuedIn hbefore).sublist (issuedTo_sublist ..)).imp fun h he => ?_
    exact Int64.lt_iff_toInt_lt.2 (h he)
  · rw [← opened, ← throughCommit_eq] at hlater
    have hlt := (hthrough.bounds_of_mem_issuedIn hlater x hx).1
    rw [he] at hlt
    exact Int64.lt_iff_toInt_lt.2 hlt

/-- Operations in which a transaction sets a sequence to 7, advances it to 2 and sets it to 4, while
another one advances it. -/
def settingSample : List StoreOperation :=
  [.begin "b", .set "a" [(DepositRule.table, 7)], .next "b" [DepositRule.table],
    .next "a" [DepositRule.table], .set "a" [(DepositRule.table, 4)]]

/-- Of the two values that the transaction set, the one set last stays, and the next value is 5. -/
theorem sequence_after_commit_sample :
    Reached {} ∧ (∀ op ∈ settingSample, op.leavesOpen "a" = true)
      ∧ Roomy {} (.begin "a" :: (settingSample ++ .commit "a" :: [.next "b" [DepositRule.table]]))
      ∧ settings "a" DepositRule.table.sequenceName settingSample = [7, 4]
      ∧ pending {} "a" DepositRule.table.sequenceName (.begin "a" :: settingSample) = [4]
      ∧ KeepsPending {} "a" DepositRule.table.sequenceName settingSample
        [.next "b" [DepositRule.table]] := by
  have hopen : ∀ op ∈ settingSample, op.leavesOpen "a" = true := by decide
  have hroom : Roomy {} (.begin "a" ::
      (settingSample ++ .commit "a" :: [.next "b" [DepositRule.table]])) := by decide +kernel
  have hempty : Reached {} := ⟨[], trivial, rfl⟩
  exact ⟨hempty, hopen, hroom, by decide +kernel, by decide +kernel,
    sequence_after_commit hempty hopen hroom⟩

/-- It is not so that a commit keeps all that its transaction set a sequence to: of a transaction that
sets one to 7 and then advances it, the 7 is lost. -/
theorem not_forall_settings_kept : ¬∀ (s : OpenStore) (name q : String) (ops : List StoreOperation),
    s.Reached → (∀ op ∈ ops, op.leavesOpen name = true) →
    s.Roomy (.begin name :: (ops ++ [.commit name])) →
    ∀ v ∈ settings name q ops, v ≤ (s.throughCommit name ops).store.committed.sequence q := by
  intro hall
  have hlost := hall {} "a" DepositRule.table.sequenceName
    [.set "a" [(DepositRule.table, 7)], .next "a" [DepositRule.table]] ⟨[], trivial, rfl⟩ (by decide)
    (by decide +kernel) 7 (by decide +kernel)
  exact absurd hlost (by decide +kernel)

end OpenStore

end LedgerHistory
