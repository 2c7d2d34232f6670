import LedgerHistory.Proofs.Transactions.Isolation

/-!
# Durability of commits

A commit puts in the place of the committed state what its transaction began with and what it wrote. So
all that was committed stays if each commit began with it or wrote it again, and only then
(`OpenStore.durable_iff`). That is so when no transaction commits while another one is open that commits
later; of two that overlap, the later commit loses what the earlier one put there
(`OpenStore.not_forall_durable`).
-/

namespace LedgerHistory

namespace Snapshot

/-- Whether another state has all rows of a state, and its addresses under the same numbers. -/
structure KeptIn (s s' : Snapshot) : Prop where
  rows {table : String} {row : Row} (h : row ∈ s.rows table) : row ∈ s'.rows table
  entities {a : Address} {e : Entity} (h : s.entities.get? a = some e) :
    ∃ e', s'.entities.get? a = some e' ∧ e'.id = e.id

/-- Whether each row and each number of an address in a state is one of another state, or one that
answered operations loaded or found. -/
structure CoveredBy (s base : Snapshot) (acts : List (StoreOperation × StoreAnswer)) : Prop where
  rows {table : String} {row : Row} (h : row ∈ s.rows table) :
    row ∈ base.rows table ∨ row ∈ loaded table acts
  entities {a : Address} {e : Entity} (h : s.entities.get? a = some e) :
    ∃ e', (base.entities.get? a).or (bound? a acts) = some e' ∧ e'.id = e.id

variable {s s' s'' base : Snapshot} {acts : List (StoreOperation × StoreAnswer)}

theorem KeptIn.trans (h : s.KeptIn s') (h' : s'.KeptIn s'') : s.KeptIn s'' := by
  refine ⟨fun hrow => h'.rows (h.rows hrow), fun he => ?_⟩
  obtain ⟨e', he', hid'⟩ := h.entities he
  obtain ⟨e'', he'', hid''⟩ := h'.entities he'
  exact ⟨e'', he'', hid''.trans hid'⟩

theorem SameContents.keptIn (h : s'.SameContents s) : s.KeptIn s' := by
  refine ⟨fun hrow => ?_, fun he => ⟨_, h.2 ▸ he, rfl⟩⟩
  rwa [Snapshot.rows, Snapshot.table, h.1]

theorem ExtendedBy.keptIn_iff (h : base.ExtendedBy acts s') : s.KeptIn s' ↔ s.CoveredBy base acts := by
  refine ⟨fun hk => ⟨fun hrow => ?_, fun he => ?_⟩, fun hc => ⟨fun hrow => ?_, fun he => ?_⟩⟩
  · exact List.mem_append.1 (h.rows _ ▸ hk.rows hrow)
  · exact h.entities _ ▸ hk.entities he
  · exact h.rows _ ▸ List.mem_append.2 (hc.rows hrow)
  · exact h.entities _ ▸ hc.entities he

end Snapshot

namespace OpenStore

variable {s : OpenStore} {name : String} {t : Transaction} {op : StoreOperation}
  {ops : List StoreOperation}

/-- A transaction that is open was opened, and neither opened again nor ended since. -/
theorem exists_begin (hs : s.live.get? name = none) (h : (s.after ops).live.get? name = some t) :
    ∃ before own, ops = before ++ .begin name :: own ∧ ∀ op ∈ own, op.leavesOpen name = true := by
  induction ops using List.reverseRecOn generalizing t with
  | nil =>
    rw [after_nil, hs] at h
    cases h
  | append_singleton ops op ih =>
    rw [after_append] at h
    by_cases hbegin : op = .begin name
    · exact ⟨ops, [], by rw [hbegin], nofun⟩
    · obtain ⟨hopen, t', ht'⟩ := live_of_live_step h hbegin
      obtain ⟨before, own, rfl, hown⟩ := ih ht'
      refine ⟨before, own ++ [op], by simp, fun op' hop' => ?_⟩
      rcases List.mem_append.1 hop' with hop' | hop'
      · exact hown op' hop'
      · rwa [List.mem_singleton.1 hop']

/-! ## Durability -/

/-- Whether all that is committed at some time stays committed. -/
def Durable (s : OpenStore) (ops : List StoreOperation) : Prop :=
  ∀ before between later, ops = before ++ (between ++ later) →
    (s.after before).store.committed.KeptIn (s.after (before ++ between)).store.committed

/-- Whether each transaction that commits began with all that is committed by then or wrote it again. -/
def CommitsCover (s : OpenStore) (ops : List StoreOperation) : Prop :=
  ∀ before name own later, ops = before ++ .begin name :: (own ++ .commit name :: later) →
    (∀ op ∈ own, op.leavesOpen name = true) →
    ((s.after before).opened name own).store.committed.CoveredBy (s.after before).store.committed
      ((s.after before).acts name (.begin name :: own))

/-- Whether nothing is published while a transaction is open that commits. -/
def CommitsApart (ops : List StoreOperation) : Prop :=
  ∀ before name own later, ops = before ++ .begin name :: (own ++ .commit name :: later) →
    (∀ op ∈ own, op.leavesOpen name = true) → ∀ op ∈ own, op.publishes = false

theorem sameContents_after (hops : ∀ op ∈ ops, op.publishes = false) :
    (s.after ops).store.committed.SameContents s.store.committed := by
  induction ops generalizing s with
  | nil => exact ⟨rfl, rfl⟩
  | cons op ops ih =>
    obtain ⟨htables, hentities⟩ := ih (s := (s.step op).2) fun op' hop' =>
      hops op' (List.mem_cons_of_mem _ hop')
    obtain ⟨htables', hentities'⟩ := sameContents_step (s := s) (hops op List.mem_cons_self)
    exact ⟨htables.trans htables', hentities.trans hentities'⟩

/-- A transaction that commits before anything else is published began with all that is committed. -/
theorem CommitsApart.cover (h : CommitsApart ops) (s : OpenStore) : s.CommitsCover ops := by
  intro before name own later hops hopen
  have hown : ∀ op ∈ .begin name :: own, op.publishes = false := fun op hop => by
    rcases List.mem_cons.1 hop with rfl | hop
    · rfl
    · exact h before name own later hops hopen op hop
  have hsame : ((s.after before).opened name own).store.committed.SameContents
      (s.after before).store.committed := sameContents_after hown
  refine ⟨fun hrow => .inl ?_, fun {a e} he => ⟨e, ?_, rfl⟩⟩
  · rwa [Snapshot.rows, Snapshot.table, ← hsame.1]
  · rw [← hsame.2, he, Option.some_or]

/-- Where each commit covers what is committed, an operation loses nothing. -/
theorem CommitsCover.keptIn_step (hs : ∀ name, s.live.get? name = none) (hcover : s.CommitsCover ops)
    (hplain : ∀ op ∈ ops, op.publishes = true → op.transaction?.isSome = true)
    {before later : List StoreOperation} (hops : ops = before ++ op :: later) :
    (s.after before).store.committed.KeptIn ((s.after before).step op).2.store.committed := by
  rcases hp : op.publishes with _ | _
  · exact (sameContents_step hp).keptIn
  have hown := hplain op (by simp [hops]) hp
  obtain ⟨_, _, rfl⟩ | ⟨_, rfl⟩ | ⟨name, rfl⟩ := StoreOperation.eq_of_publishes hp
  · cases hown
  · cases hown
  · rcases ht : (s.after before).live.get? name with _ | t
    · rw [step_of_none ht rfl (by simp)]
      exact Snapshot.SameContents.keptIn ⟨rfl, rfl⟩
    · obtain ⟨earlier, own, rfl, hopen⟩ := exists_begin (hs name) ht
      rw [List.append_assoc, List.cons_append] at hops
      rw [after_append]
      show ((s.after earlier).opened name own).store.committed.KeptIn
        (((s.after earlier).opened name own).step (.commit name)).2.store.committed
      rw [← throughCommit_eq, ((s.after earlier).extendedBy_throughCommit hopen).keptIn_iff]
      exact hcover earlier name own later hops hopen

theorem CommitsCover.durable (hs : ∀ name, s.live.get? name = none) (hcover : s.CommitsCover ops)
    (hplain : ∀ op ∈ ops, op.publishes = true → op.transaction?.isSome = true) : s.Durable ops := by
  intro before between later hops
  induction between generalizing before with
  | nil =>
    rw [List.append_nil]
    exact Snapshot.SameContents.keptIn ⟨rfl, rfl⟩
  | cons op between ih =>
    have hstep := hcover.keptIn_step hs hplain hops
    have hrest := ih (before ++ [op]) (by simpa using hops)
    rw [after_append] at hrest
    rw [← List.singleton_append, ← List.append_assoc]
    exact hstep.trans hrest

/-- What is committed stays committed if each transaction that commits began with all that is committed
by then or wrote it again, and only then; in particular when no two of them overlap. -/
theorem durable_iff (store : Store)
    (hplain : ∀ op ∈ ops, op.publishes = true → op.transaction?.isSome = true) :
    (Durable ⟨store, .empty⟩ ops ↔ CommitsCover ⟨store, .empty⟩ ops)
      ∧ (CommitsApart ops → Durable ⟨store, .empty⟩ ops) := by
  have hs : ∀ name, (OpenStore.mk store .empty).live.get? name = none := fun _ => rfl
  refine ⟨⟨fun hdurable before name own later hops hopen => ?_, fun h => h.durable hs hplain⟩,
    fun h => (h.cover _).durable hs hplain⟩
  rw [← ((after ⟨store, .empty⟩ before).extendedBy_throughCommit hopen).keptIn_iff]
  have hkept := hdurable (before ++ .begin name :: own) [.commit name] later (by simpa using hops)
  rw [List.append_assoc, List.cons_append, after_append, after_append] at hkept
  exact hkept

/-- Two transactions that overlap: the one that commits first has loaded a row and found an account. -/
def overlapSample : List StoreOperation :=
  [.begin "a", .begin "b", .resolve "a" accountSample 1, copyRule "a" 1, .commit "a", .commit "b"]

/-- The second commit does not cover the row that the first one left, so the sample is not durable. -/
theorem durable_iff_sample :
    (∀ op ∈ overlapSample, op.publishes = true → op.transaction?.isSome = true)
      ∧ ¬CommitsCover ⟨{}, .empty⟩ overlapSample ∧ ¬Durable ⟨{}, .empty⟩ overlapSample := by
  have hplain : ∀ op ∈ overlapSample, op.publishes = true → op.transaction?.isSome = true := by decide
  have hopen : ∀ op ∈ (overlapSample.take 5).drop 2, op.leavesOpen "b" = true := by decide
  have hlost : ¬CommitsCover ⟨{}, .empty⟩ overlapSample := fun hcover => by
    have hcovered := hcover [.begin "a"] "b" _ [] rfl hopen
    have hrow : ruleRow 1 ∈ (({} : Snapshot).rows DepositRule.table.name)
        ∨ ruleRow 1 ∈ loaded DepositRule.table.name _ := hcovered.rows (by decide +kernel)
    exact absurd hrow (by decide +kernel)
  exact ⟨hplain, hlost, fun hdurable => hlost ((durable_iff {} hplain).1.1 hdurable)⟩

/-- It is not so that what is committed stays committed: a transaction that was open at the commit drops
the row when it commits in its turn. -/
theorem not_forall_durable : ¬∀ ops : List StoreOperation, Roomy {} ops →
    (∀ op ∈ ops, op.publishes = true → op.transaction?.isSome = true) → Durable {} ops := by
  intro hall
  have hdurable := hall overlapSample (by decide +kernel) (by decide)
  have hkept := hdurable (overlapSample.take 5) [.commit "b"] [] rfl
  have hrow : ruleRow 1 ∈ (after {} overlapSample).store.committed.rows DepositRule.table.name :=
    hkept.rows (by decide +kernel)
  exact absurd hrow (by decide +kernel)

end OpenStore

end LedgerHistory
