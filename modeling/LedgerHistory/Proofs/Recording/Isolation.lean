import LedgerHistory.Proofs.Recording.AsOf
import LedgerHistory.Proofs.Recording.Mirroring

/-!
# Domains do not disturb each other

Domains share the directory, the transaction and the allocator, so with fewer of them enabled the
entities get other ids. The ids of rows stay, since each table has its own sequence: the state of the
run with fewer domains mirrors that of the other run under the same ids of rows
(`Snapshot.Isolated.recorded`), and whatever the first run records the second one does
(`Session.runAll_of_subset`).
-/

namespace LedgerHistory

/-- Whether a state has no more than another one has in some of the domains, under the same ids of
rows. -/
structure Snapshot.Isolated (ds : DomainSwitches) (s : Snapshot) (C : Chronicles) (H : Histories)
    (s' : Snapshot) (C' : Chronicles) (H' : Histories) : Prop where
  mirrors : Mirrors ds.enabled (fun _ i j => i = j) s C H s' C' H'
  sequences : ∀ t ∈ ds.tables, s'.sequence t.sequenceName = s.sequence t.sequenceName
  addresses : ∀ a ∈ s'.entities.keys, a ∈ s.entities.keys
  others {name : String} (hn : ∀ t ∈ ds.tables, t.name ≠ name) : s'.rows name = []

namespace Snapshot

variable {n n' : Nat} {s s' : Snapshot} {C C' : Chronicles} {H H' : Histories}
  {config config' : Configuration} {x : LedgerExtension}

theorem keepsOrder_eq : KeepsOrder fun i j => i = j := by
  rintro i _ j _ rfl rfl
  exact Iff.rfl

theorem isolated_empty (ds : DomainSwitches) :
    Isolated ds {} (fun _ => {}) (fun _ => []) {} (fun _ => {}) fun _ => [] where
  mirrors := {
    stored := stored_empty
    stored' := stored_empty
    order _ := keepsOrder_eq
    lists _ _ := NewRows.alike_empty
    plain _ _ := .nil }
  sequences _ _ := rfl
  addresses _ ha := ha
  others _ := rfl

/-- What is recorded is recorded with fewer domains, too. -/
theorem Isolated.recorded (hs : s.Sound n) (hs' : s'.Sound n')
    (hroom : n + (1 + 2 * x.eventCount) < 2 ^ 63) (hroom' : n' + (1 + 2 * x.eventCount) < 2 ^ 63)
    (hsub : ∀ d ∈ config'.domains.enabled, d ∈ config.domains.enabled)
    (hi : Isolated config'.domains s C H s' C' H') (hx : x.isEmpty = false)
    {report : InvocationReport} {w : World}
    (hcalm : (recordExtension config x).calm s.idle = (.ok report, w)) :
    ∃ report' w', (recordExtension config' x).calm s'.idle = (.ok report', w')
      ∧ w.committed.Sound (n + (1 + 2 * x.eventCount))
      ∧ w'.committed.Sound (n' + (1 + 2 * x.eventCount))
      ∧ ∃ C₁ H₁ C₁' H₁', Isolated config'.domains w.committed C₁ H₁ w'.committed C₁' H₁' := by
  have hm := hi.mirrors
  obtain ⟨B, hB, hrecalls⟩ := hm.stored.recalls hs.keyed
  have ha := (calm_recordExtension_isOk_iff hs hrecalls hroom hx).1 ⟨_, _, hcalm⟩
  obtain ⟨bss, hout, hg⟩ := gained_of_calm hs hrecalls hroom hx hcalm
  have hnext : ∀ t ∈ config'.domains.tables, s'.nextIds t.name = s.nextIds t.name := fun t ht =>
    congrArg (· + 1) (hi.sequences t ht)
  obtain ⟨report', w', B', bss', hcalm', hout', hg', C₁, H₁, C₁', H₁', hm'⟩ :=
    hm.step hs hs' hroom hroom' (fun d hd => ⟨hd, hsub d hd⟩) hB ha hout (fun _ _ _ hij => hij)
      (fun _ => keepsOrder_eq) (fun t ht => by
        rw [hnext t ht, List.forall₂_same]
        exact fun _ _ => rfl) hg hx fun _ hd _ => hd
  refine ⟨report', w', hcalm', hg.sound, hg'.sound, C₁, H₁, C₁', H₁', hm', fun t ht => ?_, ?_,
    fun {name} hn => ?_⟩
  · -- the table has as many new rows in both states, under the same ids
    obtain ⟨d, hd, htd⟩ := DomainSwitches.mem_tables ht
    have hold := List.forall₂_eq_eq_eq ▸ hm.forall₂_ids hs.keyed hs'.keyed hd htd
    have hnew := List.forall₂_eq_eq_eq ▸ hm'.forall₂_ids hg.sound.keyed hg'.sound.keyed hd htd
    rw [hg.ids_eq hs hout, hg'.ids_eq hs' hout', hold] at hnew
    have hcount := congrArg List.length (List.append_cancel_left hnew)
    rw [length_idsFrom, length_idsFrom] at hcount
    obtain ⟨b, hb, rfl⟩ := List.mem_map.1 (tables_outcomes hout' ▸ ht)
    obtain ⟨c, hc, he⟩ := List.mem_map.1
      (tables_outcomes hout ▸ mem_tables_of_mem (hsub d hd) htd : b.table ∈ _)
    have hseq := hg.sequences hc
    have hseq' := hg'.sequences hb
    rw [rowCount_of_mem (nodup_outcomes hout') hb, ← he,
      rowCount_of_mem (nodup_outcomes hout) hc] at hcount
    rw [hnext _ ht, ← he, ← hcount, ← hseq] at hseq'
    rw [← he]
    exact Int64.toInt_inj.1 hseq'
  · rw [hg.entities, hg'.entities]
    exact keys_prepared_subset hsub hi.addresses
  · rw [hg'.kept hn]
    exact hi.others hn

end Snapshot

namespace Session

variable {config config' : Configuration}

theorem runAll_isolated (hsub : ∀ d ∈ config'.domains.enabled, d ∈ config.domains.enabled)
    {xs : List LedgerExtension} {n : Nat} (hroom : n + (xs.map fun x => 1 + 2 * x.eventCount).sum < 2 ^ 63)
    {t t' : Session} (ht : t.IsCalm) (ht' : t'.IsCalm) (hs : t.store.committed.Sound n)
    (hs' : t'.store.committed.Sound n) {C C' : Chronicles} {H H' : Histories}
    (hi : Snapshot.Isolated config'.domains t.store.committed C H t'.store.committed C' H')
    (hall : AllRecorded (t.runAll (xs.map (config, ·))).1) :
    AllRecorded (t'.runAll (xs.map (config', ·))).1 ∧ ∃ C H C' H',
      Snapshot.Isolated config'.domains (t.runAll (xs.map (config, ·))).2.store.committed C H
        (t'.runAll (xs.map (config', ·))).2.store.committed C' H' := by
  induction xs generalizing n t t' C C' H H' with
  | nil => exact ⟨nofun, C, H, C', H', hi⟩
  | cons x xs ih =>
    rw [List.map_cons, List.sum_cons] at hroom
    rw [List.map_cons, runAll_cons] at hall
    obtain ⟨report, hr⟩ := hall _ List.mem_cons_self
    have hrest : AllRecorded _ := fun r hr => hall r (List.mem_cons_of_mem _ hr)
    have hcalm : (recordExtension config x).calm t.store.committed.idle
        = (.ok report, ((recordExtension config x).calm t.store.committed.idle).2) :=
      Prod.ext (run_recordExtension ht ▸ hr) rfl
    obtain ⟨_, hend⟩ := run_eq_of_calm ht hcalm
    obtain ⟨report', w', hcalm', hs₁, hs₁', C₁, H₁, C₁', H₁', hi₁⟩ : ∃ report' w',
        (recordExtension config' x).calm t'.store.committed.idle = (.ok report', w')
          ∧ (t.run (recordExtension config x)).2.store.committed.Sound (n + (1 + 2 * x.eventCount))
          ∧ w'.committed.Sound (n + (1 + 2 * x.eventCount))
          ∧ ∃ C₁ H₁ C₁' H₁', Snapshot.Isolated config'.domains
            (t.run (recordExtension config x)).2.store.committed C₁ H₁ w'.committed C₁' H₁' := by
      rcases hx : x.isEmpty with _ | _
      · rw [hend]
        exact hi.recorded hs hs' (by omega) (by omega) hsub hx hcalm
      · have hsame := congrArg (·.2.committed)
          (calm_recordExtension_of_isEmpty hx config t.store.committed.idle)
        rw [hend.trans hsame]
        exact ⟨_, _, calm_recordExtension_of_isEmpty hx config' _, hs.mono (by omega),
          hs'.mono (by omega), C, H, C', H', hi⟩
    obtain ⟨hr', hend'⟩ := run_eq_of_calm ht' hcalm'
    rw [← hend'] at hs₁' hi₁
    obtain ⟨hall', hisolated⟩ := ih (by omega) (isCalm_run _ ht) (isCalm_run _ ht') hs₁ hs₁' hi₁ hrest
    rw [List.map_cons, List.map_cons, runAll_cons, runAll_cons]
    refine ⟨fun r hmem => ?_, hisolated⟩
    rcases List.mem_cons.1 hmem with rfl | hmem
    · exact ⟨report', hr'⟩
    · exact hall' r hmem

/-- Extensions that are all recorded from the empty state, while no sequence can run out, are all
recorded with fewer domains enabled. Then the tables of these have the same rows, once entities are
told by their addresses, with the same ids, lists and owner roles; all other tables are empty; and no
address is in the directory that was not in the other one. -/
theorem runAll_of_subset (hsub : ∀ d ∈ config'.domains.enabled, d ∈ config.domains.enabled)
    {xs : List LedgerExtension} (hroom : (xs.map fun x => 1 + 2 * x.eventCount).sum < 2 ^ 63)
    {t t' : Session} (ht : t.IsCalm) (ht' : t'.IsCalm) (hstore : t.store.committed = {})
    (hstore' : t'.store.committed = {}) (hall : AllRecorded (t.runAll (xs.map (config, ·))).1) :
    AllRecorded (t'.runAll (xs.map (config', ·))).1
      ∧ (t.runAll (xs.map (config, ·))).2.store.committed.Resembles config'.domains.enabled
        (fun _ i j => i = j) (t'.runAll (xs.map (config', ·))).2.store.committed
      ∧ (∀ name, (∀ u ∈ config'.domains.tables, u.name ≠ name) →
        (t'.runAll (xs.map (config', ·))).2.store.committed.rows name = [])
      ∧ ∀ a ∈ (t'.runAll (xs.map (config', ·))).2.store.committed.entities.keys,
        a ∈ (t.runAll (xs.map (config, ·))).2.store.committed.entities.keys := by
  have hsound : t.store.committed.Sound 0 ∧ t'.store.committed.Sound 0 := by
    rw [hstore, hstore']
    exact ⟨Snapshot.sound_empty, Snapshot.sound_empty⟩
  have hi : Snapshot.Isolated config'.domains t.store.committed (fun _ => {}) (fun _ => [])
      t'.store.committed (fun _ => {}) fun _ => [] := by
    rw [hstore, hstore']
    exact Snapshot.isolated_empty _
  obtain ⟨hall', C, H, C', H', hi⟩ :=
    runAll_isolated hsub (by omega) ht ht' hsound.1 hsound.2 hi hall
  exact ⟨hall', hi.mirrors.resembles fun _ _ _ hij => hij, fun name => hi.others, hi.addresses⟩

/-- A configuration that leaves all domains but metadata off. -/
def metadataAlone : Configuration where
  domains := ⟨true, false, false, false, false, false, false⟩

/-- With metadata alone enabled the same entries are recorded, but not the rule. -/
theorem runAll_of_subset_sample :
    ∃ (t : Session) (config : Configuration) (xs : List LedgerExtension) (s s' : Snapshot),
      config.domains.enabled = [.metadata] ∧ t.IsCalm ∧ t.store.committed = {}
      ∧ xs = [sampleExtension, amendingSample]
      ∧ AllRecorded (t.runAll (xs.map (({} : Configuration), ·))).1
      ∧ (t.runAll (xs.map (({} : Configuration), ·))).2.store.committed = s
      ∧ s.rows Metadata.entryTable.name
        = (sampleRows ++ amendingRows).entries.map Metadata.domain.encodeEntry
      ∧ (∃ row, s.rows DepositRule.table.name = [row])
      ∧ AllRecorded (t.runAll (xs.map (config, ·))).1
      ∧ (t.runAll (xs.map (config, ·))).2.store.committed = s'
      ∧ s.Resembles config.domains.enabled (fun _ i j => i = j) s'
      ∧ s'.rows DepositRule.table.name = [] := by
  have ht : (Session.mk {} none false [] [] []).IsCalm := ⟨rfl, rfl, rfl⟩
  obtain ⟨_, w, hcalm, hsampled⟩ := exists_sampled
  obtain ⟨_, w', hcalm', hc⟩ := hsampled.exists_amended
  obtain ⟨hfirst, hstore⟩ := runAll_concat_of_calm (h := []) ht nofun hcalm
  rw [← hstore] at hcalm'
  obtain ⟨hall, hend⟩ := runAll_concat_of_calm ht hfirst hcalm'
  simp only [List.nil_append, List.cons_append] at hall hend
  have hsub : ∀ d ∈ metadataAlone.domains.enabled, d ∈ ({} : Configuration).domains.enabled := by
    decide
  have hroom : ([sampleExtension, amendingSample].map fun x => 1 + 2 * x.eventCount).sum < 2 ^ 63 :=
    show 14 < 2 ^ 63 by decide
  obtain ⟨hall', hrows, hothers, _⟩ := runAll_of_subset hsub hroom ht ht rfl rfl hall
  have hrule := hc.plain (k := .defaultDepositRule) (by decide)
  rw [hsampled.plain .defaultDepositRule] at hrule
  refine ⟨_, metadataAlone, [sampleExtension, amendingSample], w'.committed, _, rfl, ht, rfl, rfl,
    hall, ?_, ?_, ⟨_, hrule⟩, hall', rfl, ?_, hothers _ (by decide)⟩
  · simpa only [List.map_cons, List.map_nil] using hend
  · exact (hc.lists (k := .metadata) (by decide) hsampled.made_amending).entries
  · simpa only [List.map_cons, List.map_nil, hend] using hrows

end Session

end LedgerHistory
