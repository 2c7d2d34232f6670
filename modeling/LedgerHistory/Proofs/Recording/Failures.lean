import LedgerHistory.Proofs.Recording.AsOf
import LedgerHistory.Proofs.Recording.Mirroring
import LedgerHistory.Proofs.Recording.Renaming

/-!
# Failed attempts leave no trace in the rows

A failed attempt uses up ids of rows and of entities, so a run with failures numbers what follows
otherwise than the run without them. Each state of the first still mirrors the state of the second in
which ids stand at the same places (`Snapshot.Mirrors.recorded`), so the runs end with the same rows
under other ids, which grow alike (`History.Reaches.without_failures`).
-/

namespace LedgerHistory

/-- Whether ids stand at the same place of a table in two states. -/
def Snapshot.SamePlace (s s' : Snapshot) (name : String) (i j : Int64) : Prop :=
  (i, j) ∈ (s.table name).ids.zip (s'.table name).ids

section Zip

variable {xs ys xs' ys' : List Int64} {i i' j j' : Int64}

theorem counterpart_of_mem_zip (hx : xs.Pairwise (· < ·)) (h : (i, j) ∈ xs.zip ys) :
    counterpart xs ys i = j := by
  obtain ⟨m, hm, he⟩ := List.mem_iff_getElem.1 h
  rw [List.getElem_zip, Prod.mk.injEq] at he
  rw [List.length_zip] at hm
  obtain ⟨rfl, rfl⟩ := he
  rw [counterpart, (nodup_of_increasing hx).idxOf_getElem, List.getElem?_eq_getElem (by omega),
    Option.getD_some]

/-- Where two lists increase, what stands at the same places keeps the order. -/
theorem keepsOrder_zip (hx : xs.Pairwise (· < ·)) (hy : ys.Pairwise (· < ·)) :
    KeepsOrder fun i j => (i, j) ∈ xs.zip ys := by
  intro i i' j j' hi hj
  obtain ⟨m, hm, he⟩ := List.mem_iff_getElem.1 hi
  obtain ⟨l, hl, he'⟩ := List.mem_iff_getElem.1 hj
  rw [List.getElem_zip, Prod.mk.injEq] at he he'
  rw [List.length_zip] at hm hl
  obtain ⟨rfl, rfl⟩ := he
  obtain ⟨rfl, rfl⟩ := he'
  have hlt := List.pairwise_iff_getElem.1 hx
  have hlt' := List.pairwise_iff_getElem.1 hy
  rcases Nat.lt_trichotomy m l with hml | rfl | hml
  · exact iff_of_true (hlt m l (by omega) (by omega) hml) (hlt' m l (by omega) (by omega) hml)
  · exact iff_of_false Int64.lt_irrefl Int64.lt_irrefl
  · exact iff_of_false (fun h => Int64.lt_irrefl (Int64.lt_trans h (hlt l m (by omega) (by omega) hml)))
      fun h => Int64.lt_irrefl (Int64.lt_trans h (hlt' l m (by omega) (by omega) hml))

end Zip

namespace Snapshot

variable {n n' : Nat} {s s' s₁ s₁' : Snapshot} {C C' : Chronicles} {H H' : Histories}
  {config : Configuration} {x : LedgerExtension} {bss : List (List Batch)}

/-- States that mirror each other in all domains have as many ids in each table. -/
theorem Mirrors.length_ids {P : String → Int64 → Int64 → Prop} (hs : s.Keyed) (hs' : s'.Keyed)
    (hm : Mirrors DomainName.all P s C H s' C' H') (name : String) :
    (s.table name).ids.length = (s'.table name).ids.length := by
  by_cases hn : ∀ d : DomainName, ∀ t ∈ d.tables, t.name ≠ name
  · rw [hs.ids_eq_nil (hm.stored.others hn), hs'.ids_eq_nil (hm.stored'.others hn)]
  · push Not at hn
    obtain ⟨d, t, ht, rfl⟩ := hn
    exact (hm.forall₂_ids hs hs' d.mem_all ht).length_eq

/-- The ids of a table once the rows of batches are added. -/
def idsAfter (s : Snapshot) (bss : List (List Batch)) (name : String) : List Int64 :=
  (s.table name).ids ++ idsFrom (s.nextIds name) (rowCount bss.flatten name)

/-- Whether ids stand at the same place of a table once the same rows are added to two states. -/
def SamePlaceAfter (s s' : Snapshot) (bss : List (List Batch)) (name : String) (i j : Int64) : Prop :=
  (i, j) ∈ (s.idsAfter bss name).zip (s'.idsAfter bss name)

theorem zip_idsAfter (bss : List (List Batch)) {name : String}
    (h : (s.table name).ids.length = (s'.table name).ids.length) :
    (s.idsAfter bss name).zip (s'.idsAfter bss name) = (s.table name).ids.zip (s'.table name).ids
      ++ (idsFrom (s.nextIds name) (rowCount bss.flatten name)).zip
        (idsFrom (s'.nextIds name) (rowCount bss.flatten name)) := List.zip_append h

theorem SamePlace.after {name : String} {i j : Int64} (h : s.SamePlace s' name i j)
    (hlen : (s.table name).ids.length = (s'.table name).ids.length) :
    s.SamePlaceAfter s' bss name i j := by
  rw [SamePlaceAfter, zip_idsAfter bss hlen]
  exact List.mem_append_left _ h

theorem newIdsAlike_samePlaceAfter
    (hlen : ∀ name, (s.table name).ids.length = (s'.table name).ids.length) :
    NewIdsAlike (s.SamePlaceAfter s' bss) s s' config bss := fun t _ =>
  List.forall₂_iff_zip.2 ⟨by simp, fun {i j} hij => by
    rw [SamePlaceAfter, zip_idsAfter bss (hlen t.name)]
    exact List.mem_append_right _ hij⟩

/-- What is recorded in a state is recorded in one that mirrors it, place by place. -/
theorem Mirrors.recorded (hs : s.Sound n) (hs' : s'.Sound n')
    (hroom : n + (1 + 2 * x.eventCount) < 2 ^ 63) (hroom' : n' + (1 + 2 * x.eventCount) < 2 ^ 63)
    (hm : Mirrors DomainName.all (s.SamePlace s') s C H s' C' H') (hx : x.isEmpty = false)
    {report : InvocationReport} {w : World}
    (hcalm : (recordExtension config x).calm s.idle = (.ok report, w)) :
    ∃ report' w', (recordExtension config x).calm s'.idle = (.ok report', w')
      ∧ w'.committed.Sound (n' + (1 + 2 * x.eventCount))
      ∧ ∃ C₁ H₁ C₁' H₁', Mirrors DomainName.all (w.committed.SamePlace w'.committed) w.committed
        C₁ H₁ w'.committed C₁' H₁' := by
  obtain ⟨B, hB, hrecalls⟩ := hm.stored.recalls hs.keyed
  have ha := (calm_recordExtension_isOk_iff hs hrecalls hroom hx).1 ⟨_, _, hcalm⟩
  obtain ⟨bss, hout, hg⟩ := gained_of_calm hs hrecalls hroom hx hcalm
  have hlen := hm.length_ids hs.keyed hs'.keyed
  have hids : ∀ name, (w.committed.table name).ids = s.idsAfter bss name := hg.ids_eq hs hout
  have hincreasing : ∀ name, (s.idsAfter bss name).Pairwise (· < ·) := fun name =>
    hids name ▸ (hm.stored.gained hs hroom hB hout hg).increasing name
  have hincreasing' : ∀ name, (s'.idsAfter bss name).Pairwise (· < ·) := fun name =>
    hs'.increasing_ids hroom' (hm.stored'.increasing name) (rowCount_le_eventCount hout name)
  obtain ⟨report', w', B', bss', hcalm', hout', hg', _, _, _, _, hm'⟩ := hm.step hs hs' hroom hroom'
    (fun d hd => ⟨d.mem_all, hd⟩) hB ha hout (fun name _ _ hij => hij.after (hlen name))
    (fun name => keepsOrder_zip (hincreasing name) (hincreasing' name))
    (newIdsAlike_samePlaceAfter hlen) hg hx fun _ _ hd => hd
  -- both states end up with as many ids, so the other one has added as many rows
  have hids' : ∀ name, (w'.committed.table name).ids = s'.idsAfter bss name := fun name => by
    have hlen' := hm'.length_ids hg.sound.keyed hg'.sound.keyed name
    rw [hg'.ids_eq hs' hout', hids, idsAfter, List.length_append, List.length_append, length_idsFrom,
      length_idsFrom, hlen name] at hlen'
    rw [hg'.ids_eq hs' hout', ← Nat.add_left_cancel hlen', idsAfter]
  have hplace : w.committed.SamePlace w'.committed = s.SamePlaceAfter s' bss := by
    funext name i j
    rw [SamePlace, hids, hids', SamePlaceAfter]
  rw [← hplace] at hm'
  exact ⟨report', w', hcalm', hg'.sound, _, _, _, _, hm'⟩

theorem Mirrors.of_frame (hm : Mirrors DomainName.all (s.SamePlace s') s C H s' C' H')
    (ht : s₁.tables = s.tables) (he : s₁.entities = s.entities) (ht' : s₁'.tables = s'.tables)
    (he' : s₁'.entities = s'.entities) :
    Mirrors DomainName.all (s₁.SamePlace s₁') s₁ C H s₁' C' H' := by
  have hplace : s₁.SamePlace s₁' = s.SamePlace s' := by
    funext name i j
    simp only [SamePlace, table, ht, ht']
  have hsame := sameEntity_congr he he'
  rw [hplace]
  exact ⟨hm.stored.of_tables_eq ht, hm.stored'.of_tables_eq ht', hm.order, hsame ▸ hm.lists,
    hsame ▸ hm.plain⟩

theorem mirrors_empty : Mirrors DomainName.all (({} : Snapshot).SamePlace {}) {} (fun _ => {})
    (fun _ => []) {} (fun _ => {}) fun _ => [] where
  stored := stored_empty
  stored' := stored_empty
  order _ := keepsOrder_zip .nil .nil
  lists _ _ := NewRows.alike_empty
  plain _ _ := .nil

end Snapshot

/-- The states of a run with failures and of the same run without them mirror each other. -/
theorem History.Reaches.mirrors {h : History} {n : Nat} {s : Snapshot} (hs : h.Reaches n s)
    (hroom : n < 2 ^ 63) {t : Session} (ht : t.IsCalm) (hstore : t.store.committed = {}) :
    AllRecorded (t.runAll h).1 ∧ s.Sound n ∧ (t.runAll h).2.store.committed.Sound n
      ∧ ∃ C H C' H', Snapshot.Mirrors DomainName.all
        (s.SamePlace (t.runAll h).2.store.committed) s C H (t.runAll h).2.store.committed C' H' := by
  induction hs with
  | start =>
    have hend : (t.runAll []).2.store.committed = {} := hstore
    rw [hend]
    exact ⟨nofun, Snapshot.sound_empty, Snapshot.sound_empty, _, _, _, _, Snapshot.mirrors_empty⟩
  | @failed h n s config x e w' hs hrun ih =>
    obtain ⟨hall, hsound, hsound', C, H, C', H', hm⟩ := ih (by omega)
    rcases hx : x.isEmpty with _ | _
    · rcases runs_recordExtension hx hrun with ⟨_, hadv⟩ | ⟨⟨_, he⟩, _⟩
      · exact ⟨hall, hsound.advanced hadv hroom, hsound'.mono (by omega), C, H, C', H',
          hm.of_frame hadv.tables hadv.entities rfl rfl⟩
      · cases he
    · obtain ⟨he, _⟩ := runs_recordExtension_of_isEmpty hx hrun
      cases he
  | @recorded h n s config x report w' hs hrun ih =>
    obtain ⟨hall, hsound, hsound', C, H, C', H', hm⟩ := ih (by omega)
    rcases hx : x.isEmpty with _ | _
    · rcases runs_recordExtension hx hrun with ⟨⟨_, he⟩, _⟩ | ⟨_, hcalm⟩
      · cases he
      · obtain ⟨report', w, hcalm', hsound₁, hmirrors⟩ :=
          hm.recorded hsound hsound' hroom hroom hx hcalm
        obtain ⟨hall', hend⟩ := Session.runAll_concat_of_calm ht hall hcalm'
        obtain ⟨B, _, hrecalls⟩ := hm.stored.recalls hsound.keyed
        obtain ⟨_, _, hg⟩ := gained_of_calm hsound hrecalls hroom hx hcalm
        rw [hend]
        exact ⟨hall', hg.sound, hsound₁, hmirrors⟩
    · obtain ⟨_, rfl⟩ := runs_recordExtension_of_isEmpty hx hrun
      obtain ⟨hall', hend⟩ := Session.runAll_concat_of_calm ht hall
        (calm_recordExtension_of_isEmpty hx config _)
      rw [hend]
      exact ⟨hall', hsound.mono (by omega), hsound'.mono (by omega), C, H, C', H', hm⟩

/-- Whether two states have the same rows in the same order, once entities are told by their
addresses, under other ids. These grow with the ids in their place, and stand for them in lists and
owner roles, too. -/
structure Snapshot.SameRows (ρ : Renaming) (s s' : Snapshot) : Prop where
  increasing (name : String) : ∀ i ∈ (s.table name).ids, ∀ j ∈ (s.table name).ids,
    i < j → ρ name i < ρ name j
  rows : s.Resembles DomainName.all (fun name i j => ρ name i = j) s'
  others {name : String} (hn : ∀ d : DomainName, ∀ t ∈ d.tables, t.name ≠ name) :
    s.rows name = [] ∧ s'.rows name = []

/-- What attempts that may fail record from the empty state while no sequence runs out, a calm session
records without the failures: it records every extension, and ends with the same rows under ids that
grow alike. -/
theorem History.Reaches.without_failures {h : History} {n : Nat} {s : Snapshot} (hs : h.Reaches n s)
    (hroom : n < 2 ^ 63) {t : Session} (ht : t.IsCalm) (hstore : t.store.committed = {}) :
    AllRecorded (t.runAll h).1 ∧ ∃ ρ, s.SameRows ρ (t.runAll h).2.store.committed := by
  obtain ⟨hall, hsound, hsound', C, H, C', H', hm⟩ := hs.mirrors hroom ht hstore
  refine ⟨hall, fun name => counterpart (s.table name).ids
    ((t.runAll h).2.store.committed.table name).ids, fun name i hi j hj hij => ?_,
    hm.resembles fun name i j hij => counterpart_of_mem_zip (hm.stored.increasing name) hij,
    fun {name} hn => ⟨hm.stored.others hn, hm.stored'.others hn⟩⟩
  exact counterpart_lt (hm.stored.increasing name) (hm.stored'.increasing name)
    (hm.length_ids hsound.keyed hsound'.keyed name) hi hj hij

theorem History.Reaches.without_failures_sample : ∃ s w t,
    (recordExtension {} sampleExtension).Runs (Snapshot.idle {}) (.error (.cancelled .commit)) w
    ∧ (∃ report w', (recordExtension {} sampleExtension).Runs w.committed.idle (.ok report) w'
      ∧ w'.committed = s)
    ∧ History.Reaches [({}, sampleExtension)] 6 s ∧ Session.IsCalm t ∧ t.store.committed = {}
    ∧ AllRecorded (t.runAll [({}, sampleExtension)]).1
    ∧ ∃ ρ, s.SameRows ρ (t.runAll [({}, sampleExtension)]).2.store.committed := by
  have hx : sampleExtension.isEmpty = false := rfl
  obtain ⟨report, w, hcalm, _⟩ := exists_sampled
  -- cancelled before the commit, and then recorded after all
  obtain ⟨w₁, hcancelled⟩ := exists_runs_cancelled hx hcalm
  have hadv : (Snapshot.idle {}).Advanced 3 w₁ := by
    rcases runs_recordExtension hx hcancelled with ⟨_, hadv⟩ | ⟨⟨_, he⟩, _⟩
    · exact hadv
    · cases he
  obtain ⟨report', w', hcalm', _⟩ :=
    (Snapshot.mirrors_empty.of_frame rfl rfl hadv.tables hadv.entities).recorded Snapshot.sound_empty
      (Snapshot.sound_empty.advanced hadv (by decide)) (by decide) (by decide) hx hcalm
  have hrun := Script.runs_of_calm hcalm'
  have hs : History.Reaches [({}, sampleExtension)] 6 w'.committed :=
    .recorded (.failed .start hcancelled) hrun
  have ht : (Session.mk {} none false [] [] []).IsCalm := ⟨rfl, rfl, rfl⟩
  exact ⟨_, w₁, _, hcancelled, ⟨_, _, hrun, rfl⟩, hs, ht, rfl, hs.without_failures (by decide) ht rfl⟩

end LedgerHistory
