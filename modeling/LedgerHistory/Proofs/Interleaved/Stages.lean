import LedgerHistory.Proofs.Interleaved.Making
import LedgerHistory.Proofs.Recording.Growth

/-!
# The stages among others

The ids that an invocation issues for a table start behind all ids that its copy has there
(`World.Ready`), and no step of others changes that. So the rows that it writes are new to the copy
(`WriteTally.safe_writeEach`), and with the last ids recorded the copy is tidy again when it is
committed (`Snapshot.isTidy_raiseAll`): all calls of an invocation are permitted
(`safe_recordExtension`).
-/

namespace LedgerHistory

open LedgerHistory.Action

/-- Whether ids can be issued from the starts of tables on: those in the copy are below. -/
structure World.Ready (ts : List Table) (start : String → Int64) (w : World) : Prop where
  trailing : w.Trailing
  below {t : Table} (h : t ∈ ts) :
    ∀ id ∈ (w.working.table t.name).ids, id.toInt < (start t.name).toInt

variable {ts : List Table} {start : String → Int64} {w : World}

theorem World.lasting_ready : World.Lasting (World.Ready ts start) :=
  fun hb h => ⟨h.trailing.of_behind hb, h.below⟩

theorem safe_announceStage {P : Unit → World → Prop} (config : Configuration) (stage : Stage)
    (h : P () w) : (config.announceStage stage).Safe P w := by
  unfold Configuration.announceStage
  split
  · exact safe_log _ h
  · exact safe_pure h

/-! ## Loading the sequences -/

theorem World.ready_advanceAll (hw : w.Trailing) (hnd : (ts.map (·.name)).Nodup)
    (hroom : w.HasRoom (.advanceSequences ts)) :
    (w.advanceAll (ts.map (·.sequenceName))).Ready ts
      (fun name => w.committed.sequence (Table.sequenceNameOf name) + 1) := by
  refine ⟨hw.advanceAll hnd hroom, fun {t} ht id hid => ?_⟩
  have htables : (w.advanceAll (ts.map (·.sequenceName))).working.table t.name
      = w.working.table t.name := by
    simp only [Snapshot.table, (w.working_advanceAll _).1]
  rw [htables] at hid
  have hold := hw.tidy.ids t.name id hid
  have hbehind := hw.behind t.sequenceName
  have hnext := toInt_add_one (hroom t ht)
  rw [Snapshot.tops] at hold
  rw [Table.sequenceName] at hbehind hnext
  omega

theorem Allocator.safe_load (hnd : (ts.map (·.name)).Nodup) (hw : w.Trailing) :
    (Allocator.load ts).Safe
      (fun a w => ∃ start, a.Issued ts start (fun _ => 0) ∧ w.Ready ts start) w := by
  unfold Allocator.load
  rw [distinctTables_of_nodup hnd]
  refine safe_bind (safe_request fun s hs hb hroom => ⟨hnd, fun values hvalues => safe_pure ?_⟩)
  rw [World.serve_advanceSequences_eq _ hnd] at hvalues ⊢
  cases hvalues
  have hready := World.ready_advanceAll (hw.of_behind hb) hnd hroom
  refine ⟨_, ?_, hready⟩
  have hissued := issued_ofValues hnd fun name => s.sequence (Table.sequenceNameOf name) + 1
  have hzip : ts.zip (ts.map fun t => s.nextValue t.sequenceName)
      = ts.map fun t => (t, s.sequence (Table.sequenceNameOf t.name) + 1) := by
    rw [List.zip, List.zipWith_map_right, List.zipWith_self]
    rfl
  rw [hzip]
  exact hissued

/-! ## Routing -/

theorem World.Ready.demand (h : w.Ready ts start) {a : Address} {v : Int64}
    (hroom : w.HasRoom (.resolveEntity a v)) : (w.demand (a, v)).Ready ts start := by
  refine ⟨h.trailing.demand hroom, fun {t} ht => ?_⟩
  have htable : (w.demand (a, v)).working.table t.name = w.working.table t.name := by
    simp only [Snapshot.table, World.tables_demand]
  rw [htable]
  exact h.below ht

namespace Routing

theorem safe_resolve (hw : w.Ready ts start) (r : KnownEntities) (a : Address) (v : Int64) :
    (resolve r a v).Safe (fun _ w => w.Ready ts start) w := by
  refine safe_bind (safe_failIfCancelled _ ?_)
  unfold KnownEntities.resolve
  split
  · exact safe_pure hw
  · refine safe_bind (safe_perform fun s _ hb hroom => ⟨trivial, fun e _ => safe_pure ?_⟩)
    rw [World.serve_resolveEntity_eq]
    exact (World.lasting_ready hb hw).demand hroom

theorem safe_resolveAll (hw : w.Ready ts start) (r : KnownEntities) (v : Int64)
    (as : List Address) : (resolveAll r v as).Safe (fun _ w => w.Ready ts start) w := by
  induction as generalizing r w with
  | nil => exact safe_pure hw
  | cons a as ih => exact safe_bind ((safe_resolve hw r a v).imp fun x w hw => ih hw x.2)

/-- Whether recorders are those of domains and have grouped their changes alone. -/
structure Grouped (ds : List DomainName) (rs : List Recorder) : Prop where
  domains : rs.map (·.domain) = ds
  fresh : ∀ p ∈ rs, p.IsFresh

variable {ds : List DomainName}

theorem Grouped.addEventIn {rs rs' : List Recorder} (h : Grouped ds rs) {d : DomainName} {v : Int64}
    {e : Entity} {s : Substate} {known : KnownEntities}
    (hadd : addEventIn d (fun p => p.addEvent v e s known) rs = .ok rs') : Grouped ds rs' := by
  obtain ⟨rfl, hfresh⟩ := h
  induction rs generalizing rs' with
  | nil =>
    cases hadd
    exact ⟨rfl, nofun⟩
  | cons p rs ih =>
    obtain ⟨hp, hrs⟩ := List.forall_mem_cons.1 hfresh
    rw [Routing.addEventIn] at hadd
    split at hadd
    · obtain ⟨p', hp', rfl⟩ := map_eq_ok.1 hadd
      obtain ⟨hd, hf⟩ := hp.addEvent hp'
      exact ⟨by rw [List.map_cons, List.map_cons, hd], List.forall_mem_cons.2 ⟨hf, hrs⟩⟩
    · obtain ⟨rs'', hrs'', rfl⟩ := map_eq_ok.1 hadd
      obtain ⟨hd, hf⟩ := ih hrs'' hrs
      exact ⟨by rw [List.map_cons, List.map_cons, hd], List.forall_mem_cons.2 ⟨hp, hf⟩⟩

theorem safe_route {r : Routing} (hr : Grouped ds r.recorders) (hw : w.Ready ts start)
    (v : Int64) (e : SubstateEvent) :
    (r.route v e).Safe (fun r w => Grouped ds r.recorders ∧ w.Ready ts start) w := by
  unfold route
  split
  · exact safe_throw _
  · split
    · refine safe_bind ((safe_resolve hw r.known e.entity v).imp fun x w hw => ?_)
      refine safe_bind ((safe_resolveAll hw x.2 v e.substate.mentions).imp fun known w hw => ?_)
      exact safe_bind (safe_ofExcept fun rs hrs => safe_pure ⟨hr.addEventIn hrs, hw⟩)
    · exact safe_pure ⟨hr, hw⟩

theorem safe_routeAll {r : Routing} (hr : Grouped ds r.recorders) (hw : w.Ready ts start)
    (xs : List (Int64 × SubstateEvent)) :
    (r.routeAll xs).Safe (fun r w => Grouped ds r.recorders ∧ w.Ready ts start) w := by
  induction xs generalizing r w with
  | nil => exact safe_pure ⟨hr, hw⟩
  | cons x xs ih => exact safe_bind ((safe_route hr hw x.1 x.2).imp fun r w h => ih h.1 h.2)

end Routing

theorem Configuration.grouped_recorders (config : Configuration) :
    Routing.Grouped config.domains.enabled config.recorders := by
  refine ⟨config.domains_recorders, fun p hp => ?_⟩
  obtain ⟨d, _, rfl⟩ := List.mem_map.1 hp
  exact Recorder.isFresh_new _ d

/-! ## Rows -/

theorem LatestLookup.safe_load {κ α : Type} [DecidableEq κ] {I : World → Prop} (hI : World.Lasting I)
    (hw : I w) (l : LatestLookup κ α) (keys : List κ) (bound : Option Int64) :
    (l.load keys bound).Safe (fun _ w => I w) w := by
  unfold LatestLookup.load
  split
  · exact safe_pure hw
  · refine safe_bind (safe_request fun s _ hb _ => ⟨trivial, fun rows _ => ?_⟩)
    exact safe_bind (safe_ofExcept fun found _ => safe_pure (hI hb hw))

namespace Recorder

theorem safe_loadLatest {I : World → Prop} (hI : World.Lasting I) (hw : I w)
    (hnd : (ts.map (·.name)).Nodup) {p : Recorder} (hp : p.IsFresh) (hts : ∀ t ∈ p.tables, t ∈ ts) :
    p.loadLatest.Safe (fun p' w => I w ∧ p'.domain = p.domain ∧ p'.Numbers ts start) w := by
  cases p with
  | list k p =>
    obtain ⟨hprior, xs, hxs⟩ := hp
    have hkeys : p.changes.groups.keys.Nodup := by
      rw [hxs, GroupedChanges.keys_ofList]
      exact nodup_distinctKeys _
    refine safe_bind (safe_bind ((LatestLookup.safe_load hI hw _ _ _).imp fun as w hw => ?_))
    refine safe_bind ((LatestLookup.safe_load hI hw _ _ _).imp fun es w hw => ?_)
    refine safe_pure (safe_pure ⟨hw, rfl, ?_⟩)
    exact numbers_list (k.countedIn hnd hts) hkeys as.values es.values (by rw [hprior])
  | plain k p =>
    exact safe_pure ⟨hw, rfl, numbers_plain hnd (hts _ List.mem_cons_self) p⟩

theorem safe_mapM_loadLatest {s : DomainSwitches} (hw : w.Ready s.tables start)
    (hnd : (s.tables.map (·.name)).Nodup) {rs : List Recorder} (hr : Routing.Grouped s.enabled rs) :
    (rs.mapM loadLatest).Safe (fun loaded w => w.Ready s.tables start
      ∧ loaded.map (·.domain) = s.enabled ∧ ∀ p ∈ loaded, p.Numbers s.tables start) w := by
  have hload : ∀ p ∈ rs, ∀ w : World, w.Ready s.tables start → p.loadLatest.Safe (fun p' w =>
      w.Ready s.tables start ∧ p'.domain = p.domain ∧ p'.Numbers s.tables start) w := by
    refine fun p hp w hw => safe_loadLatest World.lasting_ready hw hnd (hr.fresh p hp) fun t ht => ?_
    rw [DomainSwitches.tables, ← flatMap_tables hr.domains]
    exact List.mem_flatMap.2 ⟨p, hp, ht⟩
  refine (safe_mapM hload hw).imp fun loaded w h => ⟨h.1, ?_, fun p hp => ?_⟩
  · rw [← hr.domains]
    have hforall := h.2
    clear hr hload h hw
    induction hforall with
    | nil => rfl
    | cons h _ ih => rw [List.map_cons, List.map_cons, h.1, ih]
  · obtain ⟨_, _, _, hp⟩ := exists_of_forall₂ h.2 hp
    exact hp

theorem safe_makeAllRows {P : List Recorder × Allocator → World → Prop} {rs : List Recorder}
    {a : Allocator} (h : ∀ made, makeAll a rs = .ok made → P made w) :
    (makeAllRows a rs).Safe P w := by
  induction rs generalizing a P with
  | nil => exact safe_pure (h _ rfl)
  | cons p rs ih =>
    refine safe_bind (safe_failIfCancelled _ ?_)
    refine safe_bind (safe_forM (fun x _ w hw => safe_log _ hw) ?_)
    refine safe_bind (safe_ofExcept fun u hu => ?_)
    exact safe_bind (ih fun rest hrest =>
      safe_pure (h _ (makeAll_cons_eq_ok.2 ⟨hu, rest, hrest, rfl⟩)))

end Recorder

/-- The stages up to the rows. -/
theorem safe_prepareRows (hw : w.Trailing) (config : Configuration) (x : LedgerExtension) :
    (prepareRows config x).Safe (fun made w => ∃ start, w.Ready config.domains.tables start
      ∧ made.2.1.map (·.domain) = config.domains.enabled
      ∧ (∀ b ∈ made.2.1.flatMap Recorder.batches, b.Consecutive start)
      ∧ made.2.2.Issued config.domains.tables start
        (rowCount (made.2.1.flatMap Recorder.batches))) w := by
  have hnd := config.domains.nodup_tables
  unfold prepareRows
  rw [tables_recorders]
  refine safe_bind ((Allocator.safe_load hnd hw).imp fun a w h => ?_)
  obtain ⟨start, hissued, hw⟩ := h
  refine safe_bind (safe_announceStage _ _ ?_)
  refine safe_bind ((Routing.safe_routeAll config.grouped_recorders hw x.events).imp fun r w h => ?_)
  obtain ⟨hr, hw⟩ := h
  refine safe_bind (safe_announceStage _ _ ?_)
  refine safe_bind ((Recorder.safe_mapM_loadLatest hw hnd hr).imp fun loaded w h => ?_)
  obtain ⟨hw, hdomains, hnumbers⟩ := h
  refine safe_bind (safe_announceStage _ _ ?_)
  refine safe_bind (Recorder.safe_makeAllRows fun made hmade => ?_)
  refine safe_bind (safe_announceStage _ _ (safe_pure ?_))
  obtain ⟨hids, hcount⟩ := Recorder.consecutive_makeAll hnumbers
    (by rw [Recorder.flatMap_tables hdomains]; exact hnd) hissued hmade
  exact ⟨start, hw, (Recorder.domains_makeAll hmade).trans hdomains, hids, hcount⟩

/-! ## Writing -/

/-- Whether the ids of a batch stay inside their range. -/
def Batch.Fits (start : String → Int64) (b : Batch) : Prop :=
  (start b.table.name).toInt + b.rows.length < 2 ^ 63

theorem Table.ne_duplicateKey_of_decodeStream {t : Table} {stream : List UInt8} {e : StoreError}
    (h : t.decodeStream stream = .error e) (name : String) (id : Int64) : e ≠ .duplicateKey name id := by
  rw [decodeStream] at h
  rcases hd : Copy.decode t.columns stream with c | rows <;> rw [hd] at h <;> cases h
  intro he
  cases he

/-- A batch has room if the counter that it leaves behind stays inside its range. -/
theorem Batch.fits_of_hasRoom {b : Batch} (hids : b.Consecutive start) (hb : b.rows ≠ [])
    {stream : List UInt8} (hd : b.table.decodeStream stream = .ok b.reread)
    (hroom : w.HasRoom (.bulkLoad b.table stream)) : b.Fits start := by
  obtain ⟨m, hm⟩ := Nat.exists_eq_succ_of_ne_zero (mt List.length_eq_zero_iff.1 hb)
  have hlen := congrArg List.length hids
  rw [List.length_map, List.length_map, length_idsFrom] at hlen
  rw [Consecutive, hm, idsFrom, List.map_cons] at hids
  rcases hr : b.reread with _ | ⟨row, rows⟩
  · rw [hr] at hids
    cases hids
  · rw [hr, List.map_cons] at hids
    rw [hr] at hd hlen
    have hfits := hroom row rows _ hd (List.cons.inj hids).1
    rw [hlen] at hfits
    exact hfits

namespace WriteTally

/-- A batch of ids above those of its table is not refused for one of them. -/
theorem safe_write {b : Batch} (ha : b.table.arity < 0x8000)
    (ht : b.table.positionOf idColumn = .ok 0) (hids : b.Consecutive start)
    (hlt : ∀ id ∈ (w.working.table b.table.name).ids, id.toInt < (start b.table.name).toInt)
    (tally : WriteTally) : (tally.write b).Safe (fun _ w' =>
      Snapshot.Appended [(b.table.name, b.reread)] w.working w'.working ∧ b.Fits start) w := by
  unfold write
  split
  · rename_i hb
    have hnil : b.rows = [] := by simpa using hb
    refine safe_pure ⟨?_, ?_⟩
    · have hread : b.reread = [] := by simp [Batch.reread, Batch.written, hnil]
      rw [hread]
      exact ⟨rfl, rfl, by simp, fun _ _ => rfl, id⟩
    · have := Int64.toInt_lt (start b.table.name)
      simpa [Batch.Fits, hnil] using this
  · rename_i hb
    refine safe_bind (safe_failIfCancelled _ (safe_bind (safe_ofExcept fun stream hs => ?_)))
    refine safe_bind (safe_request fun s _ _ hroom => ?_)
    rcases hd : b.table.decodeStream stream with e | read
    · rw [World.serve_bulkLoad_error hd]
      refine ⟨fun name id he => ?_, fun n hn => ?_⟩
      · rw [World.serve_bulkLoad_error hd] at he
        exact Table.ne_duplicateKey_of_decodeStream hd name id (Except.error.inj he)
      · cases hn
    · obtain ⟨hstorable, rfl⟩ := Batch.readsBack_iff.1
        ((Batch.readsBack_of_decodeStream ha (mapError_eq_ok.1 hs)).1 hd)
      have hfits := Batch.fits_of_hasRoom hids (by simpa using hb) hd hroom
      have hfresh : w.working.Fresh b.table.name b.reread :=
        Snapshot.fresh_of_lt hids hfits hlt
      have hok := Snapshot.appendRows_of_fresh ht hfresh
      have hserve := World.serve_bulkLoad_ok (w := ⟨s, w.working⟩) hd
      rw [World.Permits, hserve]
      refine ⟨fun name id he => ?_, fun n hn => safe_pure ⟨?_, hfits⟩⟩
      · rw [hok] at he
        cases he
      · exact Snapshot.appended_appendRows ht hok

/-- What batches for different tables come to, each of ids above those of its table. -/
theorem safe_writeEach {bs : List Batch} (ha : ∀ b ∈ bs, b.table.arity < 0x8000)
    (ht : ∀ b ∈ bs, b.table.positionOf idColumn = .ok 0) (hn : (bs.map (·.table.name)).Nodup)
    (hids : ∀ b ∈ bs, b.Consecutive start)
    (hlt : ∀ b ∈ bs, ∀ id ∈ (w.working.table b.table.name).ids,
      id.toInt < (start b.table.name).toInt) (tally : WriteTally) :
    (writeEach tally bs).Safe (fun _ w' => Snapshot.Appended
        (bs.map fun b => (b.table.name, b.reread)) w.working w'.working
      ∧ ∀ b ∈ bs, b.Fits start) w := by
  induction bs generalizing tally w with
  | nil => exact safe_pure ⟨.refl, nofun⟩
  | cons b bs ih =>
    obtain ⟨hb, hn⟩ := List.nodup_cons.1 hn
    obtain ⟨ha₁, ha⟩ := List.forall_mem_cons.1 ha
    obtain ⟨ht₁, ht⟩ := List.forall_mem_cons.1 ht
    obtain ⟨hids₁, hids⟩ := List.forall_mem_cons.1 hids
    obtain ⟨hlt₁, hlt⟩ := List.forall_mem_cons.1 hlt
    refine safe_bind ((safe_write ha₁ ht₁ hids₁ hlt₁ tally).imp fun r w₁ h => ?_)
    have hlt₁ : ∀ b' ∈ bs, ∀ id ∈ (w₁.working.table b'.table.name).ids,
        id.toInt < (start b'.table.name).toInt := by
      intro b' hb'
      rw [h.1.untouched b'.table.name]
      · exact hlt b' hb'
      · intro e he e'
        rw [List.mem_singleton.1 he] at e'
        exact hb (List.mem_map.2 ⟨b', hb', e'.symm⟩)
    refine (ih ha ht hn hids hlt₁ r.2).imp fun _ w₂ h' => ⟨h.1.trans h'.1, ?_⟩
    exact List.forall_mem_cons.2 ⟨h.2, h'.2⟩

end WriteTally

/-! ## Recording the last ids -/

theorem Allocator.safe_save (a : Allocator) (w : World) :
    a.save.Safe (fun _ w' => w'.working = w.working.raiseAll a.lastIssued) w := by
  unfold Allocator.save
  split
  · rename_i h
    rw [h]
    exact safe_pure rfl
  · exact safe_request (c := .raiseSequences a.lastIssued) fun s _ _ _ =>
      ⟨trivial, fun _ _ => rfl⟩

namespace Snapshot

variable {s s' : Snapshot} {bs : List Batch}

/-- A tidy copy is tidy again once batches of new ids are written and the last ids recorded. -/
theorem isTidy_raiseAll (h : s.IsTidy) (hn : (bs.map (·.table.name)).Nodup)
    (happ : Appended (bs.map fun b => (b.table.name, b.reread)) s s')
    (hids : ∀ b ∈ bs, b.Consecutive start) (hfits : ∀ b ∈ bs, b.Fits start)
    (hlt : ∀ b ∈ bs, ∀ id ∈ (s.table b.table.name).ids, id.toInt < (start b.table.name).toInt)
    {a : Allocator} (ha : a.Issued (bs.map (·.table)) start (rowCount bs)) :
    (s'.raiseAll a.lastIssued).IsTidy := by
  obtain ⟨htables, hentities⟩ := Allocator.frame_raiseAll (s := s') a.lastIssued
  suffices ht : s'.Tidy (s'.raiseAll a.lastIssued).tops from
    ht.of_behind htables hentities (le_sequence_raiseAll s' _)
  refine ⟨h.addressed.of_entities_eq happ.entities, h.numbered.of_entities_eq happ.entities ?_,
    happ.keyed h.keyed, fun name => ?_, fun name => ?_,
    happ.ids_le_raiseAll hn hids h.keyed h.ids hfits ha⟩
  · rw [Snapshot.sequence, ← happ.sequences]
    exact Int.le_refl _
  · rw [Snapshot.sequence, happ.sequences]
    exact h.nonneg name
  · by_cases hname : ∀ b ∈ bs, b.table.name ≠ name
    · rw [happ.table_of_forall_ne hname]
      exact h.nodup name
    · push Not at hname
      obtain ⟨b, hb, rfl⟩ := hname
      obtain ⟨ids, hids', hnodup, hfresh⟩ := fresh_of_lt (hids b hb) (hfits b hb) (hlt b hb)
      obtain rfl : idsFrom (start b.table.name) b.rows.length = ids :=
        (List.map_inj_right fun _ _ => ColumnValue.int8.inj).1 ((hids b hb).symm.trans hids')
      rw [happ.ids_of_mem hn hids h.keyed hb]
      exact (h.nodup _).append hnodup fun id hid hid' => hfresh id hid' hid

end Snapshot

/-! ## The invocation -/

/-- The stages of an invocation leave a tidy copy. -/
theorem safe_runStages (hw : w.Trailing) (config : Configuration) (x : LedgerExtension) :
    (runStages config x).Safe (fun _ w => w.working.IsTidy) w := by
  rw [runStages_eq]
  refine safe_bind ((safe_prepareRows hw config x).imp fun made w h => ?_)
  obtain ⟨start, hw, hdomains, hids, hissued⟩ := h
  obtain ⟨htables, hok⟩ := batches_ok hdomains
  have hmem : ∀ b ∈ made.2.1.flatMap Recorder.batches, b.table ∈ config.domains.tables := by
    rw [← htables]
    exact fun b hb => List.mem_map_of_mem hb
  have hnd := config.domains.nodup_tables
  rw [← htables, List.map_map] at hnd
  have hlt := fun b hb => hw.below (hmem b hb)
  refine safe_bind ((WriteTally.safe_writeEach (fun b hb => (hok b hb).1) (fun b hb => (hok b hb).2)
    hnd hids hlt {}).imp fun tally w' h => ?_)
  refine safe_bind (safe_announceStage _ _ ?_)
  refine safe_bind ((Allocator.safe_save made.2.2 w').imp fun _ w₂ hsaved => ?_)
  refine safe_bind (safe_announceStage _ _ (safe_pure ?_))
  rw [← htables] at hissued
  rw [hsaved]
  exact Snapshot.isTidy_raiseAll hw.trailing.tidy hnd h.1 hids h.2 hlt hissued

theorem safe_giveUp (e : InvocationError) (w : World) : (giveUp e).Safe (fun _ _ => True) w :=
  fun _ _ _ => ⟨fun _ => ⟨trivial, trivial⟩, fun _ => trivial⟩

/-- All calls of an invocation are permitted, whatever others do in between. -/
theorem safe_recordExtension (config : Configuration) (x : LedgerExtension) (w : World) :
    (recordExtension config x).Safe (fun _ _ => True) w := by
  have hbegin : (request .begin .begin).Safe (fun _ w => w.Trailing) w :=
    safe_request fun s hs _ _ => ⟨trivial, fun _ _ => World.trailing_idle hs⟩
  have hstages : ∀ w : World, w.Trailing →
      (stagesToCommit config x).Safe (fun _ w => w.working.IsTidy) w := fun w hw =>
    safe_bind ((safe_runStages hw config x).imp fun _ w hw =>
      safe_bind (safe_failIfCancelled _ (safe_pure hw)))
  unfold recordExtension
  split
  · trivial
  · refine Script.safe_bind (Script.Safe.imp hbegin fun r w hr => ?_)
    rcases r with e | u
    · trivial
    · refine Script.safe_bind (Script.Safe.imp (hstages w (hr u rfl)) fun r w hr => ?_)
      rcases r with e | report
      · exact Script.safe_bind ((safe_giveUp e w).imp fun _ _ _ => trivial)
      · have hcommit : (do
            perform .commit .commit
            config.announceStage .commit
            return report : Action InvocationReport).Safe (fun _ _ => True) w :=
          safe_bind (safe_perform fun s _ _ _ => ⟨hr report rfl, fun _ _ =>
            safe_bind (safe_announceStage _ _ (safe_pure trivial))⟩)
        exact Script.Safe.imp hcommit fun _ _ _ => trivial

end LedgerHistory
