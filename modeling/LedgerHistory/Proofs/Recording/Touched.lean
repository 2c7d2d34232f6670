import LedgerHistory.Proofs.Aggregate.Coupling
import LedgerHistory.Proofs.Aggregate.Grouped
import LedgerHistory.Proofs.Aggregate.Prior
import LedgerHistory.Proofs.Recording.Routing
import LedgerHistory.Proofs.Recording.Stages

/-!
# What events touch

A recorder loads the most recent rows of what its events touch and of nothing else. That is enough:
with the most recent rows of everything in the store it would make the same rows, or fail with the same
error (`ListRecorder.loadLatest_suffices`). For passes on prior states that agree on what the changes
touch come to the same (`Pass.run_agreeing`), and the look-ups tell apart what the keys tell apart.
-/

namespace LedgerHistory

/-! ## Passes that know the same -/

namespace Coupling

variable {d : ListDomain}

/-- Two passes with the same counters, whose prior states agree on some entities and keys. -/
def agreeing (d : ListDomain) (es : List EntityId) (ks : List d.EntryKey) : Coupling d where
  front := {}
  allocators a b := a = b
  priors P Q := (∀ e ∈ es, P.aggregates.get? e = Q.aggregates.get? e)
    ∧ ∀ k ∈ ks, P.entry? k = Q.entry? k
  wanting := False

theorem lawful_agreeing (es : List EntityId) (ks : List d.EntryKey) :
    (agreeing d es ks).Lawful es ks where
  next {a b} h t _ := by
    obtain rfl : a = b := h
    rcases hn : a.next t with e | ⟨id, a'⟩
    · exact .inr ⟨e, rfl, .inr rfl⟩
    · exact .inl ⟨id, a', a', rfl, rfl, rfl⟩
  slot {P Q} h e he := by
    rw [h.1 e he]
    exact .refl e _
  entry h k hk := h.2 k hk
  pending {P Q} h e i := by
    rw [show (agreeing d es ks).front.aggregates.length + i = i from Nat.zero_add i]
    refine ⟨fun e' he' => ?_, h.2⟩
    rw [Dictionary.get?_insert, Dictionary.get?_insert, h.1 e' he']
  putEntry {P Q} h x := by
    refine ⟨h.1, fun k hk => ?_⟩
    have hk := h.2 k hk
    simp only [LatestRows.entry?, LatestRows.putEntry, Dictionary.get?_insert] at hk ⊢
    rw [hk]

end Coupling

/-- Prior states that agree on what the changes touch have the same rows made, or the same failure. -/
theorem Pass.run_agreeing {d : ListDomain} {changes : GroupedChanges d} {P Q : LatestRows d}
    (ha : ∀ e ∈ changes.entities, P.aggregates.get? e = Q.aggregates.get? e)
    (he : ∀ k ∈ changes.entryKeys, P.entry? k = Q.entry? k) (a : Allocator) :
    (∃ R, (run changes P a).result = .ok R ∧ (run changes Q a).result = .ok R
        ∧ (run changes P a).allocator = (run changes Q a).allocator)
      ∨ ∃ e, (run changes P a).result = .error e ∧ (run changes Q a).result = .error e := by
  obtain h | ⟨e, hP, hQ⟩ := Coupling.run_eq
    (Coupling.lawful_agreeing changes.entities changes.entryKeys) rfl ⟨ha, he⟩ (Eq.refl a)
  · exact .inl h
  · exact .inr ⟨e, hP, hQ.resolve_left id⟩

/-- Whether recorders came to the same: the same rows with the same warnings, or the same error. -/
structure RowsMade.Alike {d : ListDomain} (m m' : RowsMade (ListRecorder d)) : Prop where
  result : m.result = m'.result
  output : m.recorder.output = m'.recorder.output
  warnings : m.warnings = m'.warnings
  allocator (h : m.result = .ok ()) : m.allocator = m'.allocator

theorem ListRecorder.makeRows_alike {d : ListDomain} (p : ListRecorder d) {P Q : LatestRows d}
    (ha : ∀ e ∈ p.changes.entities, P.aggregates.get? e = Q.aggregates.get? e)
    (he : ∀ k ∈ p.changes.entryKeys, P.entry? k = Q.entry? k) (a : Allocator) :
    (makeRows { p with prior := P } a).Alike (makeRows { p with prior := Q } a) := by
  unfold makeRows
  obtain ⟨R, hP, hQ, hab⟩ | ⟨e, hP, hQ⟩ := Pass.run_agreeing ha he a
  · simp only [hP, hQ]
    exact ⟨rfl, rfl, rfl, fun _ => hab⟩
  · simp only [hP, hQ]
    exact ⟨rfl, rfl, rfl, nofun⟩

/-! ## Visited events -/

/-- An event as a recorder visits it, with its entity and the entities known by then. -/
structure VisitedEvent where
  stateVersion : Int64
  entity : Entity
  substate : Substate
  known : KnownEntities

namespace VisitedEvent

/-- Whether an event changes the entry with a key. -/
def Touches {d : ListDomain} (v : VisitedEvent) (key : d.EntryKey) : Prop :=
  v.entity.id = key.1
    ∧ ∃ c, d.meaningOf v.substate v.known = .ok (some (.entry c)) ∧ d.keyOf c = key.2

def greatest? (vs : List VisitedEvent) : Option Int64 := (vs.map (·.stateVersion)).max?

end VisitedEvent

/-- Raising the version event by event comes to the greatest one. -/
theorem foldl_raiseVersion_eq_max? (versions : List Int64) :
    versions.foldl raiseVersion none = versions.max? := by
  have hfold : ∀ (vs : List Int64) (m : Int64),
      vs.foldl raiseVersion (some m) = some (vs.foldl max m) := by
    intro vs
    induction vs with
    | nil => exact fun m => rfl
    | cons v vs ih =>
      intro m
      have hcomm : max v m = max m v := by
        rw [← Int64.toInt_inj, toInt_max, toInt_max, Int.max_comm]
      exact (ih (max v m)).trans (by rw [hcomm]; rfl)
  cases versions with
  | nil => rfl
  | cons v vs => exact hfold vs v

namespace ListRecorder

variable {d : ListDomain}

/-- The recorder after it has visited events one after another. -/
def addEvents (p : ListRecorder d) (vs : List VisitedEvent) :
    Except InvocationError (ListRecorder d) :=
  vs.foldlM (fun p v => p.addEvent v.stateVersion v.entity v.substate v.known) p

/-- Whether a change is the one that an event makes. -/
def IsChangeOf (v : VisitedEvent) (x : GroupKey × Meaning d.Change d.Singleton) : Prop :=
  x.1 = ⟨v.entity.id, v.stateVersion⟩ ∧ d.meaningOf v.substate v.known = .ok (some x.2)

theorem addEvent_eq_ok {p q : ListRecorder d} {v : VisitedEvent}
    (h : p.addEvent v.stateVersion v.entity v.substate v.known = .ok q) :
    ∃ x, IsChangeOf v x ∧ q = p.visit [x] := by
  obtain ⟨m, hm, hq⟩ := bind_eq_ok.1 h
  rcases m with _ | m
  · cases hq
  · cases hq
    exact ⟨(⟨v.entity.id, v.stateVersion⟩, m), ⟨rfl, hm⟩, rfl⟩

theorem addEvents_eq_ok {p q : ListRecorder d} {vs : List VisitedEvent} (h : p.addEvents vs = .ok q) :
    ∃ xs, List.Forall₂ IsChangeOf vs xs ∧ q = p.visit xs := by
  induction vs generalizing p with
  | nil =>
    cases h
    exact ⟨[], .nil, rfl⟩
  | cons v vs ih =>
    rw [addEvents, List.foldlM_cons] at h
    obtain ⟨p', hp', h⟩ := bind_eq_ok.1 h
    obtain ⟨x, hx, rfl⟩ := addEvent_eq_ok hp'
    obtain ⟨xs, hxs, rfl⟩ := ih h
    exact ⟨x :: xs, .cons hx hxs, rfl⟩

/-- What a recorder has gathered of events: what they touch and their greatest version. -/
theorem touched_of_addEvents {warnLength : Nat} {vs : List VisitedEvent} {p : ListRecorder d}
    (h : addEvents { warnLength } vs = .ok p) : p.prior = {}
      ∧ p.maxStateVersion = VisitedEvent.greatest? vs
      ∧ (∀ e, e ∈ p.changes.entities ↔ ∃ v ∈ vs, v.entity.id = e)
      ∧ ∀ key, key ∈ p.changes.entryKeys ↔ ∃ v ∈ vs, v.Touches key := by
  obtain ⟨xs, hxs, rfl⟩ := addEvents_eq_ok h
  refine ⟨rfl, ?_, fun e => ?_, fun key => ?_⟩
  · have hversions : vs.map (·.stateVersion) = xs.map (·.1.stateVersion) :=
      map_eq_map_of_forall₂ (hxs.imp fun v x hx => by rw [hx.1])
    rw [VisitedEvent.greatest?, hversions, ← foldl_raiseVersion_eq_max?, List.foldl_map]
    rfl
  · refine GroupedChanges.mem_entities.trans ⟨?_, ?_⟩
    · rintro ⟨x, hx, rfl⟩
      obtain ⟨v, hv, hvx⟩ := exists_of_forall₂ hxs hx
      exact ⟨v, hv, by rw [hvx.1]⟩
    · rintro ⟨v, hv, rfl⟩
      obtain ⟨x, hx, hvx⟩ := exists_of_forall₂ hxs.flip hv
      exact ⟨x, hx, by rw [hvx.1]⟩
  · refine GroupedChanges.mem_entryKeys.trans ⟨?_, ?_⟩
    · rintro ⟨⟨groupKey, _⟩, hx, c, rfl, rfl⟩
      obtain ⟨v, hv, rfl, hc⟩ := exists_of_forall₂ hxs hx
      exact ⟨v, hv, rfl, c, hc, rfl⟩
    · rintro ⟨v, hv, he, c, hc, hkey⟩
      obtain ⟨⟨groupKey, m⟩, hx, rfl, hm⟩ := exists_of_forall₂ hxs.flip hv
      rw [hc] at hm
      cases hm
      exact ⟨_, hx, c, rfl, Prod.ext he hkey⟩

end ListRecorder

/-! ## The most recent rows -/

namespace Snapshot

/-- The entries that the table of a domain has the rows of. -/
def entriesOf (s : Snapshot) (k : ListKind) : List k.domain.Entry :=
  (s.rows k.domain.entryTable.name).filterMap fun row => (k.domain.decodeEntry row).toOption

/-- The aggregates that the table of a domain has the rows of. -/
def aggregatesOf (s : Snapshot) (k : ListKind) : List Aggregate :=
  (s.rows k.domain.aggregateSchema.table.name).filterMap fun row =>
    (k.domain.aggregateSchema.decode row).toOption

/-- Whether the tables of a domain have only rows of entries and of aggregates, with distinct ids. -/
structure IsEncoded (s : Snapshot) (k : ListKind) : Prop where
  entries : ∀ row ∈ s.rows k.domain.entryTable.name, ∃ x, k.domain.encodeEntry x = row
  aggregates : ∀ row ∈ s.rows k.domain.aggregateSchema.table.name,
    ∃ a, k.domain.aggregateSchema.encode a = .ok row
  entryIds : ((s.entriesOf k).map (·.id)).Nodup
  aggregateIds : ((s.aggregatesOf k).map (·.id)).Nodup

theorem map_filterMap_of_forall {α : Type} {f : Row → Option α} {g : α → Row} {rows : List Row}
    (h : ∀ row ∈ rows, ∃ x, f row = some x ∧ g x = row) : (rows.filterMap f).map g = rows := by
  rw [List.map_filterMap]
  refine (List.filterMap_congr fun row hrow => ?_).trans List.filterMap_some
  obtain ⟨x, hx, hg⟩ := h row hrow
  rw [hx, Option.map_some, hg]

variable {s : Snapshot} {k : ListKind}

theorem IsEncoded.map_entriesOf (h : s.IsEncoded k) :
    s.rows k.domain.entryTable.name = (s.entriesOf k).map k.domain.encodeEntry := by
  refine (map_filterMap_of_forall fun row hrow => ?_).symm
  obtain ⟨x, rfl⟩ := h.entries row hrow
  exact ⟨x, by rw [k.decode_encodeEntry]; rfl, rfl⟩

/-- What a row tells of an aggregate: all of it where the domain has singletons. -/
theorem exists_decode_aggregateRow (k : ListKind) (a : Aggregate) :
    ∃ b, k.domain.aggregateSchema.decode (k.domain.aggregateRow a) = .ok b
      ∧ k.domain.aggregateRow b = k.domain.aggregateRow a
      ∧ (k.domain.aggregateSchema.singletonColumn = none → b.singleton = none) := by
  refine ⟨_, AggregateSchema.decode_of_encode k.isProper (k.encode_aggregate a), ?_, fun hc => ?_⟩
  · rcases hc : k.domain.aggregateSchema.singletonColumn with _ | c <;>
      simp [ListDomain.aggregateRow, AggregateSchema.kept, hc]
  · simp [AggregateSchema.kept, hc]

theorem IsEncoded.exists_decode (h : s.IsEncoded k) {row : Row}
    (hrow : row ∈ s.rows k.domain.aggregateSchema.table.name) :
    ∃ b, k.domain.aggregateSchema.decode row = .ok b ∧ k.domain.aggregateRow b = row
      ∧ (k.domain.aggregateSchema.singletonColumn = none → b.singleton = none) := by
  obtain ⟨a, ha⟩ := h.aggregates row hrow
  rw [k.encode_aggregate] at ha
  obtain rfl := Except.ok.inj ha
  exact exists_decode_aggregateRow k a

theorem IsEncoded.map_aggregatesOf (h : s.IsEncoded k) :
    s.rows k.domain.aggregateSchema.table.name
      = (s.aggregatesOf k).map k.domain.aggregateRow := by
  refine (map_filterMap_of_forall fun row hrow => ?_).symm
  obtain ⟨b, hb, hrow, _⟩ := h.exists_decode hrow
  exact ⟨b, by rw [hb]; rfl, hrow⟩

theorem IsEncoded.bare (h : s.IsEncoded k) : ∀ a ∈ s.aggregatesOf k,
    k.domain.aggregateSchema.singletonColumn = none → a.singleton = none := by
  intro a ha
  obtain ⟨row, hrow, ha⟩ := List.mem_filterMap.1 ha
  obtain ⟨b, hb, _, hbare⟩ := h.exists_decode hrow
  rw [hb] at ha
  obtain rfl : b = a := Option.some.inj ha
  exact hbare

end Snapshot

/-- Whether a prior state has the most recent rows that are stored, up to a bound, of some entities and
keys, and of no others. -/
structure LatestRows.IsLatestIn {k : ListKind} (prior : LatestRows k.domain) (s : Snapshot)
    (bound : Option Int64) (es : EntityId → Prop) (ks : k.domain.EntryKey → Prop) : Prop where
  entry {key : k.domain.EntryKey} (h : ks key) : (HistoryRow.versioned k.domain.Change).IsLatest
    (s.entriesOf k) (fun x => k.domain.entryKey x = key ∧ within bound x.stateVersion)
    (prior.entry? key)
  entry_eq_none {key : k.domain.EntryKey} (h : ¬ks key) : prior.entry? key = none
  aggregate {e : EntityId} (h : es e) : ∃ r, Aggregate.versioned.IsLatest (s.aggregatesOf k)
    (fun a => a.entity = e ∧ within bound a.stateVersion) r
      ∧ prior.aggregates.get? e = r.map .settled
  aggregate_eq_none {e : EntityId} (h : ¬es e) : prior.aggregates.get? e = none

namespace LatestRows

variable {s : Snapshot} {k : ListKind} {bound : Option Int64}

section Ranked

variable {α κ : Type} [DecidableEq κ] {m : Versioned α} {key : α → κ} {xs ranked : List α}

theorem isLatest_lastOf (h : m.Ranks xs ranked) (bound : Option Int64) (k : κ) :
    m.IsLatest xs (fun x => key x = k ∧ within bound (m.version x))
      (LatestLookup.lastOf m key bound ranked k) := by
  have := h.isLatest fun x => key x = k && within bound (m.version x)
  simp only [Bool.and_eq_true, decide_eq_true_eq] at this
  exact this

theorem isLatest_find? (h : m.Ranks xs ranked) (bound : Option Int64) (k : κ) :
    m.IsLatest xs (fun x => key x = k ∧ within bound (m.version x))
      ((ranked.filter fun x => within bound (m.version x)).reverse.find? (key · = k)) := by
  rw [← List.head?_filter, List.filter_reverse, List.head?_reverse, ← lastWith,
    ← LatestLookup.lastOf_eq]
  exact isLatest_lastOf h bound k

end Ranked

variable {ys : List k.domain.Entry} {bs : List Aggregate}
  (hys : (HistoryRow.versioned k.domain.Change).Ranks (s.entriesOf k) ys)
  (hbs : Aggregate.versioned.Ranks (s.aggregatesOf k) bs)

include hys hbs

/-- The most recent rows of all that is stored can be filled in. -/
theorem exists_isLatestIn (bound : Option Int64) :
    ∃ full : LatestRows k.domain, full.IsLatestIn s bound (fun _ => True) fun _ => True := by
  refine ⟨(ys.filter fun x => within bound x.stateVersion).foldl putEntry
    ((bs.filter fun a => within bound a.stateVersion).foldl putAggregate {}),
    fun {key} _ => ?_, fun h => absurd trivial h, fun {e} _ => ?_, fun h => absurd trivial h⟩
  · rw [entry?_foldl_putEntry, LatestRows.entry?, frame_foldl_putAggregate]
    have hnone : ({} : LatestRows k.domain).entries.get? key = none := Dictionary.get?_empty key
    rw [hnone, Option.or_none]
    exact isLatest_find? hys bound key
  · refine ⟨_, isLatest_find? hbs bound e, ?_⟩
    rw [frame_foldl_putEntry, get?_foldl_putAggregate]
    exact Option.or_none

omit hys hbs

/-- Prior states with the most recent rows of the same agree on it. -/
theorem IsLatestIn.agree {P Q : LatestRows k.domain} {es es' : EntityId → Prop}
    {ks ks' : k.domain.EntryKey → Prop} (hP : P.IsLatestIn s bound es ks)
    (hQ : Q.IsLatestIn s bound es' ks') :
    (∀ e, es e → es' e → P.aggregates.get? e = Q.aggregates.get? e)
      ∧ ∀ key, ks key → ks' key → P.entry? key = Q.entry? key := by
  refine ⟨fun e he he' => ?_, fun key hk hk' => (hP.entry hk).unique (hQ.entry hk')⟩
  obtain ⟨r, hr, hP⟩ := hP.aggregate he
  obtain ⟨r', hr', hQ⟩ := hQ.aggregate he'
  rw [hP, hQ, hr.unique hr']

end LatestRows

/-! ## Loading what is touched -/

namespace ListRecorder

variable {k : ListKind} {warnLength : Nat} {vs : List VisitedEvent} {p : ListRecorder k.domain}

/-- A recorder that has visited events loads the most recent rows, up to their greatest version, of the
entities and of the keys that they touch, and of no others. It does so whenever nothing goes wrong, and
whatever goes wrong it loads nothing else. With the most recent rows of all that is stored, up to the
same version, it would make the same rows or fail with the same error. -/
theorem loadLatest_suffices (hp : addEvents { warnLength } vs = .ok p) {t : Session}
    (ht : t.world.working.IsEncoded k) :
    ∃ prior, (t.IsCalm → (t.run p.loadLatest.run).1 = .ok { p with prior })
      ∧ (∀ q, (t.run p.loadLatest.run).1 = .ok q → q = { p with prior })
      ∧ prior.IsLatestIn t.world.working (VisitedEvent.greatest? vs)
        (fun e => ∃ v ∈ vs, v.entity.id = e) (fun key => ∃ v ∈ vs, v.Touches key)
      ∧ (∃ full : LatestRows k.domain, full.IsLatestIn t.world.working (VisitedEvent.greatest? vs)
        (fun _ => True) fun _ => True)
      ∧ ∀ full : LatestRows k.domain, full.IsLatestIn t.world.working (VisitedEvent.greatest? vs)
          (fun _ => True) (fun _ => True) →
        ∀ a, (makeRows { p with prior } a).Alike (makeRows { p with prior := full } a) := by
  obtain ⟨hprior, hbound, hes, hks⟩ := touched_of_addEvents hp
  obtain ⟨ys, hys⟩ := Versioned.exists_ranks (HistoryRow.versioned k.domain.Change) ht.entryIds
  obtain ⟨bs, hbs⟩ := Versioned.exists_ranks Aggregate.versioned ht.aggregateIds
  obtain ⟨prior, hload, hentries, haggs⟩ :=
    exists_loaded ht.map_entriesOf ht.map_aggregatesOf ht.bare hys hbs hprior
  have hlatest : prior.IsLatestIn t.world.working (VisitedEvent.greatest? vs)
      (fun e => ∃ v ∈ vs, v.entity.id = e) (fun key => ∃ v ∈ vs, v.Touches key) := by
    rw [← hbound]
    refine ⟨fun {key} h => ?_, fun {key} h => ?_, fun {e} h => ?_, fun {e} h => ?_⟩
    · rw [hentries, if_pos ((hks key).2 h)]
      exact LatestRows.isLatest_lastOf hys _ key
    · rw [hentries, if_neg fun hkey => h ((hks key).1 hkey)]
    · refine ⟨_, LatestRows.isLatest_lastOf hbs _ e, ?_⟩
      rw [haggs, if_pos ((hes e).2 h)]
    · rw [haggs, if_neg fun he => h ((hes e).1 he)]
      rfl
  refine ⟨prior, fun hcalm => ?_, fun q hq => ?_, hlatest,
    LatestRows.exists_isLatestIn hys hbs _, fun full hfull a => ?_⟩
  · rw [(Session.run_calm _ hcalm).1, hload]
  · have hrun := Session.runs_run p.loadLatest.run t
    rw [hq] at hrun
    have hcalm := Script.calm_of_runs (strict_loadTouched p) hrun
    rw [hload] at hcalm
    exact (Except.ok.inj (congrArg Prod.fst hcalm)).symm
  · obtain ⟨ha, he⟩ := hlatest.agree hfull
    exact makeRows_alike p (fun e h => ha e ((hes e).1 h) trivial)
      (fun key h => he key ((hks key).1 h) trivial) a

/-- The two titles that an entity had at the versions one and five. -/
def storedTitles : List Metadata.domain.Entry :=
  [⟨3, 1, ⟨1⟩, ⟨"title", some [1], false⟩⟩, ⟨4, 5, ⟨1⟩, ⟨"title", some [5], false⟩⟩]

/-- A session on a store with these titles and the list of the first. -/
def titleSession : Session where
  store.committed.tables := .ofList
    [(Metadata.domain.entryTable.name, ⟨storedTitles.map Metadata.domain.encodeEntry, [3, 4]⟩),
      (Metadata.domain.aggregateSchema.table.name,
        ⟨[Metadata.domain.aggregateRow ⟨2, 1, ⟨1⟩, ⟨[3]⟩, none⟩], [2]⟩)]

/-- The entity's title is changed and taken away, at the versions two and three. -/
def titleChanges : List VisitedEvent :=
  let titled : Entity := ⟨⟨"account_t", by decide⟩, ⟨1⟩, none, 1⟩
  [⟨2, titled, .metadataEntry "title" (some [2]) false, {}⟩,
    ⟨3, titled, .metadataEntry "title" none false, {}⟩]

theorem isEncoded_titleSession : titleSession.world.working.IsEncoded .metadata where
  entries row hrow := by
    obtain ⟨x, _, hx⟩ := List.mem_map.1 hrow
    exact ⟨x, hx⟩
  aggregates row hrow := by
    rw [List.mem_singleton.1 hrow]
    exact ⟨_, ListKind.metadata.encode_aggregate _⟩
  entryIds := by decide
  aggregateIds := by decide

/-- The title of version five is beyond what is visited, so the one before it is loaded. -/
theorem loadLatest_suffices_sample : ∃ p : ListRecorder Metadata.domain,
    addEvents { warnLength := 9 } titleChanges = .ok p
      ∧ titleSession.world.working.IsEncoded .metadata
      ∧ ∃ prior, (titleSession.run p.loadLatest.run).1 = .ok { p with prior }
        ∧ prior.entry? (⟨1⟩, "title") = storedTitles[0]?
        ∧ prior.entry? (⟨1⟩, "name") = none := by
  obtain ⟨p, hp⟩ : ∃ p : ListRecorder ListKind.metadata.domain,
    addEvents { warnLength := 9 } titleChanges = .ok p := ⟨_, rfl⟩
  obtain ⟨prior, hload, _, hlatest, _⟩ := loadLatest_suffices hp isEncoded_titleSession
  refine ⟨p, hp, isEncoded_titleSession, prior, hload ⟨rfl, rfl, rfl⟩, ?_, ?_⟩
  · have hfirst : (HistoryRow.versioned Metadata.Change).IsLatest storedTitles
        (fun x => Metadata.domain.entryKey x = (⟨1⟩, "title") ∧ within (some 3) x.stateVersion)
        storedTitles[0]? := by
      refine ⟨List.mem_cons_self, ⟨rfl, rfl⟩, fun y hy hwithin => ?_⟩
      rcases List.mem_cons.1 hy with rfl | hy
      · exact .inl rfl
      · obtain rfl := List.mem_singleton.1 hy
        exact absurd hwithin.2 (by decide)
    exact (hlatest.entry ⟨_, List.mem_cons_self, rfl, _, rfl, rfl⟩).unique hfirst
  · refine hlatest.entry_eq_none ?_
    rintro ⟨v, hv, _, c, hc, hname⟩
    have htitle : ∀ v ∈ titleChanges, ∀ c, Metadata.domain.meaningOf v.substate v.known
        = .ok (some (.entry c)) → c.key = "title" := by
      intro v hv c hc
      rcases List.mem_cons.1 hv with rfl | hv
      · cases hc
        rfl
      · obtain rfl := List.mem_singleton.1 hv
        cases hc
        rfl
    exact absurd ((htitle v hv c hc).symm.trans hname) (by decide)

end ListRecorder

end LedgerHistory
