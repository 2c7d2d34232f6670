import LedgerHistory.Proofs.Aggregate.Consistent
import LedgerHistory.Proofs.Aggregate.Simulation

/-!
# Prior state

A recorder loads the most recent rows of what its changes touch, up to the greatest version visited.
From a store that holds a chronicle it so comes to know the part of it within that bound, ranked by
version and id (`ListRecorder.calm_loadLatest`).
-/

namespace LedgerHistory

/-! ## What a look-up finds -/

namespace Dictionary

variable {κ α : Type} [DecidableEq κ]

theorem entries_ofList {es : List (κ × α)} (h : (es.map (·.1)).Nodup) : (ofList es).entries = es := by
  suffices ∀ d : Dictionary κ α, (∀ e ∈ es, e.1 ∉ d.keys) →
      (es.foldl (fun d e => d.insert e.1 e.2) d).entries = d.entries ++ es from
    (this .empty fun _ _ => List.not_mem_nil).trans (List.nil_append es)
  induction es with
  | nil => simp
  | cons e es ih =>
    intro d hd
    obtain ⟨he, h⟩ := List.nodup_cons.1 h
    have hnew : e.1 ∉ d.keys := hd e List.mem_cons_self
    rw [List.foldl_cons, ih h, entries_insert_of_none (get?_eq_none_iff.2 hnew), List.append_assoc]
    · rfl
    · intro e' he'
      rw [keys_insert, if_neg hnew, List.mem_append, List.mem_singleton, not_or]
      exact ⟨hd e' (List.mem_cons_of_mem e he'), fun h => he (List.mem_map.2 ⟨e', he', h⟩)⟩

end Dictionary

section FilterMap

variable {κ α : Type} {f : κ → Option α} {key : α → κ}

theorem map_filterMap_sublist (hf : ∀ k x, f k = some x → key x = k) (ks : List κ) :
    ((ks.filterMap f).map key).Sublist ks := by
  induction ks with
  | nil => exact .slnil
  | cons k ks ih =>
    rcases h : f k with _ | x
    · rw [List.filterMap_cons_none h]
      exact ih.cons k
    · rw [List.filterMap_cons_some h, List.map_cons, hf k x h]
      exact ih.cons_cons k

theorem find?_filterMap [DecidableEq κ] (hf : ∀ k x, f k = some x → key x = k) {ks : List κ} {k : κ} (hk : k ∈ ks) :
    (ks.filterMap f).find? (key · = k) = f k := by
  induction ks with
  | nil => cases hk
  | cons k' ks ih =>
    by_cases he : k' = k
    · subst he
      rcases h : f k' with _ | x
      · rw [List.filterMap_cons_none h, List.find?_eq_none]
        intro x hx
        obtain ⟨k'', _, hx⟩ := List.mem_filterMap.1 hx
        have hk'' := hf k'' x hx
        simp only [decide_eq_true_eq]
        intro he
        rw [he] at hk''
        rw [hk'', hx] at h
        cases h
      · rw [List.filterMap_cons_some h, List.find?_cons_of_pos (by simpa using hf k' x h)]
    · have hk : k ∈ ks := by
        rcases List.mem_cons.1 hk with h | h
        · exact absurd h.symm he
        · exact h
      rcases h : f k' with _ | x
      · rw [List.filterMap_cons_none h]
        exact ih hk
      · have hx : ¬ (key x = k) := by
          rw [hf k' x h]
          exact he
        rw [List.filterMap_cons_some h, List.find?_cons_of_neg (by simpa using hx)]
        exact ih hk

end FilterMap

namespace LatestLookup

variable {κ α : Type} [DecidableEq κ] {m : Versioned α} {key : α → κ} {xs : List α} {keys : List κ}
  {bound : Option Int64}

theorem lastOf_eq (m : Versioned α) (key : α → κ) (bound : Option Int64) (xs : List α) (k : κ) :
    lastOf m key bound xs k = lastWith key k (xs.filter fun x => within bound (m.version x)) := by
  rw [lastOf, lastWith, List.filter_filter]

/-- The values of what is found, in a dictionary, are what is found. -/
theorem values_found : (Dictionary.ofList ((found m key xs keys bound).map fun x => (key x, x))).values
    = found m key xs keys bound := by
  have hn : (((found m key xs keys bound).map fun x => (key x, x)).map (·.1)).Nodup := by
    rw [List.map_map]
    exact (nodup_distinctKeys keys).sublist
      (map_filterMap_sublist (fun k x h => (key_of_lastOf h).1) _)
  rw [Dictionary.values, Dictionary.entries_ofList hn, List.map_map]
  exact List.map_id _

/-- What is found of a key: the last value with it up to the bound, if it was asked for. -/
theorem find?_found (k : κ) : (found m key xs keys bound).reverse.find? (key · = k)
    = if k ∈ keys then lastOf m key bound xs k else none := by
  rw [found, ← List.filterMap_reverse]
  split
  · rename_i hk
    exact find?_filterMap (fun k x h => (key_of_lastOf h).1)
      (List.mem_reverse.2 (mem_distinctKeys.2 hk))
  · rename_i hk
    refine List.find?_eq_none.2 fun x hx => ?_
    obtain ⟨k', hk', hx⟩ := List.mem_filterMap.1 hx
    rw [decide_eq_true_eq, (key_of_lastOf hx).1]
    rintro rfl
    exact hk (mem_distinctKeys.1 (List.mem_reverse.1 hk'))

end LatestLookup

/-! ## Loading -/

namespace LatestRows

variable {d : ListDomain}

theorem frame_foldl_putEntry (xs : List d.Entry) (p : LatestRows d) :
    (xs.foldl putEntry p).aggregates = p.aggregates := by
  induction xs generalizing p with
  | nil => rfl
  | cons x xs ih => exact ih (p.putEntry x)

theorem frame_foldl_putAggregate (xs : List Aggregate) (p : LatestRows d) :
    (xs.foldl putAggregate p).entries = p.entries := by
  induction xs generalizing p with
  | nil => rfl
  | cons a xs ih => exact ih (p.putAggregate a)

theorem entry?_foldl_putEntry (xs : List d.Entry) (p : LatestRows d) (key : d.EntryKey) :
    LatestRows.entry? (xs.foldl putEntry p) key
      = (xs.reverse.find? (d.entryKey · = key)).or (p.entry? key) := by
  have hfold : (xs.foldl putEntry p).entries
      = xs.foldl (fun t x => t.insert (d.entryKey x) (id x)) p.entries := by
    induction xs generalizing p with
    | nil => rfl
    | cons x xs ih => exact ih (p.putEntry x)
  rw [LatestRows.entry?, hfold, Dictionary.get?_foldl_insert, Option.map_id]
  rfl

theorem get?_foldl_putAggregate (xs : List Aggregate) (p : LatestRows d) (e : EntityId) :
    (xs.foldl putAggregate p).aggregates.get? e
      = ((xs.reverse.find? (·.entity = e)).map .settled).or (p.aggregates.get? e) := by
  have hfold : (xs.foldl putAggregate p).aggregates
      = xs.foldl (fun t a => t.insert a.entity (.settled a)) p.aggregates := by
    induction xs generalizing p with
    | nil => rfl
    | cons a xs ih => exact ih (p.putAggregate a)
  rw [hfold, Dictionary.get?_foldl_insert]

end LatestRows

/-- The rows of a chronicle up to a bound. -/
def NewRows.within {d : ListDomain} (C : NewRows d) (bound : Option Int64) : NewRows d :=
  ⟨C.entries.filter fun x => LedgerHistory.within bound x.stateVersion,
    C.aggregates.filter fun a => LedgerHistory.within bound a.stateVersion,
    C.singletons.filter fun x => LedgerHistory.within bound x.stateVersion⟩

/-- Whether a chronicle has the rows of another one, the most recent one last. -/
structure NewRows.Ranks {d : ListDomain} (C ranked : NewRows d) : Prop where
  entries : (HistoryRow.versioned d.Change).Ranks C.entries ranked.entries
  aggregates : Aggregate.versioned.Ranks C.aggregates ranked.aggregates
  singletons : ranked.singletons = C.singletons

theorem NewRows.Ordered.ranks {d : ListDomain} {C : NewRows d} (h : C.Ordered) : C.Ranks C :=
  ⟨h.entries.ranks, h.aggregates.ranks, rfl⟩

/-- Whether a state holds a chronicle in the tables of a domain. -/
structure Snapshot.Holds (s : Snapshot) (k : ListKind) (C : NewRows k.domain) : Prop where
  entries : s.rows k.domain.entryTable.name = C.entries.map k.domain.encodeEntry
  aggregates : s.rows k.domain.aggregateSchema.table.name
    = C.aggregates.map k.domain.aggregateRow
  singletons {t : SingletonTable k.domain.Singleton} (h : k.domain.singletonTable = some t) :
    s.rows t.table.name = C.singletons.map t.encode

namespace ListRecorder

variable {k : ListKind} {C B : NewRows k.domain} {w : World}

/-- What a recorder has loaded when nothing goes wrong: the last rows, up to the greatest version
visited, of the entities and keys that its changes touch. -/
theorem exists_loaded {xs ys : List k.domain.Entry} {as bs : List Aggregate}
    (hxs : w.working.rows k.domain.entryTable.name = xs.map k.domain.encodeEntry)
    (has : w.working.rows k.domain.aggregateSchema.table.name = as.map k.domain.aggregateRow)
    (hs : ∀ a ∈ as, k.domain.aggregateSchema.singletonColumn = none → a.singleton = none)
    (hys : (HistoryRow.versioned k.domain.Change).Ranks xs ys) (hbs : Aggregate.versioned.Ranks as bs)
    {p : ListRecorder k.domain} (hp : p.prior = {}) :
    ∃ prior, p.loadLatest.run.calm w = (.ok { p with prior }, w)
      ∧ (∀ key, prior.entry? key = if key ∈ p.changes.entryKeys
          then LatestLookup.lastOf (HistoryRow.versioned k.domain.Change) k.domain.entryKey
            p.maxStateVersion ys key else none)
      ∧ ∀ e, prior.aggregates.get? e = (if e ∈ p.changes.entities
          then LatestLookup.lastOf Aggregate.versioned (·.entity) p.maxStateVersion bs e
            else none).map .settled := by
  have haggs := LatestLookup.calm_load (k.reads_aggregateLookup hs) hbs has p.changes.entities
    p.maxStateVersion
  have hentries := LatestLookup.calm_load (k.reads_entryLookup xs) hys hxs p.changes.entryKeys
    p.maxStateVersion
  refine ⟨_, (Action.calm_bind_of_ok haggs).trans (Action.calm_bind_of_ok hentries),
    fun key => ?_, fun e => ?_⟩
  · rw [LatestLookup.values_found, LatestLookup.values_found, hp, LatestRows.entry?_foldl_putEntry,
      LatestLookup.find?_found, LatestRows.entry?, LatestRows.frame_foldl_putAggregate]
    by_cases hkey : key ∈ p.changes.entryKeys <;> simp only [hkey, if_true, if_false]
    · exact Option.or_none
    · rfl
  · rw [LatestLookup.values_found, LatestLookup.values_found, hp, LatestRows.frame_foldl_putEntry,
      LatestRows.get?_foldl_putAggregate, LatestLookup.find?_found]
    exact Option.or_none

/-- A recorder knows what its changes touch once it has loaded the most recent rows. -/
theorem calm_loadLatest (hC : w.working.Holds k C) (hr : C.Ranks B)
    (hs : ∀ a ∈ C.aggregates, k.domain.aggregateSchema.singletonColumn = none → a.singleton = none)
    {p : ListRecorder k.domain} (hp : p.prior = {}) :
    ∃ prior, p.loadLatest.run.calm w = (.ok { p with prior }, w)
      ∧ ∀ a, (Pass.mk prior a {}).Tracks (B.within p.maxStateVersion) p.changes.entities
        p.changes.entryKeys := by
  obtain ⟨prior, hload, hentries, haggs⟩ :=
    exists_loaded hC.entries hC.aggregates hs hr.entries hr.aggregates hp
  refine ⟨prior, hload, fun a => ⟨fun {key} hkey => ?_, fun {e} he => ?_, fun {e i} hi => ?_⟩⟩
  · rw [hentries, if_pos hkey, LatestLookup.lastOf_eq, NewRows.append_empty]
    rfl
  · unfold Pass.latest?
    rw [haggs, if_pos he, LatestLookup.lastOf_eq, NewRows.append_empty]
    rw [show (B.within p.maxStateVersion).latest? e = lastWith Aggregate.entity e
      (B.aggregates.filter fun a => within p.maxStateVersion (Aggregate.versioned.version a)) from rfl]
    rcases lastWith Aggregate.entity e _ with _ | a <;> rfl
  · rw [haggs] at hi
    obtain ⟨_, _, hpending⟩ := Option.map_eq_some_iff.1 hi
    cases hpending

end ListRecorder

end LedgerHistory
