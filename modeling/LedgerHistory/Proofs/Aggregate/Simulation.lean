import LedgerHistory.Proofs.Aggregate.Moves
import LedgerHistory.Proofs.Invocation.Allocator
import LedgerHistory.Proofs.Invocation.Grouping

/-!
# A pass follows the chronicle

A pass whose prior state agrees with a chronicle on what its groups touch (`Pass.Tracks`) makes the
rows that the groups add to the chronicle, or fails for the first group that is at fault
(`Pass.exec_recordGroups`).
-/

namespace LedgerHistory

variable {d : ListDomain}

namespace ListDomain

/-- The numbers of ids issued once rows are made, if `n` were before and none for the domain. -/
def counts (d : ListDomain) (n : String → Nat) (R : NewRows d) (name : String) : Nat :=
  if name = d.entryTable.name then R.entries.length
  else if name = d.aggregateSchema.table.name then R.aggregates.length
  else if d.singletonTable.any (·.table.name = name) then R.singletons.length
  else n name

/-- The first ids of a domain's rows. -/
def firstIds (d : ListDomain) (start : String → Int64) : FirstIds :=
  ⟨start d.entryTable.name, start d.aggregateSchema.table.name,
    (d.singletonTable.map (start ·.table.name)).getD 0⟩

/-- Whether the tables of a domain are different ones, all among those that are counted. -/
structure CountedIn (d : ListDomain) (ts : List Table) : Prop where
  nodup : (ts.map (·.name)).Nodup
  mem {t : Table} (h : t ∈ d.tables) : t ∈ ts
  distinct : (d.tables.map (·.name)).Nodup

variable {n : String → Nat} {R : NewRows d} {ts : List Table}

theorem counts_entry (n : String → Nat) (R : NewRows d) :
    d.counts n R d.entryTable.name = R.entries.length := if_pos rfl

/-- Without rows the numbers are those from before. -/
theorem counts_empty (hn : ∀ t ∈ d.tables, n t.name = 0) : d.counts n {} = n := by
  funext name
  unfold counts
  split
  · rename_i h
    rw [h]
    exact (hn _ (by simp [tables])).symm
  split
  · rename_i h
    rw [h]
    exact (hn _ (by simp [tables])).symm
  split
  · rename_i h
    rcases ht : d.singletonTable with _ | t
    · simp [ht] at h
    · have hname : t.table.name = name := by simpa [ht] using h
      rw [← hname]
      exact (hn _ (by simp [tables, ht])).symm
  · rfl

theorem counts_aggregate (h : d.CountedIn ts) (n : String → Nat) (R : NewRows d) :
    d.counts n R d.aggregateSchema.table.name = R.aggregates.length := by
  have hne : d.aggregateSchema.table.name ≠ d.entryTable.name := by
    have := h.distinct
    simp only [tables, List.cons_append, List.nil_append, List.map_cons, List.nodup_cons,
      List.mem_cons, not_or] at this
    exact Ne.symm this.1.1
  rw [counts, if_neg hne, if_pos rfl]

theorem counts_singleton (h : d.CountedIn ts) {t : SingletonTable d.Singleton}
    (ht : d.singletonTable = some t) (n : String → Nat) (R : NewRows d) :
    d.counts n R t.table.name = R.singletons.length := by
  have := h.distinct
  simp only [tables, ht, Option.map_some, Option.toList_some, List.cons_append, List.nil_append,
    List.map_cons, List.map_nil, List.nodup_cons, List.mem_cons, List.not_mem_nil, or_false,
    not_or] at this
  rw [counts, if_neg (Ne.symm this.1.2), if_neg (Ne.symm this.2.1), if_pos (by simp [ht])]

end ListDomain

namespace Allocator

variable {ts : List Table} {start : String → Int64} {n : String → Nat} {a : Allocator}
  {R R' : NewRows d}

/-- One more entry is one more id of its table. -/
theorem oneMore_entry (he : R'.entries.length = R.entries.length + 1)
    (ha : R'.aggregates.length = R.aggregates.length)
    (hs : R'.singletons.length = R.singletons.length) :
    oneMore (d.counts n R) d.entryTable.name = d.counts n R' := by
  funext name
  unfold oneMore ListDomain.counts
  rw [he, ha, hs]
  split <;> rfl

theorem oneMore_aggregate (h : d.CountedIn ts) (he : R'.entries.length = R.entries.length)
    (ha : R'.aggregates.length = R.aggregates.length + 1)
    (hs : R'.singletons.length = R.singletons.length) :
    oneMore (d.counts n R) d.aggregateSchema.table.name = d.counts n R' := by
  funext name
  by_cases hname : name = d.aggregateSchema.table.name
  · subst hname
    rw [oneMore, if_pos rfl, d.counts_aggregate h, d.counts_aggregate h, ha]
  · unfold oneMore ListDomain.counts
    rw [he, hs, if_neg hname, if_neg hname, if_neg hname]

theorem oneMore_singleton (h : d.CountedIn ts) {t : SingletonTable d.Singleton}
    (ht : d.singletonTable = some t) (he : R'.entries.length = R.entries.length)
    (ha : R'.aggregates.length = R.aggregates.length)
    (hs : R'.singletons.length = R.singletons.length + 1) :
    oneMore (d.counts n R) t.table.name = d.counts n R' := by
  funext name
  by_cases hname : name = t.table.name
  · subst hname
    rw [oneMore, if_pos rfl, d.counts_singleton h ht, d.counts_singleton h ht, hs]
  · unfold oneMore ListDomain.counts
    have hno : d.singletonTable.any (·.table.name = name) = false := by
      simpa [ht] using Ne.symm hname
    rw [he, ha, if_neg hname, hno]
    rfl

end Allocator

namespace Pass

open PassStep

/-- The most recent aggregate of an entity that a pass knows. -/
def latest? (p : Pass d) (entity : EntityId) : Option Aggregate :=
  match p.prior.aggregates.get? entity with
  | none => none
  | some (.settled a) => some a
  | some (.pending i) => p.rows.aggregates[i]?

/-- Whether the counters of a pass stand behind the ids of its rows. -/
def Counted (ts : List Table) (start : String → Int64) (n : String → Nat) (p : Pass d) : Prop :=
  p.allocator.Issued ts start (d.counts n p.rows)

/-- Whether a pass knows the most recent aggregates of entities and entries of keys of a chronicle
together with its own rows. -/
structure Tracks (B : NewRows d) (es : List EntityId) (ks : List d.EntryKey) (p : Pass d) : Prop where
  entries {k : d.EntryKey} (h : k ∈ ks) :
    p.prior.entry? k = lastWith d.entryKey k (B ++ p.rows).entries
  aggregates {e : EntityId} (h : e ∈ es) : p.latest? e = (B ++ p.rows).latest? e
  places {e : EntityId} {i : Nat} (h : p.prior.aggregates.get? e = some (.pending i)) :
    i < p.rows.aggregates.length

variable {ts : List Table} {start : String → Int64} {n : String → Nat} {p : Pass d}
  {B : NewRows d} {es : List EntityId} {ks : List d.EntryKey} {key : GroupKey}

/-! ## Counters -/

section Counted

variable (h : p.Counted ts start n) (hd : d.CountedIn ts)

include h hd

/-- The next id of an entry is the one behind those of the entries made. -/
theorem Counted.next_entry : ∃ a,
    p.allocator.next d.entryTable = .ok (((d.firstIds start).after p.rows).entry, a)
      ∧ ∀ place x, (p.withEntry a place x).Counted ts start n := by
  obtain ⟨a, ha, hi⟩ := Allocator.next_of_issued h hd.nodup
    (hd.mem (t := d.entryTable) (by simp [ListDomain.tables]))
  rw [d.counts_entry] at ha
  refine ⟨a, ha, fun place x => ?_⟩
  have hcount : Allocator.oneMore (d.counts n p.rows) d.entryTable.name
      = d.counts n (p.withEntry a place x).rows :=
    Allocator.oneMore_entry (by simp [withEntry]) (by simp [withEntry]) rfl
  rwa [hcount] at hi

theorem Counted.next_aggregate : ∃ a,
    p.allocator.next d.aggregateSchema.table
        = .ok (((d.firstIds start).after p.rows).aggregate, a)
      ∧ ∀ x, (p.withAggregate a x).Counted ts start n := by
  obtain ⟨a, ha, hi⟩ := Allocator.next_of_issued h hd.nodup
    (hd.mem (t := d.aggregateSchema.table) (by simp [ListDomain.tables]))
  rw [d.counts_aggregate hd] at ha
  refine ⟨a, ha, fun x => ?_⟩
  have hcount : Allocator.oneMore (d.counts n p.rows) d.aggregateSchema.table.name
      = d.counts n (p.withAggregate a x).rows :=
    Allocator.oneMore_aggregate hd rfl (by simp [withAggregate]) rfl
  rwa [hcount] at hi

theorem Counted.next_singleton {t : SingletonTable d.Singleton} (ht : d.singletonTable = some t) :
    ∃ a, p.allocator.next t.table = .ok (((d.firstIds start).after p.rows).singleton, a)
      ∧ ∀ x, (p.withSingleton a x).Counted ts start n := by
  obtain ⟨a, ha, hi⟩ := Allocator.next_of_issued h hd.nodup
    (hd.mem (t := t.table) (by simp [ListDomain.tables, ht]))
  have hid : start t.table.name + Int64.ofNat (d.counts n p.rows t.table.name)
      = ((d.firstIds start).after p.rows).singleton := by
    rw [d.counts_singleton hd ht]
    simp [FirstIds.after, ListDomain.firstIds, ht]
  refine ⟨a, hid ▸ ha, fun x => ?_⟩
  have hcount : Allocator.oneMore (d.counts n p.rows) t.table.name
      = d.counts n (p.withSingleton a x).rows :=
    Allocator.oneMore_singleton hd ht rfl rfl (by simp [withSingleton])
  rwa [hcount] at hi

end Counted

/-! ## Singletons -/

/-- A singleton for each value is made, and the last one's id is answered. -/
theorem exec_recordSingletons (hd : d.CountedIn ts) {t : SingletonTable d.Singleton}
    (ht : d.singletonTable = some t) (values : List d.Singleton) (last : Option Int64)
    (h : p.Counted ts start n) :
    ∃ p', (recordSingletons key t last values).exec p
        = (.ok (((numbered ((d.firstIds start).after p.rows).singleton key values).getLast?.map
          (·.id)).or last), p')
      ∧ p'.prior = p.prior ∧ p'.Counted ts start n
      ∧ p'.rows = ⟨p.rows.entries, p.rows.aggregates, p.rows.singletons
          ++ numbered ((d.firstIds start).after p.rows).singleton key values⟩ := by
  induction values generalizing p last with
  | nil => exact ⟨p, rfl, rfl, h, by simp [numbered_nil]⟩
  | cons value rest ih =>
    obtain ⟨a, ha, hcount⟩ := h.next_singleton hd ht
    let x : d.SingletonRow :=
      ⟨((d.firstIds start).after p.rows).singleton, key.stateVersion, key.entity, value⟩
    have hnext : ((d.firstIds start).after (p.withSingleton a x).rows).singleton = x.id + 1 := by
      simp only [FirstIds.after, withSingleton, x, List.length_append, List.length_singleton,
        Int64.ofNat_add, ← Int64.add_assoc]
      rfl
    obtain ⟨p', hp', hprior, hcount, hrows⟩ := ih (some x.id) (hcount x)
    rw [hnext] at hp' hrows
    refine ⟨p', ?_, hprior, hcount, ?_⟩
    · rw [exec_recordSingletons_cons ha, hp', numbered_cons, List.getLast?_cons]
      rcases (numbered (x.id + 1) key rest).getLast? with _ | y <;> rfl
    · rw [hrows, numbered_cons]
      simp [withSingleton, x]

theorem exec_newSingleton (key : GroupKey) (hd : d.CountedIn ts) (h : p.Counted ts start n)
    {g : ChangeGroup d.Change d.Singleton}
    (hg : (!g.singletons.isEmpty && d.singletonTable.isNone) = false) :
    ∃ p', (newSingleton key g).exec p
        = (.ok ((numbered ((d.firstIds start).after p.rows).singleton key g.singletons).getLast?.map
          (·.id)), p')
      ∧ p'.prior = p.prior ∧ p'.Counted ts start n
      ∧ p'.rows = ⟨p.rows.entries, p.rows.aggregates, p.rows.singletons
          ++ numbered ((d.firstIds start).after p.rows).singleton key g.singletons⟩ := by
  unfold newSingleton
  split
  · rename_i hnil
    exact ⟨p, by rw [hnil]; rfl, rfl, h, by simp [hnil, numbered_nil]⟩
  · rename_i hcons hnone
    simp [hcons, hnone] at hg
  · rename_i t ht _
    obtain ⟨p', hp', hrest⟩ := exec_recordSingletons hd ht g.singletons none h
    exact ⟨p', by rw [hp', Option.or_none], hrest⟩

theorem exec_newSingleton_of_no_table {key : GroupKey} {g : ChangeGroup d.Change d.Singleton}
    (hg : (!g.singletons.isEmpty && d.singletonTable.isNone) = true) (p : Pass d) :
    (newSingleton key g).exec p
      = (.error (.invariantViolation d.name key.entity key.stateVersion .noSingletonTable), p) := by
  unfold newSingleton
  split
  · rename_i hnil
    simp [hnil] at hg
  · rfl
  · rename_i ht _
    simp [ht] at hg

/-! ## Aggregates -/

/-- What the place of a group's aggregate comes to, if the pass made none for the group before. -/
theorem exec_aggregatePlace
    (hp : ∀ {e i}, p.prior.aggregates.get? e = some (.pending i) → i < p.rows.aggregates.length)
    {previous : Option Aggregate} (hprev : p.latest? key.entity = previous)
    (hnew : ∀ a ∈ p.rows.aggregates, previous = some a → a.stateVersion ≠ key.stateVersion)
    (singleton : Option Int64) :
    (aggregatePlace key singleton).exec p
      = if previous.any (·.stateVersion = key.stateVersion) then
          (.error (.invariantViolation d.name key.entity key.stateVersion .alreadyPersisted), p)
        else (openAggregate key singleton previous).exec p := by
  subst hprev
  rw [exec_aggregatePlace_eq]
  unfold latest? at hnew ⊢
  rcases hslot : p.prior.aggregates.get? key.entity with _ | a | i
  · rfl
  · by_cases hv : a.stateVersion = key.stateVersion <;> simp [hv]
  · have hi := hp hslot
    simp only [hslot, List.getElem?_eq_getElem hi] at hnew
    have hv := hnew _ (List.getElem_mem hi) rfl
    simp only [List.getElem?_eq_getElem hi, hv, if_false, Option.any_some, decide_false,
      Bool.false_eq_true]

/-! ## Entries -/

/-- The entries of a group move to the front of its aggregate's list, one after another. -/
theorem exec_recordEntries (hd : d.CountedIn ts) (cs : List d.Change) (h : p.Counted ts start n)
    {as : List Aggregate} {a : Aggregate} (ha : p.rows.aggregates = as ++ [a])
    (hks : ∀ c ∈ cs, (key.entity, d.keyOf c) ∈ ks)
    (he : ∀ k ∈ ks, p.prior.entry? k = lastWith d.entryKey k (B ++ p.rows).entries) :
    ∃ p', (cs.forM (recordEntry key as.length)).exec p = (.ok (), p')
      ∧ p'.prior.aggregates = p.prior.aggregates ∧ p'.Counted ts start n
      ∧ (∀ k ∈ ks, p'.prior.entry? k = lastWith d.entryKey k (B ++ p'.rows).entries)
      ∧ p'.rows = ⟨p.rows.entries ++ numbered ((d.firstIds start).after p.rows).entry key cs,
          as ++ [a.withList (NewRows.carry (B ++ p.rows).entries
            (numbered ((d.firstIds start).after p.rows).entry key cs) a.list)],
          p.rows.singletons⟩ := by
  induction cs generalizing p a with
  | nil =>
    refine ⟨p, rfl, rfl, h, he, ?_⟩
    simp only [numbered_nil, List.append_nil, NewRows.carry]
    show p.rows = NewRows.mk p.rows.entries (as ++ [a]) p.rows.singletons
    rw [← ha]
  | cons c cs ih =>
    obtain ⟨b, hb, hcount⟩ := h.next_entry hd
    let x : d.Entry := ⟨((d.firstIds start).after p.rows).entry, key.stateVersion, key.entity, c⟩
    have hkx : d.entryKey x ∈ ks := hks c List.mem_cons_self
    have haggs : (p.withEntry b as.length x).rows.aggregates = as ++ [a.withList (moveToFront
        ((p.prior.entry? (d.entryKey x)).map (·.id)) (d.isDeletion c) x.id a.list)] := by
      rw [withEntry, ha, modify_concat]
    have he₁ : ∀ k ∈ ks, (p.withEntry b as.length x).prior.entry? k
        = lastWith d.entryKey k (B ++ (p.withEntry b as.length x).rows).entries := by
      intro k hk
      rw [withEntry, NewRows.entries_append, ← List.append_assoc, lastWith_concat]
      unfold LatestRows.entry? LatestRows.putEntry
      rw [Dictionary.get?_insert]
      split
      · rfl
      · exact he k hk
    have hnext : ((d.firstIds start).after (p.withEntry b as.length x).rows).entry = x.id + 1 := by
      simp only [FirstIds.after, withEntry, x, List.length_append, List.length_singleton,
        Int64.ofNat_add, ← Int64.add_assoc]
      rfl
    obtain ⟨p', hp', hprior', hcount', he', hrows'⟩ := ih (hcount as.length x) haggs
      (fun c' hc' => hks c' (List.mem_cons_of_mem c hc')) he₁
    refine ⟨p', (exec_bind_of_ok (exec_recordEntry_of_ok hb as.length c)).trans hp', hprior', hcount',
      he', ?_⟩
    rw [hrows', hnext, he _ hkx]
    simp only [withEntry, numbered_cons, NewRows.carry, NewRows.entries_append, List.append_assoc,
      List.cons_append, List.nil_append]
    rfl

/-! ## Groups -/

/-- A pass knows an aggregate that it has made as the most recent one of its entity. -/
theorem tracks_of_opened {p' : Pass d} (ht : p.Tracks B es ks) {a : Aggregate}
    (hprior : p'.prior.aggregates
      = p.prior.aggregates.insert a.entity (.pending p.rows.aggregates.length))
    (he : ∀ k ∈ ks, p'.prior.entry? k = lastWith d.entryKey k (B ++ p'.rows).entries)
    (hrows : p'.rows.aggregates = p.rows.aggregates ++ [a]) : p'.Tracks B es ks := by
  refine ⟨fun hk => he _ hk, fun {e} hes => ?_, fun {e i} hi => ?_⟩
  · have hold := ht.aggregates hes
    unfold latest? NewRows.latest? at hold ⊢
    rw [hprior, Dictionary.get?_insert, NewRows.aggregates_append, hrows, ← List.append_assoc,
      lastWith_concat]
    by_cases hae : a.entity = e
    · simp [hae]
    · rw [if_neg hae, if_neg hae]
      rcases hslot : p.prior.aggregates.get? e with _ | b | i <;> rw [hslot] at hold
      · exact hold
      · exact hold
      · simp only [List.getElem?_append_left (ht.places hslot)]
        exact hold
  · rw [hprior, Dictionary.get?_insert] at hi
    rw [hrows, List.length_append, List.length_singleton]
    split at hi
    · cases hi
      omega
    · have := ht.places hi
      omega

/-- A pass that knows a chronicle puts the aggregate of a group behind those that it has made, unless
the group is at fault. -/
theorem exec_groupPlace (hd : d.CountedIn ts) (h : p.Counted ts start n) (ht : p.Tracks B es ks)
    {g : d.Group} (hes : g.1.entity ∈ es) (hnew : g.1 ∉ p.rows.aggregates.map Aggregate.groupKey) :
    match (B ++ p.rows).fault? g with
    | some v => ((newSingleton g.1 g.2 >>= aggregatePlace g.1).exec p).1
        = .error (.invariantViolation d.name g.1.entity g.1.stateVersion v)
    | none => ∃ p', (newSingleton g.1 g.2 >>= aggregatePlace g.1).exec p
          = (.ok p.rows.aggregates.length, p')
        ∧ p'.Counted ts start n
        ∧ p'.prior = ⟨p.prior.aggregates.insert g.1.entity (.pending p.rows.aggregates.length),
          p.prior.entries⟩
        ∧ p'.rows = ⟨p.rows.entries, p.rows.aggregates ++ [carriedOn g.1
            ((numbered ((d.firstIds start).after p.rows).singleton g.1 g.2.singletons).getLast?.map
              (·.id)) ((B ++ p.rows).latest? g.1.entity) ((d.firstIds start).after p.rows).aggregate],
          p.rows.singletons
            ++ numbered ((d.firstIds start).after p.rows).singleton g.1 g.2.singletons⟩ := by
  unfold NewRows.fault?
  rcases hs : !g.2.singletons.isEmpty && d.singletonTable.isNone with _ | _
  swap
  · rw [if_pos rfl, exec_bind_of_error (exec_newSingleton_of_no_table hs p)]
  obtain ⟨p₁, hp₁, hprior₁, hcount₁, hrows₁⟩ := exec_newSingleton g.1 hd h hs
  have hlatest : p₁.latest? g.1.entity = (B ++ p.rows).latest? g.1.entity := by
    rw [← ht.aggregates hes]
    unfold latest?
    rw [hprior₁, hrows₁]
  have hplaces : ∀ {e i}, p₁.prior.aggregates.get? e = some (.pending i) →
      i < p₁.rows.aggregates.length := by
    rw [hprior₁, hrows₁]
    exact ht.places
  -- the pass has made no aggregate of this key, so the one that it knows is of another version
  have hother : ∀ a ∈ p₁.rows.aggregates, (B ++ p.rows).latest? g.1.entity = some a →
      a.stateVersion ≠ g.1.stateVersion := by
    intro a hin ha hv
    rw [hrows₁] at hin
    exact hnew (List.mem_map.2 ⟨a, hin, by rw [Aggregate.groupKey, (key_of_lastWith ha).2, hv]⟩)
  have hplace := exec_aggregatePlace hplaces hlatest hother
    ((numbered ((d.firstIds start).after p.rows).singleton g.1 g.2.singletons).getLast?.map (·.id))
  rw [if_neg Bool.false_ne_true, exec_bind_of_ok hp₁]
  by_cases hv : ((B ++ p.rows).latest? g.1.entity).any (·.stateVersion = g.1.stateVersion) = true
  · rw [if_pos hv]
    exact congrArg Prod.fst (hplace.trans (if_pos hv))
  rw [if_neg hv] at hplace ⊢
  have hlacks : lacksSingleton d
      ((numbered ((d.firstIds start).after p.rows).singleton g.1 g.2.singletons).getLast?.map (·.id))
      ((B ++ p.rows).latest? g.1.entity)
      = (d.aggregateSchema.singletonColumn.isSome && g.2.singletons.isEmpty
        && (((B ++ p.rows).latest? g.1.entity).bind (·.singleton)).isNone) := by
    rw [lacksSingleton, Option.isNone_or, isNone_last, ← Bool.and_assoc]
  rw [← hlacks, hplace]
  rcases hc : lacksSingleton d _ ((B ++ p.rows).latest? g.1.entity) with _ | _
  · obtain ⟨a, ha, hcount⟩ := hcount₁.next_aggregate hd
    rw [if_neg Bool.false_ne_true, exec_openAggregate_of_ok hc ha]
    refine ⟨_, Prod.ext ?_ rfl, hcount _, ?_, ?_⟩
    · rw [hrows₁]
    · rw [withAggregate, hprior₁, hrows₁]
      rfl
    · rw [withAggregate, hrows₁]
      rfl
  · rw [if_pos rfl, exec_openAggregate_of_lacks hc]

/-- A pass that knows a chronicle makes the rows that a group adds to it, unless the group is at
fault. -/
theorem exec_recordGroup (hd : d.CountedIn ts) (h : p.Counted ts start n) (ht : p.Tracks B es ks)
    {g : d.Group} (hes : g.1.entity ∈ es) (hks : ∀ c ∈ g.2.entries, (g.1.entity, d.keyOf c) ∈ ks)
    (hnew : g.1 ∉ p.rows.aggregates.map Aggregate.groupKey) :
    match (B ++ p.rows).fault? g with
    | some v => ((recordGroup g).exec p).1
        = .error (.invariantViolation d.name g.1.entity g.1.stateVersion v)
    | none => ∃ p', (recordGroup g).exec p = (.ok (), p') ∧ p'.Counted ts start n
        ∧ p'.Tracks B es ks
        ∧ p'.rows = p.rows ++ (B ++ p.rows).rowsOf ((d.firstIds start).after p.rows) g := by
  have hgroup : recordGroup g = (newSingleton g.1 g.2 >>= aggregatePlace g.1) >>= fun place =>
      g.2.entries.forM (recordEntry g.1 place) := by
    rw [bind_assoc]
    rfl
  have hplace := exec_groupPlace hd h ht hes hnew
  rw [hgroup]
  rcases hf : (B ++ p.rows).fault? g with _ | v <;> rw [hf] at hplace
  · obtain ⟨p₁, hp₁, hcount₁, hprior₁, hrows₁⟩ := hplace
    have hentries : (B ++ p₁.rows).entries = (B ++ p.rows).entries := by
      rw [NewRows.entries_append, NewRows.entries_append, hrows₁]
    have he : ∀ k ∈ ks, p₁.prior.entry? k = lastWith d.entryKey k (B ++ p₁.rows).entries := by
      intro k hk
      rw [hentries, ← ht.entries hk, hprior₁]
      rfl
    obtain ⟨p₂, hp₂, hprior₂, hcount₂, he₂, hrows₂⟩ :=
      exec_recordEntries hd g.2.entries hcount₁ (by rw [hrows₁]) hks he
    have hids : ((d.firstIds start).after p₁.rows).entry
        = ((d.firstIds start).after p.rows).entry := by
      rw [hrows₁]
      rfl
    rw [hids, hentries] at hrows₂
    refine ⟨p₂, (exec_bind_of_ok hp₁).trans hp₂, hcount₂, ?_, ?_⟩
    · refine tracks_of_opened ht (a := ?_) ?_ he₂ (by rw [hrows₂])
      rw [hprior₂, hprior₁]
      rfl
    · rw [hrows₂, hrows₁]
      rfl
  · exact fst_exec_bind_of_error hplace

/-- A pass that knows a chronicle makes the rows that its groups add to it, or fails for the first
group that is at fault. -/
theorem exec_recordGroups (hd : d.CountedIn ts) {gs : List d.Group} (h : p.Counted ts start n)
    (ht : p.Tracks B es ks) (hes : ∀ g ∈ gs, g.1.entity ∈ es)
    (hks : ∀ g ∈ gs, ∀ c ∈ g.2.entries, (g.1.entity, d.keyOf c) ∈ ks) (hnd : (gs.map (·.1)).Nodup)
    (hnew : ∀ g ∈ gs, g.1 ∉ p.rows.aggregates.map Aggregate.groupKey) :
    match (B ++ p.rows).rowsAfter ((d.firstIds start).after p.rows) gs with
    | .error e => ((recordGroups gs).exec p).1 = .error e
    | .ok R => ∃ p', (recordGroups gs).exec p = (.ok (), p') ∧ p'.Counted ts start n
        ∧ p'.rows = p.rows ++ R := by
  induction gs generalizing p with
  | nil => exact ⟨p, rfl, h, (NewRows.append_empty _).symm⟩
  | cons g gs ih =>
    have hstep := exec_recordGroup hd h ht (hes g List.mem_cons_self) (hks g List.mem_cons_self)
      (hnew g List.mem_cons_self)
    have hforM : recordGroups (g :: gs) = (recordGroup g >>= fun _ => recordGroups gs) := rfl
    rw [NewRows.rowsAfter, hforM]
    rcases hf : (B ++ p.rows).fault? g with _ | v
    · rw [hf] at hstep
      obtain ⟨p₁, hp₁, hcount₁, ht₁, hrows₁⟩ := hstep
      obtain ⟨hg, hnd⟩ := List.nodup_cons.1 hnd
      have hnew₁ : ∀ g' ∈ gs, g'.1 ∉ p₁.rows.aggregates.map Aggregate.groupKey := by
        intro g' hg' hm
        rw [hrows₁, NewRows.aggregates_append, List.map_append, List.mem_append,
          (NewRows.tells_rowsOf ..).aggregates, List.map_singleton, List.mem_singleton] at hm
        rcases hm with hm | hm
        · exact hnew g' (List.mem_cons_of_mem g hg') hm
        · exact hg (List.mem_map.2 ⟨g', hg', hm⟩)
      have hrest := ih hcount₁ ht₁ (fun g' hg' => hes g' (List.mem_cons_of_mem g hg'))
        (fun g' hg' => hks g' (List.mem_cons_of_mem g hg')) hnd hnew₁
      rw [exec_bind_of_ok hp₁]
      rw [hrows₁, ← NewRows.append_assoc, FirstIds.after_append] at hrest
      rcases hr : (B ++ p.rows ++ (B ++ p.rows).rowsOf ((d.firstIds start).after p.rows) g).rowsAfter
        (((d.firstIds start).after p.rows).after
          ((B ++ p.rows).rowsOf ((d.firstIds start).after p.rows) g)) gs with e | R
      · rw [hr] at hrest
        simp only [Except.map]
        exact hrest
      · rw [hr] at hrest
        simp only [Except.map]
        obtain ⟨p', hp', hcount', hrows'⟩ := hrest
        exact ⟨p', hp', hcount', by rw [hrows', NewRows.append_assoc]⟩
    · rw [hf] at hstep
      exact fst_exec_bind_of_error hstep

/-- What a pass comes to whose prior state agrees with a chronicle. -/
theorem run_eq (hd : d.CountedIn ts) {changes : GroupedChanges d} {prior : LatestRows d}
    {a : Allocator} (ha : a.Issued ts start n) (hn : ∀ t ∈ d.tables, n t.name = 0)
    (hnd : changes.groups.keys.Nodup)
    (ht : (Pass.mk prior a {}).Tracks B changes.entities changes.entryKeys) :
    (run changes prior a).result = B.rowsAfter (d.firstIds start) changes.toList
      ∧ ∀ R, (run changes prior a).result = .ok R →
        (run changes prior a).allocator.Issued ts start (d.counts n R) := by
  have hcount : (Pass.mk prior a ({} : NewRows d)).Counted ts start n := by
    unfold Counted
    rw [d.counts_empty hn]
    exact ha
  have hexec := exec_recordGroups (d := d) hd hcount ht
    (fun g (hg : g ∈ changes.toList) => List.mem_map_of_mem (f := (·.entity)) (List.mem_map_of_mem (f := (·.1)) hg))
    (fun g hg c hc => List.mem_flatMap.2 ⟨g, hg, List.mem_map.2 ⟨c, hc, rfl⟩⟩) hnd
    (fun g _ => List.not_mem_nil)
  rw [NewRows.append_empty, FirstIds.after_empty] at hexec
  rcases hr : B.rowsAfter (d.firstIds start) changes.toList with e | R <;> rw [hr] at hexec
  · rcases hx : (recordGroups changes.toList).exec ⟨prior, a, {}⟩ with ⟨r, p⟩
    rw [hx] at hexec
    cases hexec
    rw [run_of_exec_error hx]
    exact ⟨rfl, nofun⟩
  · obtain ⟨p', hp', hcount', hrows'⟩ := hexec
    rw [NewRows.empty_append] at hrows'
    rw [run_of_exec_ok hp', hrows']
    refine ⟨rfl, fun R' hR' => ?_⟩
    cases hR'
    rw [← hrows']
    exact hcount'

end Pass

end LedgerHistory
