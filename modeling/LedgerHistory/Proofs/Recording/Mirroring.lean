import LedgerHistory.Proofs.Recording.Acceptance
import LedgerHistory.Proofs.Recording.Alike

/-!
# States that mirror each other

A state mirrors another one in some domains when their rows differ in ids alone, those of entities
standing for each other when they have one address (`Snapshot.Mirrors`). What a calm invocation records
in one of them it records in the other, also with fewer domains enabled, and the states that it leads
to mirror each other again (`Snapshot.Mirrors.step`).
-/

namespace LedgerHistory

/-- Whether ids are those of one address in two states. -/
def Snapshot.SameEntity (s s' : Snapshot) (e e' : EntityId) : Prop :=
  ∃ a x x', s.entities.get? a = some x ∧ s'.entities.get? a = some x' ∧ x.id = e ∧ x'.id = e'

/-- Whether the rows of two states differ in ids alone, in some domains. -/
structure Snapshot.Mirrors (ds : List DomainName) (P : String → Int64 → Int64 → Prop) (s : Snapshot)
    (C : Chronicles) (H : Histories) (s' : Snapshot) (C' : Chronicles) (H' : Histories) : Prop where
  stored : s.Stored C H
  stored' : s'.Stored C' H'
  order (name : String) : KeepsOrder (P name)
  lists (k : ListKind) (hk : k.domain.name ∈ ds) :
    (C k).Alike (k.likeness (s.SameEntity s') P) (C' k)
  plain (k : PlainKind) (hk : k.domain.name ∈ ds) : List.Forall₂
    (HistoryRow.Alike (s.SameEntity s') (P k.domain.table.name) (· = ·)) (H k) (H' k)

namespace Snapshot

variable {n n' : Nat} {s s' s₁ s₁' : Snapshot} {C C' B : Chronicles} {H H' : Histories}
  {ds : List DomainName} {P P' : String → Int64 → Int64 → Prop} {config config' : Configuration}
  {x : LedgerExtension} {bss bss' : List (List Batch)}

/-! ## Entities -/

theorem biUnique_sameEntity (hs : s.Numbered) (hs' : s'.Numbered) :
    Relator.BiUnique (s.SameEntity s') := by
  constructor
  · rintro _ _ _ ⟨a, x, x', hx, hx', rfl, rfl⟩ ⟨b, y, y', hy, hy', rfl, he⟩
    obtain rfl := hs'.distinct hx' hy' he.symm
    rw [Option.some.inj (hx.symm.trans hy)]
  · rintro _ _ _ ⟨a, x, x', hx, hx', rfl, rfl⟩ ⟨b, y, y', hy, hy', he, rfl⟩
    obtain rfl := hs.distinct hx hy he.symm
    rw [Option.some.inj (hx'.symm.trans hy')]

/-- What is of one address stays so while directories grow. -/
theorem SameEntity.mono (h : ∀ {a e}, s.entities.get? a = some e → s₁.entities.get? a = some e)
    (h' : ∀ {a e}, s'.entities.get? a = some e → s₁'.entities.get? a = some e) {e e' : EntityId}
    (he : s.SameEntity s' e e') : s₁.SameEntity s₁' e e' := by
  obtain ⟨a, x, x', hx, hx', hid⟩ := he
  exact ⟨a, x, x', h hx, h' hx', hid⟩

theorem sameEntity_congr (h : s₁.entities = s.entities) (h' : s₁'.entities = s'.entities) :
    s₁.SameEntity s₁' = s.SameEntity s' := by
  unfold SameEntity
  rw [h, h']

/-- What fewer domains demand, more domains do. -/
theorem mem_demandsOf_of_subset {ds' : List DomainName} (hsub : ∀ d ∈ ds', d ∈ ds)
    {y : Int64 × SubstateEvent} {q : Demand} (hq : q ∈ demandsOf ds' y) : q ∈ demandsOf ds y := by
  unfold demandsOf at hq ⊢
  split at hq
  · split at hq
    · rename_i hd
      rw [if_pos (hsub _ hd)]
      exact hq
    · cases hq
  · cases hq

/-- Whether ids are those of one address once all addresses that an extension needs are resolved. -/
def SameResolved (config config' : Configuration) (x : LedgerExtension) (s s' : Snapshot) :
    EntityId → EntityId → Prop :=
  (s.idle.prepared config x).working.SameEntity (s'.idle.prepared config' x).working

theorem SameEntity.resolved {e e' : EntityId} (he : s.SameEntity s' e e') :
    SameResolved config config' x s s' e e' :=
  he.mono get?_prepared_of_some get?_prepared_of_some

theorem sameResolved_numbering (hsub : ∀ d ∈ config'.domains.enabled, d ∈ config.domains.enabled) :
    ∀ y ∈ x.events, ∀ q ∈ demandsOf config'.domains.enabled y, SameResolved config config' x s s'
      (s.numbering config x q.1) (s'.numbering config' x q.1) := by
  intro y hy q hq
  have hq₀ := mem_demandsOf_of_subset hsub hq
  obtain ⟨e, he⟩ : ∃ e, (s.idle.prepared config x).working.entities.get? q.1 = some e :=
    World.exists_get?_demandAll (List.mem_flatMap.2 ⟨y, hy, hq₀⟩)
  obtain ⟨e', he'⟩ : ∃ e, (s'.idle.prepared config' x).working.entities.get? q.1 = some e :=
    World.exists_get?_demandAll (List.mem_flatMap.2 ⟨y, hy, hq⟩)
  exact ⟨q.1, e, e', he, he', (Routing.numbering_of_get? he).symm, (Routing.numbering_of_get? he').symm⟩

/-- With fewer domains enabled, an extension needs no more addresses. -/
theorem keys_prepared_subset (hsub : ∀ d ∈ config'.domains.enabled, d ∈ config.domains.enabled)
    (h : ∀ a ∈ s'.entities.keys, a ∈ s.entities.keys) :
    ∀ a ∈ (s'.idle.prepared config' x).working.entities.keys,
      a ∈ (s.idle.prepared config x).working.entities.keys := by
  intro a ha
  rw [World.prepared, World.keys_demandAll, (World.working_advanceAll ..).2] at ha ⊢
  rw [List.mem_append, List.mem_filter, mem_distinctKeys] at ha ⊢
  by_cases hold : a ∈ s.entities.keys
  · exact .inl hold
  · rcases ha with ha | ⟨ha, _⟩
    · exact absurd (h a ha) hold
    · obtain ⟨q, hq, rfl⟩ := List.mem_map.1 ha
      obtain ⟨y, hy, hq⟩ := List.mem_flatMap.1 hq
      refine .inr ⟨List.mem_map_of_mem (List.mem_flatMap.2 ⟨y, hy, mem_demandsOf_of_subset hsub hq⟩), ?_⟩
      simpa using show q.1 ∉ s.idle.working.entities.keys from hold

/-! ## Ids -/

/-- Whether the ids of the new rows stand for those that the same rows get in another state. -/
def NewIdsAlike (P : String → Int64 → Int64 → Prop) (s s' : Snapshot) (config : Configuration)
    (bss : List (List Batch)) : Prop :=
  ∀ t ∈ config.domains.tables, List.Forall₂ (P t.name)
    (idsFrom (s.nextIds t.name) (rowCount bss.flatten t.name))
    (idsFrom (s'.nextIds t.name) (rowCount bss.flatten t.name))

theorem mem_tables_of_mem {d : DomainName} (hd : d ∈ config.domains.enabled) {t : Table}
    (ht : t ∈ d.tables) : t ∈ config.domains.tables :=
  List.mem_flatMap.2 ⟨d, hd, ht⟩

theorem NewIdsAlike.numbers (hnew : NewIdsAlike P s s' config' bss)
    (hout : outcomes s B config x = .ok bss) {k : ListKind}
    (hk : k.domain.name ∈ config.domains.enabled) (hk' : k.domain.name ∈ config'.domains.enabled)
    {R : NewRows k.domain} (hR : k.made (B k) s.nextIds (s.numbering config x) x.events = .ok R)
    (E : EntityId → EntityId → Prop) :
    (k.likeness E P).Numbers (k.domain.firstIds s.nextIds) (k.domain.firstIds s'.nextIds) R := by
  obtain ⟨bs, hbs, hd⟩ := exists_outcome hout hk
  rw [k.outcome_name, hR] at hd
  cases hd
  have hcount : ∀ b ∈ k.batchesOf R, rowCount bss.flatten b.table.name = b.rows.length := fun b hb =>
    rowCount_of_mem (nodup_outcomes hout) (List.mem_flatten.2 ⟨_, hbs, hb⟩)
  obtain ⟨he, ha, hv⟩ := k.mem_tables
  have hids : ∀ b ∈ k.batchesOf R, b.table ∈ k.domain.name.tables →
      List.Forall₂ (P b.table.name) (idsFrom (s.nextIds b.table.name) b.rows.length)
        (idsFrom (s'.nextIds b.table.name) b.rows.length) := by
    intro b hb ht
    rw [← hcount b hb]
    exact hnew _ (mem_tables_of_mem hk' ht)
  have hentry := hids _ (k.mem_batchesOf.2 (.inl rfl)) he
  have haggregate := hids _ (k.mem_batchesOf.2 (.inr (.inl rfl))) ha
  simp only [Batch.ofRows, List.length_map] at hentry haggregate
  refine ⟨hentry, haggregate, ?_⟩
  rcases ht : k.domain.singletonTable with _ | t
  · rw [ListKind.singletons_eq_nil ht R.singletons]
    exact .nil
  · have hsingleton := hids _ (k.mem_batchesOf.2 (.inr (.inr ⟨t, ht, rfl⟩))) (hv t ht)
    simp only [Batch.ofRows, List.length_map] at hsingleton
    have hfirst : ∀ start : String → Int64,
        (k.domain.firstIds start).singleton = start t.table.name := fun start => by
      simp [ListDomain.firstIds, ht]
    rw [hfirst, hfirst]
    refine hsingleton.imp fun i j hij u hu => ?_
    cases ht.symm.trans hu
    exact hij

theorem NewIdsAlike.plain (hnew : NewIdsAlike P s s' config' bss)
    (hout : outcomes s B config x = .ok bss) {k : PlainKind}
    (hk : k.domain.name ∈ config.domains.enabled) (hk' : k.domain.name ∈ config'.domains.enabled)
    {E : EntityId → EntityId → Prop} (hE : ∀ y ∈ x.events, ∀ q ∈ demandsOf config'.domains.enabled y,
      E (s.numbering config x q.1) (s'.numbering config' x q.1)) :
    List.Forall₂ (HistoryRow.Alike E (P k.domain.table.name) (· = ·))
      (k.made s.nextIds (s.numbering config x) x.events)
      (k.made s'.nextIds (s'.numbering config' x) x.events) := by
  obtain ⟨bs, hbs, hd⟩ := exists_outcome hout hk
  rw [k.outcome_name] at hd
  cases hd
  have hids := hnew _ (mem_tables_of_mem hk' k.mem_tables)
  have hcount := rowCount_of_mem (nodup_outcomes hout)
    (List.mem_flatten.2 ⟨_, hbs, List.mem_singleton_self _⟩)
  simp only [Batch.ofRows, List.length_map] at hcount
  rw [hcount] at hids
  exact PlainKind.alike_made hE hk' hids

/-! ## One invocation -/

/-- What is recalled of a state is recalled alike of the one that mirrors it. -/
theorem Mirrors.exists_recalls (hs' : s'.Sound n') (hm : Mirrors ds P s C H s' C' H')
    {E : EntityId → EntityId → Prop} (hE : Relator.BiUnique E)
    (hsame : ∀ e e', s.SameEntity s' e e' → E e e') (hP : ∀ name i j, P name i j → P' name i j)
    (hP' : ∀ name, KeepsOrder (P' name)) (hB : ∀ k, (C k).Ranks (B k)) :
    ∃ B' : Chronicles, (∀ k, (C' k).Ranks (B' k))
      ∧ ∀ k, k.domain.name ∈ ds → (B k).Alike (k.likeness E P') (B' k) := by
  obtain ⟨R, hR, _⟩ := hm.stored'.recalls hs'.keyed
  have hall : ∀ k : ListKind, ∃ B', (C' k).Ranks B'
      ∧ (k.domain.name ∈ ds → (B k).Alike (k.likeness E P') B') := by
    intro k
    by_cases hk : k.domain.name ∈ ds
    · obtain ⟨B', hB', halike⟩ := ((hm.lists k hk).mono hsame hP).exists_ranks
        (k.lawful_likeness hE hP') (hB k)
      exact ⟨B', hB', fun _ => halike⟩
    · exact ⟨R k, hR k, fun h => absurd h hk⟩
  choose B' hB' using hall
  exact ⟨B', fun k => (hB' k).1, fun k => (hB' k).2⟩

section Step

variable (hs : s.Sound n) (hs' : s'.Sound n') (hroom : n + (1 + 2 * x.eventCount) < 2 ^ 63)
  (hroom' : n' + (1 + 2 * x.eventCount) < 2 ^ 63) (hm : Mirrors ds P s C H s' C' H')
  (hsub : ∀ d ∈ config'.domains.enabled, d ∈ ds ∧ d ∈ config.domains.enabled)
  (hB : ∀ k, (C k).Ranks (B k)) (ha : s.Admits B config x) (hout : outcomes s B config x = .ok bss)
  (hP : ∀ name i j, P name i j → P' name i j) (hP' : ∀ name, KeepsOrder (P' name))
  (hnew : NewIdsAlike P' s s' config' bss)

include hs hs' hroom hroom' hm hsub hB ha hout hP hP' hnew

/-- What a state admits is admitted alike by the one that mirrors it. -/
theorem Mirrors.admits : ∃ B' : Chronicles, (∀ k, (C' k).Ranks (B' k)) ∧ s'.Admits B' config' x
    ∧ (∀ k : ListKind, k.domain.name ∈ config'.domains.enabled → (s.gains B config x k).Alike
      (k.likeness (SameResolved config config' x s s') P') (s'.gains B' config' x k))
    ∧ ∀ k : PlainKind, k.domain.name ∈ config'.domains.enabled → List.Forall₂
      (HistoryRow.Alike (SameResolved config config' x s s') (P' k.domain.table.name) (· = ·))
      (s.plainGains config x k) (s'.plainGains config' x k) := by
  have hE : Relator.BiUnique (SameResolved config config' x s s') :=
    biUnique_sameEntity (hs.prepared config hroom).numbered (hs'.prepared config' hroom').numbered
  have hnumbers : ∀ y ∈ x.events, ∀ q ∈ demandsOf config'.domains.enabled y,
      SameResolved config config' x s s' (s.numbering config x q.1) (s'.numbering config' x q.1) :=
    sameResolved_numbering fun d hd => (hsub d hd).2
  obtain ⟨B', hB', halike⟩ := hm.exists_recalls hs' hE (fun _ _ he => he.resolved) hP hP' hB
  have hmade : ∀ k : ListKind, k.domain.name ∈ config'.domains.enabled →
      ∃ R R' : NewRows k.domain, k.made (B k) s.nextIds (s.numbering config x) x.events = .ok R
        ∧ k.Storable R ∧ k.made (B' k) s'.nextIds (s'.numbering config' x) x.events = .ok R'
        ∧ R.Alike (k.likeness (SameResolved config config' x s s') P') R' := by
    intro k hk
    obtain ⟨hds, hk₀⟩ := hsub _ hk
    obtain ⟨R, hR, hstorable⟩ := ha.lists k hk₀
    obtain ⟨R', hR', hrows⟩ := ListKind.alike_made hnumbers hE hP' hk (halike k hds)
      (hnew.numbers hout hk₀ hk hR _) hR
    exact ⟨R, R', hR, hstorable, hR', hrows⟩
  have hplain := fun (k : PlainKind) (hk : k.domain.name ∈ config'.domains.enabled) =>
    hnew.plain hout (hsub _ hk).2 hk hnumbers
  refine ⟨B', hB', ⟨fun y hy => ?_, fun k hk => ?_, fun k hk y hy => ?_⟩, fun k hk => ?_,
    fun k hk => ?_⟩
  · obtain ⟨d, hd, hglobal⟩ := ha.routable y hy
    exact ⟨d, hd, fun h => hglobal (hsub d h).2⟩
  · obtain ⟨R, R', _, hstorable, hR', hrows⟩ := hmade k hk
    exact ⟨R', hR', k.storable_of_alike hrows hstorable⟩
  · obtain ⟨z, hz, hzy⟩ := exists_of_forall₂ (hplain k hk) hy
    exact (ha.plain k (hsub _ hk).2 z hz).congr (k.sameShape_encode hzy.change)
  · obtain ⟨R, R', hR, _, hR', hrows⟩ := hmade k hk
    rw [gains, gains, if_pos hk, if_pos (hsub _ hk).2, hR, hR']
    exact k.alike_rereadRows hrows
  · rw [plainGains, plainGains, if_pos hk, if_pos (hsub _ hk).2, List.forall₂_map_left_iff,
      List.forall₂_map_right_iff]
    exact (hplain k hk).imp fun _ _ hy => ⟨hy.id, hy.key, congrArg k.reread hy.change⟩

/-- A calm invocation that is recorded in a state is recorded in the one that mirrors it, and the two
states that it leads to mirror each other. -/
theorem Mirrors.step (hg : s.Gained n config x bss s₁) (hx : x.isEmpty = false)
    (hds : ∀ d ∈ ds, d ∈ config.domains.enabled → d ∈ config'.domains.enabled) :
    ∃ report w' B' bss', (recordExtension config' x).calm s'.idle = (.ok report, w')
      ∧ outcomes s' B' config' x = .ok bss' ∧ s'.Gained n' config' x bss' w'.committed
      ∧ ∃ C₁ H₁ C₁' H₁', Mirrors ds P' s₁ C₁ H₁ w'.committed C₁' H₁' := by
  obtain ⟨B', hB', hadmits, hlists, hplains⟩ :=
    hm.admits hs hs' hroom hroom' hsub hB ha hout hP hP' hnew
  have hrecalls : s'.Recalls B' := fun k =>
    ⟨C' k, hm.stored'.holds k, hB' k, hm.stored'.bare k⟩
  obtain ⟨report, w', hcalm⟩ := (calm_recordExtension_isOk_iff hs' hrecalls hroom' hx).2 hadmits
  obtain ⟨bss', hout', hg'⟩ := gained_of_calm hs' hrecalls hroom' hx hcalm
  have hsame : s₁.SameEntity w'.committed = SameResolved config config' x s s' :=
    sameEntity_congr hg.entities hg'.entities
  have hmono : ∀ e e', s.SameEntity s' e e' → s₁.SameEntity w'.committed e e' := fun e e' he => by
    rw [hsame]
    exact he.resolved
  refine ⟨report, w', B', bss', hcalm, hout', hg', _, _, _, _, hm.stored.gained hs hroom hB hout hg,
    hm.stored'.gained hs' hroom' hB' hout' hg', hP', fun k hk => ?_, fun k hk => ?_⟩
  · refine ((hm.lists k hk).mono hmono hP).append ?_
    by_cases hk' : k.domain.name ∈ config'.domains.enabled
    · rw [hsame]
      exact hlists k hk'
    · rw [gains, gains, if_neg hk', if_neg fun h => hk' (hds _ hk h)]
      exact NewRows.alike_empty
  · refine List.rel_append ((hm.plain k hk).imp fun _ _ hy => hy.mono hmono (hP _) fun _ _ hc => hc) ?_
    by_cases hk' : k.domain.name ∈ config'.domains.enabled
    · rw [hsame]
      exact hplains k hk'
    · rw [plainGains, plainGains, if_neg hk', if_neg fun h => hk' (hds _ hk h)]
      exact .nil

end Step

/-! ## What mirrored rows come to -/

/-- Whether the rows of two states, in some domains, are the same once entities are told by their
addresses and the ids of rows by those that stand for them. -/
structure Resembles (ds : List DomainName) (P : String → Int64 → Int64 → Prop) (s s' : Snapshot) :
    Prop where
  lists (k : ListKind) (hk : k.domain.name ∈ ds) : ∃ C C' : NewRows k.domain,
    s.Holds k C ∧ s'.Holds k C' ∧ C.Alike (k.likeness (s.SameEntity s') P) C'
  plain (k : PlainKind) (hk : k.domain.name ∈ ds) : ∃ xs ys : List (HistoryRow k.domain.Change),
    s.rows k.domain.table.name = xs.map k.domain.encode
    ∧ s'.rows k.domain.table.name = ys.map k.domain.encode
    ∧ List.Forall₂ (HistoryRow.Alike (s.SameEntity s') (P k.domain.table.name) (· = ·)) xs ys

theorem Mirrors.resembles (hm : Mirrors ds P s C H s' C' H') (hP : ∀ name i j, P name i j → P' name i j) :
    s.Resembles ds P' s' where
  lists k hk := ⟨C k, C' k, hm.stored.holds k, hm.stored'.holds k,
    (hm.lists k hk).mono (fun _ _ he => he) hP⟩
  plain k hk := ⟨H k, H' k, hm.stored.plain k, hm.stored'.plain k,
    (hm.plain k hk).imp fun _ _ hx => hx.mono (fun _ _ he => he) (hP _) fun _ _ hc => hc⟩

/-- The ids of a table stand for each other in order. -/
theorem Mirrors.forall₂_ids (hs : s.Keyed) (hs' : s'.Keyed) (hm : Mirrors ds P s C H s' C' H')
    {d : DomainName} (hd : d ∈ ds) {t : Table} (ht : t ∈ d.tables) :
    List.Forall₂ (P t.name) (s.table t.name).ids (s'.table t.name).ids := by
  have halike : ∀ {α : Type} {xs ys : List α} {encode : α → Row} {id : α → Int64}
      {Q : Int64 → Int64 → Prop}, (∀ x, Row.at (encode x) 0 = .int8 (id x)) →
      s.rows t.name = xs.map encode → s'.rows t.name = ys.map encode →
      List.Forall₂ (fun x y => Q (id x) (id y)) xs ys →
      List.Forall₂ Q (s.table t.name).ids (s'.table t.name).ids := by
    intro α xs ys encode id Q hat hx hy h
    rw [hs.ids_eq id hat hx, hs'.ids_eq id hat hy, List.forall₂_map_left_iff,
      List.forall₂_map_right_iff]
    exact h
  rcases d.eq_name with ⟨k, rfl⟩ | ⟨k, rfl⟩
  · have hheld := hm.stored.holds k
    have hheld' := hm.stored'.holds k
    have hrows := hm.lists k hd
    rw [k.tables_name, ListDomain.tables, List.mem_append, List.mem_pair] at ht
    rcases ht with (rfl | rfl) | ht
    · exact halike k.at_encodeEntry hheld.entries hheld'.entries (hrows.entries.imp fun _ _ h => h.id)
    · exact halike (fun _ => rfl) hheld.aggregates hheld'.aggregates
        (hrows.aggregates.imp fun _ _ h => h.id)
    · rw [Option.mem_toList, Option.map_eq_some_iff] at ht
      obtain ⟨u, hu, rfl⟩ := ht
      exact halike (ListKind.at_encodeSingleton hu) (hheld.singletons hu) (hheld'.singletons hu)
        (hrows.singletons.imp fun _ _ h => h.id u hu)
  · have htable : k.domain.name.tables = [k.domain.table] := by cases k <;> rfl
    rw [htable, List.mem_singleton] at ht
    cases ht
    exact halike k.at_encode (hm.stored.plain k) (hm.stored'.plain k)
      ((hm.plain k hd).imp fun _ _ h => h.id)

end Snapshot

/-! ## Runs -/

/-- Records extensions one after another, whether they are recorded or not. -/
def Session.runAll (t : Session) :
    History → List (Except InvocationError InvocationReport) × Session
  | [] => ([], t)
  | (config, x) :: h =>
    let (r, t') := t.run (recordExtension config x)
    let (rs, t'') := t'.runAll h
    (r :: rs, t'')

def AllRecorded (rs : List (Except InvocationError InvocationReport)) : Prop :=
  ∀ r ∈ rs, ∃ report, r = .ok report

namespace Session

variable {t : Session} {config : Configuration} {x : LedgerExtension} {h : History}

theorem runAll_cons : t.runAll ((config, x) :: h)
    = ((t.run (recordExtension config x)).1 :: ((t.run (recordExtension config x)).2.runAll h).1,
      ((t.run (recordExtension config x)).2.runAll h).2) := rfl

theorem runAll_concat : t.runAll (h ++ [(config, x)])
    = ((t.runAll h).1 ++ [((t.runAll h).2.run (recordExtension config x)).1],
      ((t.runAll h).2.run (recordExtension config x)).2) := by
  induction h generalizing t with
  | nil => rfl
  | cons p h ih => rw [List.cons_append, runAll_cons, ih, runAll_cons, List.cons_append]

theorem isCalm_runAll (ht : t.IsCalm) (h : History) : (t.runAll h).2.IsCalm := by
  induction h generalizing t with
  | nil => exact ht
  | cons p h ih => exact ih (isCalm_run _ ht)

/-- In a calm session an invocation ends as its calm run does. -/
theorem run_eq_of_calm (ht : t.IsCalm) {r : Except InvocationError InvocationReport} {w : World}
    (hcalm : (recordExtension config x).calm t.store.committed.idle = (r, w)) :
    (t.run (recordExtension config x)).1 = r
      ∧ (t.run (recordExtension config x)).2.store.committed = w.committed := by
  rw [run_recordExtension ht, committed_recordExtension ht, hcalm]
  exact ⟨rfl, rfl⟩

/-- What a calm run records next, the session does. -/
theorem runAll_concat_of_calm (ht : t.IsCalm) (hall : AllRecorded (t.runAll h).1)
    {report : InvocationReport} {w : World}
    (hcalm : (recordExtension config x).calm (t.runAll h).2.store.committed.idle = (.ok report, w)) :
    AllRecorded (t.runAll (h ++ [(config, x)])).1
      ∧ (t.runAll (h ++ [(config, x)])).2.store.committed = w.committed := by
  obtain ⟨hr, hw⟩ := run_eq_of_calm (isCalm_runAll ht h) hcalm
  rw [runAll_concat, hr]
  refine ⟨fun r hmem => ?_, hw⟩
  rcases List.mem_append.1 hmem with hmem | hmem
  · exact hall r hmem
  · exact ⟨report, List.mem_singleton.1 hmem⟩

end Session

end LedgerHistory
