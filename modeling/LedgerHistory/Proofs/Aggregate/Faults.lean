import LedgerHistory.Proofs.Aggregate.Chronicle

/-!
# Groups at fault

A group is at fault when the most recent aggregate of its entity is of its version, or has no
singleton to carry on where one is needed (`NewRows.fault?_eq_none_iff`). Groups in the order of their
versions make their rows when the first group of no entity is at fault
(`NewRows.rowsAfter_isOk_iff_first`). Where none is older than the chronicle, that means that no group
has an aggregate already and the first group of each new entity brings the singleton that is needed
(`NewRows.rowsAfter_isOk_iff`).
-/

namespace LedgerHistory

variable {d : ListDomain}

theorem eq_of_le_of_le {a b : Int64} (h : a ≤ b) (h' : b ≤ a) : a = b := by
  rw [Int64.le_iff_toInt_le] at h h'
  rw [← Int64.toInt_inj]
  omega

namespace NewRows

/-- Whether the aggregates of a chronicle are no more recent than a version. -/
def Until (C : NewRows d) (v : Int64) : Prop := ∀ a ∈ C.aggregates, a.stateVersion ≤ v

/-- Whether the aggregates of a chronicle stand in the order of their versions and have the
singletons that they need. -/
structure Settled (C : NewRows d) : Prop where
  versions : C.aggregates.Pairwise (·.stateVersion ≤ ·.stateVersion)
  present (h : d.aggregateSchema.singletonColumn.isSome) : ∀ a ∈ C.aggregates, a.singleton.isSome

variable {C : NewRows d} {ids : FirstIds} {g : d.Group} {e : EntityId} {v : Int64}

/-- No aggregate of an entity is more recent than its last one. -/
theorem latest?_of_mem (ho : C.aggregates.Pairwise (·.stateVersion ≤ ·.stateVersion)) {a : Aggregate}
    (ha : a ∈ C.aggregates) :
    ∃ b, C.latest? a.entity = some b ∧ a.stateVersion ≤ b.stateVersion := by
  have hm : a ∈ C.aggregates.filter (·.entity = a.entity) := List.mem_filter.2 ⟨ha, by simp⟩
  rcases hb : C.latest? a.entity with _ | b
  · have hnil : C.aggregates.filter (·.entity = a.entity) = [] := List.getLast?_eq_none_iff.1 hb
    rw [hnil] at hm
    cases hm
  · refine ⟨b, rfl, ?_⟩
    obtain ⟨xs, hxs⟩ := List.getLast?_eq_some_iff.1 (show (C.aggregates.filter
      (·.entity = a.entity)).getLast? = some b from hb)
    rw [hxs] at hm
    have hp := List.Pairwise.sublist (List.filter_sublist (p := (·.entity = a.entity))) ho
    rw [hxs] at hp
    rcases List.mem_append.1 hm with hm | hm
    · exact (List.pairwise_append.1 hp).2.2 a hm b List.mem_cons_self
    · rw [List.mem_singleton.1 hm]
      exact Int64.le_refl _

theorem mem_of_latest? {a : Aggregate} (h : C.latest? e = some a) : a ∈ C.aggregates ∧ a.entity = e :=
  key_of_lastWith h

/-- What it takes for a group not to be at fault: the most recent aggregate of its entity is of another
version, and has the singleton that is needed if the group brings none. -/
theorem fault?_eq_none_iff : C.fault? g = none
    ↔ (g.2.singletons = [] ∨ d.singletonTable.isSome)
      ∧ (∀ a, C.latest? g.1.entity = some a → a.stateVersion ≠ g.1.stateVersion)
      ∧ (d.aggregateSchema.singletonColumn.isSome → g.2.singletons ≠ []
        ∨ ∃ a, C.latest? g.1.entity = some a ∧ a.singleton.isSome) := by
  have htable : (!g.2.singletons.isEmpty && d.singletonTable.isNone) = true
      ↔ ¬(g.2.singletons = [] ∨ d.singletonTable.isSome) := by
    simp
  have hpersisted : (C.latest? g.1.entity).any (·.stateVersion = g.1.stateVersion) = true
      ↔ ¬∀ a, C.latest? g.1.entity = some a → a.stateVersion ≠ g.1.stateVersion := by
    rcases C.latest? g.1.entity with _ | a <;> simp
  have hsingleton : (d.aggregateSchema.singletonColumn.isSome && g.2.singletons.isEmpty
      && ((C.latest? g.1.entity).bind (·.singleton)).isNone) = true
      ↔ ¬(d.aggregateSchema.singletonColumn.isSome → g.2.singletons ≠ []
        ∨ ∃ a, C.latest? g.1.entity = some a ∧ a.singleton.isSome) := by
    rcases C.latest? g.1.entity with _ | a <;> simp [and_assoc]
  unfold fault?
  split
  · rename_i hs
    exact ⟨nofun, fun hn => absurd hn.1 (htable.1 hs)⟩
  rename_i hs
  split
  · rename_i hp
    exact ⟨nofun, fun hn => absurd hn.2.1 (hpersisted.1 hp)⟩
  rename_i hp
  split
  · rename_i hc
    exact ⟨nofun, fun hn => absurd hn.2.2 (hsingleton.1 hc)⟩
  · rename_i hc
    rw [htable, not_not] at hs
    rw [hpersisted, not_not] at hp
    rw [hsingleton, not_not] at hc
    exact ⟨fun _ => ⟨hs, hp, hc⟩, fun _ => rfl⟩

/-- In a settled chronicle that is no more recent the aggregates of the entity tell it. -/
theorem fault?_eq_none_iff_of_until (h : C.Settled) (hv : C.Until g.1.stateVersion) :
    C.fault? g = none ↔ (g.2.singletons = [] ∨ d.singletonTable.isSome)
      ∧ g.1 ∉ C.aggregates.map Aggregate.groupKey
      ∧ (d.aggregateSchema.singletonColumn.isSome →
        g.2.singletons ≠ [] ∨ ∃ a ∈ C.aggregates, a.entity = g.1.entity) := by
  have hpersisted : (∀ a, C.latest? g.1.entity = some a → a.stateVersion ≠ g.1.stateVersion)
      ↔ g.1 ∉ C.aggregates.map Aggregate.groupKey := by
    constructor
    · intro hall hm
      obtain ⟨a, ha, hkey⟩ := List.mem_map.1 hm
      obtain ⟨b, hb, hle⟩ := latest?_of_mem h.versions ha
      have hent : a.entity = g.1.entity := congrArg GroupKey.entity hkey
      have hver : a.stateVersion = g.1.stateVersion := congrArg GroupKey.stateVersion hkey
      rw [hent] at hb
      rw [hver] at hle
      exact hall b hb (eq_of_le_of_le (hv b (mem_of_latest? hb).1) hle)
    · intro hn a ha hver
      obtain ⟨hm, he⟩ := mem_of_latest? ha
      exact hn (List.mem_map.2 ⟨a, hm, by rw [Aggregate.groupKey, he, hver]⟩)
  have hpresent : d.aggregateSchema.singletonColumn.isSome →
      ((∃ a, C.latest? g.1.entity = some a ∧ a.singleton.isSome)
        ↔ ∃ a ∈ C.aggregates, a.entity = g.1.entity) := by
    intro hc
    constructor
    · rintro ⟨a, ha, _⟩
      exact ⟨a, mem_of_latest? ha⟩
    · rintro ⟨a, ha, he⟩
      obtain ⟨b, hb, _⟩ := latest?_of_mem h.versions ha
      exact ⟨b, he ▸ hb, h.present hc b (mem_of_latest? hb).1⟩
  rw [fault?_eq_none_iff, hpersisted]
  exact and_congr_right fun _ => and_congr_right fun _ => forall_congr' fun hc =>
    or_congr_right (hpresent hc)

/-- The keys of the aggregates once a group has made its rows. -/
theorem groupKeys_rowsOf (C : NewRows d) (ids : FirstIds) (g : d.Group) :
    (C ++ C.rowsOf ids g).aggregates.map Aggregate.groupKey
      = C.aggregates.map Aggregate.groupKey ++ [g.1] := by
  rw [aggregates_append, List.map_append, (tells_rowsOf ..).aggregates]
  rfl

/-! ## Groups in order -/

/-- Whether no group of an entity is older than one. -/
def IsFirst (gs : List d.Group) (g : d.Group) : Prop :=
  ∀ g' ∈ gs, g'.1.entity = g.1.entity → g.1.stateVersion ≤ g'.1.stateVersion

theorem latest?_rowsOf (C : NewRows d) (ids : FirstIds) (g : d.Group) (e : EntityId) :
    (C ++ C.rowsOf ids g).latest? e
      = if g.1.entity = e then (C.rowsOf ids g).aggregates.head? else C.latest? e :=
  lastWith_concat ..

/-- Whether a group is at fault depends on the rows of its entity alone. -/
theorem fault?_rowsOf_of_ne {g' : d.Group} (he : g.1.entity ≠ g'.1.entity) :
    (C ++ C.rowsOf ids g).fault? g' = C.fault? g' := by
  unfold fault?
  rw [latest?_rowsOf, if_neg he]

/-- The aggregate of a group that is not at fault has the singleton that is needed. -/
theorem isSome_singleton_rowsOf (hf : C.fault? g = none)
    (hc : d.aggregateSchema.singletonColumn.isSome) :
    ∀ a ∈ (C.rowsOf ids g).aggregates, a.singleton.isSome := by
  intro a ha
  rw [List.mem_singleton.1 ha]
  show (Option.or _ _).isSome = true
  rw [Option.isSome_or, Bool.or_eq_true, ← Option.not_isNone, isNone_last]
  rcases (fault?_eq_none_iff.1 hf).2.2 hc with hne | ⟨b, hb, hs⟩
  · exact .inl (by simpa using hne)
  · exact .inr (by rw [hb]; exact hs)

/-- Behind a group of the same entity and another version that was not at fault none is. -/
theorem fault?_rowsOf_of_eq {g' : d.Group} (hf : C.fault? g = none)
    (he : g.1.entity = g'.1.entity) (hv : g.1.stateVersion ≠ g'.1.stateVersion)
    (ht : g'.2.singletons = [] ∨ d.singletonTable.isSome) :
    (C ++ C.rowsOf ids g).fault? g' = none := by
  rw [fault?_eq_none_iff, latest?_rowsOf, if_pos he]
  refine ⟨ht, fun a ha => ?_, fun hc => .inr ⟨_, rfl, ?_⟩⟩
  · cases ha
    exact hv
  · exact isSome_singleton_rowsOf hf hc _ List.mem_cons_self

/-- Groups in the order of their versions make their rows if and only if the first group of no entity
is at fault. -/
theorem rowsAfter_isOk_iff_first {gs : List d.Group}
    (hgs : gs.Pairwise fun g g' => g.1.stateVersion ≤ g'.1.stateVersion)
    (hnd : (gs.map (·.1)).Nodup) (ht : ∀ g ∈ gs, g.2.singletons = [] ∨ d.singletonTable.isSome) :
    (∃ R, C.rowsAfter ids gs = .ok R) ↔ ∀ g ∈ gs, IsFirst gs g → C.fault? g = none := by
  induction gs generalizing C ids with
  | nil => exact ⟨fun _ => nofun, fun _ => ⟨_, rfl⟩⟩
  | cons g gs ih =>
    obtain ⟨hle, hgs⟩ := List.pairwise_cons.1 hgs
    obtain ⟨hg, hnd⟩ := List.nodup_cons.1 hnd
    have hne : ∀ g' ∈ gs, g.1.entity = g'.1.entity → g.1.stateVersion ≠ g'.1.stateVersion := by
      intro g' hg' he hv
      exact hg (List.mem_map.2 ⟨g', hg', GroupKey.mk.injEq .. ▸ ⟨he.symm, hv.symm⟩⟩)
    have hfirst : IsFirst (g :: gs) g := fun g' hg' _ => by
      rcases List.mem_cons.1 hg' with rfl | hg'
      · exact Int64.le_refl _
      · exact hle g' hg'
    have ih : ∀ (C : NewRows d) (ids : FirstIds), (∃ R, C.rowsAfter ids gs = .ok R)
        ↔ ∀ g' ∈ gs, IsFirst gs g' → C.fault? g' = none := fun C ids =>
      ih hgs hnd fun g' hg' => ht g' (List.mem_cons_of_mem g hg')
    constructor
    · rintro ⟨R, hR⟩ g' hg' hmin
      obtain ⟨hf, R', hR', _⟩ := rowsAfter_cons_eq_ok.1 hR
      rcases List.mem_cons.1 hg' with rfl | hg'
      · exact hf
      · -- the first group of its entity is not the later of two
        have he : g.1.entity ≠ g'.1.entity := fun he =>
          hne g' hg' he (eq_of_le_of_le (hle g' hg') (hmin g List.mem_cons_self he))
        rw [← fault?_rowsOf_of_ne he]
        exact (ih _ _).1 ⟨R', hR'⟩ g' hg' fun g'' hg'' => hmin g'' (List.mem_cons_of_mem g hg'')
    · intro hall
      have hf := hall g List.mem_cons_self hfirst
      obtain ⟨R', hR'⟩ := (ih (C ++ C.rowsOf ids g) (ids.after (C.rowsOf ids g))).2
        fun g' hg' hmin => by
          by_cases he : g.1.entity = g'.1.entity
          · exact fault?_rowsOf_of_eq hf he (hne g' hg' he) (ht g' (List.mem_cons_of_mem g hg'))
          · rw [fault?_rowsOf_of_ne he]
            refine hall g' (List.mem_cons_of_mem g hg') fun g'' hg'' he' => ?_
            rcases List.mem_cons.1 hg'' with rfl | hg''
            · exact absurd he' he
            · exact hmin g'' hg'' he'
      exact ⟨_, rowsAfter_cons_eq_ok.2 ⟨hf, R', hR', rfl⟩⟩

/-- Whether groups find no aggregate of theirs, and every entity without aggregates gets the
singleton that it needs in its first group. -/
structure Admits (C : NewRows d) (gs : List d.Group) : Prop where
  fresh : ∀ g ∈ gs, g.1 ∉ C.aggregates.map Aggregate.groupKey
  founded (hc : d.aggregateSchema.singletonColumn.isSome) : ∀ g ∈ gs,
    (∀ a ∈ C.aggregates, a.entity ≠ g.1.entity) → IsFirst gs g → g.2.singletons ≠ []

/-- Later groups are admitted behind others as they are where these have aggregates. -/
theorem admits_append_iff {C' : NewRows d} {gs gs' : List d.Group}
    (hlt : ∀ g ∈ gs, ∀ g' ∈ gs', g.1.stateVersion < g'.1.stateVersion)
    (hkeys : C'.aggregates.map Aggregate.groupKey
      = C.aggregates.map Aggregate.groupKey ++ gs.map (·.1)) :
    C.Admits (gs ++ gs') ↔ C.Admits gs ∧ C'.Admits gs' := by
  have hentity : ∀ e, (∀ a ∈ C'.aggregates, a.entity ≠ e)
      ↔ (∀ a ∈ C.aggregates, a.entity ≠ e) ∧ ∀ g ∈ gs, g.1.entity ≠ e := by
    intro e
    have hkey : ∀ B : NewRows d, (∀ a ∈ B.aggregates, a.entity ≠ e)
        ↔ ∀ key ∈ B.aggregates.map Aggregate.groupKey, key.entity ≠ e := fun B => by
      rw [List.forall_mem_map]
      rfl
    rw [hkey, hkeys, List.forall_mem_append, ← hkey, List.forall_mem_map]
  constructor
  · intro h
    refine ⟨⟨fun g hg => h.fresh g (List.mem_append_left gs' hg), fun hc g hg hnone hfirst => ?_⟩,
      ⟨fun g' hg' hm => ?_, fun hc g' hg' hnone hfirst => ?_⟩⟩
    · refine h.founded hc g (List.mem_append_left gs' hg) hnone fun g' hg' he => ?_
      rcases List.mem_append.1 hg' with hg' | hg'
      · exact hfirst g' hg' he
      · exact Int64.le_of_lt (hlt g hg g' hg')
    · rw [hkeys, List.mem_append] at hm
      rcases hm with hm | hm
      · exact h.fresh g' (List.mem_append_right gs hg') hm
      · obtain ⟨g, hg, he⟩ := List.mem_map.1 hm
        have hver := hlt g hg g' hg'
        rw [he] at hver
        exact Int64.lt_irrefl hver
    · obtain ⟨hnone, hgs⟩ := (hentity _).1 hnone
      refine h.founded hc g' (List.mem_append_right gs hg') hnone fun g hg he => ?_
      rcases List.mem_append.1 hg with hg | hg
      · exact absurd he (hgs g hg)
      · exact hfirst g hg he
  · rintro ⟨h, h'⟩
    refine ⟨fun g hg hm => ?_, fun hc g hg hnone hfirst => ?_⟩
    · rcases List.mem_append.1 hg with hg | hg
      · exact h.fresh g hg hm
      · refine h'.fresh g hg ?_
        rw [hkeys]
        exact List.mem_append_left _ hm
    · rcases List.mem_append.1 hg with hg | hg
      · exact h.founded hc g hg hnone fun g' hg' => hfirst g' (List.mem_append_left gs' hg')
      · refine h'.founded hc g hg ((hentity _).2 ⟨hnone, fun g' hg' he => ?_⟩)
          fun g' hg' => hfirst g' (List.mem_append_right gs hg')
        -- the first group of its entity stands behind no other
        have hle := hfirst g' (List.mem_append_left _ hg') he
        exact Int64.lt_irrefl (Int64.lt_of_lt_of_le (hlt g' hg' g hg) hle)

/-- Groups no older than a settled chronicle make their rows if and only if it admits them. -/
theorem rowsAfter_isOk_iff {gs : List d.Group} (h : C.Settled)
    (hgs : gs.Pairwise fun g g' => g.1.stateVersion ≤ g'.1.stateVersion)
    (hnd : (gs.map (·.1)).Nodup) (hv : ∀ g ∈ gs, C.Until g.1.stateVersion)
    (ht : ∀ g ∈ gs, g.2.singletons = [] ∨ d.singletonTable.isSome) :
    (∃ R, C.rowsAfter ids gs = .ok R) ↔ C.Admits gs := by
  rw [rowsAfter_isOk_iff_first hgs hnd ht]
  constructor
  · intro hall
    refine ⟨fun g hg hm => ?_, fun hc g hg hnone hfirst => ?_⟩
    · -- an older group of the entity could only be so if the chronicle were more recent than it
      obtain ⟨a, ha, hkey⟩ := List.mem_map.1 hm
      have hfirst : IsFirst gs g := fun g' hg' _ => by
        rw [← hkey]
        exact hv g' hg' a ha
      exact ((fault?_eq_none_iff_of_until h (hv g hg)).1 (hall g hg hfirst)).2.1 hm
    · refine (((fault?_eq_none_iff_of_until h (hv g hg)).1 (hall g hg hfirst)).2.2 hc).resolve_right ?_
      rintro ⟨a, ha, he⟩
      exact hnone a ha he
  · intro hadm g hg hfirst
    refine (fault?_eq_none_iff_of_until h (hv g hg)).2 ⟨ht g hg, hadm.fresh g hg, fun hc => ?_⟩
    by_cases hnone : ∀ a ∈ C.aggregates, a.entity ≠ g.1.entity
    · exact .inl (hadm.founded hc g hg hnone hfirst)
    · push Not at hnone
      exact .inr hnone

end NewRows

end LedgerHistory
