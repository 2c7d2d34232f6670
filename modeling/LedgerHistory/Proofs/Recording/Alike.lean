import LedgerHistory.Proofs.Aggregate.Alike
import LedgerHistory.Proofs.Recording.Stored

/-!
# Alike rows of the domains

Under numberings that stand for each other, events mean changes that differ in ids alone
(`ListKind.alike_visits`). So a domain makes alike rows of them in alike chronicles
(`ListKind.alike_made`), which can be stored alike and are read back alike.
-/

namespace LedgerHistory

/-! ## Changes -/

/-- Whether keys of badges are the same but for the entity. -/
inductive Depositor.Key.Alike (E : EntityId → EntityId → Prop) : Depositor.Key → Depositor.Key → Prop
  | resource {r r' : EntityId} (h : E r r') : Alike E (.resource r) (.resource r')
  | nonFungible {r r' : EntityId} (h : E r r') (localId : String) :
    Alike E (.nonFungible r localId) (.nonFungible r' localId)

namespace Depositor.Key.Alike

variable {E E' : EntityId → EntityId → Prop} {a a' b b' : Depositor.Key}

theorem eq_iff (hE : Relator.BiUnique E) (ha : a.Alike E a') (hb : b.Alike E b') :
    a = b ↔ a' = b' := by
  cases ha with
  | resource hr =>
    cases hb with
    | resource hs => simpa using Relator.rel_eq hE hr hs
    | nonFungible hs j => simp
  | nonFungible hr i =>
    cases hb with
    | resource hs => simp
    | nonFungible hs j =>
      have := Relator.rel_eq hE hr hs
      simp [this]

theorem mono (hE : ∀ e e', E e e' → E' e e') (ha : a.Alike E a') : a.Alike E' a' := by
  cases ha with
  | resource hr => exact .resource (hE _ _ hr)
  | nonFungible hr i => exact .nonFungible (hE _ _ hr) i

end Depositor.Key.Alike

/-- Whether changes are the same but for the entities in them. -/
def ListKind.ChangeAlike (E : EntityId → EntityId → Prop) :
    (k : ListKind) → k.domain.Change → k.domain.Change → Prop
  | .metadata, c, c' => c = c'
  | .roleAssignment, c, c' => c = c'
  | .methodRoyalty, c, c' => c = c'
  | .resourcePreference, c, c' =>
    E (Preference.Change.resource c) (Preference.Change.resource c')
      ∧ Preference.Change.preference c = Preference.Change.preference c'
  | .authorizedDepositor, c, c' =>
    (Depositor.Change.key c).Alike E (Depositor.Change.key c')
      ∧ Depositor.Change.isDeleted c = Depositor.Change.isDeleted c'

/-- Which ids of a domain's rows stand for which, table by table. -/
def ListKind.likeness (E : EntityId → EntityId → Prop) (P : String → Int64 → Int64 → Prop)
    (k : ListKind) : Likeness k.domain where
  entity := E
  change := k.ChangeAlike E
  entry := P k.domain.entryTable.name
  aggregate := P k.domain.aggregateSchema.table.name
  singleton i j := ∀ t, k.domain.singletonTable = some t → P t.table.name i j

section Changes

variable {E E' : EntityId → EntityId → Prop} {P P' : String → Int64 → Int64 → Prop} {k : ListKind}
  {c c' e e' : k.domain.Change} {C C' : NewRows k.domain}

theorem ListKind.ChangeAlike.keyOf_eq_iff (hE : Relator.BiUnique E) (hc : k.ChangeAlike E c c')
    (he : k.ChangeAlike E e e') : k.domain.keyOf c = k.domain.keyOf e
      ↔ k.domain.keyOf c' = k.domain.keyOf e' := by
  cases k with
  | metadata | roleAssignment | methodRoyalty =>
    cases hc
    cases he
    exact Iff.rfl
  | resourcePreference => exact Relator.rel_eq hE hc.1 he.1
  | authorizedDepositor => exact hc.1.eq_iff hE he.1

theorem ListKind.ChangeAlike.isDeletion_eq (hc : k.ChangeAlike E c c') :
    k.domain.isDeletion c = k.domain.isDeletion c' := by
  cases k with
  | metadata | roleAssignment | methodRoyalty =>
    cases hc
    rfl
  | resourcePreference => exact congrArg Option.isNone hc.2
  | authorizedDepositor => exact hc.2

theorem ListKind.lawful_likeness (hE : Relator.BiUnique E) (hP : ∀ name, KeepsOrder (P name))
    (k : ListKind) : (k.likeness E P).Lawful where
  entity := hE
  key := ListKind.ChangeAlike.keyOf_eq_iff hE
  deletion := ListKind.ChangeAlike.isDeletion_eq
  entry := hP _
  aggregate := hP _

theorem ListKind.ChangeAlike.mono (hE : ∀ a b, E a b → E' a b) (h : k.ChangeAlike E c c') :
    k.ChangeAlike E' c c' := by
  cases k with
  | metadata | roleAssignment | methodRoyalty => exact h
  | resourcePreference => exact ⟨hE _ _ h.1, h.2⟩
  | authorizedDepositor => exact ⟨h.1.mono hE, h.2⟩

theorem HistoryRow.Alike.mono {χ : Type} {Q Q' : Int64 → Int64 → Prop} {K K' : χ → χ → Prop}
    (hE : ∀ a b, E a b → E' a b) (hQ : ∀ i j, Q i j → Q' i j) (hK : ∀ c c', K c c' → K' c c')
    {x y : HistoryRow χ} (h : x.Alike E Q K y) : x.Alike E' Q' K' y :=
  ⟨hQ _ _ h.id, ⟨hE _ _ h.key.entity, h.key.stateVersion⟩, hK _ _ h.change⟩

/-- What is alike stays so while more ids stand for each other. -/
theorem NewRows.Alike.mono (hE : ∀ a b, E a b → E' a b) (hP : ∀ name i j, P name i j → P' name i j)
    (h : C.Alike (k.likeness E P) C') : C.Alike (k.likeness E' P') C' := by
  have hsingleton : ∀ i j, (k.likeness E P).singleton i j → (k.likeness E' P').singleton i j :=
    fun i j hij t ht => hP _ i j (hij t ht)
  refine ⟨h.entries.imp fun _ _ hx => hx.mono hE (hP _) fun _ _ hc => hc.mono hE,
    h.aggregates.imp fun a b hab => ?_,
    h.singletons.imp fun _ _ hx => hx.mono hE hsingleton fun _ _ hc => hc⟩
  refine ⟨hP _ _ _ hab.id, ⟨hE _ _ hab.key.entity, hab.key.stateVersion⟩,
    hab.list.imp fun i j hij => hP _ i j hij, ?_⟩
  have hs := hab.singleton
  generalize a.singleton = o at hs ⊢
  generalize b.singleton = o' at hs ⊢
  cases hs with
  | none => exact .none
  | some hij => exact .some (hsingleton _ _ hij)

end Changes

/-! ## Reading back and storing -/

section Rows

variable {E : EntityId → EntityId → Prop} {P : String → Int64 → Int64 → Prop} {k : ListKind}
  {R R' : NewRows k.domain}

theorem ListKind.ChangeAlike.reread {c c' : k.domain.Change} (h : k.ChangeAlike E c c') :
    k.ChangeAlike E (k.reread c) (k.reread c') := by
  cases k with
  | metadata | roleAssignment | methodRoyalty =>
    cases h
    rfl
  | resourcePreference | authorizedDepositor => exact h

theorem ListKind.alike_rereadRows (h : R.Alike (k.likeness E P) R') :
    (k.rereadRows R).Alike (k.likeness E P) (k.rereadRows R') := by
  refine ⟨?_, h.aggregates, ?_⟩ <;> unfold rereadRows <;>
    rw [List.forall₂_map_left_iff, List.forall₂_map_right_iff]
  · exact h.entries.imp fun _ _ hx => ⟨hx.id, hx.key, ListKind.ChangeAlike.reread hx.change⟩
  · exact h.singletons.imp fun _ _ hx => ⟨hx.id, hx.key, congrArg k.rereadSingleton hx.change⟩

theorem ListKind.sameShape_of_alike {x y : k.domain.Entry} (h : k.ChangeAlike E x.change y.change) :
    List.Forall₂ ColumnValue.SameShape (k.domain.encodeEntry x) (k.domain.encodeEntry y) := by
  cases k with
  | metadata | roleAssignment | methodRoyalty => exact sameShape_encodeEntry _ h
  | resourcePreference =>
    obtain ⟨id, version, entity, resource, preference⟩ := x
    obtain ⟨id', version', entity', resource', preference'⟩ := y
    obtain ⟨_, h⟩ := h
    obtain rfl : preference = preference' := h
    exact .cons (.int8 ..) (.cons (.int8 ..) (.cons (.int8 ..) (.cons (.int8 ..)
      (.cons (.refl _) (.cons (.refl _) .nil)))))
  | authorizedDepositor =>
    obtain ⟨id, version, entity, key, isDeleted⟩ := x
    obtain ⟨id', version', entity', key', isDeleted'⟩ := y
    obtain ⟨hkey, h⟩ := h
    obtain rfl : isDeleted = isDeleted' := h
    have hkey : Depositor.Key.Alike E key key' := hkey
    cases hkey <;> exact .cons (.int8 ..) (.cons (.int8 ..) (.cons (.int8 ..) (.cons (.refl _)
      (.cons (.refl _) (.cons (.int8 ..) (.cons (.refl _) .nil))))))

/-- Rows that are alike can be stored alike. -/
theorem ListKind.storable_of_alike (h : R.Alike (k.likeness E P) R') (hR : k.Storable R) :
    k.Storable R' := by
  refine ⟨fun y hy => ?_, fun b hb => ?_, fun t ht y hy => ?_⟩
  · obtain ⟨x, hx, hxy⟩ := exists_of_forall₂ h.entries hy
    exact (hR.entries x hx).congr (sameShape_of_alike hxy.change)
  · obtain ⟨a, ha, hab⟩ := exists_of_forall₂ h.aggregates hb
    refine (hR.aggregates a ha).congr (k.sameShape_aggregateRow hab.list.length_eq ?_)
    have hs := hab.singleton
    generalize a.singleton = o at hs
    generalize b.singleton = o' at hs
    cases hs <;> rfl
  · obtain ⟨x, hx, hxy⟩ := exists_of_forall₂ h.singletons hy
    exact (hR.singletons t ht x hx).congr (sameShape_encodeSingleton ht hxy.change)

end Rows

/-! ## Events -/

section Events

variable {E : EntityId → EntityId → Prop} {P : String → Int64 → Int64 → Prop}
  {number number' : Numbering} {ds : List DomainName} {xs : List (Int64 × SubstateEvent)}

theorem ListKind.alike_meaning {k : ListKind} {s : Substate}
    (h : ∀ a ∈ s.mentions, E (number a) (number' a)) :
    Option.Rel (Meaning.Alike (k.likeness E P)) (k.meaning number s) (k.meaning number' s) := by
  cases k <;> cases s <;> first
    | exact .none
    | exact .some rfl
    | exact .some ⟨h _ List.mem_cons_self, rfl⟩
    | skip
  rename_i badge isDeleted
  refine .some ⟨?_, rfl⟩
  cases badge with
  | resource a => exact .resource (h _ List.mem_cons_self)
  | nonFungible a i => exact .nonFungible (h _ List.mem_cons_self) i

variable (h : ∀ y ∈ xs, ∀ q ∈ demandsOf ds y, E (number q.1) (number' q.1))

include h

/-- Under numberings that stand for each other, events mean changes that differ in ids alone. -/
theorem ListKind.alike_visits {k : ListKind} (hk : k.domain.name ∈ ds) :
    List.Forall₂ (fun y y' => y.1.Alike E y'.1 ∧ y.2.Alike (k.likeness E P) y'.2)
      (k.visits number xs) (k.visits number' xs) := by
  refine List.rel_filterMap (R := fun y y' => y = y' ∧ y ∈ xs) ?_
    (List.forall₂_same.2 fun y hy => ⟨rfl, hy⟩)
  rintro y _ ⟨rfl, hy⟩
  beta_reduce
  by_cases hd : y.2.substate.domain? = some k.domain.name
  · obtain ⟨hentity, hmentions⟩ := mem_demandsOf hd hk
    have hm := k.alike_meaning (P := P) fun a ha => h y hy _ (hmentions a ha)
    generalize k.meaning number y.2.substate = m at hm
    generalize k.meaning number' y.2.substate = m' at hm
    cases hm with
    | none => exact .none
    | some hm => exact .some ⟨⟨h y hy _ hentity, rfl⟩, hm⟩
  · have hnone : ∀ number, k.meaning number y.2.substate = none := fun number => by
      rw [← Option.not_isSome_iff_eq_none, k.isSome_meaning]
      exact hd
    rw [hnone, hnone]
    exact .none

theorem PlainKind.alike_changes {k : PlainKind} (hk : k.domain.name ∈ ds) :
    List.Forall₂ (fun y y' => y.1.Alike E y'.1 ∧ y.2 = y'.2) (k.changes number xs)
      (k.changes number' xs) := by
  unfold changes visits
  rw [List.forall₂_map_left_iff, List.forall₂_map_right_iff]
  refine List.rel_filterMap (R := fun y y' => y = y' ∧ y ∈ xs) ?_
    (List.forall₂_same.2 fun y hy => ⟨rfl, hy⟩)
  rintro y _ ⟨rfl, hy⟩
  beta_reduce
  rcases hm : k.domain.meaningOf y.2.substate with _ | c
  · exact .none
  · have hd : y.2.substate.domain? = some k.domain.name := by
      rw [← k.isSome_meaningOf, hm]
      rfl
    exact .some ⟨⟨h y hy _ (mem_demandsOf hd hk).1, rfl⟩, rfl⟩

theorem ListKind.greatest_eq_of_alike {k : ListKind} (hk : k.domain.name ∈ ds) :
    k.greatest number xs = k.greatest number' xs := by
  have hvisits := alike_visits (P := fun _ _ _ => True) h hk
  unfold greatest
  generalize none = m
  generalize k.visits number xs = ys at hvisits
  generalize k.visits number' xs = ys' at hvisits
  induction hvisits generalizing m with
  | nil => rfl
  | cons hy _ ih =>
    rw [List.foldl_cons, List.foldl_cons, hy.1.stateVersion]
    exact ih _

/-- Of alike events a domain makes alike rows in alike chronicles. -/
theorem ListKind.alike_made (hE : Relator.BiUnique E) (hP : ∀ name, KeepsOrder (P name))
    {k : ListKind} (hk : k.domain.name ∈ ds) {C C' R : NewRows k.domain}
    (hC : C.Alike (k.likeness E P) C') {start start' : String → Int64}
    (hids : (k.likeness E P).Numbers (k.domain.firstIds start) (k.domain.firstIds start') R)
    (hR : k.made C start number xs = .ok R) :
    ∃ R', k.made C' start' number' xs = .ok R' ∧ R.Alike (k.likeness E P) R' := by
  rw [made, greatest_eq_of_alike h hk] at hR
  exact (hC.within _).rowsAfter (k.lawful_likeness hE hP)
    (GroupedChanges.alike_toList hE (alike_visits h hk)) hids hR

theorem PlainKind.alike_made {k : PlainKind} (hk : k.domain.name ∈ ds) {start start' : String → Int64}
    (hids : List.Forall₂ (P k.domain.table.name)
      (idsFrom (start k.domain.table.name) (k.made start number xs).length)
      (idsFrom (start' k.domain.table.name) (k.made start number xs).length)) :
    List.Forall₂ (HistoryRow.Alike E (P k.domain.table.name) (· = ·)) (k.made start number xs)
      (k.made start' number' xs) := by
  rw [made, length_enumerated] at hids
  exact alike_enumerated (alike_changes h hk) hids

end Events

end LedgerHistory
