import LedgerHistory.Proofs.Aggregate.Chronicle
import LedgerHistory.Proofs.Invocation.Grouping

/-!
# What groups tell

The groups of changes have all the changes (`GroupedChanges.perm_visited`), and when the versions do
not decrease they have those of each entity in order (`GroupedChanges.filter_visited`). Changes that
share no group with earlier ones form groups of their own (`GroupedChanges.toList_append`).
-/

namespace LedgerHistory

open LatestLookup (distinctKeys)

/-! ## Parts by key -/

section Parts

variable {α κ : Type} [DecidableEq κ] {key : α → κ} {ks : List κ} {xs ys : List α}

theorem filter_flatMap_filter (hks : ks.Nodup) (xs : List α) (k : κ) :
    (ks.flatMap fun k => xs.filter (key · = k)).filter (key · = k)
      = if k ∈ ks then xs.filter (key · = k) else [] := by
  induction ks with
  | nil => rfl
  | cons k' ks ih =>
    obtain ⟨hk', hks⟩ := List.nodup_cons.1 hks
    rw [List.flatMap_cons, List.filter_append, ih hks, List.filter_filter]
    by_cases hk : k' = k
    · subst hk
      simp [hk']
    · have hnil : xs.filter (fun x => decide (key x = k) && decide (key x = k')) = [] := by
        simp only [List.filter_eq_nil_iff, Bool.and_eq_true, decide_eq_true_eq, not_and]
        intro x _ h h'
        exact hk (h'.symm.trans h)
      simp [hnil, Ne.symm hk]

/-- The parts of a list by distinct keys, one after another, have all its values. -/
theorem perm_flatMap_filter (hks : ks.Nodup) (h : ∀ x ∈ xs, key x ∈ ks) :
    (ks.flatMap fun k => xs.filter (key · = k)).Perm xs := by
  induction ks generalizing xs with
  | nil =>
    obtain rfl : xs = [] := List.eq_nil_iff_forall_not_mem.2 fun x hx => by simpa using h x hx
    exact .refl _
  | cons k ks ih =>
    obtain ⟨hk, hks⟩ := List.nodup_cons.1 hks
    have hrest : (ks.flatMap fun k => xs.filter (key · = k))
        = ks.flatMap fun k' => (xs.filter (key · ≠ k)).filter (key · = k') := by
      refine List.flatMap_congr fun k' hk' => ?_
      rw [List.filter_filter]
      refine List.filter_congr fun x _ => ?_
      have hne : k' ≠ k := fun e => hk (e ▸ hk')
      by_cases hx : key x = k' <;> simp [hx, hne]
    rw [List.flatMap_cons, hrest]
    refine (List.Perm.append_left _ (ih hks fun x hx => ?_)).trans ?_
    · obtain ⟨hx, hne⟩ := List.mem_filter.1 hx
      exact (List.mem_cons.1 (h x hx)).resolve_left (by simpa using hne)
    · simpa using List.filter_append_perm (fun x => decide (key x = k)) xs

/-- Lists in the order of their versions are equal when they are so version by version. -/
theorem eq_of_filter_eq {f : α → Int64} (hx : xs.Pairwise fun x y => f x ≤ f y)
    (hy : ys.Pairwise fun x y => f x ≤ f y)
    (h : ∀ v, xs.filter (f · = v) = ys.filter (f · = v)) : xs = ys := by
  induction xs generalizing ys with
  | nil =>
    cases ys with
    | nil => rfl
    | cons y ys => simpa using h (f y)
  | cons x xs ih =>
    cases ys with
    | nil => simpa using h (f x)
    | cons y ys =>
      obtain ⟨hxs, hxp⟩ := List.pairwise_cons.1 hx
      obtain ⟨hys, hyp⟩ := List.pairwise_cons.1 hy
      have hle : f y ≤ f x := by
        have hm : x ∈ (y :: ys).filter (f · = f x) := by simp [← h (f x)]
        rcases List.mem_cons.1 (List.mem_filter.1 hm).1 with rfl | hm
        · exact Int64.le_refl _
        · exact hys x hm
      have hge : f x ≤ f y := by
        have hm : y ∈ (x :: xs).filter (f · = f y) := by simp [h (f y)]
        rcases List.mem_cons.1 (List.mem_filter.1 hm).1 with rfl | hm
        · exact Int64.le_refl _
        · exact hxs y hm
      have hv : f x = f y := Int64.le_antisymm hge hle
      have hhead := h (f x)
      rw [List.filter_cons_of_pos (by simp), List.filter_cons_of_pos (by simp [hv])] at hhead
      obtain ⟨rfl, _⟩ := List.cons.inj hhead
      refine congrArg (x :: ·) (ih hxp hyp fun v => ?_)
      have hv := h v
      by_cases hfv : f x = v
      · rw [List.filter_cons_of_pos (by simpa using hfv),
          List.filter_cons_of_pos (by simpa using hfv)] at hv
        exact (List.cons.inj hv).2
      · rwa [List.filter_cons_of_neg (by simpa using hfv),
          List.filter_cons_of_neg (by simpa using hfv)] at hv

end Parts

/-! ## Groups -/

namespace GroupedChanges

variable {d : ListDomain} {xs ys : List (GroupKey × Meaning d.Change d.Singleton)}

/-- The changes in the order of their groups. -/
def visited (xs : List (GroupKey × Meaning d.Change d.Singleton)) :
    List (GroupKey × Meaning d.Change d.Singleton) :=
  (distinctKeys (xs.map (·.1))).flatMap fun key => xs.filter (·.1 = key)

/-- The changes of entries, each under its group's key. -/
def entryChanges (xs : List (GroupKey × Meaning d.Change d.Singleton)) : List (GroupKey × d.Change) :=
  xs.filterMap fun x => (Meaning.entry? x.2).map (x.1, ·)

/-- The singletons, each under its group's key. -/
def singletonChanges (xs : List (GroupKey × Meaning d.Change d.Singleton)) :
    List (GroupKey × d.Singleton) :=
  xs.filterMap fun x => x.2.singleton?.map (x.1, ·)

theorem map_toList (xs : List (GroupKey × Meaning d.Change d.Singleton)) :
    (ofList xs).toList.map (·.1) = distinctKeys (xs.map (·.1)) := by
  rw [toList_ofList, List.map_map]
  exact List.map_id _

/-- The entities of groups are those that have a change. -/
theorem mem_entities {e : EntityId} : e ∈ (ofList xs).entities ↔ ∃ x ∈ xs, x.1.entity = e := by
  rw [entities, keys_ofList]
  simp only [List.mem_map, mem_distinctKeys, exists_exists_and_eq_and]

/-- The keys of the entries that groups change are those that a change of an entry has. -/
theorem mem_entryKeys {key : d.EntryKey} : key ∈ (ofList xs).entryKeys
    ↔ ∃ x ∈ xs, ∃ c, x.2 = .entry c ∧ (x.1.entity, d.keyOf c) = key := by
  constructor
  · intro h
    obtain ⟨g, hg, hkey⟩ := List.mem_flatMap.1 h
    obtain ⟨c, hc, rfl⟩ := List.mem_map.1 hkey
    exact ⟨_, ((mem_group hg).1 c).1 hc, c, rfl, rfl⟩
  · rintro ⟨⟨groupKey, _⟩, hx, c, rfl, rfl⟩
    have hkey : groupKey ∈ (ofList xs).toList.map (·.1) := by
      rw [map_toList, mem_distinctKeys]
      exact List.mem_map_of_mem hx
    obtain ⟨g, hg, rfl⟩ := List.mem_map.1 hkey
    exact List.mem_flatMap.2 ⟨g, hg, List.mem_map.2 ⟨c, ((mem_group hg).1 c).2 hx, rfl⟩⟩

theorem filterMap_changesOf {χ : Type} (f : Meaning d.Change d.Singleton → Option χ)
    (xs : List (GroupKey × Meaning d.Change d.Singleton)) (key : GroupKey) :
    ((changesOf xs key).filterMap f).map (key, ·)
      = (xs.filter (·.1 = key)).filterMap fun x => (f x.2).map (x.1, ·) := by
  rw [changesOf, List.filterMap_map, List.map_filterMap]
  refine List.filterMap_congr fun x hx => ?_
  have hkey : x.1 = key := by simpa using (List.mem_filter.1 hx).2
  rw [hkey]
  rfl

/-- What is read off the changes of an entity is what is read off all for this entity. -/
theorem filter_keyed {χ : Type} (f : Meaning d.Change d.Singleton → Option χ)
    (xs : List (GroupKey × Meaning d.Change d.Singleton)) (e : EntityId) :
    (xs.filterMap fun x => (f x.2).map (x.1, ·)).filter (·.1.entity = e)
      = (xs.filter (·.1.entity = e)).filterMap fun x => (f x.2).map (x.1, ·) := by
  rw [List.filter_filterMap, List.filterMap_filter]
  refine List.filterMap_congr fun x _ => ?_
  rcases f x.2 with _ | c <;> by_cases he : x.1.entity = e <;> simp [he]

theorem entriesOf_toList (xs : List (GroupKey × Meaning d.Change d.Singleton)) :
    NewRows.entriesOf (ofList xs).toList = entryChanges (visited xs) := by
  rw [NewRows.entriesOf, toList_ofList, List.flatMap_map, entryChanges, visited,
    List.filterMap_flatMap]
  refine List.flatMap_congr fun key _ => ?_
  rw [ChangeGroup.ofList_eq]
  exact filterMap_changesOf Meaning.entry? xs key

theorem singletonsOf_toList (xs : List (GroupKey × Meaning d.Change d.Singleton)) :
    NewRows.singletonsOf (ofList xs).toList = singletonChanges (visited xs) := by
  rw [NewRows.singletonsOf, toList_ofList, List.flatMap_map, singletonChanges, visited,
    List.filterMap_flatMap]
  refine List.flatMap_congr fun key _ => ?_
  rw [ChangeGroup.ofList_eq]
  exact filterMap_changesOf Meaning.singleton? xs key

theorem perm_visited (xs : List (GroupKey × Meaning d.Change d.Singleton)) : (visited xs).Perm xs :=
  perm_flatMap_filter (nodup_distinctKeys _) fun _ hx => mem_distinctKeys.2 (List.mem_map_of_mem hx)

theorem length_toList_le (xs : List (GroupKey × Meaning d.Change d.Singleton)) :
    (ofList xs).toList.length ≤ xs.length := by
  have h := (distinctKeys_sublist (xs.map (·.1))).length_le
  rwa [← map_toList, List.length_map, List.length_map] at h

theorem length_entriesOf_le (xs : List (GroupKey × Meaning d.Change d.Singleton)) :
    (NewRows.entriesOf (ofList xs).toList).length ≤ xs.length := by
  rw [entriesOf_toList, ← (perm_visited xs).length_eq]
  exact List.length_filterMap_le ..

theorem length_singletonsOf_le (xs : List (GroupKey × Meaning d.Change d.Singleton)) :
    (NewRows.singletonsOf (ofList xs).toList).length ≤ xs.length := by
  rw [singletonsOf_toList, ← (perm_visited xs).length_eq]
  exact List.length_filterMap_le ..

theorem length_changes (xs : List (GroupKey × Meaning d.Change d.Singleton)) :
    (entryChanges xs).length + (singletonChanges xs).length = xs.length := by
  induction xs with
  | nil => rfl
  | cons x xs ih =>
    obtain ⟨key, m⟩ := x
    rw [entryChanges, singletonChanges] at ih ⊢
    cases m <;> simp [Meaning.entry?, Meaning.singleton?, ← ih] <;> omega

/-- Groups have as many entries and singletons as there are changes, and are no more than these. -/
theorem length_toList_add_le (xs : List (GroupKey × Meaning d.Change d.Singleton)) :
    (NewRows.entriesOf (ofList xs).toList).length + (NewRows.singletonsOf (ofList xs).toList).length
      + (ofList xs).toList.length ≤ 2 * xs.length := by
  have hle := length_toList_le xs
  have hall := length_changes (visited xs)
  rw [entriesOf_toList, singletonsOf_toList, hall, (perm_visited xs).length_eq]
  omega

/-- Changes that share no group with those before them form groups of their own. -/
theorem toList_append (h : ∀ x ∈ xs, ∀ y ∈ ys, x.1 ≠ y.1) :
    (ofList (xs ++ ys)).toList = (ofList xs).toList ++ (ofList ys).toList := by
  have hdisjoint : ∀ key ∈ ys.map (·.1), key ∉ xs.map (·.1) := by
    intro key hky hkx
    obtain ⟨y, hy, rfl⟩ := List.mem_map.1 hky
    obtain ⟨x, hx, he⟩ := List.mem_map.1 hkx
    exact h x hx y hy he
  rw [toList_ofList, toList_ofList, toList_ofList, List.map_append,
    distinctKeys_append_of_disjoint hdisjoint, List.map_append]
  congr 1
  · refine List.map_congr_left fun key hkey => ?_
    have hy : key ∉ ys.map (·.1) := fun hm => hdisjoint key hm (mem_distinctKeys.1 hkey)
    rw [changesOf, List.filter_append, filter_key_eq_nil hy, List.append_nil, changesOf]
  · refine List.map_congr_left fun key hkey => ?_
    have hx := hdisjoint key (mem_distinctKeys.1 hkey)
    rw [changesOf, List.filter_append, filter_key_eq_nil hx, List.nil_append, changesOf]

/-! ## Versions in order -/

section Versions

variable (h : xs.Pairwise fun x y => x.1.stateVersion ≤ y.1.stateVersion)

include h

theorem pairwise_distinctKeys :
    (distinctKeys (xs.map (·.1))).Pairwise fun k l => k.stateVersion ≤ l.stateVersion := by
  have hp : (xs.map (·.1)).Pairwise fun k l => k.stateVersion ≤ l.stateVersion :=
    List.pairwise_map.2 h
  exact hp.sublist (distinctKeys_sublist _)

theorem pairwise_toList :
    (ofList xs).toList.Pairwise fun g g' => g.1.stateVersion ≤ g'.1.stateVersion := by
  have hp := pairwise_distinctKeys h
  rw [← map_toList] at hp
  refine List.Pairwise.of_map (S := fun k l => k.stateVersion ≤ l.stateVersion) (·.1) ?_ hp
  exact fun g g' hle => hle

/-- The groups have the changes of each entity in order. -/
theorem filter_visited (e : EntityId) :
    (visited xs).filter (·.1.entity = e) = xs.filter (·.1.entity = e) := by
  have hvisited : (visited xs).Pairwise fun x y => x.1.stateVersion ≤ y.1.stateVersion := by
    refine List.pairwise_flatMap.2 ⟨fun key _ => ?_, ?_⟩
    · refine List.pairwise_iff_forall_sublist.2 fun {x y} hs => ?_
      have hx := (List.mem_filter.1 (hs.subset (by simp : x ∈ [x, y]))).2
      have hy := (List.mem_filter.1 (hs.subset (by simp : y ∈ [x, y]))).2
      simp only [decide_eq_true_eq] at hx hy
      rw [hx, hy]
      exact Int64.le_refl _
    · refine (pairwise_distinctKeys h).imp fun {k l} hkl x hx y hy => ?_
      have hx := (List.mem_filter.1 hx).2
      have hy := (List.mem_filter.1 hy).2
      simp only [decide_eq_true_eq] at hx hy
      rwa [hx, hy]
  refine eq_of_filter_eq (hvisited.sublist List.filter_sublist) (h.sublist List.filter_sublist)
    fun v => ?_
  have hkey : ∀ x : GroupKey × Meaning d.Change d.Singleton,
      (decide (x.1.stateVersion = v) && decide (x.1.entity = e)) = decide (x.1 = ⟨e, v⟩) := by
    rintro ⟨⟨e', v'⟩, m⟩
    rw [Bool.eq_iff_iff]
    simp [and_comm]
  rw [List.filter_filter, List.filter_filter, funext hkey, visited,
    filter_flatMap_filter (nodup_distinctKeys _)]
  split
  · rfl
  · rename_i hm
    refine (List.filter_eq_nil_iff.2 fun x hx hxk => hm ?_).symm
    rw [mem_distinctKeys, ← of_decide_eq_true hxk]
    exact List.mem_map_of_mem hx

end Versions

end GroupedChanges

end LedgerHistory
