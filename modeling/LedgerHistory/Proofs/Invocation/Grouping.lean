import Mathlib.Data.List.Induction
import Mathlib.Data.List.Nodup
import LedgerHistory.Aggregate.Changes
import LedgerHistory.Invocation.Lookup
import LedgerHistory.Proofs.Dictionary

/-!
# Groups in order of arrival

Keys without repetitions stand in the order of their first arrival (`distinctKeys_append`). The
grouping of a list of values has one entry for each of them, with the values of the key in order
(`Grouping.entries_ofList`), and so have the groups of changes (`GroupedChanges.toList_ofList`).
-/

namespace LedgerHistory

variable {κ α ν : Type} [DecidableEq κ]

open LatestLookup (distinctKeys)

/-! ## Distinct keys -/

theorem distinctKeys_concat (ks : List κ) (k : κ) : distinctKeys (ks ++ [k])
    = if k ∈ distinctKeys ks then distinctKeys ks else distinctKeys ks ++ [k] := by
  rw [distinctKeys, List.foldl_append]
  rfl

@[simp] theorem mem_distinctKeys {ks : List κ} {k : κ} : k ∈ distinctKeys ks ↔ k ∈ ks := by
  induction ks using List.reverseRecOn with
  | nil => rfl
  | append_singleton ks k' ih =>
    rw [distinctKeys_concat, List.mem_append, List.mem_singleton, ← ih]
    split
    · constructor
      · exact .inl
      · rintro (h | rfl)
        · exact h
        · assumption
    · rw [List.mem_append, List.mem_singleton]

theorem nodup_distinctKeys (ks : List κ) : (distinctKeys ks).Nodup := by
  induction ks using List.reverseRecOn with
  | nil => exact List.nodup_nil
  | append_singleton ks k ih =>
    rw [distinctKeys_concat]
    split
    · exact ih
    · rename_i hk
      exact List.Nodup.append ih (List.nodup_singleton k) (by simpa using hk)

theorem distinctKeys_append (ks ls : List κ) :
    distinctKeys (ks ++ ls) = distinctKeys ks ++ (distinctKeys ls).filter (· ∉ ks) := by
  induction ls using List.reverseRecOn with
  | nil => simp [distinctKeys]
  | append_singleton ls l ih =>
    rw [← List.append_assoc, distinctKeys_concat, distinctKeys_concat, ih]
    by_cases hk : l ∈ ks
    · by_cases hl : l ∈ distinctKeys ls <;> simp [hk, hl]
    · by_cases hl : l ∈ ls
      · simp [hk, hl]
      · simp [hk, hl]

theorem distinctKeys_append_of_disjoint {ks ls : List κ} (h : ∀ k ∈ ls, k ∉ ks) :
    distinctKeys (ks ++ ls) = distinctKeys ks ++ distinctKeys ls := by
  rw [distinctKeys_append]
  congr 1
  exact List.filter_eq_self.2 fun k hk => by simpa using h k (mem_distinctKeys.1 hk)

theorem distinctKeys_sublist (ks : List κ) : (distinctKeys ks).Sublist ks := by
  induction ks using List.reverseRecOn with
  | nil => exact .slnil
  | append_singleton ks k ih =>
    rw [distinctKeys_concat]
    split
    · exact ih.trans (List.sublist_append_left ks [k])
    · exact ih.append (List.Sublist.refl [k])

theorem filter_key_eq_nil {xs : List (κ × α)} {k : κ} (h : k ∉ xs.map (·.1)) :
    xs.filter (·.1 = k) = [] := by
  refine List.filter_eq_nil_iff.2 fun x hx hk => h ?_
  exact of_decide_eq_true hk ▸ List.mem_map_of_mem hx

/-! ## Groupings -/

theorem modify_concat (as : List α) (a : α) (f : α → α) :
    (as ++ [a]).modify as.length f = as ++ [f a] := by
  induction as with
  | nil => rfl
  | cons b as ih => simp [ih]

theorem getElem?_concat_eq_some {as : List α} {a b : α} {i : Nat} :
    (as ++ [a])[i]? = some b ↔ as[i]? = some b ∨ i = as.length ∧ b = a := by
  rcases Nat.lt_trichotomy i as.length with hlt | rfl | hgt
  · simp [List.getElem?_append_left hlt, Nat.ne_of_lt hlt]
  · simp [eq_comm]
  · simp [List.getElem?_append_right (Nat.le_of_lt hgt), Nat.sub_ne_zero_of_lt hgt,
      List.getElem?_eq_none (Nat.le_of_lt hgt), Nat.ne_of_gt hgt]

namespace Grouping

/-- Whether the index leads from each key to its one entry. -/
def InStep (t : Grouping κ ν) : Prop :=
  ∀ k i, t.index.get? k = some i ↔ ∃ v, t.entries[i]? = some (k, v)

variable {t : Grouping κ ν}

theorem inStep_empty : (empty : Grouping κ ν).InStep := by
  intro k i
  simp [empty, Dictionary.get?, Dictionary.empty, Dictionary.find?]

theorem get?_index_eq_none (h : t.InStep) {k : κ} : t.index.get? k = none ↔ k ∉ t.keys := by
  constructor
  · intro hn hk
    obtain ⟨⟨_, v⟩, he, rfl⟩ := List.mem_map.1 hk
    obtain ⟨i, hi⟩ := List.mem_iff_getElem?.1 he
    rw [(h _ i).2 ⟨v, hi⟩] at hn
    cases hn
  · intro hk
    rcases hi : t.index.get? k with _ | i
    · rfl
    · obtain ⟨v, hv⟩ := (h k i).1 hi
      exact absurd (List.mem_map.2 ⟨_, List.mem_of_getElem? hv, rfl⟩) hk

theorem entries_update (h : t.InStep) (k : κ) (create : ν) (f : ν → ν) :
    (t.update k create f).entries = if k ∈ t.keys
      then t.entries.map fun e => if e.1 = k then (e.1, f e.2) else e
      else t.entries ++ [(k, f create)] := by
  rcases hi : t.index.get? k with _ | i
  · rw [if_neg ((get?_index_eq_none h).1 hi)]
    simp only [update, place, hi]
    exact modify_concat _ _ _
  · have hk : k ∈ t.keys := by
      by_contra hk
      rw [(get?_index_eq_none h).2 hk] at hi
      cases hi
    rw [if_pos hk]
    simp only [update, place, hi]
    refine List.ext_getElem? fun j => ?_
    rw [List.getElem?_modify, List.getElem?_map]
    rcases he : t.entries[j]? with _ | ⟨k', v⟩
    · simp
    · by_cases hk' : k' = k
      · subst hk'
        have hj : t.index.get? k' = some j := (h k' j).2 ⟨v, he⟩
        rw [hi] at hj
        cases hj
        simp
      · have hij : i ≠ j := by
          rintro rfl
          obtain ⟨v', hv'⟩ := (h k i).1 hi
          rw [he] at hv'
          cases hv'
          exact hk' rfl
        simp [hk', hij]

theorem keys_update (h : t.InStep) (k : κ) (create : ν) (f : ν → ν) :
    (t.update k create f).keys = if k ∈ t.keys then t.keys else t.keys ++ [k] := by
  rw [keys, entries_update h]
  split
  · rw [keys, List.map_map]
    exact List.map_congr_left fun e _ => by by_cases he : e.1 = k <;> simp [he]
  · simp [keys]

theorem inStep_update (h : t.InStep) (k : κ) (create : ν) (f : ν → ν) :
    (t.update k create f).InStep := by
  intro k' i
  rw [entries_update h]
  rcases hi : t.index.get? k with _ | j
  · have hk := (get?_index_eq_none h).1 hi
    have hindex : (t.update k create f).index = t.index.insert k t.entries.length := by
      simp [update, place, hi]
    have hnew (j : Nat) (v : ν) : t.entries[j]? ≠ some (k, v) := fun hj => by
      rw [(h k j).2 ⟨v, hj⟩] at hi
      cases hi
    rw [hindex, if_neg hk, Dictionary.get?_insert]
    simp only [getElem?_concat_eq_some]
    by_cases hk' : k = k'
    · subst hk'
      simp [hnew, eq_comm]
    · simp [hk', Ne.symm hk', h k' i]
  · have hk : k ∈ t.keys := by
      by_contra hk
      rw [(get?_index_eq_none h).2 hk] at hi
      cases hi
    have hindex : (t.update k create f).index = t.index := by simp [update, place, hi]
    rw [hindex, if_pos hk, h k' i, List.getElem?_map]
    rcases t.entries[i]? with _ | ⟨k'', v⟩
    · simp
    · by_cases hk'' : k'' = k
      · subst hk''
        simp
      · simp [hk'']

/-- The values with a key, in order of arrival. -/
def valuesOf (xs : List (κ × α)) (k : κ) : List α := (xs.filter (·.1 = k)).map (·.2)

theorem valuesOf_concat (xs : List (κ × α)) (x : κ × α) (k : κ) :
    valuesOf (xs ++ [x]) k = if x.1 = k then valuesOf xs k ++ [x.2] else valuesOf xs k := by
  by_cases hk : x.1 = k <;> simp [valuesOf, hk]

theorem valuesOf_eq_nil {xs : List (κ × α)} {k : κ} (h : k ∉ xs.map (·.1)) : valuesOf xs k = [] := by
  rw [valuesOf, filter_key_eq_nil h]
  rfl

/-- The grouping of values in order of arrival: each is added to what its key holds, which is
`create` at first. -/
def ofList (create : ν) (add : ν → α → ν) (xs : List (κ × α)) : Grouping κ ν :=
  xs.foldl (fun t x => t.update x.1 create (add · x.2)) empty

section OfList

variable (create : ν) (add : ν → α → ν) (xs : List (κ × α))

theorem ofList_concat (x : κ × α) : ofList create add (xs ++ [x])
    = (ofList create add xs).update x.1 create (add · x.2) := by
  simp [ofList, List.foldl_append]

theorem inStep_ofList : (ofList create add xs).InStep := by
  induction xs using List.reverseRecOn with
  | nil => exact inStep_empty
  | append_singleton xs x ih =>
    rw [ofList_concat]
    exact inStep_update ih _ _ _

theorem keys_ofList : (ofList create add xs).keys = distinctKeys (xs.map (·.1)) := by
  induction xs using List.reverseRecOn with
  | nil => rfl
  | append_singleton xs x ih =>
    rw [ofList_concat, keys_update (inStep_ofList create add xs), ih, List.map_append,
      List.map_singleton, distinctKeys_concat]

/-- Each key stands where it first arrived, with all values that arrived under it. -/
theorem entries_ofList : (ofList create add xs).entries
    = (distinctKeys (xs.map (·.1))).map fun k => (k, (valuesOf xs k).foldl add create) := by
  induction xs using List.reverseRecOn with
  | nil => rfl
  | append_singleton xs x ih =>
    rw [ofList_concat, entries_update (inStep_ofList create add xs), keys_ofList, List.map_append,
      List.map_singleton, distinctKeys_concat, ih]
    split
    · rw [List.map_map]
      refine List.map_congr_left fun k _ => ?_
      by_cases hk : x.1 = k
      · simp [valuesOf_concat, hk]
      · simp [valuesOf_concat, hk, Ne.symm hk]
    · rename_i hx
      rw [List.map_append, List.map_singleton]
      congr 1
      · refine List.map_congr_left fun k hk => ?_
        have hne : x.1 ≠ k := fun e => hx (e ▸ hk)
        simp [valuesOf_concat, hne]
      · simp [valuesOf_concat, valuesOf_eq_nil (mt mem_distinctKeys.2 hx)]

end OfList

end Grouping

/-! ## Changes -/

/-- The group of changes in order of arrival. -/
def ChangeGroup.ofList {χ σ : Type} (changes : List (Meaning χ σ)) : ChangeGroup χ σ :=
  changes.foldl .add {}

/-- The change that a meaning is of an entry. -/
def Meaning.entry? {χ σ : Type} : Meaning χ σ → Option χ
  | .entry c => some c
  | .singleton _ => none

/-- The singleton that a meaning is. -/
def Meaning.singleton? {χ σ : Type} : Meaning χ σ → Option σ
  | .entry _ => none
  | .singleton s => some s

theorem ChangeGroup.ofList_eq {χ σ : Type} (changes : List (Meaning χ σ)) :
    ofList changes = ⟨changes.filterMap Meaning.entry?, changes.filterMap Meaning.singleton?⟩ := by
  induction changes using List.reverseRecOn with
  | nil => rfl
  | append_singleton changes m ih =>
    rw [ofList, List.foldl_append, ← ofList, ih]
    cases m <;> simp [add, Meaning.entry?, Meaning.singleton?]

namespace GroupedChanges

variable {d : ListDomain}

/-- The changes with a group key, in order of arrival. -/
def changesOf (xs : List (GroupKey × Meaning d.Change d.Singleton)) (key : GroupKey) :
    List (Meaning d.Change d.Singleton) :=
  (xs.filter (·.1 = key)).map (·.2)

/-- The changes grouped in order of arrival. -/
def ofList (xs : List (GroupKey × Meaning d.Change d.Singleton)) : GroupedChanges d :=
  xs.foldl (fun c x => c.add x.1 x.2) empty

theorem ofList_concat (xs : List (GroupKey × Meaning d.Change d.Singleton))
    (x : GroupKey × Meaning d.Change d.Singleton) : ofList (xs ++ [x]) = (ofList xs).add x.1 x.2 := by
  simp [ofList, List.foldl_append]

theorem groups_ofList (xs : List (GroupKey × Meaning d.Change d.Singleton)) :
    (ofList xs).groups = Grouping.ofList {} ChangeGroup.add xs := by
  induction xs using List.reverseRecOn with
  | nil => rfl
  | append_singleton xs x ih => rw [ofList_concat, Grouping.ofList_concat, add, ih]

theorem keys_ofList (xs : List (GroupKey × Meaning d.Change d.Singleton)) :
    (ofList xs).groups.keys = distinctKeys (xs.map (·.1)) := by
  rw [groups_ofList, Grouping.keys_ofList]

theorem toList_ofList (xs : List (GroupKey × Meaning d.Change d.Singleton)) :
    (ofList xs).toList
      = (distinctKeys (xs.map (·.1))).map fun key => (key, .ofList (changesOf xs key)) := by
  rw [toList, groups_ofList, Grouping.entries_ofList]
  rfl

theorem mem_group {xs : List (GroupKey × Meaning d.Change d.Singleton)}
    {g : GroupKey × ChangeGroup d.Change d.Singleton} (h : g ∈ (ofList xs).toList) :
    (∀ c, c ∈ g.2.entries ↔ (g.1, .entry c) ∈ xs)
      ∧ ∀ v, v ∈ g.2.singletons ↔ (g.1, .singleton v) ∈ xs := by
  rw [toList_ofList] at h
  obtain ⟨key, _, rfl⟩ := List.mem_map.1 h
  have hmem : ∀ m, m ∈ changesOf xs key ↔ (key, m) ∈ xs := by
    intro m
    simp [changesOf]
  rw [ChangeGroup.ofList_eq]
  constructor
  · intro c
    rw [← hmem, List.mem_filterMap]
    constructor
    · rintro ⟨m, hm, hc⟩
      cases m <;> cases hc
      exact hm
    · exact fun hm => ⟨_, hm, rfl⟩
  · intro v
    rw [← hmem, List.mem_filterMap]
    constructor
    · rintro ⟨m, hm, hv⟩
      cases m <;> cases hv
      exact hm
    · exact fun hm => ⟨_, hm, rfl⟩

end GroupedChanges

end LedgerHistory
