import LedgerHistory.Proofs.Aggregate.Grouped

/-!
# Groupings as ordered multimaps

A grouping of lists holds values under keys, and the list of a key is created when the key is first
used. The grouping that values are appended to in order is an ordered multimap of them
(`Grouping.isMultimap_lists`): its index leads from each key to its one entry, and the keys stand in
the order in which their lists were created. Appending and looking up in whatever order gives this
grouping, and what a look-up finds is told by the values appended before it alone
(`Grouping.performAll_isMultimap`).
-/

namespace LedgerHistory.Grouping

open LatestLookup (distinctKeys)

variable {κ ν α : Type} [DecidableEq κ]

/-! ## Values that are created on demand -/

section Creation

variable {m : Type → Type} [Monad m]

/-- The place of a key, at the end with the value that `create` makes if the key is new. What it does
besides is an effect, which shows whether it was run. -/
def placeM (t : Grouping κ ν) (k : κ) (create : m ν) : m (Nat × Grouping κ ν) :=
  match t.index.get? k with
  | some i => pure (i, t)
  | none => do
    let v ← create
    let i := t.entries.length
    return (i, ⟨t.index.insert k i, t.entries ++ [(k, v)]⟩)

/-- Changes the value of a key, which `create` makes if the key is new. -/
def updateM (t : Grouping κ ν) (k : κ) (create : m ν) (f : ν → ν) : m (Grouping κ ν) := do
  let (i, t) ← t.placeM k create
  return { t with entries := t.entries.modify i fun e => (e.1, f e.2) }

variable [LawfulMonad m] {t : Grouping κ ν} {k : κ}

/-- Without an effect, creating on demand is the same as having the value at hand. -/
theorem updateM_pure (t : Grouping κ ν) (k : κ) (v : ν) (f : ν → ν) :
    t.updateM k (pure v : m ν) f = pure (t.update k v f) := by
  unfold updateM placeM update place
  rcases t.index.get? k with _ | i <;> simp

theorem updateM_of_mem (h : t.InStep) (hk : k ∈ t.keys) (create : m ν) (v : ν) (f : ν → ν) :
    t.updateM k create f = pure (t.update k v f) := by
  rcases hi : t.index.get? k with _ | i
  · exact absurd hk ((get?_index_eq_none h).1 hi)
  · simp [updateM, placeM, update, place, hi]

theorem updateM_of_notMem (h : t.InStep) (hk : k ∉ t.keys) (create : m ν) (f : ν → ν) :
    t.updateM k create f = (t.update k · f) <$> create := by
  have hi := (get?_index_eq_none h).2 hk
  simp [updateM, placeM, update, place, hi]

end Creation

/-! ## Look-ups -/

section Lookups

variable {t : Grouping κ ν}

theorem get?_eq_some_iff (h : t.InStep) {k : κ} {v : ν} : t.get? k = some v ↔ (k, v) ∈ t.entries := by
  rw [get?, Option.bind_eq_some_iff, List.mem_iff_getElem?]
  constructor
  · rintro ⟨i, hi, hv⟩
    obtain ⟨u, hu⟩ := (h k i).1 hi
    rw [hu] at hv
    cases hv
    exact ⟨i, hu⟩
  · rintro ⟨i, hi⟩
    exact ⟨i, (h k i).2 ⟨v, hi⟩, by rw [hi]; rfl⟩

theorem get?_ofList (create : ν) (add : ν → α → ν) (xs : List (κ × α)) (k : κ) :
    (ofList create add xs).get? k
      = if k ∈ xs.map (·.1) then some ((valuesOf xs k).foldl add create) else none := by
  ext v
  rw [get?_eq_some_iff (inStep_ofList create add xs), entries_ofList, List.mem_map]
  by_cases hk : k ∈ xs.map (·.1)
  · rw [if_pos hk, Option.some.injEq]
    constructor
    · rintro ⟨k', _, he⟩
      cases he
      rfl
    · rintro rfl
      exact ⟨k, mem_distinctKeys.2 hk, rfl⟩
  · rw [if_neg hk]
    constructor
    · rintro ⟨k', hk', he⟩
      cases he
      exact absurd (mem_distinctKeys.1 hk') hk
    · nofun

end Lookups

/-! ## Lists -/

/-- What a look-up finds where some values were appended: those of the key, if it was ever used. -/
def lookup (xs : List (κ × α)) (k : κ) : Option (List α) :=
  if k ∈ xs.map (·.1) then some (valuesOf xs k) else none

/-- The values that are held, list by list, each under its key. -/
def pairs (t : Grouping κ (List α)) : List (κ × α) := t.entries.flatMap fun e => e.2.map (e.1, ·)

/-- What it is for a grouping of lists to hold values that were appended in order. -/
structure IsMultimap (t : Grouping κ (List α)) (xs : List (κ × α)) : Prop where
  /-- The index leads from each key to the place of its entry, and nowhere else. -/
  index : ∀ k i, t.index.get? k = some i ↔ ∃ vs, t.entries[i]? = some (k, vs)
  distinct : t.keys.Nodup
  /-- The keys stand in the order of first use, each with its values in the order of appending. -/
  entries : t.entries = (distinctKeys (xs.map (·.1))).map fun k => (k, valuesOf xs k)
  found : ∀ k, t.get? k = lookup xs k
  /-- No value is lost, held twice or under another key. -/
  pairs : t.pairs.Perm xs
  values : (t.entries.flatMap (·.2)).Perm (xs.map (·.2))
  inOrder : ∀ k, t.pairs.filter (·.1 = k) = xs.filter (·.1 = k)

/-- The grouping of lists that values are appended to in order. -/
def lists (xs : List (κ × α)) : Grouping κ (List α) := ofList [] (fun vs v => vs ++ [v]) xs

theorem foldl_concat (vs ws : List α) : ws.foldl (fun vs v => vs ++ [v]) vs = vs ++ ws := by
  induction ws generalizing vs with
  | nil => simp
  | cons w ws ih => simp [ih]

theorem inStep_lists (xs : List (κ × α)) : (lists xs).InStep := inStep_ofList _ _ xs

theorem get?_lists (xs : List (κ × α)) (k : κ) : (lists xs).get? k = lookup xs k := by
  rw [lists, get?_ofList, foldl_concat, List.nil_append, lookup]

theorem entries_lists (xs : List (κ × α)) :
    (lists xs).entries = (distinctKeys (xs.map (·.1))).map fun k => (k, valuesOf xs k) := by
  rw [lists, entries_ofList]
  simp only [foldl_concat, List.nil_append]

example : (lists [((2, 10), "a"), ((1, 10), "b"), ((2, 10), "c"), ((1, 11), "d")]).entries
    = [((2, 10), ["a", "c"]), ((1, 10), ["b"]), ((1, 11), ["d"])] := by decide

/-- The pairs of the lists are the appended ones, key by key. -/
theorem pairs_lists (xs : List (κ × α)) : (lists xs).pairs
    = (distinctKeys (xs.map (·.1))).flatMap fun k => xs.filter (·.1 = k) := by
  rw [pairs, entries_lists, List.flatMap_map]
  refine List.flatMap_congr fun k _ => ?_
  rw [valuesOf, List.map_map]
  refine (List.map_congr_left fun x hx => ?_).trans (List.map_id _)
  have hk : x.1 = k := by simpa using (List.mem_filter.1 hx).2
  exact Prod.ext hk.symm rfl

omit [DecidableEq κ] in
theorem map_snd_pairs (t : Grouping κ (List α)) : t.pairs.map (·.2) = t.entries.flatMap (·.2) := by
  simp [pairs, List.map_flatMap, Function.comp_def]

theorem isMultimap_lists (xs : List (κ × α)) : (lists xs).IsMultimap xs := by
  have hpairs : (lists xs).pairs.Perm xs := by
    rw [pairs_lists]
    exact perm_flatMap_filter (nodup_distinctKeys _) fun _ hx =>
      mem_distinctKeys.2 (List.mem_map_of_mem hx)
  refine ⟨inStep_lists xs, ?_, entries_lists xs, get?_lists xs, hpairs, ?_, fun k => ?_⟩
  · rw [lists, keys_ofList]
    exact nodup_distinctKeys _
  · rw [← map_snd_pairs]
    exact hpairs.map _
  · rw [pairs_lists, filter_flatMap_filter (nodup_distinctKeys _)]
    split
    · rfl
    · rename_i hk
      exact (filter_key_eq_nil (mt mem_distinctKeys.2 hk)).symm

/-! ## Calls -/

/-- A call to a grouping of lists. -/
inductive Call (κ α : Type)
  /-- Appends a value to the list of a key, which is created if the key is new. -/
  | append (k : κ) (v : α)
  | get (k : κ)

/-- The value that a call appends, under its key. -/
def Call.appended? : Call κ α → Option (κ × α)
  | .append k v => some (k, v)
  | .get _ => none

/-- The values that calls append, each under its key. -/
def appended (calls : List (Call κ α)) : List (κ × α) := calls.filterMap Call.appended?

/-- What the look-ups among calls find, by the values appended before each. -/
def lookups (before : List (κ × α)) : List (Call κ α) → List (Option (List α))
  | [] => []
  | .append k v :: calls => lookups (before ++ [(k, v)]) calls
  | .get k :: calls => lookup before k :: lookups before calls

/-- Creates the list of a key and notes the key. -/
def createList (k : κ) : StateM (List κ) (List α) := do
  modify (· ++ [k])
  return []

/-- Makes calls in order: what the look-ups find, the grouping after them, and the keys that a list was
created for. -/
def performAll (t : Grouping κ (List α)) :
    List (Call κ α) → StateM (List κ) (List (Option (List α)) × Grouping κ (List α))
  | [] => return ([], t)
  | .append k v :: calls => do
    let t ← t.updateM k (createList k) (· ++ [v])
    t.performAll calls
  | .get k :: calls => do
    let (found, t') ← t.performAll calls
    return (t.get? k :: found, t')

/-- A value is appended to its list, and the list is created just if the key is new. -/
theorem run_updateM_lists (xs : List (κ × α)) (k : κ) (v : α) :
    ((lists xs).updateM k (createList k) (· ++ [v])).run (lists xs).keys
      = (lists (xs ++ [(k, v)]), (lists (xs ++ [(k, v)])).keys) := by
  have hnext : lists (xs ++ [(k, v)]) = (lists xs).update k [] (· ++ [v]) := ofList_concat [] _ xs (k, v)
  rw [hnext, keys_update (inStep_lists xs)]
  split
  · rename_i hk
    rw [updateM_of_mem (inStep_lists xs) hk (createList k) []]
    rfl
  · rename_i hk
    rw [updateM_of_notMem (inStep_lists xs) hk]
    rfl

theorem run_performAll (before : List (κ × α)) (calls : List (Call κ α)) :
    ((lists before).performAll calls).run (lists before).keys
      = ((lookups before calls, lists (before ++ appended calls)),
        (lists (before ++ appended calls)).keys) := by
  induction calls generalizing before with
  | nil =>
    rw [appended, List.filterMap_nil, List.append_nil]
    rfl
  | cons c calls ih =>
    cases c with
    | append k v =>
      have hrest := ih (before ++ [(k, v)])
      rw [List.append_assoc] at hrest
      rw [performAll, StateT.run_bind, run_updateM_lists]
      exact hrest
    | get k =>
      rw [performAll, StateT.run_bind, ih before, get?_lists]
      rfl

/-- Calls made from the start give an ordered multimap of the values that they append. Each look-up
finds the values that its key had by then, and a list was created once for each key, in the order of
the entries. -/
theorem performAll_isMultimap (calls : List (Call κ α)) :
    (performAll empty calls).run [] = ((lookups [] calls, lists (appended calls)),
        (lists (appended calls)).keys)
      ∧ (lists (appended calls)).IsMultimap (appended calls) :=
  ⟨run_performAll [] calls, isMultimap_lists _⟩

end LedgerHistory.Grouping
