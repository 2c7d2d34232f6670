import Mathlib.Data.List.Forall2
import Mathlib.Data.List.Induction
import Mathlib.Data.List.Nodup
import LedgerHistory.Aggregate.Pass

/-!
# Live lists

Of a list of changes the live ones are those that are the last of their key and no deletion, the most
recent in front (`live`). One more change leaves those of other keys and goes to the front unless it
is a deletion (`live_concat`), which is what moving its id to the front of the ids does
(`moveToFront_live`).
-/

namespace LedgerHistory

variable {α β κ κ' : Type} [DecidableEq κ] [DecidableEq κ']

/-- The last value of each key, in order. -/
def lastPerKey (key : α → κ) : List α → List α
  | [] => []
  | x :: xs => if xs.any (key · = key x) then lastPerKey key xs else x :: lastPerKey key xs

/-- The values that are the last of their key and no deletion, the most recent in front. -/
def live (key : α → κ) (isDeletion : α → Bool) (xs : List α) : List α :=
  ((lastPerKey key xs).filter fun x => !isDeletion x).reverse

/-- The last value of a key. -/
def lastWith (key : α → κ) (k : κ) (xs : List α) : Option α := (xs.filter (key · = k)).getLast?

section LastPerKey

variable {key : α → κ} {isDeletion : α → Bool} {xs : List α} {x : α}

theorem lastPerKey_sublist (key : α → κ) (xs : List α) : (lastPerKey key xs).Sublist xs := by
  induction xs with
  | nil => exact .slnil
  | cons x xs ih =>
    rw [lastPerKey]
    split
    · exact ih.cons x
    · exact ih.cons_cons x

theorem lastPerKey_concat (key : α → κ) (xs : List α) (x : α) :
    lastPerKey key (xs ++ [x]) = (lastPerKey key xs).filter (key · ≠ key x) ++ [x] := by
  induction xs with
  | nil => simp [lastPerKey]
  | cons y xs ih =>
    rw [List.cons_append, lastPerKey, lastPerKey, List.any_append, ih]
    by_cases hy : xs.any (key · = key y) = true
    · rw [hy, Bool.true_or, if_pos rfl, if_pos rfl]
    · rw [if_neg hy, Bool.eq_false_iff.2 hy, Bool.false_or]
      by_cases hk : key y = key x
      · simp [hk]
      · simp [hk, Ne.symm hk]

theorem live_concat (key : α → κ) (isDeletion : α → Bool) (xs : List α) (x : α) :
    live key isDeletion (xs ++ [x])
      = (if isDeletion x then [] else [x]) ++ (live key isDeletion xs).filter (key · ≠ key x) := by
  rw [live, lastPerKey_concat, List.filter_append, List.reverse_append, live, List.filter_reverse,
    List.filter_filter, List.filter_filter]
  congr 1
  · cases hx : isDeletion x <;> simp [hx]
  · congr 1
    exact List.filter_congr fun y _ => Bool.and_comm ..

theorem mem_of_mem_live (h : x ∈ live key isDeletion xs) : x ∈ xs :=
  (lastPerKey_sublist key xs).subset (List.mem_of_mem_filter (List.mem_reverse.1 h))

theorem lastWith_concat (k : κ) (xs : List α) (x : α) :
    lastWith key k (xs ++ [x]) = if key x = k then some x else lastWith key k xs := by
  rw [lastWith, List.filter_append]
  by_cases hk : key x = k
  · simp [hk]
  · simp [hk, lastWith]

theorem key_of_lastWith {k : κ} (h : lastWith key k xs = some x) : x ∈ xs ∧ key x = k := by
  have := List.mem_filter.1 (List.mem_of_getLast? h)
  simpa using this

theorem lastWith_eq_none_iff {k : κ} : lastWith key k xs = none ↔ ∀ y ∈ xs, key y ≠ k := by
  rw [lastWith, List.getLast?_eq_none_iff, List.filter_eq_nil_iff]
  simp

/-- Among the last values of the keys that of a key is its last one. -/
theorem mem_lastPerKey : x ∈ lastPerKey key xs ↔ lastWith key (key x) xs = some x := by
  induction xs using List.reverseRecOn with
  | nil => simp [lastPerKey, lastWith]
  | append_singleton xs y ih =>
    rw [lastPerKey_concat, lastWith_concat, List.mem_append, List.mem_filter, List.mem_singleton, ih]
    by_cases hk : key y = key x
    · simp [hk, eq_comm]
    · simp only [Ne.symm hk, ne_eq, not_false_eq_true, decide_true, and_true, hk, if_false,
        or_iff_left_iff_imp]
      rintro rfl
      exact absurd rfl hk

end LastPerKey

/-! ## Ids -/

section Ids

variable (key : α → κ) (isDeletion : α → Bool) (id : α → Int64) {xs : List α}

/-- Moving the id of a change to the front keeps the list to the ids of what is live. -/
theorem moveToFront_live (hid : (xs.map id).Nodup) (x : α) :
    Pass.moveToFront ((lastWith key (key x) xs).map id) (isDeletion x) (id x)
        ⟨(live key isDeletion xs).map id⟩
      = ⟨(live key isDeletion (xs ++ [x])).map id⟩ := by
  have hnd : ((live key isDeletion xs).map id).Nodup := by
    refine List.Nodup.sublist ?_ (List.nodup_reverse.2 hid)
    rw [← List.map_reverse]
    exact List.Sublist.map _ (List.reverse_sublist.2 (List.filter_sublist.trans
      (lastPerKey_sublist key xs)))
  have hinj : ∀ y ∈ xs, ∀ z ∈ xs, id y = id z → y = z := fun y hy z hz h =>
    List.inj_on_of_nodup_map hid hy hz h
  have hlast : ∀ y ∈ live key isDeletion xs, lastWith key (key y) xs = some y := fun y hy =>
    mem_lastPerKey.1 (List.mem_of_mem_filter (List.mem_reverse.1 hy))
  rw [live_concat]
  rcases ho : lastWith key (key x) xs with _ | old
  · have hself : (live key isDeletion xs).filter (key · ≠ key x) = live key isDeletion xs := by
      refine List.filter_eq_self.2 fun y hy => ?_
      simpa using lastWith_eq_none_iff.1 ho y (mem_of_mem_live hy)
    rw [hself]
    cases isDeletion x <;> rfl
  · obtain ⟨hold, hk⟩ := key_of_lastWith ho
    have hremove : RecencyList.remove ⟨(live key isDeletion xs).map id⟩ (id old)
        = ⟨((live key isDeletion xs).filter (key · ≠ key x)).map id⟩ := by
      show RecencyList.mk (((live key isDeletion xs).map id).erase (id old)) = _
      rw [hnd.erase_eq_filter, List.filter_map]
      congr 2
      refine List.filter_congr fun y hy => ?_
      rw [Bool.eq_iff_iff, Function.comp_apply, bne_iff_ne, decide_eq_true_iff]
      refine not_congr ⟨fun h => ?_, fun h => ?_⟩
      · rw [hinj y (mem_of_mem_live hy) old hold h, hk]
      · have := hlast y hy
        rw [h, ho] at this
        rw [Option.some.inj this]
    show (if isDeletion x then RecencyList.remove _ (id old)
      else (RecencyList.remove _ (id old)).putFront (id x)) = _
    rw [hremove]
    cases isDeletion x <;> rfl

end Ids

theorem filter_eq_singleton {key : α → κ} {xs : List α} (h : (xs.map key).Nodup) {x : α}
    (hx : x ∈ xs) : xs.filter (key · = key x) = [x] := by
  induction xs with
  | nil => cases hx
  | cons y xs ih =>
    obtain ⟨hy, h⟩ := List.nodup_cons.1 h
    rcases List.mem_cons.1 hx with rfl | hx
    · have hnil : xs.filter (key · = key x) = [] := by
        simp only [List.filter_eq_nil_iff, decide_eq_true_eq]
        exact fun z hz he => hy (List.mem_map.2 ⟨z, hz, he⟩)
      rw [List.filter_cons_of_pos (by simp), hnil]
    · have hne : key y ≠ key x := fun he => hy (List.mem_map.2 ⟨x, hx, he.symm⟩)
      rw [List.filter_cons_of_neg (by simpa using hne), ih h hx]

/-! ## Lists that are alike -/

section Alike

variable {key : α → κ} {key' : β → κ'} {isDeletion : α → Bool} {isDeletion' : β → Bool}
  {R : α → β → Prop} {xs : List α} {ys : List β}

theorem any_key_congr (hkey : ∀ x x' y y', R x y → R x' y' → (key x = key x' ↔ key' y = key' y'))
    (h : List.Forall₂ R xs ys) {x : α} {y : β} (hxy : R x y) :
    xs.any (key · = key x) = ys.any (key' · = key' y) := by
  induction h with
  | nil => rfl
  | cons hxy' _ ih => rw [List.any_cons, List.any_cons, ih, decide_eq_decide.2 (hkey _ _ _ _ hxy' hxy)]

theorem forall₂_filter {p : α → Bool} {q : β → Bool} (hpq : ∀ x y, R x y → p x = q y)
    (h : List.Forall₂ R xs ys) : List.Forall₂ R (xs.filter p) (ys.filter q) := by
  induction h with
  | nil => exact .nil
  | @cons x y _ _ hxy _ ih =>
    rw [List.filter_cons, List.filter_cons, hpq x y hxy]
    split
    · exact .cons hxy ih
    · exact ih

/-- Lists that agree on which keys are the same and on what is a deletion have alike live values. -/
theorem forall₂_live (hkey : ∀ x x' y y', R x y → R x' y' → (key x = key x' ↔ key' y = key' y'))
    (hdel : ∀ x y, R x y → isDeletion x = isDeletion' y) (h : List.Forall₂ R xs ys) :
    List.Forall₂ R (live key isDeletion xs) (live key' isDeletion' ys) := by
  have hlast : List.Forall₂ R (lastPerKey key xs) (lastPerKey key' ys) := by
    induction h with
    | nil => exact .nil
    | cons hxy h ih =>
      rw [lastPerKey, lastPerKey, any_key_congr hkey h hxy]
      split
      · exact ih
      · exact .cons hxy ih
  rw [live, live, List.forall₂_reverse_iff]
  exact forall₂_filter (fun x y hxy => by rw [hdel x y hxy]) hlast

end Alike

theorem forall₂_of_map_eq_filterMap {γ : Type} {f : α → γ} {g : β → Option γ} {xs : List α}
    {ys : List β} (h : xs.map f = ys.filterMap g) :
    List.Forall₂ (fun x y => g y = some (f x)) xs (ys.filter fun y => (g y).isSome) := by
  induction ys generalizing xs with
  | nil =>
    rw [List.filterMap_nil, List.map_eq_nil_iff] at h
    rw [h]
    exact .nil
  | cons y ys ih =>
    rcases hy : g y with _ | c
    · rw [List.filterMap_cons_none hy] at h
      rw [List.filter_cons_of_neg (by simp [hy])]
      exact ih h
    · rw [List.filterMap_cons_some hy] at h
      rw [List.filter_cons_of_pos (by simp [hy])]
      cases xs with
      | nil => cases h
      | cons x xs =>
        obtain ⟨hx, hxs⟩ := List.cons.inj h
        exact .cons (by rw [hy, hx]) (ih hxs)

/-- Live values with increasing ids stand with decreasing ids. -/
theorem pairwise_live {key : α → κ} {isDeletion : α → Bool} {id : α → Int64} {xs : List α}
    (h : xs.Pairwise fun x y => id x < id y) :
    ((live key isDeletion xs).map id).Pairwise (· > ·) := by
  have hs : ((lastPerKey key xs).filter fun x => !isDeletion x).Sublist xs :=
    List.filter_sublist.trans (lastPerKey_sublist key xs)
  rw [live, List.map_reverse, List.pairwise_reverse, List.pairwise_map]
  exact h.sublist hs

end LedgerHistory
