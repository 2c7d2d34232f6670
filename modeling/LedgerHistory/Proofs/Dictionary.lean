import Mathlib.Data.List.Nodup
import LedgerHistory.Dictionary

/-!
# The entries of a dictionary

A new key goes to the end and a known one keeps its place (`entries_insert_of_none`,
`insert_of_get?`), so the keys stay distinct and a look-up finds the one entry of its key
(`get?_eq_some_iff`).
-/

namespace LedgerHistory.Dictionary

variable {κ α β : Type} [DecidableEq κ]

theorem put_of_find?_none {k : κ} {a : α} :
    ∀ {es : List (κ × α)}, find? k es = none → put k a es = es ++ [(k, a)]
  | [], _ => rfl
  | (k', a') :: es, h => by
    by_cases hk : k' = k
    · simp [find?, hk] at h
    · simp only [find?, hk, if_false] at h
      simp [put, hk, put_of_find?_none h]

theorem put_of_find? {k : κ} {a : α} : ∀ {es : List (κ × α)}, find? k es = some a → put k a es = es
  | [], h => by simp [find?] at h
  | (k', a') :: es, h => by
    by_cases hk : k' = k
    · subst hk
      simp only [find?, if_true, Option.some.injEq] at h
      simp [put, h]
    · simp only [find?, hk, if_false] at h
      simp [put, hk, put_of_find? h]

theorem find?_eq_none_iff {k : κ} {es : List (κ × α)} : find? k es = none ↔ k ∉ es.map (·.1) := by
  induction es with
  | nil => simp [find?]
  | cons e es ih =>
    obtain ⟨k', a⟩ := e
    by_cases hk : k' = k
    · simp [find?, hk]
    · simp [find?, hk, ih, Ne.symm hk]

theorem find?_mem {k : κ} {a : α} : ∀ {es : List (κ × α)}, find? k es = some a → (k, a) ∈ es
  | [], h => by cases h
  | (k', a') :: es, h => by
    by_cases hk : k' = k
    · subst hk
      simp only [find?, if_true, Option.some.injEq] at h
      rw [h]
      exact List.mem_cons_self
    · simp only [find?, hk, if_false] at h
      exact List.mem_cons_of_mem _ (find?_mem h)

theorem find?_eq_some_iff {k : κ} {a : α} {es : List (κ × α)} (h : (es.map (·.1)).Nodup) :
    find? k es = some a ↔ (k, a) ∈ es := by
  induction es with
  | nil => simp [find?]
  | cons e es ih =>
    obtain ⟨k', a'⟩ := e
    simp only [List.map_cons, List.nodup_cons] at h
    by_cases hk : k' = k
    · subst hk
      have hn : (k', a) ∉ es := fun hm => h.1 (List.mem_map_of_mem (f := (·.1)) hm)
      simp [find?, hn, eq_comm]
    · simp [find?, hk, Ne.symm hk, ih h.2]

theorem keys_put (k : κ) (a : α) (es : List (κ × α)) :
    (put k a es).map (·.1) = if k ∈ es.map (·.1) then es.map (·.1) else es.map (·.1) ++ [k] := by
  induction es with
  | nil => rfl
  | cons e es ih =>
    obtain ⟨k', a'⟩ := e
    by_cases hk : k' = k
    · simp [put, hk]
    · by_cases hm : k ∈ es.map (·.1) <;> simp only [hm, if_true, if_false] at ih <;>
        simp_all [put, Ne.symm hk]

variable (d : Dictionary κ α)

@[simp] theorem getD_insert (k k' : κ) (a b : α) :
    (d.insert k a).getD k' b = if k = k' then a else d.getD k' b := by
  by_cases hk : k = k' <;> simp [getD, hk]

theorem contains_insert_of_contains {d : Dictionary κ α} {k' : κ} (h : d.contains k' = true) (k : κ)
    (a : α) : (d.insert k a).contains k' = true := by
  by_cases hk : k = k' <;> simp_all [contains]

theorem keys_insert (k : κ) (a : α) :
    (d.insert k a).keys = if k ∈ d.keys then d.keys else d.keys ++ [k] :=
  keys_put k a d.entries

theorem nodup_keys_insert {d : Dictionary κ α} (h : d.keys.Nodup) (k : κ) (a : α) :
    (d.insert k a).keys.Nodup := by
  rw [keys_insert]
  split
  · exact h
  · rename_i hk
    exact List.Nodup.append h (List.nodup_singleton k) (by simpa using hk)

theorem entries_insert_of_none {d : Dictionary κ α} {k : κ} (h : d.get? k = none) (a : α) :
    (d.insert k a).entries = d.entries ++ [(k, a)] :=
  put_of_find?_none h

theorem insert_of_get? {d : Dictionary κ α} {k : κ} {a : α} (h : d.get? k = some a) :
    d.insert k a = d :=
  congrArg Dictionary.mk (put_of_find? h)

theorem get?_eq_none_iff {d : Dictionary κ α} {k : κ} : d.get? k = none ↔ k ∉ d.keys :=
  find?_eq_none_iff

theorem get?_eq_some_iff {d : Dictionary κ α} (h : d.keys.Nodup) {k : κ} {a : α} :
    d.get? k = some a ↔ (k, a) ∈ d.entries :=
  find?_eq_some_iff h

theorem get?_erase (d : Dictionary κ α) (k k' : κ) :
    (d.erase k).get? k' = if k = k' then none else d.get? k' := by
  obtain ⟨es⟩ := d
  induction es with
  | nil => simp [erase, get?, find?]
  | cons e es ih =>
    obtain ⟨x, a⟩ := e
    have ih : find? k' (es.filter (·.1 ≠ k)) = if k = k' then none else find? k' es := ih
    by_cases hx : x = k
    · subst hx
      by_cases hk : x = k'
      · simpa [erase, get?, find?, hk] using ih
      · simpa [erase, get?, find?, hk] using ih
    · by_cases hk : x = k'
      · subst hk
        simp [erase, get?, find?, hx, Ne.symm hx]
      · simpa [erase, get?, find?, hx, hk] using ih

theorem get?_of_get?_erase {d : Dictionary κ α} {k k' : κ} {a : α}
    (h : (d.erase k).get? k' = some a) : d.get? k' = some a := by
  rw [get?_erase] at h
  split at h
  · cases h
  · exact h

theorem mem_entries_insert {t : Dictionary κ α} {k : κ} {a : α} {x : κ × α}
    (h : x ∈ (t.insert k a).entries) : x = (k, a) ∨ x ∈ t.entries := by
  obtain ⟨es⟩ := t
  induction es with
  | nil => exact .inl (List.mem_singleton.1 h)
  | cons y es ih =>
    obtain ⟨k', b⟩ := y
    rw [insert, put] at h
    split at h
    · rcases List.mem_cons.1 h with h | h
      · exact .inl h
      · exact .inr (List.mem_cons_of_mem _ h)
    · rcases List.mem_cons.1 h with h | h
      · exact .inr (h ▸ List.mem_cons_self)
      · exact (ih h).imp_right (List.mem_cons_of_mem _)

theorem get?_map (f : κ → α → β) (t : Dictionary κ α) (k : κ) :
    (t.map f).get? k = (t.get? k).map (f k) := by
  obtain ⟨es⟩ := t
  induction es with
  | nil => rfl
  | cons x es ih =>
    obtain ⟨k', a⟩ := x
    rw [map, get?, List.map_cons, find?, get?, find?]
    split
    · rename_i hk
      rw [hk, Option.map_some]
    · exact ih

/-- The value listed last for a key counts. -/
theorem get?_foldl_insert {γ : Type} (key : γ → κ) (value : γ → α) (k : κ) (d : Dictionary κ α)
    (xs : List γ) :
    (xs.foldl (fun d x => d.insert (key x) (value x)) d).get? k
      = ((xs.reverse.find? (key · = k)).map value).or (d.get? k) := by
  induction xs generalizing d with
  | nil => simp
  | cons x xs ih =>
    rw [List.foldl_cons, ih, List.reverse_cons, List.find?_append, get?_insert]
    by_cases hk : key x = k
    · rcases xs.reverse.find? (key · = k) with _ | y <;> simp [hk]
    · rcases xs.reverse.find? (key · = k) with _ | y <;> simp [hk]

end LedgerHistory.Dictionary
