import LedgerHistory.Proofs.Json.Scalars

/-!
# Reading JSON back

A value without doubles, written without blanks, is read back as it was (`Source.ofChars_chars`), so a
document without doubles that nests no deeper than a text may is what its text holds
(`Json.ofString_compact`), in canonical form again (`Document.ofJson_value`).
-/

namespace LedgerHistory

open Text (isDigit)

namespace Json

mutual

/-- Whether no number inside is a double. -/
def isFloatFree : Json → Bool
  | .number (.float _) => false
  | .array items => areFloatFree items
  | .object fields => fieldsAreFloatFree fields
  | _ => true

/-- Whether no number inside the items is a double. -/
def areFloatFree : List Json → Bool
  | [] => true
  | j :: rest => isFloatFree j && areFloatFree rest

/-- Whether no number inside the fields is a double. -/
def fieldsAreFloatFree : List (String × Json) → Bool
  | [] => true
  | (_, j) :: rest => isFloatFree j && fieldsAreFloatFree rest

end

/-- A value is written with a first character that neither is blank nor closes an array. -/
theorem chars_eq_cons {j : Json} (h : j.isFloatFree) :
    ∃ c cs, j.chars = c :: cs ∧ (∀ rest, Source.dropBlanks (c :: rest) = c :: rest) ∧ c ≠ ']' := by
  match j with
  | .null | .string _ | .array _ | .object _ => exact ⟨_, _, rfl, fun _ => rfl, by decide⟩
  | .bool true | .bool false => exact ⟨_, _, rfl, fun _ => rfl, by decide⟩
  | .number (.float _) => exact absurd h (by simp [isFloatFree])
  | .number (.int n _) =>
    by_cases hn : n < 0
    · exact ⟨'-', decimalDigits n.natAbs, by simp [chars, Number.chars, decimalInt, hn],
        fun _ => rfl, by decide⟩
    · rcases hds : decimalDigits n.natAbs with _ | ⟨d, ds⟩
      · exact absurd hds (decimalDigits_ne_nil _)
      · have hd := isDigit_of_mem_decimalDigits n.natAbs d (by simp [hds])
        refine ⟨d, ds, by simp [chars, Number.chars, decimalInt, hn, hds], fun rest => ?_, ?_⟩
        · have hb : d ≠ ' ' ∧ d ≠ '\n' ∧ d ≠ '\t' ∧ d ≠ '\r' := by
            refine ⟨?_, ?_, ?_, ?_⟩ <;> rintro rfl <;> exact absurd hd (by decide)
          simp [Source.dropBlanks, hb]
        · rintro rfl
          exact absurd hd (by decide)

theorem length_chars_pos {j : Json} (h : j.isFloatFree) : 0 < j.chars.length := by
  obtain ⟨c, cs, e, _⟩ := chars_eq_cons h
  simp [e]

theorem length_moreItemsChars_pos (items : List Json) : 0 < (moreItemsChars items).length := by
  cases items <;> simp [moreItemsChars]

end Json

namespace Source

open Json

theorem endsNumber_moreItems (items : List Json) (rest : List Char) :
    EndsNumber (moreItemsChars items ++ rest) := by
  cases items <;> simp [moreItemsChars, EndsNumber] <;> decide

theorem endsNumber_moreFields (fields : List (String × Json)) (rest : List Char) :
    EndsNumber (moreFieldsChars fields ++ rest) := by
  cases fields <;> simp [moreFieldsChars, EndsNumber] <;> decide

theorem scan_digits (fuel : Nat) {n : Int} (hw : IsWord n) {rest : List Char}
    (hr : EndsNumber rest) :
    scan (fuel + 1) (decimalInt n ++ rest) = ⟨.number (.ok (.int n hw)), some rest⟩ := by
  by_cases hn : n < 0
  · have hs := scanNumber_decimalDigits true n.natAbs hr
    simp [decimalInt, hn, scan, dropBlanks, hs, Literal.scan, value?_of_neg hw hn]
  · have hs := scanNumber_decimalDigits false n.natAbs hr
    have hv := value?_of_nonneg hw (Int.not_lt.1 hn)
    rcases hds : decimalDigits n.natAbs with _ | ⟨d, ds⟩
    · exact absurd hds (decimalDigits_ne_nil _)
    · have hd := isDigit_of_mem_decimalDigits n.natAbs d (by simp [hds])
      rw [hds] at hs hv
      have hb : d ≠ ' ' ∧ d ≠ '\n' ∧ d ≠ '\t' ∧ d ≠ '\r' := by
        refine ⟨?_, ?_, ?_, ?_⟩ <;> rintro rfl <;> exact absurd hd (by decide)
      have hm : d ≠ 'n' ∧ d ≠ 't' ∧ d ≠ 'f' ∧ d ≠ '"' ∧ d ≠ '[' ∧ d ≠ '{' ∧ d ≠ '-' := by
        refine ⟨?_, ?_, ?_, ?_, ?_, ?_, ?_⟩ <;> rintro rfl <;> exact absurd hd (by decide)
      rw [List.cons_append] at hs
      simp [decimalInt, hn, hds, scan, dropBlanks, hb, hm, hd, hs, Literal.scan, hv]

mutual

theorem scan_chars {j : Json} (h : j.isFloatFree) (fuel : Nat) (hf : 2 * j.chars.length ≤ fuel)
    {rest : List Char} (hr : EndsNumber rest) :
    scan fuel (j.chars ++ rest) = ⟨ofJson j, some rest⟩ := by
  have hpos := length_chars_pos h
  obtain ⟨n, rfl⟩ : ∃ n, fuel = n + 1 := ⟨fuel - 1, by omega⟩
  match j with
  | .null => simp [chars, wordChars, scan, dropBlanks, scanWord, ofJson]
  | .bool true => simp [chars, wordChars, scan, dropBlanks, scanWord, ofJson]
  | .bool false => simp [chars, wordChars, scan, dropBlanks, scanWord, ofJson]
  | .number (.float _) => exact absurd h (by simp [isFloatFree])
  | .number (.int n hw) => exact scan_digits _ hw hr
  | .string s =>
    have hs := scanString_stringChars s rest
    simp [chars, stringChars, scan, dropBlanks, hs, ofJson]
  | .array items =>
    have hs := scanItems_itemsChars h n (by simp [chars] at hf; omega) rest
    simp [chars, scan, dropBlanks, hs, ofJson]
  | .object fields =>
    have hs := scanFields_fieldsChars h n (by simp [chars] at hf; omega) rest
    simp [chars, scan, dropBlanks, hs, ofJson]

theorem scanItems_itemsChars {items : List Json} (h : areFloatFree items) (fuel : Nat)
    (hf : 2 * (itemsChars items).length ≤ fuel) (rest : List Char) :
    scanItems fuel true (itemsChars items ++ rest) = ⟨ofItems items, none, some rest⟩ := by
  match items with
  | [] =>
    obtain ⟨n, rfl⟩ : ∃ n, fuel = n + 1 := ⟨fuel - 1, by simp [itemsChars] at hf; omega⟩
    simp [itemsChars, scanItems, dropBlanks, ofItems]
  | j :: items =>
    simp only [areFloatFree, Bool.and_eq_true] at h
    simp only [itemsChars, List.length_append] at hf
    have hpos := length_chars_pos h.1
    have hmore := length_moreItemsChars_pos items
    obtain ⟨n, rfl⟩ : ∃ n, fuel = n + 1 := ⟨fuel - 1, by omega⟩
    have hv := scan_chars h.1 n (by omega) (endsNumber_moreItems items rest)
    have hs := scanItems_moreItemsChars h.2 n (by omega) rest
    obtain ⟨c, cs, hc, hb, hne⟩ := chars_eq_cons h.1
    rw [hc, List.cons_append] at hv
    rw [itemsChars, List.append_assoc, hc, List.cons_append, scanItems, hb]
    simp [hv, hs, PartsScan.cons, ofItems]

theorem scanItems_moreItemsChars {items : List Json} (h : areFloatFree items) (fuel : Nat)
    (hf : 2 * (moreItemsChars items).length ≤ fuel) (rest : List Char) :
    scanItems fuel false (moreItemsChars items ++ rest) = ⟨ofItems items, none, some rest⟩ := by
  match items with
  | [] =>
    obtain ⟨n, rfl⟩ : ∃ n, fuel = n + 1 := ⟨fuel - 1, by simp [moreItemsChars] at hf; omega⟩
    simp [moreItemsChars, scanItems, dropBlanks, ofItems]
  | j :: items =>
    simp only [areFloatFree, Bool.and_eq_true] at h
    simp only [moreItemsChars, List.length_append, List.length_cons] at hf
    have hpos := length_chars_pos h.1
    obtain ⟨n, rfl⟩ : ∃ n, fuel = n + 1 := ⟨fuel - 1, by omega⟩
    have hv := scan_chars h.1 n (by omega) (endsNumber_moreItems items rest)
    have hs := scanItems_moreItemsChars h.2 n (by omega) rest
    obtain ⟨c, cs, hc, hb, hne⟩ := chars_eq_cons h.1
    rw [hc, List.cons_append] at hv
    have hcomma : ∀ cs, dropBlanks (',' :: cs) = ',' :: cs := fun _ => rfl
    rw [moreItemsChars, hc]
    simp only [List.cons_append, List.append_assoc]
    rw [scanItems, hcomma]
    simp [hb, hne, hv, hs, PartsScan.cons, ofItems]

theorem scanFields_fieldsChars {fields : List (String × Json)} (h : fieldsAreFloatFree fields)
    (fuel : Nat) (hf : 2 * (fieldsChars fields).length ≤ fuel) (rest : List Char) :
    scanFields fuel true (fieldsChars fields ++ rest) = ⟨ofFields fields, none, some rest⟩ := by
  match fields with
  | [] =>
    obtain ⟨n, rfl⟩ : ∃ n, fuel = n + 1 := ⟨fuel - 1, by simp [fieldsChars] at hf; omega⟩
    simp [fieldsChars, scanFields, dropBlanks, ofFields]
  | (k, j) :: fields =>
    simp only [fieldsAreFloatFree, Bool.and_eq_true] at h
    simp only [fieldsChars, stringChars, List.length_append, List.length_cons, List.length_nil] at hf
    have hpos := length_chars_pos h.1
    obtain ⟨n, rfl⟩ : ∃ n, fuel = n + 2 := ⟨fuel - 2, by omega⟩
    have hk := scanString_stringChars k (':' :: (j.chars ++ (moreFieldsChars fields ++ rest)))
    have hv := scan_chars h.1 n (by omega) (endsNumber_moreFields fields rest)
    have hs := scanFields_moreFieldsChars h.2 n (by omega) rest
    simp [fieldsChars, stringChars, scanFields, scanField, dropBlanks, hk, hv, hs, PartsScan.cons,
      ofFields]

theorem scanFields_moreFieldsChars {fields : List (String × Json)} (h : fieldsAreFloatFree fields)
    (fuel : Nat) (hf : 2 * (moreFieldsChars fields).length ≤ fuel) (rest : List Char) :
    scanFields fuel false (moreFieldsChars fields ++ rest) = ⟨ofFields fields, none, some rest⟩ := by
  match fields with
  | [] =>
    obtain ⟨n, rfl⟩ : ∃ n, fuel = n + 1 := ⟨fuel - 1, by simp [moreFieldsChars] at hf; omega⟩
    simp [moreFieldsChars, scanFields, dropBlanks, ofFields]
  | (k, j) :: fields =>
    simp only [fieldsAreFloatFree, Bool.and_eq_true] at h
    simp only [moreFieldsChars, stringChars, List.length_append, List.length_cons,
      List.length_nil] at hf
    have hpos := length_chars_pos h.1
    obtain ⟨n, rfl⟩ : ∃ n, fuel = n + 2 := ⟨fuel - 2, by omega⟩
    have hk := scanString_stringChars k (':' :: (j.chars ++ (moreFieldsChars fields ++ rest)))
    have hv := scan_chars h.1 n (by omega) (endsNumber_moreFields fields rest)
    have hs := scanFields_moreFieldsChars h.2 n (by omega) rest
    simp [moreFieldsChars, stringChars, scanFields, scanField, dropBlanks, hk, hv, hs, PartsScan.cons,
      ofFields]

end

theorem ofChars_chars {j : Json} (h : j.isFloatFree) : ofChars j.chars = ⟨ofJson j, true⟩ := by
  have hs := scan_chars h (2 * j.chars.length + 2) (by omega)
    (show EndsNumber [] by simp [EndsNumber])
  rw [List.append_nil] at hs
  simp [ofChars, hs, dropBlanks]

end Source

/-! ## Values -/

namespace Json

mutual

/-- How many levels of arrays and objects are inside one another. -/
def depth : Json → Nat
  | .array items => itemsDepth items + 1
  | .object fields => fieldsDepth fields + 1
  | _ => 0

def itemsDepth : List Json → Nat
  | [] => 0
  | j :: rest => max (depth j) (itemsDepth rest)

/-- The depth of the deepest field. -/
def fieldsDepth : List (String × Json) → Nat
  | [] => 0
  | (_, j) :: rest => max (depth j) (fieldsDepth rest)

end

end Json

namespace Source

open Json

mutual

theorem toJson_ofJson (n : Nat) (j : Json) :
    toJson (some n) (ofJson j) = if j.depth ≤ n then .ok j else .error .malformed := by
  match j with
  | .null | .bool _ | .number _ | .string _ => simp [ofJson, toJson, depth, Except.map]
  | .array items =>
    match n with
    | 0 => simp [ofJson, toJson, depth, Nesting.descend, bind, Except.bind]
    | n + 1 =>
      simp only [ofJson, toJson, depth, Nesting.descend, toItems_ofItems n items, bind, Except.bind,
        stopFault, Nat.add_le_add_iff_right]
      by_cases h : itemsDepth items ≤ n <;> simp [h]
      rfl
  | .object fields =>
    match n with
    | 0 => simp [ofJson, toJson, depth, Nesting.descend, bind, Except.bind]
    | n + 1 =>
      simp only [ofJson, toJson, depth, Nesting.descend, toFields_ofFields n fields, bind,
        Except.bind, stopFault, Nat.add_le_add_iff_right]
      by_cases h : fieldsDepth fields ≤ n <;> simp [h]
      rfl

theorem toItems_ofItems (n : Nat) (items : List Json) : toItems (some n) (ofItems items)
    = if itemsDepth items ≤ n then .ok items else .error .malformed := by
  match items with
  | [] => simp [ofItems, toItems, itemsDepth]
  | j :: items =>
    simp only [ofItems, toItems, itemsDepth, toJson_ofJson n j, toItems_ofItems n items, bind,
      Except.bind, Nat.max_le]
    by_cases hj : j.depth ≤ n <;> by_cases hi : itemsDepth items ≤ n <;> simp [hj, hi]
    rfl

theorem toFields_ofFields (n : Nat) (fields : List (String × Json)) :
    toFields (some n) (ofFields fields)
      = if fieldsDepth fields ≤ n then .ok fields else .error .malformed := by
  match fields with
  | [] => simp [ofFields, toFields, fieldsDepth]
  | (k, j) :: fields =>
    simp only [ofFields, toFields, fieldsDepth, toJson_ofJson n j, toFields_ofFields n fields, bind,
      Except.bind, Nat.max_le]
    by_cases hj : j.depth ≤ n <;> by_cases hi : fieldsDepth fields ≤ n <;> simp [hj, hi]
    rfl

end

end Source

namespace Json

/-- The text of a value is the value again, unless it nests deeper than a text may. -/
theorem ofString_compact {j : Json} (h : j.isFloatFree) :
    ofString j.compact = if j.depth ≤ maxDepth then .ok j else .error .malformed := by
  simp only [ofString, compact, String.toList_ofList, ofChars, Source.ofChars_chars h,
    Source.toJson_ofJson]
  by_cases hd : j.depth ≤ maxDepth <;> simp [hd]

/-! ## Canonical form -/

theorem lt_of_namesIncrease {k : String} {j : Json} :
    ∀ {fs : List (String × Json)}, namesIncrease ((k, j) :: fs) → ∀ e ∈ fs, k < e.1
  | [], _, _, he => by simp at he
  | (l, i) :: fs, h, e, he => by
    simp only [namesIncrease, Bool.and_eq_true, decide_eq_true_eq] at h
    rcases List.mem_cons.1 he with rfl | he
    · exact h.1
    · exact String.lt_trans h.1 (lt_of_namesIncrease h.2 e he)

theorem namesIncrease_tail {e : String × Json} {fs : List (String × Json)}
    (h : namesIncrease (e :: fs)) : namesIncrease fs := by
  cases fs with
  | nil => rfl
  | cons e' fs => simp_all [namesIncrease]

theorem insertField_cons_of_lt {k l : String} (h : k < l) (j i : Json) (rest : List (String × Json)) :
    insertField k j ((l, i) :: rest) = (k, j) :: (l, i) :: rest := if_pos h

theorem insertField_cons_of_gt {k l : String} (h : l < k) (j i : Json) (rest : List (String × Json)) :
    insertField k j ((l, i) :: rest) = (l, i) :: insertField k j rest := by
  have hk : ¬k < l := fun hk => String.lt_irrefl l (String.lt_trans h hk)
  have hne : k ≠ l := fun e => String.lt_irrefl l (e ▸ h)
  rw [insertField, if_neg hk, if_neg hne]

theorem insertField_of_lt {k : String} {j : Json} :
    ∀ {fs : List (String × Json)}, (∀ e ∈ fs, e.1 < k) → insertField k j fs = fs ++ [(k, j)]
  | [], _ => rfl
  | (l, i) :: fs, h => by
    rw [insertField_cons_of_gt (h _ List.mem_cons_self),
      insertField_of_lt fun e he => h e (List.mem_cons_of_mem _ he), List.cons_append]

mutual

theorem canonical_of_isCanonical {j : Json} (h : j.isCanonical) : j.canonical = j := by
  match j with
  | .null | .bool _ | .number _ | .string _ => rfl
  | .array items => rw [canonical, canonicalItems_of_areCanonical h]
  | .object fields =>
    simp only [isCanonical, Bool.and_eq_true] at h
    rw [canonical, canonicalFields_of_canonical h.1 h.2 (by simp), List.nil_append]

theorem canonicalItems_of_areCanonical {items : List Json} (h : areCanonical items) :
    canonicalItems items = items := by
  match items with
  | [] => rfl
  | j :: items =>
    simp only [areCanonical, Bool.and_eq_true] at h
    rw [canonicalItems, canonical_of_isCanonical h.1, canonicalItems_of_areCanonical h.2]

theorem canonicalFields_of_canonical {placed fields : List (String × Json)}
    (hn : namesIncrease fields) (hc : fieldsAreCanonical fields)
    (hp : ∀ e ∈ placed, ∀ e' ∈ fields, e.1 < e'.1) :
    canonicalFields placed fields = placed ++ fields := by
  match fields with
  | [] => simp [canonicalFields]
  | (k, j) :: fields =>
    simp only [fieldsAreCanonical, Bool.and_eq_true] at hc
    have hk : ∀ e ∈ placed, e.1 < k := fun e he => hp e he (k, j) List.mem_cons_self
    have hnext : ∀ e ∈ placed ++ [(k, j)], ∀ e' ∈ fields, e.1 < e'.1 := by
      intro e he e' he'
      rcases List.mem_append.1 he with he | he
      · exact hp e he e' (List.mem_cons_of_mem _ he')
      · rw [List.mem_singleton.1 he]
        exact lt_of_namesIncrease hn e' he'
    rw [canonicalFields, canonical_of_isCanonical hc.1, insertField_of_lt hk,
      canonicalFields_of_canonical (namesIncrease_tail hn) hc.2 hnext, List.append_assoc]
    rfl

end

end Json

theorem Document.ofJson_value (d : Document) : .ofJson d.value = d := by
  obtain ⟨j, h⟩ := d
  simp [ofJson, Json.canonical_of_isCanonical h]

end LedgerHistory
