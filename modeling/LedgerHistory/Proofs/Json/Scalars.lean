import LedgerHistory.Json.Printer
import LedgerHistory.Json.Source

/-!
# Reading strings and integers back

The reader takes up an escaped string as the string (`Source.scanString_escape`) and the decimal
digits of an integer as the integer (`Source.scanNumber_decimalDigits`), whatever follows them that
cannot belong to a number.
-/

namespace LedgerHistory

open Text (hexValue? isDigit numeral)

/-! ## Digits -/

theorem isDigit_digitChar : ∀ n < 10, isDigit (Nat.digitChar n) = true := by decide

theorem hexValue?_digitChar : ∀ n < 16, hexValue? (Nat.digitChar n) = some n := by decide

theorem numeral_append (base : Nat) (ds : List Char) (d : Char) :
    numeral base (ds ++ [d]) = numeral base ds * base + (hexValue? d).getD 0 := by
  simp [numeral]

theorem isDigit_of_mem_decimalDigits (n : Nat) : ∀ c ∈ decimalDigits n, isDigit c = true := by
  induction n using Nat.strongRecOn with
  | ind n ih =>
    rw [decimalDigits, Nat.toDigits_eq_if (by decide)]
    split
    · rename_i h
      simpa using isDigit_digitChar n h
    · rename_i h
      intro c hc
      rcases List.mem_append.1 hc with hc | hc
      · exact ih (n / 10) (by omega) c hc
      · rw [List.mem_singleton.1 hc]
        exact isDigit_digitChar _ (by omega)

theorem numeral_decimalDigits (n : Nat) : numeral 10 (decimalDigits n) = n := by
  induction n using Nat.strongRecOn with
  | ind n ih =>
    rw [decimalDigits, Nat.toDigits_eq_if (by decide)]
    split
    · rename_i h
      simp [numeral, hexValue?_digitChar n (by omega)]
    · rename_i h
      rw [numeral_append, hexValue?_digitChar _ (by omega)]
      have := ih (n / 10) (by omega)
      rw [decimalDigits] at this
      rw [this, Option.getD_some]
      omega

theorem decimalDigits_ne_nil (n : Nat) : decimalDigits n ≠ [] := Nat.toDigits_ne_nil

theorem digitChar_ne_zero : ∀ n < 10, n ≠ 0 → Nat.digitChar n ≠ '0' := by decide

theorem head?_decimalDigits {n : Nat} (h : n ≠ 0) : (decimalDigits n).head? ≠ some '0' := by
  induction n using Nat.strongRecOn with
  | ind n ih =>
    rw [decimalDigits, Nat.toDigits_eq_if (by decide)]
    split
    · rename_i hn
      simpa using digitChar_ne_zero n hn h
    · rename_i hn
      have := ih (n / 10) (by omega) (by omega)
      rcases hds : decimalDigits (n / 10) with _ | ⟨d, ds⟩
      · exact absurd hds (decimalDigits_ne_nil _)
      · rw [decimalDigits] at this hds
        rw [hds] at this ⊢
        exact this

namespace Source

/-! ## Strings -/

/-- A control character comes back from the number that its escape gives. -/
theorem unit_hexDigit : ∀ n < 32,
    hexValue? '0' = some 0 ∧ hexValue? (Json.hexDigit (n / 16)) = some (n / 16)
      ∧ hexValue? (Json.hexDigit (n % 16)) = some (n % 16) := by decide

theorem scanString_escape_cons (c : Char) (acc rest : List Char) :
    scanString (.ok (acc, none)) (Json.escape c ++ rest) = scanString (.ok (c :: acc, none)) rest := by
  unfold Json.escape
  split
  · rename_i h; subst h; simp [scanString, StringState.push]
  split
  · rename_i h; subst h; simp [scanString, StringState.push]
  split
  · rename_i h; subst h; simp [scanString, StringState.push]
  split
  · rename_i h; subst h; simp [scanString, StringState.push]
  split
  · rename_i h; subst h; simp [scanString, StringState.push]
  split
  · rename_i h; subst h; simp [scanString, StringState.push]
  split
  · rename_i h; subst h; simp [scanString, StringState.push]
  split
  · rename_i h
    obtain ⟨h0, h1, h2⟩ := unit_hexDigit c.toNat h
    have hn : ((0 * 16 + 0) * 16 + c.toNat / 16) * 16 + c.toNat % 16 = c.toNat := by omega
    simp only [List.cons_append, List.nil_append, scanString, h0, h1, h2, hn, StringState.pushUnit]
    rw [if_neg (by omega), if_neg (by omega), Char.ofNat_toNat]
  · rename_i _ hb _ _ _ _ _ hc
    simp [scanString, hb, hc, StringState.push]

theorem scanString_escape (s acc rest : List Char) :
    scanString (.ok (acc, none)) (s.flatMap Json.escape ++ '"' :: rest)
      = ⟨.ok (String.ofList (acc.reverse ++ s)), .ok rest⟩ := by
  induction s generalizing acc with
  | nil => simp [scanString, StringState.finish]
  | cons c s ih => simp [scanString_escape_cons, ih]

theorem scanString_stringChars (s : String) (rest : List Char) :
    scanString (.ok ([], none)) (s.toList.flatMap Json.escape ++ '"' :: rest)
      = ⟨.ok s, .ok rest⟩ := by
  simpa using scanString_escape s.toList [] rest

/-! ## Integers -/

/-- What may follow a number: the end, or a character that does not go on with it. -/
def EndsNumber (rest : List Char) : Prop :=
  ∀ c ∈ rest.head?, isDigit c = false ∧ c ≠ '.' ∧ c ≠ 'e' ∧ c ≠ 'E'

theorem scanFraction_of_endsNumber {rest : List Char} (h : EndsNumber rest) (l : Literal) :
    scanFraction l rest = l.scan rest := by
  cases rest with
  | nil => rfl
  | cons c rest =>
    obtain ⟨_, hp, he, hE⟩ := h c rfl
    simp [scanFraction, scanExponent, hp, he, hE]

theorem takeWhile_digits {ds rest : List Char} (hd : ∀ c ∈ ds, isDigit c = true)
    (h : EndsNumber rest) :
    (ds ++ rest).takeWhile isDigit = ds ∧ (ds ++ rest).dropWhile isDigit = rest := by
  induction ds with
  | nil =>
    cases rest with
    | nil => exact ⟨rfl, rfl⟩
    | cons c rest => simp [(h c rfl).1]
  | cons d ds ih =>
    have := ih fun c hc => hd c (List.mem_cons_of_mem d hc)
    simp [hd d List.mem_cons_self, this]

theorem scanNumber_decimalDigits (negative : Bool) (n : Nat) {rest : List Char}
    (h : EndsNumber rest) : scanNumber negative (decimalDigits n ++ rest)
      = (Literal.mk negative (decimalDigits n) none none).scan rest := by
  by_cases hn : n = 0
  · subst hn
    have hd : (rest.head?.map isDigit).getD false = false := by
      cases rest with
      | nil => rfl
      | cons c rest => exact (h c rfl).1
    show scanNumber negative ('0' :: rest) = _
    rw [scanNumber, hd, if_neg (by decide), scanFraction_of_endsNumber h]
    rfl
  · obtain ⟨ht, hr⟩ := takeWhile_digits (isDigit_of_mem_decimalDigits n) h
    have hhead := head?_decimalDigits hn
    rcases hds : decimalDigits n with _ | ⟨d, ds⟩
    · exact absurd hds (decimalDigits_ne_nil n)
    · rw [hds] at ht hr hhead
      have hd : d ≠ '0' := by simpa using hhead
      rw [List.cons_append] at ht hr ⊢
      rw [scanNumber]
      · simp only [ht, hr, scanFraction_of_endsNumber h]
      · intro r e
        exact hd (List.cons.inj e).1

theorem value?_of_nonneg {n : Int} (hw : IsWord n) (h : 0 ≤ n) :
    (Literal.mk false (decimalDigits n.natAbs) none none).value? = some (.int n hw) := by
  have hu := hw.2
  have hlt : n.natAbs < 0x10000000000000000 := by omega
  have hn : (n.natAbs : Int) = n := by omega
  simp only [Literal.value?, numeral_decimalDigits, Option.isNone_none, Bool.true_and, hlt,
    decide_true, Bool.not_false, Bool.and_self, if_true, Number.ofInt, hn]
  rw [dif_pos hw]

theorem value?_of_neg {n : Int} (hw : IsWord n) (h : n < 0) :
    (Literal.mk true (decimalDigits n.natAbs) none none).value? = some (.int n hw) := by
  have hl := hw.1
  have hlt : n.natAbs < 0x10000000000000000 := by omega
  have hpos : 0 < n.natAbs := by omega
  have hle : n.natAbs ≤ 0x8000000000000000 := by omega
  have hn : -(n.natAbs : Int) = n := by omega
  simp only [Literal.value?, numeral_decimalDigits, Option.isNone_none, hlt, hpos, hle, decide_true,
    Bool.not_true, Bool.and_self, Bool.and_false, Bool.false_eq_true, if_true, if_false,
    Number.ofInt, hn]
  rw [dif_pos hw]

end Source

end LedgerHistory
