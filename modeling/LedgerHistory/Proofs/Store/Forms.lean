import LedgerHistory.Proofs.Store.Copy

/-!
# Readers and the forms they read

A form tells which bytes stand for which value. A reader reads a form (`Copy.Reads`) when it takes
the bytes of a value off the front of a stream, whatever follows them, and fails on everything else,
at a place inside the stream; bytes of the form that the end cuts short it misses as such. Readers
one after another read the forms one after another (`Copy.Reads.bind`), so what a reader reads is
told along its definition.
-/

namespace LedgerHistory

namespace Bytes

theorem foldl_eq_add (bytes : List UInt8) (n : Nat) : bytes.foldl (fun n b => n * 256 + b.toNat) n
    = n * Nat.pow 256 bytes.length + ofBigEndian bytes := by
  induction bytes generalizing n with
  | nil => exact (congrArg (· + 0) (Nat.mul_one n)).symm
  | cons b bytes ih =>
    rw [ofBigEndian, List.foldl_cons, List.foldl_cons, ih, ih]
    show _ = n * (Nat.pow 256 bytes.length * 256) + _
    grind

theorem ofBigEndian_cons (b : UInt8) (bytes : List UInt8) :
    ofBigEndian (b :: bytes) = b.toNat * Nat.pow 256 bytes.length + ofBigEndian bytes := by
  rw [ofBigEndian, List.foldl_cons, foldl_eq_add, Nat.zero_mul, Nat.zero_add]

theorem ofBigEndian_lt (bytes : List UInt8) : ofBigEndian bytes < Nat.pow 256 bytes.length := by
  induction bytes with
  | nil => exact Nat.one_pos
  | cons b bytes ih =>
    have hb : b.toNat + 1 ≤ 256 := b.toNat_lt
    calc ofBigEndian (b :: bytes)
        < b.toNat * Nat.pow 256 bytes.length + Nat.pow 256 bytes.length := by
          rw [ofBigEndian_cons]
          exact Nat.add_lt_add_left ih _
      _ = (b.toNat + 1) * Nat.pow 256 bytes.length := by rw [Nat.add_mul, Nat.one_mul]
      _ ≤ 256 * Nat.pow 256 bytes.length := Nat.mul_le_mul_right _ hb
      _ = Nat.pow 256 (b :: bytes).length := Nat.mul_comm ..

/-- Bytes of one length are told apart by the number they make. -/
theorem ofBigEndian_inj {bytes bytes' : List UInt8} (hl : bytes.length = bytes'.length)
    (h : ofBigEndian bytes = ofBigEndian bytes') : bytes = bytes' := by
  induction bytes generalizing bytes' with
  | nil => exact (List.length_eq_zero_iff.1 hl.symm).symm
  | cons b bytes ih =>
    rcases bytes' with _ | ⟨b', bytes'⟩
    · cases hl
    · have hl : bytes.length = bytes'.length := Nat.succ.inj hl
      have hm := ofBigEndian_lt bytes
      have hm' := ofBigEndian_lt bytes'
      rw [ofBigEndian_cons, ofBigEndian_cons, hl] at h
      rw [hl] at hm
      have hpos : 0 < Nat.pow 256 bytes'.length := Nat.zero_lt_of_lt hm
      have hquot := congrArg (· / Nat.pow 256 bytes'.length) h
      simp only [Nat.mul_comm _ (Nat.pow _ _), Nat.mul_add_div hpos, Nat.div_eq_of_lt hm,
        Nat.div_eq_of_lt hm', Nat.add_zero] at hquot
      rw [hquot] at h
      rw [UInt8.toNat_inj.1 hquot, ih hl (Nat.add_left_cancel h)]

theorem bigEndian_ofBigEndian (bytes : List UInt8) :
    bigEndian bytes.length (ofBigEndian bytes) = bytes := by
  refine ofBigEndian_inj (length_bigEndian ..) ?_
  rw [ofBigEndian_bigEndian]
  exact Nat.mod_eq_of_lt (ofBigEndian_lt bytes)

theorem ofInt64_toInt64 {bytes : List UInt8} (h : bytes.length = 8) :
    ofInt64 (toInt64 bytes) = bytes := by
  have hlt := ofBigEndian_lt bytes
  have hb := bigEndian_ofBigEndian bytes
  rw [h] at hlt hb
  rw [ofInt64, toInt64, UInt64.toUInt64_toInt64, UInt64.toNat_ofNat_of_lt' hlt, hb]

theorem ofInt32_toInt32 {bytes : List UInt8} (h : bytes.length = 4) :
    ofInt32 (toInt32 bytes) = bytes := by
  have hlt := ofBigEndian_lt bytes
  have hb := bigEndian_ofBigEndian bytes
  rw [h] at hlt hb
  rw [ofInt32, toInt32, UInt32.toUInt32_toInt32, UInt32.toNat_ofNat_of_lt' hlt, hb]

theorem ofInt16_toInt16 {bytes : List UInt8} (h : bytes.length = 2) :
    ofInt16 (toInt16 bytes) = bytes := by
  have hlt := ofBigEndian_lt bytes
  have hb := bigEndian_ofBigEndian bytes
  rw [h] at hlt hb
  rw [ofInt16, toInt16, UInt16.toUInt16_toInt16, UInt16.toNat_ofNat_of_lt' hlt, hb]

end Bytes

namespace Copy

variable {α β : Type}

/-- Whether a reader reads a form, on streams shorter than a limit. -/
structure Reads (limit : Nat) (form : List UInt8 → α → Prop)
    (read : Cursor → Except Corruption (α × Cursor)) : Prop where
  sound {c c' : Cursor} {a : α} (hc : c.rest.length < limit) (h : read c = .ok (a, c')) :
    ∃ bytes, form bytes a ∧ c.rest = bytes ++ c'.rest ∧ c'.offset = c.offset + bytes.length
  complete {bytes rest : List UInt8} {a : α} (hl : (bytes ++ rest).length < limit)
    (h : form bytes a) (offset : Nat) :
    read ⟨offset, bytes ++ rest⟩ = .ok (a, ⟨offset + bytes.length, rest⟩)
  cut {front back : List UInt8} {a : α} (hl : front.length < limit) (h : form (front ++ back) a)
    (hback : back ≠ []) (offset : Nat) :
    ∃ o, read ⟨offset, front⟩ = .error ⟨o, .unexpectedEnd⟩
  inside {c : Cursor} {e : Corruption} (hc : c.rest.length < limit) (h : read c = .error e) :
    e.offset ≤ c.offset + c.rest.length

namespace Reads

variable {limit : Nat} {form : List UInt8 → α → Prop} {read : Cursor → Except Corruption (α × Cursor)}

theorem congr {form' : List UInt8 → α → Prop} (h : Reads limit form read)
    (hform : ∀ bytes a, form bytes a ↔ form' bytes a) : Reads limit form' read := by
  obtain rfl : form = form' := funext₂ fun bytes a => propext (hform bytes a)
  exact h

theorem mono {limit' : Nat} (h : Reads limit form read) (hl : limit' ≤ limit) :
    Reads limit' form read where
  sound hc := h.sound (Nat.lt_of_lt_of_le hc hl)
  complete hb := h.complete (Nat.lt_of_lt_of_le hb hl)
  cut hf := h.cut (Nat.lt_of_lt_of_le hf hl)
  inside hc := h.inside (Nat.lt_of_lt_of_le hc hl)

/-- A reader whose fuel is measured by what is left. -/
theorem of_fuel {read : Nat → Cursor → Except Corruption (α × Cursor)}
    (h : ∀ fuel, Reads fuel form (read fuel)) :
    Reads limit form fun c => read (c.rest.length + 1) c where
  sound _ := (h _).sound (Nat.lt_succ_self _)
  complete _ := (h _).complete (Nat.lt_succ_self _)
  cut _ := (h _).cut (Nat.lt_succ_self _)
  inside _ := (h _).inside (Nat.lt_succ_self _)

theorem ite {form' : List UInt8 → α → Prop} {read' : Cursor → Except Corruption (α × Cursor)}
    {p : Prop} [Decidable p] (h : p → Reads limit form read) (h' : ¬p → Reads limit form' read') :
    Reads limit (fun bytes a => p ∧ form bytes a ∨ ¬p ∧ form' bytes a)
      fun c => if p then read c else read' c := by
  by_cases hp : p
  · simpa only [hp, true_and, not_true_eq_false, false_and, or_false, if_true] using h hp
  · simpa only [hp, true_and, not_false_eq_true, false_and, false_or, if_false] using h' hp

theorem complete_all (h : Reads limit form read) {bytes : List UInt8} {a : α}
    (hl : bytes.length < limit) (hb : form bytes a) (offset : Nat) :
    read ⟨offset, bytes⟩ = .ok (a, ⟨offset + bytes.length, []⟩) := by
  have hread : read ⟨offset, bytes ++ []⟩ = .ok (a, ⟨offset + bytes.length, []⟩) :=
    h.complete (by rwa [List.append_nil]) hb offset
  rwa [List.append_nil] at hread

/-- A reader followed by one that goes by what it read. -/
theorem bind {next : α → List UInt8 → β → Prop}
    {readNext : α → Cursor → Except Corruption (β × Cursor)} (h : Reads limit form read)
    (hnext : ∀ bytes a, form bytes a → Reads (limit - bytes.length) (next a) (readNext a)) :
    Reads limit (fun bytes b => ∃ front a back, bytes = front ++ back ∧ form front a ∧ next a back b)
      fun c => read c >>= fun p => readNext p.1 p.2 where
  sound := by
    intro c c' b hc hb
    obtain ⟨⟨a, c₁⟩, hfirst, hb⟩ := bind_eq_ok.1 hb
    obtain ⟨front, hfront, hrest, hoffset⟩ := h.sound hc hfirst
    have hc₁ : c₁.rest.length < limit - front.length := by
      rw [hrest, List.length_append] at hc
      omega
    obtain ⟨back, hback, hrest', hoffset'⟩ := (hnext front a hfront).sound hc₁ hb
    refine ⟨front ++ back, ⟨front, a, back, rfl, hfront, hback⟩, ?_, ?_⟩
    · rw [hrest, hrest', List.append_assoc]
    · rw [hoffset', hoffset, List.length_append, Nat.add_assoc]
  complete := by
    rintro _ rest b hl ⟨front, a, back, rfl, hfront, hback⟩ offset
    have hl' : (back ++ rest).length < limit - front.length := by
      simp only [List.length_append] at hl ⊢
      omega
    rw [List.append_assoc] at hl ⊢
    refine bind_eq_ok.2 ⟨_, h.complete hl hfront offset, ?_⟩
    rw [(hnext front a hfront).complete hl' hback, List.length_append, Nat.add_assoc]
  cut := by
    rintro cut lost b hl ⟨front, a, back, he, hfront, hback⟩ hlost offset
    rcases List.append_eq_append_iff.1 he with ⟨missing, hf, rfl⟩ | ⟨kept, rfl, hb⟩
    · -- the cut falls into what the first reader reads, unless it falls right behind it
      by_cases hm : missing = []
      · subst hm
        rw [List.append_nil] at hf
        subst hf
        have hnil : ([] : List UInt8).length < limit - front.length := Nat.sub_pos_of_lt hl
        obtain ⟨o, ho⟩ := (hnext front a hfront).cut hnil hback hlost (offset + front.length)
        exact ⟨o, by rw [h.complete_all hl hfront]; exact ho⟩
      · rw [hf] at hfront
        obtain ⟨o, ho⟩ := h.cut hl hfront hm offset
        exact ⟨o, by rw [ho]; rfl⟩
    · have hl' : kept.length < limit - front.length := by
        rw [List.length_append] at hl
        omega
      rw [hb] at hback
      obtain ⟨o, ho⟩ := (hnext front a hfront).cut hl' hback hlost (offset + front.length)
      exact ⟨o, by rw [h.complete hl hfront offset]; exact ho⟩
  inside := by
    intro c e hc he
    rcases bind_eq_error.1 he with he | ⟨⟨a, c₁⟩, hfirst, he⟩
    · exact h.inside hc he
    · obtain ⟨front, hfront, hrest, hoffset⟩ := h.sound hc hfirst
      have hlen : c.rest.length = front.length + c₁.rest.length := by
        rw [hrest, List.length_append]
      have hc₁ : c₁.rest.length < limit - front.length := by omega
      have hin : e.offset ≤ c₁.offset + c₁.rest.length := (hnext front a hfront).inside hc₁ he
      omega

/-- A reader whose value is looked into. What is wrong with it is found inside of what was read. -/
theorem check {form' : α → β → Prop} {check : Nat → α → Except Corruption β}
    (h : Reads limit form read) (hok : ∀ o a b, check o a = .ok b ↔ form' a b)
    (herror : ∀ o bytes a e, form bytes a → check o a = .error e → e.offset ≤ o + bytes.length) :
    Reads limit (fun bytes b => ∃ a, form bytes a ∧ form' a b)
      fun c => read c >>= fun p => check c.offset p.1 >>= fun b => .ok (b, p.2) where
  sound := by
    intro c c' b hc hb
    obtain ⟨⟨a, c₁⟩, hfirst, hb⟩ := bind_eq_ok.1 hb
    obtain ⟨b', hcheck, hb⟩ := bind_eq_ok.1 hb
    cases hb
    obtain ⟨bytes, hbytes, hc'⟩ := h.sound hc hfirst
    exact ⟨bytes, ⟨a, hbytes, (hok _ a b).1 hcheck⟩, hc'⟩
  complete := by
    rintro bytes rest b hl ⟨a, hbytes, hb⟩ offset
    exact bind_eq_ok.2 ⟨_, h.complete hl hbytes offset, bind_eq_ok.2 ⟨b, (hok _ a b).2 hb, rfl⟩⟩
  cut := by
    rintro front back b hl ⟨a, hbytes, _⟩ hback offset
    obtain ⟨o, ho⟩ := h.cut hl hbytes hback offset
    exact ⟨o, by rw [ho]; rfl⟩
  inside := by
    intro c e hc he
    rcases bind_eq_error.1 he with he | ⟨⟨a, c₁⟩, hfirst, he⟩
    · exact h.inside hc he
    · obtain ⟨bytes, hbytes, hrest, _⟩ := h.sound hc hfirst
      rcases bind_eq_error.1 he with hcheck | ⟨b, _, he⟩
      · have hlen : c.rest.length = bytes.length + c₁.rest.length := by
          rw [hrest, List.length_append]
        have hin := herror _ bytes a e hbytes hcheck
        omega
      · cases he

end Reads

/-! ## Where every reader begins -/

variable (limit : Nat)

theorem reads_done (a : α) :
    Reads limit (fun bytes b => bytes = [] ∧ b = a) fun c => .ok (a, c) where
  sound := by
    intro c c' b _ h
    cases h
    exact ⟨[], ⟨rfl, rfl⟩, rfl, rfl⟩
  complete := by
    rintro _ rest b _ ⟨rfl, rfl⟩ offset
    rfl
  cut := by
    rintro front back b _ ⟨h, _⟩ hback
    exact absurd (List.append_eq_nil_iff.1 h).2 hback
  inside := nofun

theorem reads_fail (fault : StreamFault) :
    Reads limit (fun _ (_ : α) => False) fun c => c.fail fault where
  sound := nofun
  complete := nofun
  cut := nofun
  inside := by
    rintro c e _ h
    cases h
    exact Nat.le_add_right _ _

theorem reads_take (n : Nat) :
    Reads limit (fun bytes a => bytes.length = n ∧ a = bytes) (Cursor.take · n) where
  sound := by
    intro c c' a _ h
    simp only [Cursor.take, List.splitAt_eq] at h
    split at h
    · rename_i hlen
      cases h
      exact ⟨_, ⟨hlen, rfl⟩, (List.take_append_drop n c.rest).symm, by rw [hlen]⟩
    · cases h
  complete := by
    rintro bytes rest a _ ⟨hlen, rfl⟩ offset
    rw [take_append hlen, hlen]
  cut := by
    rintro front back a _ ⟨hlen, _⟩ hback offset
    have hshort : (front.take n).length ≠ n := by
      have hpos := List.length_pos_iff.2 hback
      rw [List.length_append] at hlen
      rw [List.length_take]
      omega
    refine ⟨offset, ?_⟩
    simp only [Cursor.take, List.splitAt_eq]
    rw [if_neg hshort]
    rfl
  inside := by
    intro c e _ h
    simp only [Cursor.take, List.splitAt_eq] at h
    split at h
    · cases h
    · cases h
      exact Nat.le_add_right _ _

theorem reads_int16 : Reads limit (fun bytes n => bytes = Bytes.ofInt16 n) Cursor.int16 := by
  refine ((reads_take limit 2).bind fun _ a _ => reads_done _ (Bytes.toInt16 a)).congr
    fun bytes n => ⟨?_, ?_⟩
  · rintro ⟨front, a, back, rfl, ⟨hlen, rfl⟩, rfl, rfl⟩
    rw [List.append_nil, Bytes.ofInt16_toInt16 hlen]
  · rintro rfl
    exact ⟨_, _, [], (List.append_nil _).symm, ⟨Bytes.length_ofInt16 n, rfl⟩, rfl,
      (Bytes.toInt16_ofInt16 n).symm⟩

theorem reads_int32 : Reads limit (fun bytes n => bytes = Bytes.ofInt32 n) Cursor.int32 := by
  refine ((reads_take limit 4).bind fun _ a _ => reads_done _ (Bytes.toInt32 a)).congr
    fun bytes n => ⟨?_, ?_⟩
  · rintro ⟨front, a, back, rfl, ⟨hlen, rfl⟩, rfl, rfl⟩
    rw [List.append_nil, Bytes.ofInt32_toInt32 hlen]
  · rintro rfl
    exact ⟨_, _, [], (List.append_nil _).symm, ⟨Bytes.length_ofInt32 n, rfl⟩, rfl,
      (Bytes.toInt32_ofInt32 n).symm⟩

end Copy

end LedgerHistory
