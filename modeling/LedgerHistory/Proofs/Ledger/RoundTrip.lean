import Mathlib.Data.String.Basic
import LedgerHistory.Ledger.Codec
import LedgerHistory.Proofs.Json.Decoding

/-!
# Reading an extension back

An extension is read back as it was out of the value that it is written as, with the fields of each
object in either order, unless a role rule or a royalty is null, which counts as missing. No extension
that was read has one (`LedgerExtension.ofValue_encode_iff`). So what was read once is read again from
what is written, and a removal stays one.
-/

namespace LedgerHistory

/-! ## Parts -/

namespace Hex

theorem mem_encodeBytes {bytes : List UInt8} {d : UInt8} (h : d ∈ encodeBytes bytes) :
    d < 128 ∧ d ≠ 120 := by
  induction bytes with
  | nil => cases h
  | cons b bytes ih =>
    have hb : (digit (b / 16) < 128 ∧ digit (b / 16) ≠ 120)
        ∧ digit (b % 16) < 128 ∧ digit (b % 16) ≠ 120 :=
      forall_byte (P := fun b => (digit (b / 16) < 128 ∧ digit (b / 16) ≠ 120)
        ∧ digit (b % 16) < 128 ∧ digit (b % 16) ≠ 120) (by decide +kernel) b
    rw [encodeBytes, List.mem_cons, List.mem_cons] at h
    obtain rfl | rfl | h := h
    · exact hb.1
    · exact hb.2
    · exact ih h

theorem utf8EncodeChar_of_lt {b : UInt8} (h : b < 128) :
    String.utf8EncodeChar (Char.ofNat b.toNat) = [b] :=
  forall_byte (P := fun b => b < 128 → String.utf8EncodeChar (Char.ofNat b.toNat) = [b])
    (by decide +kernel) b h

/-- The digits of bytes are a byte each. -/
theorem utf8_encode (bytes : List UInt8) : Utf8.encode (encode bytes) = encodeBytes bytes := by
  have hbytes : ∀ ds : List UInt8, (∀ d ∈ ds, d < 128) →
      (ds.map fun b => Char.ofNat b.toNat).flatMap String.utf8EncodeChar = ds := by
    intro ds
    induction ds with
    | nil => exact fun _ => rfl
    | cons d ds ih =>
      intro h
      rw [List.map_cons, List.flatMap_cons, utf8EncodeChar_of_lt (h d List.mem_cons_self),
        ih fun d hd => h d (List.mem_cons_of_mem _ hd)]
      rfl
  rw [← hbytes (encodeBytes bytes) fun d hd => (mem_encodeBytes hd).1]
  simp [Utf8.encode, encode, String.toUTF8, List.utf8Encode]

end Hex

namespace Substate

theorem dropMarks_of_notMem {digits : List UInt8} (h : 120 ∉ digits) :
    dropMarks digits = digits := by
  unfold dropMarks
  split
  · simp at h
  · rfl

theorem decodeBytes_encode (o : Origin) (bytes : List UInt8) :
    decodeBytes o (.ofJson (.string (Hex.encode bytes))) = .ok bytes := by
  have hmarks : dropMarks (Hex.encodeBytes bytes) = Hex.encodeBytes bytes :=
    dropMarks_of_notMem fun h => (Hex.mem_encodeBytes h).2 rfl
  simp [decodeBytes, Decoder.check, Source.ofJson, Decoder.string, Decoder.ofFault, Hex.utf8_encode,
    hmarks, Hex.decodeBytes_encodeBytes, bind, Except.bind]

end Substate

theorem Address.decode_encode (o : Origin) (a : Address) : decode o (.ofJson a.encode) = .ok a := by
  simp [decode, encode, Decoder.check, Decoder.string, ofString_text, bind, Except.bind]

theorem Label.decode_encode {α : Type} [Label α] {a : α} (h : Label.parse (label a) = .ok a)
    (o : Origin) : Label.decode o (.ofJson (Label.encode a)) = .ok a := by
  have hfind : (Label.all (α := α)).find? (label · = label a) = some a := by
    unfold Label.parse at h
    split at h
    · cases h
      assumption
    · cases h
  have hvariant : (Label.variants α).find? (·.1 = label a) = some (label a, a) := by
    rw [Label.variants, List.find?_map]
    exact congrArg (Option.map fun b => (label b, b)) hfind
  simp [Label.decode, Label.encode, Decoder.label, Decoder.variant, hvariant, bind, Except.bind]

theorem Decoder.int64_ofJson (o : Origin) (n : Int64) :
    Decoder.int64 o (.ofJson (.ofInt n.toInt)) = .ok n := by
  have hlow := n.le_toInt
  have hhigh := n.toInt_lt
  have hword : IsWord n.toInt := ⟨by omega, by omega⟩
  have hfits : Int64.minValue.toInt ≤ n.toInt ∧ n.toInt ≤ Int64.maxValue.toInt :=
    ⟨n.minValue_le_toInt, n.toInt_le⟩
  have hint : Decoder.int o (.ofJson (.ofInt n.toInt)) = .ok n.toInt := by
    simp [Json.ofInt, Number.ofInt, hword, Source.ofJson, Decoder.int]
  rw [Decoder.int64, Decoder.check, hint]
  exact (if_pos hfits).trans (by rw [Int64.ofInt_toInt])

/-! ## Records

Names of fields are compared as they are written, so that `simp` is not to unfold their order. -/

/-- The values that a value may be written as: itself, or with the fields of each object in order. -/
def Json.IsOrderOf (j' j : Json) : Prop := j' = j ∨ j' = j.canonical

attribute [simp] Decoder.record Decoder.readEntries Decoder.tagField Json.canonicalFields
  Json.insertField_cons_of_lt Json.insertField_cons_of_gt Json.untagged

@[simp] theorem Json.insertField_nil (k : String) (j : Json) : insertField k j [] = [(k, j)] := rfl

@[simp] theorem Origin.descend_ahead : ahead.descend = .ok ahead := rfl

@[simp] theorem Json.canonical_ofInt (n : Int) : (Json.ofInt n).canonical = .ofInt n := rfl

@[simp] theorem Address.canonical_encode (a : Address) : a.encode.canonical = a.encode := rfl

@[simp] theorem Label.canonical_encode {α : Type} [Label α] (a : α) :
    (Label.encode a).canonical = Label.encode a := rfl

@[simp] theorem Document.canonical_value (d : Document) : d.value.canonical = d.value :=
  Json.canonical_of_isCanonical d.isCanonical

namespace DepositorBadge

theorem decode_ofJson {o : Origin} (ho : o.nesting = none) (b : DepositorBadge) {j : Json}
    (hj : j.IsOrderOf b.encode) :
    decode o (.ofJson j) = decodeContent b.badgeType .ahead (.ofJson j.untagged) := by
  have htag : Decoder.variant (Label.variants BadgeType) (.name (label b.badgeType))
      = .ok b.badgeType := by
    cases b <;> rfl
  cases b <;> rcases hj with rfl | rfl <;>
    exact Decoder.tagged_ofJson ho htag (by simp [Label.encode, badgeType, -String.lt_iff_ltb])

theorem decode_encode {o : Origin} (ho : o.nesting = none) (b : DepositorBadge) {j : Json}
    (hj : j.IsOrderOf b.encode) : decode o (.ofJson j) = .ok b := by
  rw [decode_ofJson ho b hj]
  cases b with
  | resource r =>
    rcases hj with rfl | rfl <;>
      simp [encode, badgeType, decodeContent, resourceField, Address.decode_encode,
        -String.lt_iff_ltb]
  | nonFungible r i =>
    rcases hj with rfl | rfl <;>
      simp [encode, badgeType, decodeContent, resourceField, localIdField, Address.decode_encode,
        -String.lt_iff_ltb]

end DepositorBadge

namespace Substate

/-- Whether no optional document is there as null. -/
def IsNullFree : Substate → Prop
  | .roleAssignmentRule _ _ rule => ∀ d ∈ rule, d.value ≠ .null
  | .methodRoyalty _ amount _ => ∀ d ∈ amount, d.value ≠ .null
  | _ => True

@[simp] theorem canonical_bytes (value : Option (List UInt8)) :
    (Json.ofOption (fun b => .string (Hex.encode b)) value).canonical
      = .ofOption (fun b => .string (Hex.encode b)) value :=
  Json.canonical_ofOption (fun _ => rfl) value

@[simp] theorem canonical_optional_label {α : Type} [Label α] (x : Option α) :
    (Json.ofOption Label.encode x).canonical = .ofOption Label.encode x :=
  Json.canonical_ofOption (fun _ => rfl) x

@[simp] theorem canonical_optional_document (x : Option Document) :
    (Json.ofOption Document.value x).canonical = .ofOption Document.value x :=
  Json.canonical_ofOption Document.canonical_value x

@[simp] theorem optional_decodeBytes_encode (o : Origin) (value : Option (List UInt8)) :
    decodeBytes.optional o (.ofJson (.ofOption (fun b => .string (Hex.encode b)) value)) = .ok value :=
  Decoder.optional_ofJson (fun _ _ => nofun) fun b _ => decodeBytes_encode o b

@[simp] theorem document_value (d : Document) :
    Decoder.document .ahead (.ofJson d.value) = .ok d := by
  rw [Decoder.document_ofJson rfl, Document.ofJson_value]

theorem optional_document_value {x : Option Document} (hx : ∀ d ∈ x, d.value ≠ .null) :
    Decoder.document.optional .ahead (.ofJson (.ofOption Document.value x)) = .ok x :=
  Decoder.optional_ofJson hx fun d _ => document_value d

theorem optional_preference_encode (o : Origin) (x : Option ResourcePreference) :
    Label.decode.optional o (.ofJson (.ofOption Label.encode x)) = .ok x :=
  Decoder.optional_ofJson (fun _ _ => nofun) fun p _ =>
    Label.decode_encode (ResourcePreference.parse_label p) o

theorem decode_ofJson {o : Origin} (ho : o.nesting = none) (s : Substate) {j : Json}
    (hj : j.IsOrderOf s.encode) :
    decode o (.ofJson j) = contentOf (.name s.typeName) .ahead (.ofJson j.untagged) := by
  cases s <;> rcases hj with rfl | rfl <;>
    exact Decoder.tagged_ofJson ho rfl (by simp [typeName, -String.lt_iff_ltb])

theorem decode_encode {o : Origin} (ho : o.nesting = none) {s : Substate} (hs : s.IsNullFree)
    {j : Json} (hj : j.IsOrderOf s.encode) : decode o (.ofJson j) = .ok s := by
  rw [decode_ofJson ho s hj]
  cases s with
  | metadataEntry key value isLocked =>
    rcases hj with rfl | rfl <;>
      simp [encode, typeName, contentOf, contents, nameField, bytesField, flagField,
        -String.lt_iff_ltb]
  | roleAssignmentOwner role =>
    rcases hj with rfl | rfl <;>
      simp [encode, typeName, contentOf, contents, documentField, -String.lt_iff_ltb]
  | roleAssignmentRule key scope rule =>
    rcases hj with rfl | rfl <;>
      simp [encode, typeName, contentOf, contents, nameField, scopeField, optionalDocumentField,
        Label.decode_encode (ModuleId.parse_label scope), optional_document_value hs,
        -String.lt_iff_ltb]
  | methodRoyalty name amount isLocked =>
    rcases hj with rfl | rfl <;>
      simp [encode, typeName, contentOf, contents, nameField, optionalDocumentField, flagField,
        optional_document_value hs, -String.lt_iff_ltb]
  | resourcePreference resource preference =>
    rcases hj with rfl | rfl <;>
      simp [encode, typeName, contentOf, contents, resourceField, preferenceField,
        Address.decode_encode, optional_preference_encode, -String.lt_iff_ltb]
  | authorizedDepositor badge isDeleted =>
    have hbadge : ∀ j : Json, j.IsOrderOf badge.encode →
        DepositorBadge.decode .ahead (.ofJson j) = .ok badge :=
      fun j => DepositorBadge.decode_encode rfl badge
    rcases hj with rfl | rfl <;>
      simp [encode, typeName, contentOf, contents, badgeField, flagField, hbadge _ (.inl rfl),
        hbadge _ (.inr rfl), -String.lt_iff_ltb]
  | defaultDepositRule rule =>
    rcases hj with rfl | rfl <;>
      simp [encode, typeName, contentOf, contents, ruleField,
        Label.decode_encode (DefaultDepositRule.parse_label rule), -String.lt_iff_ltb]
  | componentState state =>
    rcases hj with rfl | rfl <;>
      simp [encode, typeName, contentOf, contents, documentField, -String.lt_iff_ltb]
  | unknown => rcases hj with rfl | rfl <;> rfl

end Substate

theorem SubstateEvent.decode_encode {o : Origin} (ho : o.nesting = none) {e : SubstateEvent}
    (he : e.substate.IsNullFree) {j : Json} (hj : j.IsOrderOf e.encode) :
    decode o (.ofJson j) = .ok e := by
  have hsubstate : ∀ j : Json, j.IsOrderOf e.substate.encode →
      Substate.decode o (.ofJson j) = .ok e.substate := fun j => Substate.decode_encode ho he
  rcases hj with rfl | rfl <;>
    simp [decode, encode, fields, Origin.descend_of_nesting ho, Address.decode_encode,
      hsubstate _ (.inl rfl), hsubstate _ (.inr rfl), -String.lt_iff_ltb]

/-- Whether no event has an optional document that is there as null. -/
def VersionEvents.IsNullFree (t : VersionEvents) : Prop := ∀ e ∈ t.events, e.substate.IsNullFree

theorem VersionEvents.decode_encode {o : Origin} (ho : o.nesting = none) {t : VersionEvents}
    (ht : t.IsNullFree) {j : Json} (hj : j.IsOrderOf t.encode) : decode o (.ofJson j) = .ok t := by
  have hevents := Decoder.list_ofJson ho fun e he =>
    SubstateEvent.decode_encode ho (ht e he) (.inl rfl)
  have hordered := Decoder.list_ofJson ho fun e he =>
    SubstateEvent.decode_encode ho (ht e he) (.inr rfl)
  rcases hj with rfl | rfl <;>
    simp [decode, encode, fields, Origin.descend_of_nesting ho, Decoder.int64_ofJson,
      Json.canonical_array, hevents, hordered, -String.lt_iff_ltb]

/-- Whether no event has an optional document that is there as null. -/
def LedgerExtension.IsNullFree (x : LedgerExtension) : Prop := ∀ t ∈ x.transactions, t.IsNullFree

theorem LedgerExtension.decode_ofJson {o : Origin} (ho : o.nesting = none) {x : LedgerExtension}
    (hx : x.IsNullFree) {j : Json} (hj : j.IsOrderOf x.encode) : decode o (.ofJson j) = .ok x := by
  have hall := Decoder.list_ofJson ho fun t ht =>
    VersionEvents.decode_encode ho (hx t ht) (.inl rfl)
  have hordered := Decoder.list_ofJson ho fun t ht =>
    VersionEvents.decode_encode ho (hx t ht) (.inr rfl)
  rcases hj with rfl | rfl <;>
    simp [decode, encode, fields, Origin.descend_of_nesting ho, Json.canonical_array, hall,
      hordered, -String.lt_iff_ltb]

/-! ## What was read -/

namespace Substate

open Decoder (Gives RecordField required)

variable {α : Type}

/-- Whether no optional document was read as null. -/
def Partial.IsNullFree (p : Partial) : Prop := ∀ d, p.optionalDocument = some (some d) → d.value ≠ .null

theorem Partial.isNullFree_empty : Partial.IsNullFree {} := fun _ h => nomatch h

theorem Partial.IsNullFree.getD {p : Partial} (h : p.IsNullFree) :
    ∀ d ∈ p.optionalDocument.getD none, d.value ≠ .null := by
  intro d hd
  refine h d ?_
  rcases hp : p.optionalDocument with _ | x
  · rw [hp] at hd
    cases hd
  · rw [hp] at hd
    exact congrArg some hd

/-- A field that is none for an optional document leaves what was read of one. -/
theorem keeps_of_read {f : RecordField Partial} {d : Decoder α} {set : α → Partial → Partial}
    (hread : ∀ o s p, f.read o s p = (d o s >>= fun a => .ok (set a p)))
    (hset : ∀ a p, (set a p).optionalDocument = p.optionalDocument) :
    f.Keeps Partial.IsNullFree :=
  .of_read hread d.gives_true fun a p hp _ e he => hp e (hset a p ▸ he)

theorem keeps_optionalDocumentField (name : String) :
    (optionalDocumentField name).Keeps Partial.IsNullFree :=
  .of_read (fun _ _ _ => rfl) Decoder.gives_optional_document fun _ _ _ hx d hd =>
    hx d (Option.some.inj hd)

theorem keeps_fields : (∀ name, (nameField name).Keeps Partial.IsNullFree)
    ∧ (∀ name, (flagField name).Keeps Partial.IsNullFree)
    ∧ (∀ name, (documentField name).Keeps Partial.IsNullFree)
    ∧ (∀ name, (optionalDocumentField name).Keeps Partial.IsNullFree)
    ∧ bytesField.Keeps Partial.IsNullFree ∧ scopeField.Keeps Partial.IsNullFree
    ∧ resourceField.Keeps Partial.IsNullFree ∧ preferenceField.Keeps Partial.IsNullFree
    ∧ badgeField.Keeps Partial.IsNullFree ∧ ruleField.Keeps Partial.IsNullFree := by
  refine ⟨fun _ => ?_, fun _ => ?_, fun _ => ?_, keeps_optionalDocumentField, ?_, ?_, ?_, ?_, ?_, ?_⟩
  all_goals exact keeps_of_read (fun _ _ _ => rfl) fun _ _ => rfl

/-- What a type's reader makes of a field that must be there and of the others has no null, if it has
none but from the optional document. -/
theorem gives_record {fields : List (RecordField Partial)} (name : String)
    {get : Partial → Option α} {make : α → Partial → Substate}
    (hfields : ∀ f ∈ fields, f.Keeps Partial.IsNullFree)
    (hmake : ∀ a p, p.IsNullFree → (make a p).IsNullFree) :
    (Decoder.record fields {} fun p => do
      return make (← required name (get p)) p).Gives IsNullFree := by
  refine .record Partial.isNullFree_empty hfields fun p s hp hs => ?_
  obtain ⟨a, -, hs⟩ := bind_eq_ok.1 hs
  cases hs
  exact hmake a p hp

theorem gives_contents : ∀ c ∈ contents, c.2.Gives IsNullFree := by
  simp only [contents, List.forall_mem_cons, List.not_mem_nil, false_imp_iff, implies_true, and_true]
  refine ⟨gives_record "key" (by simp [keeps_fields]) fun _ _ _ => trivial,
    gives_record "owner_role" (by simp [keeps_fields]) fun _ _ _ => trivial, ?_,
    gives_record "method_name" (by simp [keeps_fields]) fun _ _ hp => hp.getD,
    gives_record "resource" (by simp [keeps_fields]) fun _ _ _ => trivial,
    gives_record "badge" (by simp [keeps_fields]) fun _ _ _ => trivial,
    gives_record "rule" (by simp [keeps_fields]) fun _ _ _ => trivial,
    gives_record "state" (by simp [keeps_fields]) fun _ _ _ => trivial⟩
  -- a role rule has two fields that must be there
  refine .record Partial.isNullFree_empty (by simp [keeps_fields]) fun p s hp hs => ?_
  obtain ⟨_, -, hs⟩ := bind_eq_ok.1 hs
  obtain ⟨_, -, hs⟩ := bind_eq_ok.1 hs
  cases hs
  exact hp.getD

theorem gives_decode : decode.Gives IsNullFree := by
  refine .tagged fun tag => ?_
  have hlisted : ∀ c : Option (String × Decoder Substate), (∀ c' ∈ c, c' ∈ contents) →
      ((c.map (·.2)).getD (Decoder.noFields .unknown)).Gives IsNullFree := by
    rintro (_ | c) hc
    · exact .noFields trivial
    · exact gives_contents c (hc c rfl)
  cases tag with
  | name s => exact hlisted _ fun c hc => List.mem_of_find?_eq_some hc
  | index n => exact hlisted _ fun c hc => List.mem_of_getElem? hc

end Substate

theorem forall_mem_getD {α : Type} {x : Option (List α)} {p : α → Prop}
    (h : ∀ as ∈ x, ∀ a ∈ as, p a) : ∀ a ∈ x.getD [], p a := by
  cases x with
  | none => simp
  | some as => exact h as rfl

/-- Whether the substate, if it has been read, has no optional document that is there as null. -/
def SubstateEvent.Partial.IsNullFree (p : Partial) : Prop := ∀ s ∈ p.substate, s.IsNullFree

theorem SubstateEvent.gives_decode : decode.Gives fun e => e.substate.IsNullFree := by
  have hempty : Partial.IsNullFree {} := fun s hs => nomatch hs
  refine .record hempty ?_ fun p e hp he => ?_
  · simp only [fields, List.forall_mem_cons, List.not_mem_nil, false_imp_iff, implies_true, and_true]
    refine ⟨.of_read (fun _ _ _ => rfl) (Decoder.gives_true _) fun _ _ hp _ => hp,
      .of_read (fun _ _ _ => rfl) Substate.gives_decode ?_⟩
    rintro x p - hx _ ⟨⟩
    exact hx
  · obtain ⟨_, -, he⟩ := bind_eq_ok.1 he
    obtain ⟨s, hs, he⟩ := bind_eq_ok.1 he
    cases he
    exact hp s (Decoder.required_eq_ok.1 hs)

/-- Whether none of the events, if they have been read, has an optional document that is there as
null. -/
def VersionEvents.Partial.IsNullFree (p : Partial) : Prop :=
  ∀ es ∈ p.events, ∀ e ∈ es, e.substate.IsNullFree

theorem VersionEvents.gives_decode : decode.Gives IsNullFree := by
  have hempty : Partial.IsNullFree {} := fun s hs => nomatch hs
  refine .record hempty ?_ fun p t hp ht => ?_
  · simp only [fields, List.forall_mem_cons, List.not_mem_nil, false_imp_iff, implies_true, and_true]
    refine ⟨.of_read (fun _ _ _ => rfl) (Decoder.gives_true _) fun _ _ hp _ => hp,
      .of_read (fun _ _ _ => rfl) SubstateEvent.gives_decode.list ?_⟩
    rintro es p - hes _ ⟨⟩
    exact hes
  · obtain ⟨_, -, ht⟩ := bind_eq_ok.1 ht
    cases ht
    exact forall_mem_getD hp

/-- Whether no transaction that has been read has an optional document that is there as null. -/
def LedgerExtension.ReadNullFree (p : Option (List VersionEvents)) : Prop :=
  ∀ ts ∈ p, ∀ t ∈ ts, t.IsNullFree

theorem LedgerExtension.gives_decode : decode.Gives IsNullFree := by
  have hempty : ReadNullFree none := fun ts hts => nomatch hts
  refine .record hempty ?_ fun p x hp hx => ?_
  · simp only [fields, List.forall_mem_cons, List.not_mem_nil, false_imp_iff, implies_true, and_true]
    refine .of_read (fun _ _ _ => rfl) VersionEvents.gives_decode.list ?_
    rintro ts p - hts _ ⟨⟩
    exact hts
  · cases hx
    exact forall_mem_getD hp

namespace LedgerExtension

/-- An extension is read back out of the value that it is written as, with the fields of each object in
either order, just if no role rule and no royalty is there as null. So is one that was read, whatever
from. -/
theorem ofValue_encode_iff (x : LedgerExtension) :
    (decode.ofValue x.encode = .ok x ↔ x.IsNullFree)
    ∧ (decode.ofValue x.encode.canonical = .ok x ↔ x.IsNullFree)
    ∧ ∀ o s, decode o s = .ok x →
      decode.ofValue x.encode = .ok x ∧ decode.ofValue x.encode.canonical = .ok x := by
  have hback (hx : x.IsNullFree) :
      decode.ofValue x.encode = .ok x ∧ decode.ofValue x.encode.canonical = .ok x :=
    ⟨decode_ofJson rfl hx (.inl rfl), decode_ofJson rfl hx (.inr rfl)⟩
  have hread (o : Origin) (s : Source) (h : decode o s = .ok x) : x.IsNullFree :=
    gives_decode o s x h
  exact ⟨⟨hread _ _, fun hx => (hback hx).1⟩, ⟨hread _ _, fun hx => (hback hx).2⟩,
    fun o s h => hback (hread o s h)⟩

def readAccount : Address := ⟨"account_w", by decide⟩

/-- Records in the form of arrays and with missing fields, marks in front of digits of both cases, a label
in an object, a rule that is null, and a type that is not listed. -/
def looseValue : Json :=
  .object [("transactions", .array
    [.array [.ofInt 7, .array
      [.array [.string "account_w", .array [.string "metadata_entry", .string "name", .string "0x0x0Af1"]],
        .object [("substate", .object [("rule", .null), ("module", .object [("main", .null)]),
          ("role_key", .string "owner"), ("type", .string "role_assignment_rule")]),
          ("entity", .string "account_w")],
        .object [("entity", .string "account_w"), ("substate", .object
          [("badge", .object [("local_id", .string "#1#"), ("resource", .string "account_w"),
            ("type", .string "non_fungible")]), ("type", .string "authorized_depositor")])],
        .object [("entity", .string "account_w"),
          ("substate", .object [("type", .string "vault"), ("amount", .ofInt 1)])]]],
      .object [("state_version", .ofInt 8)]])]

/-- The extension that the value holds. -/
def looseExtension : LedgerExtension :=
  ⟨[⟨7, [⟨readAccount, .metadataEntry "name" (some [10, 241]) false⟩,
      ⟨readAccount, .roleAssignmentRule "owner" .main none⟩,
      ⟨readAccount, .authorizedDepositor (.nonFungible readAccount "#1#") false⟩,
      ⟨readAccount, .unknown⟩]⟩, ⟨8, []⟩]⟩

theorem ofValue_encode_loose : decode.ofValue looseValue = .ok looseExtension
    ∧ looseExtension.encode ≠ looseValue ∧ decode.ofValue looseExtension.encode = .ok looseExtension
    ∧ decode.ofValue looseExtension.encode.canonical = .ok looseExtension := by
  have hread : decode.ofValue looseValue = .ok looseExtension := by decide +kernel
  exact ⟨hread, by decide +kernel, (ofValue_encode_iff looseExtension).2.2 _ _ hread⟩

end LedgerExtension

end LedgerHistory
