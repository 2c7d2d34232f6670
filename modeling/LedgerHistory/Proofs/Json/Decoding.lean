import LedgerHistory.Proofs.Json.RoundTrip
import LedgerHistory.Proofs.Ledger.Input

/-!
# Decoding values

A decoder that is given a value, and no text, meets no fault: it reads a free document as the value's
canonical form, an array item by item, and of a tagged object the tag, wherever it stands, and then the
other fields. What all values that a decoder gives have in common is told part by part (`Decoder.Gives`).
-/

namespace LedgerHistory

@[simp] theorem ok_bind {ε α β : Type} (a : α) (f : α → Except ε β) : (Except.ok a >>= f) = f a := rfl

/-! ## Sources of values -/

namespace Source

@[simp] theorem ofJson_bool (b : Bool) : ofJson (.bool b) = .bool b := rfl

@[simp] theorem ofJson_string (s : String) : ofJson (.string s) = .string (.ok s) := rfl

@[simp] theorem ofJson_object (fs : List (String × Json)) :
    ofJson (.object fs) = .object (ofFields fs) none := rfl

@[simp] theorem ofFields_nil : ofFields [] = [] := rfl

@[simp] theorem ofFields_cons (k : String) (j : Json) (fs : List (String × Json)) :
    ofFields ((k, j) :: fs) = (.ok k, ofJson j) :: ofFields fs := rfl

@[simp] theorem stopFault_none : stopFault none = .ok () := rfl

theorem ofItems_eq_map (js : List Json) : ofItems js = js.map ofJson := by
  induction js with
  | nil => rfl
  | cons j js ih => rw [ofItems, ih, List.map_cons]

mutual

/-- The source of a value holds the value. -/
theorem toJson_none_ofJson : ∀ j : Json, toJson none (ofJson j) = .ok j
  | .null | .bool _ | .number _ | .string _ => rfl
  | .array items => by
    rw [ofJson, toJson]
    exact bind_eq_ok.2 ⟨none, rfl, bind_eq_ok.2 ⟨items, toItems_none_ofItems items, rfl⟩⟩
  | .object fields => by
    rw [ofJson, toJson]
    exact bind_eq_ok.2 ⟨none, rfl, bind_eq_ok.2 ⟨fields, toFields_none_ofFields fields, rfl⟩⟩

theorem toItems_none_ofItems : ∀ js : List Json, toItems none (ofItems js) = .ok js
  | [] => rfl
  | j :: js => by
    rw [ofItems, toItems]
    exact bind_eq_ok.2 ⟨j, toJson_none_ofJson j, bind_eq_ok.2 ⟨js, toItems_none_ofItems js, rfl⟩⟩

theorem toFields_none_ofFields : ∀ fs : List (String × Json), toFields none (ofFields fs) = .ok fs
  | [] => rfl
  | (k, j) :: fs => by
    rw [ofFields, toFields]
    exact bind_eq_ok.2 ⟨k, rfl, bind_eq_ok.2 ⟨j, toJson_none_ofJson j,
      bind_eq_ok.2 ⟨fs, toFields_none_ofFields fs, rfl⟩⟩⟩

end

/-- Null alone is the source of null. -/
theorem toJson_eq_null {n : Nesting} {s : Source} (h : toJson n s = .ok .null) : s = .null := by
  cases s with
  | null => rfl
  | bool b => cases h
  | number value =>
    obtain ⟨_, _, h⟩ := map_eq_ok.1 h
    cases h
  | string value =>
    obtain ⟨_, _, h⟩ := map_eq_ok.1 h
    cases h
  | array items stop =>
    rw [toJson] at h
    obtain ⟨_, _, h⟩ := bind_eq_ok.1 h
    obtain ⟨_, _, h⟩ := bind_eq_ok.1 h
    obtain ⟨_, _, h⟩ := bind_eq_ok.1 h
    cases h
  | object fields stop =>
    rw [toJson] at h
    obtain ⟨_, _, h⟩ := bind_eq_ok.1 h
    obtain ⟨_, _, h⟩ := bind_eq_ok.1 h
    obtain ⟨_, _, h⟩ := bind_eq_ok.1 h
    cases h
  | broken stop => cases h

theorem ofJson_eq_null {j : Json} : ofJson j = .null ↔ j = .null := by
  cases j <;> simp [ofJson]

end Source

/-- An object without its tags. -/
def Json.untagged : Json → Json
  | .object fields => .object (fields.filter (·.1 ≠ Decoder.tagField))
  | j => j

@[simp] theorem Json.canonical_bool (b : Bool) : (Json.bool b).canonical = .bool b := rfl

@[simp] theorem Json.canonical_string (s : String) : (Json.string s).canonical = .string s := rfl

@[simp] theorem Json.canonical_object (fs : List (String × Json)) :
    (Json.object fs).canonical = .object (canonicalFields [] fs) := rfl

theorem Json.canonical_array {α : Type} (f : α → Json) (as : List α) :
    (Json.array (as.map f)).canonical = .array (as.map fun a => (f a).canonical) := by
  rw [canonical]
  congr 1
  induction as with
  | nil => rfl
  | cons a as ih => rw [List.map_cons, canonicalItems, ih, List.map_cons]

theorem Json.canonical_ofOption {α : Type} {f : α → Json} (h : ∀ a, (f a).canonical = f a)
    (x : Option α) : (Json.ofOption f x).canonical = .ofOption f x := by
  cases x with
  | none => rfl
  | some a => exact h a

theorem Json.canonical_eq_null {j : Json} : j.canonical = .null ↔ j = .null := by
  cases j <;> simp [Json.canonical]

theorem Origin.descend_of_nesting {o : Origin} (ho : o.nesting = none) : o.descend = .ok o := by
  cases o with
  | text d => cases ho
  | value | ahead => rfl

namespace Decoder

variable {α β σ τ : Type} {d : Decoder α} {o : Origin}

@[simp] theorem ofFault_ok (a : α) : ofFault (.ok a) = .ok a := rfl

@[simp] theorem required_some (name : String) (a : α) : required name (some a) = .ok a := rfl

@[simp] theorem string_ok (o : Origin) (s : String) : string o (.string (.ok s)) = .ok s := rfl

@[simp] theorem bool_bool (o : Origin) (b : Bool) : bool o (.bool b) = .ok b := rfl

theorem required_eq_ok {name : String} {x : Option α} {a : α} :
    required name x = .ok a ↔ x = some a := by
  cases x <;> simp [required]

theorem ofFault_eq_ok {x : Except Fault α} {a : α} : ofFault x = .ok a ↔ x = .ok a := by
  cases x <;> simp [ofFault]

/-! ## Reading values -/

theorem document_ofJson (ho : o.nesting = none) (j : Json) :
    document o (.ofJson j) = .ok (.ofJson j) := by
  simp [document, ho, Source.toJson_none_ofJson, ofFault, Except.map]

/-- An array of written values is read as these values. -/
theorem list_ofJson (ho : o.nesting = none) {write : α → Json} {as : List α}
    (h : ∀ a ∈ as, d o (.ofJson (write a)) = .ok a) :
    d.list o (.ofJson (.array (as.map write))) = .ok as := by
  have hitems : items d o (Source.ofItems (as.map write)) = .ok as := by
    rw [items_eq_ok, Source.ofItems_eq_map, List.map_map, List.forall₂_map_left_iff,
      List.forall₂_same]
    exact h
  exact bind_eq_ok.2 ⟨o, Origin.descend_of_nesting ho, bind_eq_ok.2 ⟨as, hitems, rfl⟩⟩

theorem optional_of_ne {s : Source} (hs : s ≠ .null) : d.optional o s = (d o s).map some := by
  cases s with
  | null => exact absurd rfl hs
  | _ => rfl

/-- A written optional value is read as it was, if no value is written as null. -/
theorem optional_ofJson {write : α → Json} {x : Option α} (h : ∀ a ∈ x, write a ≠ .null)
    (hd : ∀ a ∈ x, d o (.ofJson (write a)) = .ok a) :
    d.optional o (.ofJson (.ofOption write x)) = .ok x := by
  cases x with
  | none => rfl
  | some a =>
    have hne : Source.ofJson (write a) ≠ .null := fun he => h a rfl (Source.ofJson_eq_null.1 he)
    rw [Json.ofOption, optional_of_ne hne, hd a rfl]
    rfl

theorem partEntries_ofFields_of_filter (ho : o.nesting = none)
    (toVariant : Tag → Except DecodeError τ) {fs : List (String × Json)}
    (h : fs.filter (·.1 = tagField) = []) (t : Option τ) :
    partEntries toVariant o (Source.ofFields fs) t = .ok (t, Source.ofFields fs) := by
  induction fs with
  | nil => rfl
  | cons f fs ih =>
    obtain ⟨name, j⟩ := f
    simp only [List.filter_eq_nil_iff, List.forall_mem_cons, decide_eq_true_eq] at h ih
    simp [partEntries, h.1, ho, Source.toJson_none_ofJson, ih h.2]

/-- A tagged object is read by its tag, which may stand before or behind any of its other fields. -/
theorem tagged_ofJson (ho : o.nesting = none) {toVariant : Tag → Except DecodeError τ}
    {content : τ → Decoder α} {fs : List (String × Json)} {tag : String} {t : τ}
    (ht : toVariant (.name tag) = .ok t) (hfs : fs.filter (·.1 = tagField) = [(tagField, .string tag)]) :
    tagged toVariant content o (.ofJson (.object fs))
      = content t .ahead (.ofJson (Json.object fs).untagged) := by
  have hpart : partEntries toVariant o (Source.ofFields fs) none
      = .ok (some t, Source.ofFields (fs.filter (·.1 ≠ tagField))) := by
    induction fs with
    | nil => cases hfs
    | cons f fs ih =>
      obtain ⟨name, j⟩ := f
      by_cases hname : name = tagField
      · subst hname
        obtain ⟨rfl, hrest⟩ : j = .string tag ∧ fs.filter (·.1 = tagField) = [] := by
          simpa using hfs
        have hkept : fs.filter (·.1 ≠ tagField) = fs :=
          List.filter_eq_self.2 fun f hf => by simpa using List.filter_eq_nil_iff.1 hrest f hf
        rw [List.filter_cons_of_neg (by simp), hkept]
        simp [partEntries, Decoder.tag, ht, Except.map,
          partEntries_ofFields_of_filter ho toVariant hrest]
      · have hrest : fs.filter (·.1 = tagField) = [(tagField, .string tag)] := by
          simpa [hname] using hfs
        simp [partEntries, hname, ho, Source.toJson_none_ofJson, ih hrest]
  simp [tagged, Json.untagged, Origin.descend_of_nesting ho, hpart]

/-! ## What decoders give -/

/-- Whether all that a decoder gives has a property. -/
def Gives (d : Decoder α) (p : α → Prop) : Prop := ∀ o s a, d o s = .ok a → p a

theorem gives_true (d : Decoder α) : d.Gives fun _ => True := fun _ _ _ _ => trivial

theorem Gives.list {p : α → Prop} (h : d.Gives p) : d.list.Gives fun as => ∀ a ∈ as, p a := by
  intro o s as has
  cases s with
  | array ss stop =>
    obtain ⟨o', _, has⟩ := bind_eq_ok.1 has
    obtain ⟨as', hitems, has⟩ := bind_eq_ok.1 has
    obtain ⟨_, _, has⟩ := bind_eq_ok.1 has
    cases has
    intro a ha
    obtain ⟨s, -, hs⟩ := exists_of_forall₂ (items_eq_ok.1 hitems) ha
    exact h o' s a hs
  | _ => cases has

theorem Gives.tagged {toVariant : Tag → Except DecodeError τ} {content : τ → Decoder α}
    {p : α → Prop} (h : ∀ t, (content t).Gives p) : (tagged toVariant content).Gives p := by
  intro o s a ha
  cases s with
  | object entries stop =>
    obtain ⟨_, _, ha⟩ := bind_eq_ok.1 ha
    obtain ⟨⟨t?, rest⟩, _, ha⟩ := bind_eq_ok.1 ha
    obtain ⟨_, _, ha⟩ := bind_eq_ok.1 ha
    obtain ⟨t, _, ha⟩ := bind_eq_ok.1 ha
    exact h t _ _ a ha
  | array ss stop =>
    cases ss with
    | nil =>
      obtain ⟨_, _, ha⟩ := bind_eq_ok.1 ha
      obtain ⟨_, _, ha⟩ := bind_eq_ok.1 ha
      cases ha
    | cons s ss =>
      obtain ⟨_, _, ha⟩ := bind_eq_ok.1 ha
      obtain ⟨_, _, ha⟩ := bind_eq_ok.1 ha
      obtain ⟨t, _, ha⟩ := bind_eq_ok.1 ha
      obtain ⟨_, _, ha⟩ := bind_eq_ok.1 ha
      obtain ⟨_, _, ha⟩ := bind_eq_ok.1 ha
      exact h t _ _ a ha
  | _ => cases ha

theorem Gives.noFields {a : α} {p : α → Prop} (h : p a) : (noFields a).Gives p := by
  intro o s b hb
  cases s with
  | array ss stop =>
    cases ss <;> cases hb
    exact h
  | object entries stop =>
    cases hb
    exact h
  | _ => cases hb

/-- Null is no document, where it counts as missing. -/
theorem gives_optional_document : document.optional.Gives fun x => ∀ d ∈ x, d.value ≠ .null := by
  intro o s x hx d hd
  by_cases hs : s = .null
  · subst hs
    cases hx
    cases hd
  · rw [optional_of_ne hs] at hx
    obtain ⟨d', hd', rfl⟩ := map_eq_ok.1 hx
    cases hd
    obtain ⟨j, hj, rfl⟩ := map_eq_ok.1 hd'
    intro hnull
    rw [Json.canonical_eq_null.1 hnull] at hj
    exact hs (Source.toJson_eq_null (ofFault_eq_ok.1 hj))

/-- Whether reading a field keeps a property of the state. -/
def RecordField.Keeps (f : RecordField σ) (inv : σ → Prop) : Prop :=
  ∀ o s st st', inv st → f.read o s st = .ok st' → inv st'

variable {fields : List (RecordField σ)} {inv : σ → Prop}

/-- A field keeps what setting a value that its decoder gives keeps. -/
theorem RecordField.Keeps.of_read {f : RecordField σ} {set : α → σ → σ} {p : α → Prop}
    (hread : ∀ o s st, f.read o s st = (d o s >>= fun a => .ok (set a st))) (hd : d.Gives p)
    (hset : ∀ a st, inv st → p a → inv (set a st)) : f.Keeps inv := by
  intro o s st st' h hst
  rw [hread] at hst
  obtain ⟨a, ha, hst⟩ := bind_eq_ok.1 hst
  cases hst
  exact hset a st h (hd o s a ha)

theorem inv_of_readEntries (hfields : ∀ f ∈ fields, f.Keeps inv)
    {entries : List (Except Fault String × Source)} {st st' : σ} (h : inv st)
    (hread : readEntries fields o entries st = .ok st') : inv st' := by
  induction entries generalizing st with
  | nil =>
    cases hread
    exact h
  | cons entry entries ih =>
    obtain ⟨name, hname, hread⟩ := bind_eq_ok.1 hread
    split at hread
    · obtain ⟨_, _, hread⟩ := bind_eq_ok.1 hread
      exact ih h hread
    · rename_i f hf
      split at hread
      · cases hread
      · obtain ⟨mid, hmid, hread⟩ := bind_eq_ok.1 hread
        exact ih (hfields f (List.mem_of_find?_eq_some hf) o _ st mid h hmid) hread

theorem inv_of_readItems {stop : Option Stop} (hfields : ∀ f ∈ fields, f.Keeps inv)
    {ss rest : List Source} {st st' : σ} (h : inv st)
    (hread : readItems o stop fields ss st = .ok (st', rest)) : inv st' := by
  induction fields generalizing ss st with
  | nil =>
    cases hread
    exact h
  | cons f fields ih =>
    have hfields' : ∀ f ∈ fields, f.Keeps inv := fun f hf => hfields f (List.mem_cons_of_mem _ hf)
    cases ss with
    | nil =>
      obtain ⟨_, _, hread⟩ := bind_eq_ok.1 hread
      split at hread
      · exact ih hfields' h hread
      · cases hread
    | cons s ss =>
      obtain ⟨mid, hmid, hread⟩ := bind_eq_ok.1 hread
      exact ih hfields' (hfields f List.mem_cons_self o s st mid h hmid) hread

/-- A record has what follows from that which each of its fields keeps. -/
theorem Gives.record {start : σ} {finish : σ → Except DecodeError α} {p : α → Prop} (h : inv start)
    (hfields : ∀ f ∈ fields, f.Keeps inv) (hfinish : ∀ st a, inv st → finish st = .ok a → p a) :
    (record fields start finish).Gives p := by
  intro o s a ha
  cases s with
  | object entries stop =>
    obtain ⟨_, _, ha⟩ := bind_eq_ok.1 ha
    obtain ⟨st, hst, ha⟩ := bind_eq_ok.1 ha
    obtain ⟨_, _, ha⟩ := bind_eq_ok.1 ha
    exact hfinish st a (inv_of_readEntries hfields h hst) ha
  | array ss stop =>
    obtain ⟨_, _, ha⟩ := bind_eq_ok.1 ha
    obtain ⟨⟨st, rest⟩, hst, ha⟩ := bind_eq_ok.1 ha
    obtain ⟨b, hb, ha⟩ := bind_eq_ok.1 ha
    have hab : b = a := by
      split at ha
      · obtain ⟨_, _, ha⟩ := bind_eq_ok.1 ha
        exact Except.ok.inj ha
      · cases ha
    exact hab ▸ hfinish st b (inv_of_readItems hfields h hst) hb
  | _ => cases ha

end Decoder

end LedgerHistory
