import Mathlib.Data.List.Basic
import LedgerHistory.Ledger.Input
import LedgerHistory.Proofs.Outcome

/-!
# What an input is read as

An object is read as a batch when it has one field `extensions` with an array whose items are all
extensions. Any other object is read as a single extension, of which only the field `transactions`
counts (`LedgerInput.parse_eq_ok_iff`). So a batch with an item that is no extension is refused only
if the object is no extension either, and most often it is: an empty one
(`LedgerInput.not_forall_parse_isBatch`).
-/

namespace LedgerHistory

/-! ## Sources that hold a value -/

namespace Source

theorem toJson_array_eq_ok {n : Nesting} {items : List Source} {stop : Option Stop} {j : Json}
    (h : toJson n (.array items stop) = .ok j) :
    stop = none ∧ ∃ n' js, toItems n' items = .ok js := by
  rw [toJson] at h
  obtain ⟨n', _, h⟩ := bind_eq_ok.1 h
  obtain ⟨js, hjs, h⟩ := bind_eq_ok.1 h
  rcases stop with _ | stop
  · exact ⟨rfl, n', js, hjs⟩
  · cases h

theorem toJson_object_eq_ok {n : Nesting} {fields : List (Except Fault String × Source)}
    {stop : Option Stop} {j : Json} (h : toJson n (.object fields stop) = .ok j) :
    stop = none ∧ ∃ n' js, toFields n' fields = .ok js := by
  rw [toJson] at h
  obtain ⟨n', _, h⟩ := bind_eq_ok.1 h
  obtain ⟨js, hjs, h⟩ := bind_eq_ok.1 h
  rcases stop with _ | stop
  · exact ⟨rfl, n', js, hjs⟩
  · cases h

theorem toFields_cons_eq_ok {n : Nesting} {name : Except Fault String} {s : Source}
    {fields : List (Except Fault String × Source)} {js : List (String × Json)}
    (h : toFields n ((name, s) :: fields) = .ok js) :
    (∃ k, name = .ok k) ∧ (∃ j, toJson n s = .ok j) ∧ ∃ js, toFields n fields = .ok js := by
  rw [toFields] at h
  obtain ⟨k, hk, h⟩ := bind_eq_ok.1 h
  obtain ⟨j, hj, h⟩ := bind_eq_ok.1 h
  obtain ⟨js, hjs, _⟩ := bind_eq_ok.1 h
  exact ⟨⟨k, hk⟩, ⟨j, hj⟩, js, hjs⟩

mutual

/-- What can be read can be skipped. -/
theorem skip_of_toJson {n : Nesting} : ∀ {s : Source} {j : Json}, toJson n s = .ok j → skip s = .ok ()
  | .null, _, _ | .bool _, _, _ | .number _, _, _ | .string _, _, _ => by rw [skip]
  | .array items stop, _, h => by
    obtain ⟨rfl, n', js, hjs⟩ := toJson_array_eq_ok h
    rw [skip, skipItems_of_toItems hjs]
    rfl
  | .object fields stop, _, h => by
    obtain ⟨rfl, n', js, hjs⟩ := toJson_object_eq_ok h
    rw [skip, skipFields_of_toFields hjs]
    rfl
  | .broken stop, _, h => by
    rw [toJson] at h
    cases h

theorem skipItems_of_toItems {n : Nesting} :
    ∀ {items : List Source} {js : List Json}, toItems n items = .ok js → skipItems items = .ok ()
  | [], _, _ => by rw [skipItems]
  | s :: items, _, h => by
    rw [toItems] at h
    obtain ⟨j, hj, h⟩ := bind_eq_ok.1 h
    obtain ⟨js, hjs, _⟩ := bind_eq_ok.1 h
    rw [skipItems, skip_of_toJson hj]
    exact skipItems_of_toItems hjs

theorem skipFields_of_toFields {n : Nesting} :
    ∀ {fields : List (Except Fault String × Source)} {js : List (String × Json)},
      toFields n fields = .ok js → skipFields fields = .ok ()
  | [], _, _ => by rw [skipFields]
  | (name, s) :: fields, _, h => by
    obtain ⟨_, ⟨j, hj⟩, js, hjs⟩ := toFields_cons_eq_ok h
    rw [skipFields, skip_of_toJson hj]
    exact skipFields_of_toFields hjs

end

/-- The values of the fields with a name, in order. -/
def fieldsNamed (name : String) (fields : List (Except Fault String × Source)) : List Source :=
  fields.filterMap fun f =>
    match f.1 with
    | .ok k => if k = name then some f.2 else none
    | .error _ => none

theorem fieldsNamed_cons_ok (name k : String) (s : Source)
    (fields : List (Except Fault String × Source)) :
    fieldsNamed name ((.ok k, s) :: fields)
      = if k = name then s :: fieldsNamed name fields else fieldsNamed name fields := by
  by_cases hk : k = name <;> simp [fieldsNamed, hk]

end Source

/-! ## Records of one field -/

namespace Decoder

open Source (fieldsNamed)

variable {α : Type} {d : Decoder α}

theorem items_eq_ok {o : Origin} {ss : List Source} {as : List α} :
    items d o ss = .ok as ↔ List.Forall₂ (fun s a => d o s = .ok a) ss as := by
  induction ss generalizing as with
  | nil => cases as <;> simp [items]
  | cons s ss ih =>
    rw [items, bind_eq_ok]
    constructor
    · rintro ⟨a, ha, h⟩
      obtain ⟨as, has, h⟩ := bind_eq_ok.1 h
      cases h
      exact .cons ha (ih.1 has)
    · rintro (_ | ⟨ha, has⟩)
      exact ⟨_, ha, bind_eq_ok.2 ⟨_, ih.2 has, rfl⟩⟩

/-- An array that was read ahead is read item by item. -/
theorem list_eq_ok {s : Source} {as : List α} : d.list .ahead s = .ok as
    ↔ ∃ ss, s = .array ss none ∧ List.Forall₂ (fun s a => d .ahead s = .ok a) ss as := by
  constructor
  · intro h
    cases s with
    | array ss stop =>
      have h : (items d .ahead ss >>= fun as => ofFault (Source.stopFault stop) >>= fun _ => .ok as)
          = .ok as := h
      obtain ⟨as', has, h⟩ := bind_eq_ok.1 h
      rcases stop with _ | stop
      · cases h
        exact ⟨ss, rfl, items_eq_ok.1 has⟩
      · cases h
    | _ => cases h
  · rintro ⟨ss, rfl, h⟩
    rw [list]
    exact bind_eq_ok.2 ⟨.ahead, rfl, bind_eq_ok.2 ⟨as, items_eq_ok.2 h, rfl⟩⟩

/-- Whether a field is read into an empty state with a decoder. -/
structure IsOption (f : RecordField (Option α)) (d : Decoder α) : Prop where
  isSet : f.isSet = Option.isSome
  read (s : Source) (st : Option α) : f.read .ahead s st = (d .ahead s >>= fun a => .ok (some a))

variable {f : RecordField (Option α)} {n : Source.Nesting}
  {fields : List (Except Fault String × Source)} {js : List (String × Json)}

omit d in
theorem readEntries_of_ne {k : String} (hk : k ≠ f.name) {s : Source} (hs : s.skip = .ok ())
    (st : Option α) : readEntries [f] .ahead ((.ok k, s) :: fields) st
      = readEntries [f] .ahead fields st := by
  simp [readEntries, ofFault, hs, Ne.symm hk, bind, Except.bind]

theorem readEntries_of_eq (hf : IsOption f d) (s : Source) (st : Option α) :
    readEntries [f] .ahead ((.ok f.name, s) :: fields) st
      = if st.isSome then .error (.duplicateField f.name)
        else f.read .ahead s st >>= readEntries [f] .ahead fields := by
  simp [readEntries, ofFault, hf.isSet, bind, Except.bind]

theorem readEntries_some (hf : IsOption f d) (hjs : Source.toFields n fields = .ok js) (a : α)
    {st : Option α} : readEntries [f] .ahead fields (some a) = .ok st
      ↔ fieldsNamed f.name fields = [] ∧ st = some a := by
  induction fields generalizing js with
  | nil => simp [readEntries, fieldsNamed, eq_comm]
  | cons e fields ih =>
    obtain ⟨name, s⟩ := e
    obtain ⟨⟨k, rfl⟩, ⟨j, hj⟩, js, hjs⟩ := Source.toFields_cons_eq_ok hjs
    rw [Source.fieldsNamed_cons_ok]
    by_cases hk : k = f.name
    · subst hk
      simp [readEntries_of_eq hf]
    · rw [readEntries_of_ne hk (Source.skip_of_toJson hj), if_neg hk]
      exact ih hjs

/-- A record of one field takes an object that has the field once, or not at all. -/
theorem readEntries_eq_ok (hf : IsOption f d) (hjs : Source.toFields n fields = .ok js)
    {st : Option α} : readEntries [f] .ahead fields none = .ok st
      ↔ (fieldsNamed f.name fields = [] ∧ st = none)
        ∨ ∃ s a, fieldsNamed f.name fields = [s] ∧ d .ahead s = .ok a ∧ st = some a := by
  induction fields generalizing js with
  | nil => simp [readEntries, fieldsNamed, eq_comm]
  | cons e fields ih =>
    obtain ⟨name, s⟩ := e
    obtain ⟨⟨k, rfl⟩, ⟨j, hj⟩, js', hjs'⟩ := Source.toFields_cons_eq_ok hjs
    rw [Source.fieldsNamed_cons_ok]
    by_cases hk : k = f.name
    · subst hk
      rw [readEntries_of_eq hf, if_neg (by simp), if_pos rfl, hf.read, bind_eq_ok]
      constructor
      · rintro ⟨st', hst, h⟩
        obtain ⟨a, ha, hst⟩ := bind_eq_ok.1 hst
        cases hst
        obtain ⟨hnil, rfl⟩ := (readEntries_some hf hjs' a).1 h
        exact .inr ⟨s, a, by rw [hnil], ha, rfl⟩
      · rintro (⟨h, _⟩ | ⟨s', a, hs, ha, rfl⟩)
        · cases h
        · obtain ⟨rfl, hnil⟩ := List.cons.inj hs
          exact ⟨some a, bind_eq_ok.2 ⟨a, ha, rfl⟩, (readEntries_some hf hjs' a).2 ⟨hnil, rfl⟩⟩
    · rw [readEntries_of_ne hk (Source.skip_of_toJson hj), if_neg hk]
      exact ih hjs'

/-- A record of one field out of an object that was read ahead. -/
theorem record_eq_ok {β : Type} (hf : IsOption f d) (hjs : Source.toFields n fields = .ok js)
    {finish : Option α → Except DecodeError β} {b : β} :
    record [f] none finish .ahead (.object fields none) = .ok b
      ↔ (fieldsNamed f.name fields = [] ∧ finish none = .ok b)
        ∨ ∃ s a, fieldsNamed f.name fields = [s] ∧ d .ahead s = .ok a ∧ finish (some a) = .ok b := by
  have h : record [f] none finish .ahead (.object fields none)
      = (readEntries [f] .ahead fields none >>= finish) := rfl
  rw [h, bind_eq_ok]
  constructor
  · rintro ⟨st, hst, hb⟩
    rcases (readEntries_eq_ok hf hjs).1 hst with ⟨hnil, rfl⟩ | ⟨s, a, hs, ha, rfl⟩
    · exact .inl ⟨hnil, hb⟩
    · exact .inr ⟨s, a, hs, ha, hb⟩
  · rintro (⟨hnil, hb⟩ | ⟨s, a, hs, ha, hb⟩)
    · exact ⟨none, (readEntries_eq_ok hf hjs).2 (.inl ⟨hnil, rfl⟩), hb⟩
    · exact ⟨some a, (readEntries_eq_ok hf hjs).2 (.inr ⟨s, a, hs, ha, rfl⟩), hb⟩

end Decoder

/-! ## Batches and single extensions -/

namespace LedgerInput

open Source (fieldsNamed)

/-- Whether the fields of an object are those of a batch: one array under `extensions`, each item of
which is the extension in its place. -/
def IsBatch (fields : List (Except Fault String × Source)) (xs : List LedgerExtension) : Prop :=
  ∃ ss, fieldsNamed "extensions" fields = [.array ss none]
    ∧ List.Forall₂ (fun s x => LedgerExtension.decode .ahead s = .ok x) ss xs

/-- Whether the fields of an object are those of an extension: no `transactions`, or one array of
them. -/
def IsSingle (fields : List (Except Fault String × Source)) (x : LedgerExtension) : Prop :=
  (fieldsNamed "transactions" fields = [] ∧ x.transactions = [])
    ∨ ∃ ss, fieldsNamed "transactions" fields = [.array ss none]
      ∧ List.Forall₂ (fun s t => VersionEvents.decode .ahead s = .ok t) ss x.transactions

variable {n : Source.Nesting} {fields : List (Except Fault String × Source)}
  {js : List (String × Json)} (hjs : Source.toFields n fields = .ok js)

include hjs

theorem decodeBatch_eq_ok {i : LedgerInput} : decodeBatch .ahead (.object fields none) = .ok i
    ↔ ∃ xs, i = .batch xs ∧ IsBatch fields xs := by
  refine (Decoder.record_eq_ok ⟨rfl, fun _ _ => rfl⟩ hjs).trans ?_
  constructor
  · rintro (⟨_, h⟩ | ⟨s, xs, hs, hxs, h⟩)
    · cases h
    · cases h
      obtain ⟨ss, rfl, h⟩ := Decoder.list_eq_ok.1 hxs
      exact ⟨xs, rfl, ss, hs, h⟩
  · rintro ⟨xs, rfl, ss, hs, h⟩
    exact .inr ⟨_, xs, hs, Decoder.list_eq_ok.2 ⟨ss, rfl, h⟩, rfl⟩

theorem decodeSingle_eq_ok {i : LedgerInput} : decodeSingle .ahead (.object fields none) = .ok i
    ↔ ∃ x, i = .single x ∧ IsSingle fields x := by
  have hdecode : decodeSingle .ahead (.object fields none)
      = (LedgerExtension.decode .ahead (.object fields none) >>= fun x => .ok (.single x)) := rfl
  rw [hdecode, bind_eq_ok]
  constructor
  · rintro ⟨x, hx, h⟩
    cases h
    rcases (Decoder.record_eq_ok ⟨rfl, fun _ _ => rfl⟩ hjs).1 hx with ⟨hs, h⟩ | ⟨s, ts, hs, hts, h⟩
    · cases h
      exact ⟨_, rfl, .inl ⟨hs, rfl⟩⟩
    · cases h
      obtain ⟨ss, rfl, h⟩ := Decoder.list_eq_ok.1 hts
      exact ⟨_, rfl, .inr ⟨ss, hs, h⟩⟩
  · rintro ⟨⟨ts⟩, rfl, h⟩
    refine ⟨⟨ts⟩, (Decoder.record_eq_ok ⟨rfl, fun _ _ => rfl⟩ hjs).2 ?_, rfl⟩
    rcases h with ⟨hs, h⟩ | ⟨ss, hs, h⟩
    · cases h
      exact .inl ⟨hs, rfl⟩
    · exact .inr ⟨_, ts, hs, Decoder.list_eq_ok.2 ⟨ss, rfl, h⟩, rfl⟩

/-- What an object that was read ahead is read as. -/
theorem firstOf_eq_ok {i : LedgerInput} :
    Decoder.firstOf "LedgerInput" [decodeBatch, decodeSingle] (.object fields none) = .ok i
      ↔ (∃ xs, i = .batch xs ∧ IsBatch fields xs)
        ∨ (¬∃ xs, IsBatch fields xs) ∧ ∃ x, i = .single x ∧ IsSingle fields x := by
  rw [Decoder.firstOf, ← decodeSingle_eq_ok hjs]
  rcases hb : decodeBatch .ahead (.object fields none) with e | b
  · have hnone : ¬∃ xs, IsBatch fields xs := fun ⟨xs, hxs⟩ => by
      rw [(decodeBatch_eq_ok hjs).2 ⟨xs, rfl, hxs⟩] at hb
      cases hb
    rw [Decoder.firstOf]
    rcases decodeSingle .ahead (.object fields none) with e | x
    · simp only [Decoder.firstOf, reduceCtorEq, and_false, or_false, false_iff]
      exact fun ⟨xs, _, hxs⟩ => hnone ⟨xs, hxs⟩
    · simp only [hnone, not_false_eq_true, true_and]
      exact ⟨.inr, fun h => h.resolve_left fun ⟨xs, _, hxs⟩ => hnone ⟨xs, hxs⟩⟩
  · obtain ⟨xs, rfl, hxs⟩ := (decodeBatch_eq_ok hjs).1 hb
    simp only [Except.ok.injEq]
    constructor
    · rintro rfl
      exact .inl ⟨xs, rfl, hxs⟩
    · rintro (⟨ys, rfl, hys⟩ | ⟨hnone, _⟩)
      · rw [(decodeBatch_eq_ok hjs).2 ⟨ys, rfl, hys⟩] at hb
        exact (Except.ok.inj hb).symm
      · exact absurd ⟨xs, hxs⟩ hnone

omit hjs

/-- A text that holds an object is read when it is well formed: as one extension for each item of a
batch, in order, or else as the single extension that the object is if its `extensions` do not
count. -/
theorem parse_eq_ok_iff {text : String} {stop : Option Stop}
    (h : (Source.ofString text).source = .object fields stop) {xs : List LedgerExtension} :
    parse text = .ok xs ↔ (∃ j, Json.ofString text = .ok j)
      ∧ (IsBatch fields xs ∨ (¬∃ ys, IsBatch fields ys) ∧ ∃ x, xs = [x] ∧ IsSingle fields x) := by
  have hparse : parse text = (((Decoder.ofFault ((Source.ofString text).source.toJson (some Json.maxDepth))
      >>= fun _ => Decoder.firstOf "LedgerInput" [decodeBatch, decodeSingle] (Source.ofString text).source)
      >>= fun i => if (Source.ofString text).isWhole then .ok i else .error (.fault .malformed)).map
        extensions) := rfl
  have hjson : Json.ofString text = ((Source.ofString text).source.toJson (some Json.maxDepth) >>=
      fun j => if (Source.ofString text).isWhole then .ok j else .error .malformed) := by
    simp only [Json.ofString, Json.ofChars, Source.ofString]
    rcases (Source.ofChars text.toList).source.toJson (some Json.maxDepth) with f | j <;> rfl
  rw [hparse, hjson, h]
  rcases hj : Source.toJson (some Json.maxDepth) (.object fields stop) with f | j
  · simp [Decoder.ofFault, bind, Except.bind, Except.map]
  · obtain ⟨rfl, n', js, hjs⟩ := Source.toJson_object_eq_ok hj
    rcases (Source.ofString text).isWhole with _ | _
    · rcases Decoder.firstOf "LedgerInput" [decodeBatch, decodeSingle] (.object fields none) with e | i
      <;> simp [Decoder.ofFault, bind, Except.bind, Except.map]
    · have hread : ((Decoder.ofFault (.ok j) >>= fun _ => Decoder.firstOf "LedgerInput"
          [decodeBatch, decodeSingle] (.object fields none)) >>= fun i =>
            if true then .ok i else .error (.fault .malformed)).map extensions
          = (Decoder.firstOf "LedgerInput" [decodeBatch, decodeSingle] (.object fields none)).map
            extensions := by
        rcases Decoder.firstOf "LedgerInput" [decodeBatch, decodeSingle] (.object fields none) <;> rfl
      rw [hread, map_eq_ok]
      constructor
      · rintro ⟨i, hi, rfl⟩
        refine ⟨⟨j, rfl⟩, ?_⟩
        rcases (firstOf_eq_ok hjs).1 hi with ⟨xs, rfl, hxs⟩ | ⟨hnone, x, rfl, hx⟩
        · exact .inl hxs
        · exact .inr ⟨hnone, x, rfl, hx⟩
      · rintro ⟨_, hxs | ⟨hnone, x, rfl, hx⟩⟩
        · exact ⟨_, (firstOf_eq_ok hjs).2 (.inl ⟨xs, rfl, hxs⟩), rfl⟩
        · exact ⟨_, (firstOf_eq_ok hjs).2 (.inr ⟨hnone, x, rfl, hx⟩), rfl⟩

/-- A batch whose one item is no extension. -/
def brokenBatch : String := "\x7b\"extensions\":[\x7b\"transactions\":null\x7d]\x7d"

/-- The fields of the batch. -/
def brokenFields : List (Except Fault String × Source) :=
  [(.ok "extensions", .array [.object [(.ok "transactions", .null)] none] none)]

theorem source_brokenBatch : (Source.ofString brokenBatch).source = .object brokenFields none := by
  cbv

theorem parse_brokenBatch : parse brokenBatch = .ok [{}] := by cbv

theorem parse_eq_ok_iff_brokenBatch :
    (Source.ofString brokenBatch).source = .object brokenFields none
      ∧ parse brokenBatch = .ok [{}] ∧ (∃ j, Json.ofString brokenBatch = .ok j)
      ∧ (IsBatch brokenFields [{}]
        ∨ (¬∃ ys, IsBatch brokenFields ys) ∧ ∃ x, [{}] = [x] ∧ IsSingle brokenFields x) :=
  ⟨source_brokenBatch, parse_brokenBatch, (parse_eq_ok_iff source_brokenBatch).1 parse_brokenBatch⟩

/-- An object with `extensions` may be read as something else than these: the item of the broken
batch is lost. -/
theorem not_forall_parse_isBatch : ¬∀ (text : String) (fields : List (Except Fault String × Source))
    (stop : Option Stop) (xs : List LedgerExtension),
    (Source.ofString text).source = .object fields stop → fieldsNamed "extensions" fields ≠ [] →
    parse text = .ok xs → IsBatch fields xs := by
  intro h
  obtain ⟨ss, hs, hxs⟩ := h brokenBatch brokenFields none [{}] source_brokenBatch
    (List.cons_ne_nil _ _) parse_brokenBatch
  cases hs
  rcases hxs with _ | ⟨hx, _⟩
  have hnull : LedgerExtension.decode .ahead (.object [(.ok "transactions", .null)] none)
      = .error .invalidValue := rfl
  rw [hnull] at hx
  cases hx

end LedgerInput

end LedgerHistory
