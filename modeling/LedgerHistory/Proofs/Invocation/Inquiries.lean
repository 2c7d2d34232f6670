import LedgerHistory.Proofs.Invocation.KnownEntities

/-!
# Inquiries into the known entities

The indexes of the known entities are built when they are needed and kept until a key is missing, so
what they hold depends on which look-ups came before. The answers do not: whatever is resolved, added
and looked up in whatever order, each look-up finds what a scan of the entities recorded so far finds,
if these have different numbers, and the directory is asked for no address that is recorded
(`KnownEntities.answerAll_eq_scan`).
-/

namespace LedgerHistory

/-- Something asked of the known entities. -/
inductive Inquiry
  | resolve (address : Address) (stateVersion : Int64)
  | insert (e : Entity)
  | get (address : Address)
  | lookupId (id : EntityId)
  | lookupGlobal (address : Address)
  | atVersion (stateVersion : Int64)

/-- What answers the calls of scripts: from a state, a reply to each call and the next state. -/
abbrev Responder (σ : Type) := σ → (c : StoreCall) → Except StoreError c.Reply × σ

abbrev Exchange := (c : StoreCall) × Except StoreError c.Reply

/-- What comes of an inquiry: the entities found, and the calls made for it. -/
structure Finding where
  found : Except InvocationError (List Entity)
  asked : List Exchange := []

/-- Whether the directory is asked for an address. -/
def Exchange.IsFor (a : Address) : Exchange → Prop
  | ⟨.resolveEntity b _, _⟩ => b = a
  | _ => False

/-- Whether the directory is asked for an address and answers with an entity. -/
def Exchange.finds (a : Address) : Exchange → Bool
  | ⟨.resolveEntity b _, .ok _⟩ => b = a
  | _ => false

/-- Whether the entity that the directory answers with has the address asked for. -/
def Responder.IsHonest {σ : Type} (r : Responder σ) : Prop :=
  ∀ w a v e, (r w (.resolveEntity a v)).1 = .ok e → e.address = a

variable {σ : Type}

/-- Runs a script whose calls are answered. The invocation is not cancelled. -/
def Script.respond {α : Type} (r : Responder σ) : Script α → σ → (α × List Exchange) × σ
  | .done a, w => ((a, []), w)
  | .call c next, w =>
    let (reply, w) := r w c
    let ((a, asked), w) := (next reply).respond r w
    ((a, ⟨c, reply⟩ :: asked), w)
  | .ifCancelled next, w => (next false).respond r w
  | .log _ next, w => next.respond r w

def KnownEntities.inquire (r : Responder σ) (s : KnownEntities × σ) :
    Inquiry → Finding × KnownEntities × σ
  | .resolve a v =>
    match (s.1.resolve a v).run.respond r s.2 with
    | ((.ok (e, known), asked), w) => (⟨.ok [e], asked⟩, known, w)
    | ((.error e, asked), w) => (⟨.error e, asked⟩, s.1, w)
  | .insert e => let (e, known) := s.1.insert e; (⟨.ok [e], []⟩, known, s.2)
  | .get a => (⟨(s.1.get a).map ([·]), []⟩, s)
  | .lookupId id => let (found, known) := s.1.lookupId id; (⟨found.map ([·]), []⟩, known, s.2)
  | .lookupGlobal a => let (found, known) := s.1.lookupGlobal a; (⟨found.map ([·]), []⟩, known, s.2)
  | .atVersion v => (⟨.ok (s.1.atVersion v), []⟩, s)

namespace Inquiry

def found (key : EntityKey) (e : Option Entity) : Except InvocationError (List Entity) :=
  e.elim (.error (.notFound key)) fun e => .ok [e]

/-- Records an entity, unless its address is recorded already. -/
def record (recorded : List Entity) (e : Entity) : Entity × List Entity :=
  match recorded.find? (·.address = e.address) with
  | some known => (known, recorded)
  | none => (e, recorded ++ [e])

/-- Answers an inquiry out of a plain record of entities, without any index. -/
def scan (r : Responder σ) (s : List Entity × σ) : Inquiry → Finding × List Entity × σ
  | .resolve a v =>
    match s.1.find? (·.address = a), r s.2 (.resolveEntity a v) with
    | some e, _ => (⟨.ok [e], []⟩, s)
    | none, (.ok e, w) => (⟨.ok [e], [⟨.resolveEntity a v, .ok e⟩]⟩, s.1 ++ [e], w)
    | none, (.error e, w) =>
      (⟨.error (.store .resolve e), [⟨.resolveEntity a v, .error e⟩]⟩, s.1, w)
  | .insert e => let (e, recorded) := record s.1 e; (⟨.ok [e], []⟩, recorded, s.2)
  | .get a => (⟨found (.address a) (s.1.find? (·.address = a)), []⟩, s)
  | .lookupId id => (⟨found (.id id) (s.1.find? (·.id = id)), []⟩, s)
  | .lookupGlobal a =>
    (⟨found (.globalAddress a) (s.1.find? fun e => e.isGlobal ∧ e.address = a), []⟩, s)
  | .atVersion v => (⟨.ok (s.1.filter (·.stateVersion = v)), []⟩, s)

/-- Makes inquiries in order. -/
def answerAll {S : Type} (step : S → Inquiry → Finding × S) (s : S) : List Inquiry → List Finding × S
  | [] => ([], s)
  | q :: qs =>
    let (f, s) := step s q
    let (fs, s) := answerAll step s qs
    (f :: fs, s)

end Inquiry

/-! ## Indexes -/

section Index

variable {κ : Type} [DecidableEq κ] {keyOf : Entity → Option κ} {es : List Entity}

/-- Whether an index was built from the first of some entities. -/
def EntityIndex.IsOf (index : EntityIndex κ) (keyOf : Entity → Option κ) (es : List Entity) : Prop :=
  ∃ earlier, earlier <+: es ∧ index = build keyOf earlier

namespace EntityIndex

omit [DecidableEq κ] in
theorem IsOf.mono {index : EntityIndex κ} (h : index.IsOf keyOf es) {es' : List Entity}
    (hp : es <+: es') : index.IsOf keyOf es' :=
  let ⟨earlier, he, hi⟩ := h
  ⟨earlier, he.trans hp, hi⟩

/-- The latest entity of a key is the first one, if keys are distinct. -/
theorem find?_build (h : (es.filterMap keyOf).Nodup) (key : κ) :
    (build keyOf es).find? key = es.find? (keyOf · = some key) := by
  have hkeys : ((es.filterMap fun e => (keyOf e).map (·, e)).map (·.1)) = es.filterMap keyOf := by
    rw [List.map_filterMap]
    congr 1
    funext e
    cases keyOf e <;> rfl
  have hreverse : (build keyOf es).find? key
      = Dictionary.find? key (es.filterMap fun e => (keyOf e).map (·, e)) := by
    ext e
    rw [find?, Dictionary.find?_eq_some_iff, Dictionary.find?_eq_some_iff (hkeys ▸ h)]
    · simp [build]
    · simpa [build, List.map_reverse, hkeys] using h
  rw [hreverse]
  clear h hkeys hreverse
  induction es with
  | nil => rfl
  | cons e es ih =>
    rcases hk : keyOf e with _ | k
    · simpa [hk] using ih
    · by_cases hkk : k = key <;> simp [hk, Dictionary.find?, hkk, ih]

/-- Whatever the index was built from, a look-up is a scan of all entities. -/
theorem lookup_of_isOf {index : EntityIndex κ} (h : index.IsOf keyOf es)
    (hn : (es.filterMap keyOf).Nodup) (key : κ) :
    (index.lookup keyOf es key).1 = es.find? (keyOf · = some key) ∧
      (index.lookup keyOf es key).2.IsOf keyOf es := by
  obtain ⟨earlier, ⟨later, rfl⟩, rfl⟩ := h
  have hearlier : (earlier.filterMap keyOf).Nodup :=
    hn.sublist ((List.sublist_append_left earlier later).filterMap keyOf)
  unfold lookup
  rcases hf : (build keyOf earlier).find? key with _ | e
  · by_cases hlen : earlier.length = (earlier ++ later).length
    · have hlater : later = [] := by simpa using hlen
      subst hlater
      simp only [List.append_nil] at hn ⊢
      simp only [build, if_true]
      exact ⟨find?_build hn key, earlier, List.prefix_rfl, rfl⟩
    · simp only [build, hlen, if_false]
      exact ⟨find?_build hn key, _, List.prefix_rfl, rfl⟩
  · refine ⟨?_, earlier, List.prefix_append _ _, rfl⟩
    rw [find?_build hearlier] at hf
    simp [List.find?_append, hf]

end EntityIndex

end Index

/-! ## Scans -/

theorem Exchange.isFor_of_finds {a : Address} {x : Exchange} (h : x.finds a = true) : x.IsFor a := by
  obtain ⟨c, reply⟩ := x
  cases c <;> try cases h
  cases reply with
  | error e => cases h
  | ok e => exact of_decide_eq_true (p := _ = a) h

namespace Inquiry

variable {r : Responder σ}

theorem map_elim (key : EntityKey) (e : Option Entity) :
    (e.elim (Except.error (InvocationError.notFound key)) Except.ok).map ([·]) = found key e := by
  cases e <;> rfl

theorem isPrefix_record (recorded : List Entity) (e : Entity) : recorded <+: (record recorded e).2 := by
  unfold record
  split
  · exact List.prefix_rfl
  · exact List.prefix_append _ _

theorem isPrefix_scan (r : Responder σ) (s : List Entity × σ) (q : Inquiry) :
    s.1 <+: (scan r s q).2.1 := by
  cases q with
  | resolve a v =>
    simp only [scan]
    split
    · exact List.prefix_rfl
    · exact List.prefix_append _ _
    · exact List.prefix_rfl
  | insert e => exact isPrefix_record s.1 e
  | get | lookupId | lookupGlobal | atVersion => exact List.prefix_rfl

/-- The addresses recorded. -/
def addresses (recorded : List Entity) : List Address := recorded.map (·.address)

theorem find?_eq_none_iff {recorded : List Entity} {a : Address} :
    recorded.find? (·.address = a) = none ↔ a ∉ addresses recorded := by
  simp [addresses]

theorem nodup_append {recorded : List Entity} (h : (addresses recorded).Nodup) {e : Entity}
    (he : recorded.find? (·.address = e.address) = none) : (addresses (recorded ++ [e])).Nodup := by
  rw [find?_eq_none_iff] at he
  simpa [addresses, List.nodup_append] using ⟨h, by simpa [addresses] using he⟩

/-- An address is recorded at most once. -/
theorem nodup_scan (hr : r.IsHonest) {s : List Entity × σ} (h : (addresses s.1).Nodup) (q : Inquiry) :
    (addresses (scan r s q).2.1).Nodup := by
  cases q with
  | resolve a v =>
    simp only [scan]
    split
    · exact h
    · rename_i e w hnone hreply
      have ha : e.address = a := hr s.2 a v e (by rw [hreply])
      exact nodup_append h (by rwa [ha])
    · exact h
  | insert e =>
    change (addresses (record s.1 e).2).Nodup
    unfold record
    split
    · exact h
    · exact nodup_append h ‹_›
  | get | lookupId | lookupGlobal | atVersion => exact h

/-- Only the resolution of an address that is not recorded asks the directory, and it asks once. -/
theorem asked_scan (r : Responder σ) (s : List Entity × σ) (q : Inquiry) :
    (scan r s q).1.asked = [] ∨ ∃ a v, a ∉ addresses s.1 ∧
      (scan r s q).1.asked = [⟨.resolveEntity a v, (r s.2 (.resolveEntity a v)).1⟩] := by
  cases q with
  | resolve a v =>
    simp only [scan]
    split
    · exact .inl rfl
    · rename_i hnone hreply
      exact .inr ⟨a, v, find?_eq_none_iff.1 hnone, by rw [hreply]⟩
    · rename_i hnone hreply
      exact .inr ⟨a, v, find?_eq_none_iff.1 hnone, by rw [hreply]⟩
  | insert | get | lookupId | lookupGlobal | atVersion => exact .inl rfl

/-- The entity that the directory answers with is recorded. -/
theorem mem_of_finds (hr : r.IsHonest) {s : List Entity × σ} {q : Inquiry} {x : Exchange}
    (hx : x ∈ (scan r s q).1.asked) {a : Address} (ha : x.finds a = true) :
    a ∈ addresses (scan r s q).2.1 := by
  cases q with
  | resolve b v =>
    simp only [scan] at hx ⊢
    split at hx
    · cases hx
    · rename_i e w hnone hreply
      rw [List.mem_singleton.1 hx] at ha
      have hb : b = a := of_decide_eq_true (p := b = a) ha
      have he : e.address = b := hr s.2 b v e (by rw [hreply])
      simp [addresses, he, hb]
    · rw [List.mem_singleton.1 hx] at ha
      cases ha
  | insert | get | lookupId | lookupGlobal | atVersion => cases hx

end Inquiry

/-! ## One inquiry -/

namespace KnownEntities

open Inquiry

variable {r : Responder σ} {known : KnownEntities} {recorded : List Entity}

/-- What holds of the known entities when some entities are recorded: both indexes are of the first
of these, if not of all. -/
structure Follows (known : KnownEntities) (recorded : List Entity) : Prop where
  order : known.order = recorded
  byId : known.byId.IsOf idKey recorded
  byGlobalAddress : known.byGlobalAddress.IsOf globalKey recorded

theorem follows_empty : empty.Follows [] where
  order := rfl
  byId := ⟨[], List.prefix_rfl, rfl⟩
  byGlobalAddress := ⟨[], List.prefix_rfl, rfl⟩

theorem Follows.append (h : known.Follows recorded) (e : Entity) :
    { known with order := known.order ++ [e] }.Follows (recorded ++ [e]) where
  order := congrArg (· ++ [e]) h.order
  byId := h.byId.mono (List.prefix_append _ _)
  byGlobalAddress := h.byGlobalAddress.mono (List.prefix_append _ _)

theorem insert_of_find?_none {e : Entity} (h : known.find? e.address = none) :
    known.insert e = (e, { known with order := known.order ++ [e] }) := by
  simp [insert, h]

theorem respond_resolve (r : Responder σ) (known : KnownEntities) (a : Address) (v : Int64) (w : σ) :
    (known.resolve a v).run.respond r w = match known.find? a with
      | some e => ((.ok (e, known), []), w)
      | none =>
        let (reply, w) := r w (.resolveEntity a v)
        (((reply.mapError (.store .resolve)).map known.insert, [⟨.resolveEntity a v, reply⟩]), w) := by
  rcases hf : known.find? a with _ | e
  · have hcall : (known.resolve a v).run = .call (.resolveEntity a v) fun reply =>
        .done ((reply.mapError (.store .resolve)).map known.insert) := by
      unfold resolve
      rw [hf]
      exact congrArg (Script.call _) (funext fun reply => by cases reply <;> rfl)
    rw [hcall]
    rfl
  · unfold resolve
    rw [hf]
    rfl

theorem nodup_idKey (h : (recorded.map (·.id)).Nodup) : (recorded.filterMap idKey).Nodup := by
  rwa [← List.filterMap_eq_map] at h

theorem nodup_globalKey (h : (addresses recorded).Nodup) : (recorded.filterMap globalKey).Nodup := by
  have hkeys : recorded.filterMap globalKey = (recorded.filter (·.isGlobal)).map (·.address) := by
    rw [← List.filterMap_eq_filter, List.map_filterMap]
    congr 1
    funext e
    by_cases hg : e.isGlobal <;> simp [globalKey, Option.guard, hg]
  rw [hkeys]
  exact h.sublist (List.filter_sublist.map _)

/-- One inquiry finds what a scan finds, and the known entities follow what is recorded. -/
theorem inquire_eq_scan (hr : r.IsHonest) {s : List Entity × σ} (h : known.Follows s.1)
    (q : Inquiry) (ha : (addresses s.1).Nodup) (hids : (s.1.map (·.id)).Nodup) :
    ∃ known', inquire r (known, s.2) q = ((scan r s q).1, known', (scan r s q).2.2) ∧
      known'.Follows (scan r s q).2.1 := by
  obtain ⟨recorded, w⟩ := s
  have hfind (a : Address) : recorded.find? (·.address = a) = known.find? a :=
    congrArg (List.find? _) h.order.symm
  cases q with
  | resolve a v =>
    simp only [inquire, scan, respond_resolve, hfind]
    rcases hf : known.find? a with _ | e
    · rcases hreply : r w (.resolveEntity a v) with ⟨e | e, w'⟩
      · exact ⟨known, rfl, h⟩
      · have he : e.address = a := hr w a v e (by rw [hreply])
        simp only [Except.mapError, Except.map, insert_of_find?_none (he ▸ hf)]
        exact ⟨_, rfl, h.append e⟩
    · exact ⟨known, rfl, h⟩
  | insert e =>
    simp only [inquire, scan, record, insert, hfind]
    rcases known.find? e.address with _ | e'
    · exact ⟨_, rfl, h.append e⟩
    · exact ⟨known, rfl, h⟩
  | get a =>
    refine ⟨known, ?_, h⟩
    simp only [inquire, scan, get, hfind]
    rcases known.find? a with _ | e <;> rfl
  | lookupId id =>
    obtain ⟨hfound, hindex⟩ := EntityIndex.lookup_of_isOf h.byId (nodup_idKey hids) id
    refine ⟨{ known with byId := (known.byId.lookup idKey recorded id).2 }, ?_,
      ⟨h.order, hindex, h.byGlobalAddress⟩⟩
    simp only [inquire, scan, lookupId, h.order, hfound, idKey, Option.some.injEq, map_elim]
  | lookupGlobal a =>
    obtain ⟨hfound, hindex⟩ :=
      EntityIndex.lookup_of_isOf h.byGlobalAddress (nodup_globalKey ha) a
    refine ⟨{ known with byGlobalAddress := (known.byGlobalAddress.lookup globalKey recorded a).2 },
      ?_, ⟨h.order, h.byId, hindex⟩⟩
    simp only [inquire, scan, lookupGlobal, h.order, hfound, globalKey_eq_some_iff, map_elim]
  | atVersion v => exact ⟨known, by simp only [inquire, scan, atVersion, h.order], h⟩

/-! ## A run of inquiries -/

theorem answerAll_append {S : Type} (step : S → Inquiry → Finding × S) (s : S) (qs qs' : List Inquiry) :
    answerAll step s (qs ++ qs') =
      ((answerAll step s qs).1 ++ (answerAll step (answerAll step s qs).2 qs').1,
        (answerAll step (answerAll step s qs).2 qs').2) := by
  induction qs generalizing s with
  | nil => rfl
  | cons q qs ih => simp [answerAll, ih]

theorem isPrefix_answerAll (r : Responder σ) (s : List Entity × σ) (qs : List Inquiry) :
    s.1 <+: (answerAll (scan r) s qs).2.1 := by
  induction qs generalizing s with
  | nil => exact List.prefix_rfl
  | cons q qs ih => exact (isPrefix_scan r s q).trans (ih _)

theorem nodup_answerAll_scan (hr : r.IsHonest) {s : List Entity × σ} (h : (addresses s.1).Nodup)
    (qs : List Inquiry) : (addresses (answerAll (scan r) s qs).2.1).Nodup := by
  induction qs generalizing s with
  | nil => exact h
  | cons q qs ih => exact ih (nodup_scan hr h q)

/-- An address that is recorded is asked for no more. -/
theorem not_isFor_of_mem {a : Address} {s : List Entity × σ} (ha : a ∈ addresses s.1)
    (qs : List Inquiry) : ∀ f ∈ (answerAll (scan r) s qs).1, ∀ x ∈ f.asked, ¬x.IsFor a := by
  induction qs generalizing s with
  | nil => simp [answerAll]
  | cons q qs ih =>
    have hlater : a ∈ addresses (scan r s q).2.1 := ((isPrefix_scan r s q).map _).subset ha
    simp only [answerAll, List.mem_cons, forall_eq_or_imp]
    refine ⟨fun x hx hfor => ?_, ih hlater⟩
    rcases asked_scan r s q with hnone | ⟨b, v, hb, hone⟩
    · rw [hnone] at hx
      cases hx
    · rw [hone, List.mem_singleton] at hx
      subst hx
      cases hfor
      exact hb ha

/-- The directory answers once at most with the entity of an address. -/
theorem countP_finds_le_one (hr : r.IsHonest) (a : Address) (s : List Entity × σ)
    (qs : List Inquiry) :
    ((answerAll (scan r) s qs).1.flatMap (·.asked)).countP (·.finds a) ≤ 1 := by
  induction qs generalizing s with
  | nil => simp [answerAll]
  | cons q qs ih =>
    simp only [answerAll, List.flatMap_cons, List.countP_append]
    rcases asked_scan r s q with hnone | ⟨b, v, hb, hone⟩
    · rw [hnone, List.countP_nil, Nat.zero_add]
      exact ih _
    · by_cases hx : Exchange.finds a ⟨.resolveEntity b v, (r s.2 (.resolveEntity b v)).1⟩
      · have hmem : a ∈ addresses (scan r s q).2.1 :=
          mem_of_finds hr (by rw [hone]; exact List.mem_singleton_self _) hx
        have hlater : ((answerAll (scan r) (scan r s q).2 qs).1.flatMap (·.asked)).countP (·.finds a)
            = 0 := by
          refine List.countP_eq_zero.2 fun x hx hfinds => ?_
          obtain ⟨f, hf, hxf⟩ := List.mem_flatMap.1 hx
          exact not_isFor_of_mem hmem qs f hf x hxf (Exchange.isFor_of_finds hfinds)
        rw [hlater, Nat.add_zero]
        exact Nat.le_trans List.countP_le_length (by rw [hone]; exact Nat.le_refl 1)
      · rw [hone, List.countP_singleton, if_neg hx, Nat.zero_add]
        exact ih _

/-- The inquiries find what scans find, and leave the known entities to follow what is recorded. -/
theorem answerAll_inquire (hr : r.IsHonest) {s : List Entity × σ} (h : known.Follows s.1)
    (ha : (addresses s.1).Nodup) (qs : List Inquiry)
    (hids : ((answerAll (scan r) s qs).2.1.map (·.id)).Nodup) :
    ∃ known', answerAll (inquire r) (known, s.2) qs
        = ((answerAll (scan r) s qs).1, known', (answerAll (scan r) s qs).2.2) ∧
      known'.Follows (answerAll (scan r) s qs).2.1 := by
  induction qs generalizing known s with
  | nil => exact ⟨known, rfl, h⟩
  | cons q qs ih =>
    have hnow : (s.1.map (·.id)).Nodup :=
      hids.sublist ((isPrefix_answerAll r s (q :: qs)).map _).sublist
    obtain ⟨next, hstep, hnext⟩ := inquire_eq_scan hr h q ha hnow
    obtain ⟨last, hrest, hlast⟩ := ih hnext (nodup_scan hr ha q) hids
    refine ⟨last, ?_, hlast⟩
    simp only [answerAll, hstep, hrest]

/-- The findings of inquiries that start with no entity known, and what is known after them. -/
def answers (r : Responder σ) (w : σ) (qs : List Inquiry) : List Finding × KnownEntities × σ :=
  answerAll (inquire r) (empty, w) qs

/-- The findings of scans that start with no entity recorded, and what is recorded after them. -/
def scans (r : Responder σ) (w : σ) (qs : List Inquiry) : List Finding × List Entity × σ :=
  answerAll (scan r) ([], w) qs

/-- What holds of the answers to inquiries that start with no entity known. -/
structure AnswersAsScanned (r : Responder σ) (w : σ) (qs : List Inquiry) : Prop where
  /-- Each inquiry finds, and asks the directory for, what a scan does. -/
  findings : (answers r w qs).1 = (scans r w qs).1
  recorded : (answers r w qs).2.1.order = (scans r w qs).2.1
  state : (answers r w qs).2.2 = (scans r w qs).2.2
  /-- An address keeps its entity. -/
  kept (before after : List Inquiry) : before ++ after = qs → ∀ a e,
    (answers r w before).2.1.find? a = some e → (answers r w qs).2.1.find? a = some e
  /-- The directory is not asked for an address that has an entity. -/
  unasked (before after : List Inquiry) : before ++ after = qs → ∀ a e,
    (answers r w before).2.1.find? a = some e →
    ∀ f ∈ (answerAll (inquire r) (answers r w before).2 after).1, ∀ x ∈ f.asked, ¬x.IsFor a
  /-- The directory is asked for an address until it answers with the entity, and then no more. -/
  found_once (a : Address) : ((answers r w qs).1.flatMap (·.asked)).countP (·.finds a) ≤ 1
  /-- A resolution that fails leaves the known entities and their indexes as they were. -/
  unchanged (before after : List Inquiry) (a : Address) (v : Int64) (error : InvocationError) :
    before ++ .resolve a v :: after = qs →
    (inquire r (answers r w before).2 (.resolve a v)).1.found = .error error →
    (inquire r (answers r w before).2 (.resolve a v)).2.1 = (answers r w before).2.1

theorem inquire_resolve_of_error {s : KnownEntities × σ} {a : Address} {v : Int64}
    {error : InvocationError} (h : (inquire r s (.resolve a v)).1.found = .error error) :
    (inquire r s (.resolve a v)).2.1 = s.1 := by
  simp only [inquire] at h ⊢
  split at h
  · cases h
  · rfl

theorem nodup_ids (ha : (addresses recorded).Nodup)
    (h : ∀ e ∈ recorded, ∀ e' ∈ recorded, e.id = e'.id → e.address = e'.address) :
    (recorded.map (·.id)).Nodup :=
  (List.Nodup.of_map _ ha).map_on fun e he e' he' hid =>
    List.inj_on_of_nodup_map ha he he' (h e he e' he' hid)

theorem nodup_scans (hr : r.IsHonest) (w : σ) (qs : List Inquiry) :
    (addresses (scans r w qs).2.1).Nodup :=
  nodup_answerAll_scan hr (s := ([], w)) List.nodup_nil qs

theorem scans_append (r : Responder σ) (w : σ) (before after : List Inquiry) :
    (scans r w (before ++ after)).2 = (answerAll (scan r) (scans r w before).2 after).2 := by
  rw [scans, answerAll_append]
  rfl

theorem isPrefix_scans (r : Responder σ) (w : σ) (before after : List Inquiry) :
    (scans r w before).2.1 <+: (scans r w (before ++ after)).2.1 := by
  rw [scans_append]
  exact isPrefix_answerAll r _ after

/-- The known entities follow the scans up to any point of a run, if numbers are distinct at its end. -/
theorem exists_follows (hr : r.IsHonest) (w : σ) {before after : List Inquiry}
    (hids : ((scans r w (before ++ after)).2.1.map (·.id)).Nodup) :
    ∃ known, answers r w before = ((scans r w before).1, known, (scans r w before).2.2) ∧
      known.Follows (scans r w before).2.1 :=
  answerAll_inquire hr (s := ([], w)) follows_empty List.nodup_nil before
    (hids.sublist ((isPrefix_scans r w before after).map _).sublist)

/-- Inquiries into the known entities are answered as scans of the entities recorded so far answer
them, if the directory answers with the address asked for and entities with different addresses have
different numbers. -/
theorem answerAll_eq_scan (hr : r.IsHonest) (w : σ) (qs : List Inquiry)
    (hids : ∀ e ∈ (scans r w qs).2.1, ∀ e' ∈ (scans r w qs).2.1, e.id = e'.id → e.address = e'.address) :
    AnswersAsScanned r w qs := by
  have hids := nodup_ids (nodup_scans hr w qs) hids
  obtain ⟨last, hall, hlast⟩ := exists_follows hr w (qs.append_nil.symm ▸ hids)
  refine ⟨by rw [hall], by rw [hall]; exact hlast.order, by rw [hall], ?_, ?_, ?_, ?_⟩
  · rintro before after rfl a e he
    obtain ⟨known, hbefore, hknown⟩ := exists_follows hr w hids
    rw [hbefore, find?, hknown.order] at he
    rw [hall, find?, hlast.order]
    exact (isPrefix_scans r w before after).find?_eq_some he
  · rintro before after rfl a e he
    obtain ⟨known, hbefore, hknown⟩ := exists_follows hr w hids
    rw [scans_append] at hids
    obtain ⟨_, hrest, -⟩ := answerAll_inquire hr hknown (nodup_scans hr w before) after hids
    rw [hbefore, find?, hknown.order] at he
    rw [hbefore, hrest]
    refine not_isFor_of_mem ?_ after
    by_contra hnot
    rw [find?_eq_none_iff.2 hnot] at he
    cases he
  · intro a
    rw [hall]
    exact countP_finds_le_one hr a ([], w) qs
  · exact fun before after a v error _ h => inquire_resolve_of_error h

/-- A directory that numbers the entities in order, and whose second answer is a failure. -/
def numberingDirectory : Responder Nat
  | n, .resolveEntity a v =>
    (if n = 1 then .error (.transport "connection lost")
      else .ok (if a.isGlobal then .global a ⟨.ofNat n⟩ v else .internal a ⟨.ofNat n⟩ none v), n + 1)
  | n, _ => (.error (.transport "unexpected call"), n)

def accountMet : Address := ⟨"account_1", by decide⟩

def resourceMet : Address := ⟨"resource_1", by decide⟩

/-- A vault, which is internal. -/
def vaultMet : Address := ⟨"internal_vault_1", by decide⟩

/-- Both indexes are built and outdated, a resolution fails, and an internal entity has no global
address. -/
theorem answerAll_eq_scan_numbering :
    let qs := [.resolve accountMet 7, .lookupId ⟨0⟩, .lookupGlobal accountMet, .resolve resourceMet 8,
      .lookupGlobal resourceMet, .resolve resourceMet 8, .lookupGlobal resourceMet, .lookupId ⟨2⟩,
      .resolve vaultMet 8, .resolve accountMet 9, .lookupGlobal vaultMet, .atVersion 8]
    AnswersAsScanned numberingDirectory 0 qs ∧
      (answers numberingDirectory 0 qs).1.map (·.found) =
        [.ok [.global accountMet ⟨0⟩ 7], .ok [.global accountMet ⟨0⟩ 7],
          .ok [.global accountMet ⟨0⟩ 7], .error (.store .resolve (.transport "connection lost")),
          .error (.notFound (.globalAddress resourceMet)), .ok [.global resourceMet ⟨2⟩ 8],
          .ok [.global resourceMet ⟨2⟩ 8], .ok [.global resourceMet ⟨2⟩ 8],
          .ok [.internal vaultMet ⟨3⟩ none 8], .ok [.global accountMet ⟨0⟩ 7],
          .error (.notFound (.globalAddress vaultMet)),
          .ok [.global resourceMet ⟨2⟩ 8, .internal vaultMet ⟨3⟩ none 8]] ∧
      (answers numberingDirectory 0 qs).1.map (·.asked.length) = [1, 0, 0, 1, 0, 1, 0, 0, 1, 0, 0, 0] := by
  refine ⟨answerAll_eq_scan ?_ 0 _ ?_, ?_, ?_⟩
  · intro n a v e h
    simp only [numberingDirectory] at h
    split at h
    · cases h
    · cases h
      split <;> rfl
  · decide
  · rfl
  · rfl

end KnownEntities

end LedgerHistory
