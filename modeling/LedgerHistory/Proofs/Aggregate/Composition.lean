import LedgerHistory.Domain.Metadata
import LedgerHistory.Proofs.Aggregate.Coupling
import LedgerHistory.Proofs.Aggregate.Grouped
import LedgerHistory.Proofs.Aggregate.Marks

/-!
# Passes one after another

Two passes over groups of different keys, the second on what the first has left, come to what one pass
over all the groups comes to (`Pass.run_composed`). Where the second pass carries on aggregates that the
first has settled, the one pass carries on its own (`Coupling.behind`).
-/

namespace LedgerHistory

namespace Dictionary

variable {κ α β γ : Type} [DecidableEq κ]

theorem map_insert (f : κ → α → β) (t : Dictionary κ α) (k : κ) (a : α) :
    (t.insert k a).map f = (t.map f).insert k (f k a) := by
  obtain ⟨es⟩ := t
  refine congrArg Dictionary.mk ?_
  show (put k a es).map _ = put k (f k a) (es.map _)
  induction es with
  | nil => rfl
  | cons x es ih =>
    obtain ⟨k', b⟩ := x
    rw [put, List.map_cons, put]
    split
    · rfl
    · rw [List.map_cons, ih]

omit [DecidableEq κ] in
theorem map_congr {f g : κ → α → β} {t : Dictionary κ α} (h : ∀ x ∈ t.entries, f x.1 x.2 = g x.1 x.2) :
    t.map f = t.map g :=
  congrArg Dictionary.mk (List.map_congr_left fun x hx => congrArg (x.1, ·) (h x hx))

omit [DecidableEq κ] in
theorem map_map (f : κ → α → β) (g : κ → β → γ) (t : Dictionary κ α) :
    (t.map f).map g = t.map fun k a => g k (f k a) :=
  congrArg Dictionary.mk List.map_map

end Dictionary

variable {d : ListDomain}

/-- What a later pass knows of an aggregate where a pass that made the given ones before goes on: those
are settled, and its own stand so many places further to the front. -/
def LatestAggregate.behind (made : List Aggregate) : LatestAggregate → LatestAggregate
  | .settled a => .settled a
  | .pending i => (made[i]?.map LatestAggregate.settled).getD (.pending (i - made.length))

namespace Coupling

/-- A pass goes on where another one begins on what it has left so far. -/
def behind (R : NewRows d) : Coupling d where
  front := R
  allocators a b := a = b
  priors P Q := Q = ⟨P.aggregates.map fun _ => .behind R.aggregates, P.entries⟩
    ∧ ∀ e i a, P.aggregates.get? e = some (.pending i) → R.aggregates[i]? = some a → a.entity = e
  wanting := False

theorem lawful_behind (R : NewRows d) (es : List EntityId) (ks : List d.EntryKey) :
    (behind R).Lawful es ks where
  next {a b} hab t _ := by
    obtain rfl : a = b := hab
    rcases h : a.next t with e | ⟨id, a'⟩
    · exact .inr ⟨e, rfl, .inr rfl⟩
    · exact .inl ⟨id, a', a', rfl, rfl, rfl⟩
  slot {P Q} h e _ := by
    obtain ⟨rfl, hown⟩ := h
    simp only [Dictionary.get?_map]
    rcases hslot : P.aggregates.get? e with _ | a | i
    · exact .none
    · exact .settled a
    · rcases hi : R.aggregates[i]? with _ | a
      · obtain ⟨j, rfl⟩ := Nat.exists_eq_add_of_le (List.getElem?_eq_none_iff.1 hi)
        simp only [Option.map_some, LatestAggregate.behind, hi, Option.map_none, Option.getD_none,
          Nat.add_sub_cancel_left]
        exact .pending j
      · simp only [Option.map_some, LatestAggregate.behind, hi, Option.getD_some]
        exact .finished hi (hown e i a hslot hi)
  entry {P Q} h k _ := by
    obtain ⟨rfl, _⟩ := h
    rfl
  pending {P Q} h e i := by
    obtain ⟨rfl, hown⟩ := h
    have hnone : R.aggregates[R.aggregates.length + i]? = none :=
      List.getElem?_eq_none_iff.2 (Nat.le_add_right ..)
    refine ⟨?_, fun e' j a hslot ha => ?_⟩
    · simp only [behind, Dictionary.map_insert, LatestAggregate.behind, hnone, Option.map_none,
        Option.getD_none, Nat.add_sub_cancel_left]
    · simp only [Dictionary.get?_insert] at hslot
      split at hslot
      · cases hslot
        rw [show R.aggregates[(behind R).front.aggregates.length + i]? = none from hnone] at ha
        cases ha
      · exact hown e' j a hslot ha
  putEntry {P Q} h x := by
    obtain ⟨rfl, hown⟩ := h
    exact ⟨rfl, hown⟩

variable {prior : LatestRows d} {p q : Pass d}

/-- A pass begins on what another one has left. -/
theorem holds_behind (h : p.Marks prior) : (behind p.rows).Holds p
    ⟨p.prior.settle p.rows.aggregates, p.allocator, {}⟩ where
  priors := by
    refine ⟨?_, fun e i a hslot ha => ?_⟩
    · refine congrArg (LatestRows.mk · _) (Dictionary.map_congr fun x hx => ?_)
      rcases hslot : x.2 with a | i
      · rfl
      · have hplace := h.places x hx i hslot
        rw [Pass.made, List.getElem?_map, Option.map_eq_some_iff] at hplace
        obtain ⟨a, ha, _⟩ := hplace
        simp [LatestAggregate.behind, ha]
    · obtain ⟨b, hb, he⟩ := h.entity_of_place hslot
      rw [ha, Option.some.injEq] at hb
      rw [hb, he]
  allocators := rfl
  rows := (NewRows.append_empty _).symm

/-- Both passes leave the same prior state. -/
theorem settle_behind {R : NewRows d} (h : (behind R).Holds p q) (hp : p.Marks prior) :
    p.prior.settle p.rows.aggregates = q.prior.settle q.rows.aggregates := by
  have hrows : p.rows.aggregates = R.aggregates ++ q.rows.aggregates := congrArg NewRows.aggregates h.rows
  rw [h.priors.1, LatestRows.settle, LatestRows.settle, Dictionary.map_map]
  refine congrArg (LatestRows.mk · _) (Dictionary.map_congr fun x hx => ?_)
  rcases hslot : x.2 with a | i
  · rfl
  · have hplace := hp.places x hx i hslot
    rw [Pass.made, List.getElem?_map, Option.map_eq_some_iff] at hplace
    obtain ⟨a, ha, _⟩ := hplace
    rcases Nat.lt_or_ge i R.aggregates.length with hi | hi
    · have hR : R.aggregates[i]? = some a := by rw [← ha, hrows, List.getElem?_append_left hi]
      simp [LatestAggregate.behind, hR, ha]
    · have hR : R.aggregates[i]? = none := List.getElem?_eq_none_iff.2 hi
      have hq : q.rows.aggregates[i - R.aggregates.length]? = some a := by
        rw [← ha, hrows, List.getElem?_append_right hi]
      simp [LatestAggregate.behind, hR, ha, hq]

end Coupling

namespace Pass

open PassStep

variable {A B AB : GroupedChanges d} {prior : LatestRows d}

/-- What a pass comes to over the groups of two others: what the second of these comes to behind the
first. -/
theorem run_eq_of_run {a : Allocator} {R : NewRows d} (hAB : AB.toList = A.toList ++ B.toList)
    (hdisjoint : ∀ key ∈ A.groups.keys, key ∉ B.groups.keys) (hp : prior.NonePending)
    (hR : (run A prior a).result = .ok R) :
    (run AB prior a).result = (run B (run A prior a).prior (run A prior a).allocator).result.map (R ++ ·)
      ∧ ∀ R', (run AB prior a).result = .ok R' →
        (run AB prior a).prior = (run B (run A prior a).prior (run A prior a).allocator).prior
          ∧ (run AB prior a).allocator
            = (run B (run A prior a).prior (run A prior a).allocator).allocator := by
  obtain ⟨p, hA, rfl⟩ := exec_of_run_eq_ok hR
  have hmarks : ∀ {changes : GroupedChanges d} {r : Except InvocationError Unit} {p' : Pass d},
      (recordGroups changes.toList).exec ⟨prior, a, {}⟩ = (r, p') → p'.Marks prior := by
    intro changes r p' hx
    have := keeps_recordGroups (moves_marks prior changes.toList) _ (marks_start hp a)
    rwa [hx] at this
  have hnew : ∀ g ∈ B.toList, g.1 ∉ p.rows.aggregates.map Aggregate.groupKey := fun g hg hm =>
    hdisjoint g.1 ((run_leaves hp hR).keys g.1 hm) (List.mem_map_of_mem hg)
  have hwhole : (recordGroups AB.toList).exec ⟨prior, a, {}⟩ = (recordGroups B.toList).exec p := by
    rw [hAB]
    have happend : ∀ gs : List d.Group, recordGroups (gs ++ B.toList)
        = (recordGroups gs >>= fun _ => recordGroups B.toList) := fun gs => List.forM_append
    rw [happend, exec_bind_of_ok hA]
  rw [run_of_exec_ok hA]
  obtain ⟨⟨⟩, p', ⟨⟩, q, hp', hq, _, h⟩ | ⟨e, p', hp', he⟩ := Coupling.steps_recordGroups
    (Coupling.lawful_behind p.rows B.entities B.entryKeys)
    (fun g hg => List.mem_map_of_mem (f := (·.entity)) (List.mem_map_of_mem (f := (·.1)) hg))
    (fun g hg x hx => List.mem_flatMap.2 ⟨g, hg, List.mem_map.2 ⟨x, hx, rfl⟩⟩) hnew
    (Coupling.holds_behind (hmarks hA))
  · rw [run_of_exec_ok (hwhole.trans hp'), run_of_exec_ok hq]
    refine ⟨congrArg Except.ok h.rows, fun _ _ => ⟨?_, h.allocators⟩⟩
    exact Coupling.settle_behind h (hmarks (hwhole.trans hp'))
  · rw [run_of_exec_error (hwhole.trans hp')]
    rcases hq : (recordGroups B.toList).exec ⟨p.prior.settle p.rows.aggregates, p.allocator, {}⟩
      with ⟨r, q⟩
    rw [hq] at he
    obtain rfl : r = .error e := he.resolve_left id
    rw [run_of_exec_error hq]
    exact ⟨rfl, nofun⟩

theorem run_eq_of_run_eq_error {a : Allocator} {e : InvocationError}
    (hAB : AB.toList = A.toList ++ B.toList) (he : (run A prior a).result = .error e) :
    (run AB prior a).result = .error e := by
  rcases hA : (recordGroups A.toList).exec ⟨prior, a, {}⟩ with ⟨e' | ⟨⟩, p⟩
  · rw [run_of_exec_error hA, Except.error.injEq] at he
    subst he
    have happend : recordGroups AB.toList
        = (recordGroups A.toList >>= fun _ => recordGroups B.toList) := by
      rw [hAB]
      exact List.forM_append
    rw [run_of_exec_error (happend ▸ exec_bind_of_error hA)]
  · rw [run_of_exec_ok hA] at he
    cases he

/-- Passes compose: a pass over the groups of one behind those of another, none with the key of another,
succeeds if and only if the two passes do one after the other, and fails with the error of the first one
that fails. It then makes the rows of both, and leaves the prior state and the counters that they leave.
A pass that succeeds leaves no aggregate pending: of each entity of its groups the last aggregate that
it made, and of all others what was known before. -/
theorem run_composed (hAB : AB.toList = A.toList ++ B.toList)
    (hdisjoint : ∀ key ∈ A.groups.keys, key ∉ B.groups.keys) (hp : prior.NonePending) (a : Allocator) :
    (run AB prior a).result = (do
        let R ← (run A prior a).result
        let R' ← (run B (run A prior a).prior (run A prior a).allocator).result
        return R ++ R')
      ∧ (∀ R, (run AB prior a).result = .ok R →
        (run AB prior a).prior = (run B (run A prior a).prior (run A prior a).allocator).prior
          ∧ (run AB prior a).allocator
            = (run B (run A prior a).prior (run A prior a).allocator).allocator)
      ∧ ∀ (changes : GroupedChanges d) R, (run changes prior a).result = .ok R →
        (run changes prior a).prior.NonePending
          ∧ (∀ e ∈ changes.entities, ∃ b, lastWith (·.entity) e R.aggregates = some b
            ∧ (run changes prior a).prior.aggregate? e = some b)
          ∧ ∀ e, e ∉ changes.entities →
            (run changes prior a).prior.aggregates.get? e = prior.aggregates.get? e := by
  refine ⟨?_, ?_, fun changes R hR => ?_⟩
  · rcases hA : (run A prior a).result with e | R
    · exact run_eq_of_run_eq_error hAB hA
    · rw [(run_eq_of_run hAB hdisjoint hp hA).1]
      rcases (run B (run A prior a).prior (run A prior a).allocator).result with e | R' <;> rfl
  · intro R hR
    rcases hA : (run A prior a).result with e | R'
    · rw [run_eq_of_run_eq_error hAB hA] at hR
      cases hR
    · exact (run_eq_of_run hAB hdisjoint hp hA).2 R hR
  · have h := run_leaves hp hR
    refine ⟨h.nonePending, fun e he => ?_, fun e he => ?_⟩
    · rcases hb : lastWith (·.entity) e R.aggregates with _ | b
      · obtain ⟨c, hc, hce⟩ := List.mem_map.1 ((h.entities e).2 he)
        exact absurd hce (lastWith_eq_none_iff.1 hb c hc)
      · refine ⟨b, hb, ?_⟩
        rw [LatestRows.aggregate?, h.aggregates, hb]
        rfl
    · have hnone : lastWith (·.entity) e R.aggregates = none :=
        lastWith_eq_none_iff.2 fun b hb hbe => he ((h.entities e).1 (List.mem_map.2 ⟨b, hb, hbe⟩))
      rw [h.aggregates, hnone]
      rfl

/-- A change of an entity's title at a version. -/
def titled (entity : Int64) (version : Int64) (text : List UInt8) :
    GroupKey × Meaning Metadata.domain.Change Metadata.domain.Singleton :=
  (⟨⟨entity⟩, version⟩, .entry ⟨"title", some text, false⟩)

/-- Counters of the tables of metadata that begin at ten. -/
def countersFromTen : Allocator := .ofValues (Metadata.domain.tables.map (·, 10))

/-- The second title takes the place of the first one, whether one pass sees both or two see one each. -/
theorem run_composed_sample :
    (∀ key ∈ (GroupedChanges.ofList [titled 1 1 [1]]).groups.keys,
        key ∉ (GroupedChanges.ofList [titled 1 2 [2]]).groups.keys)
      ∧ ({} : LatestRows Metadata.domain).NonePending
      ∧ ∃ R R', (run (.ofList [titled 1 1 [1]]) {} countersFromTen).result = .ok R
        ∧ R'.aggregates = [⟨11, 2, ⟨1⟩, ⟨[11]⟩, none⟩]
        ∧ (run (.ofList [titled 1 1 [1], titled 1 2 [2]]) {} countersFromTen).result = .ok (R ++ R') := by
  have hdisjoint : ∀ key ∈ (GroupedChanges.ofList [titled 1 1 [1]]).groups.keys,
      key ∉ (GroupedChanges.ofList [titled 1 2 [2]]).groups.keys := by decide
  have hp : ({} : LatestRows Metadata.domain).NonePending := nofun
  have hlist : (GroupedChanges.ofList [titled 1 1 [1], titled 1 2 [2]]).toList
    = (GroupedChanges.ofList [titled 1 1 [1]]).toList
      ++ (GroupedChanges.ofList [titled 1 2 [2]]).toList := rfl
  refine ⟨hdisjoint, hp, _, _, rfl, ?_, (run_composed hlist hdisjoint hp countersFromTen).1.trans rfl⟩
  rfl

end Pass

end LedgerHistory
