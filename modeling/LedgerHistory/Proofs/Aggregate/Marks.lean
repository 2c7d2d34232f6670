import LedgerHistory.Proofs.Aggregate.Chronicle
import LedgerHistory.Proofs.Aggregate.Moves
import LedgerHistory.Proofs.Dictionary

/-!
# What a pass leaves

A pass keeps the place of the last aggregate that it made for each entity, and the last entry that it
made of each key (`Pass.Marks`). So a pass that succeeds leaves of every entity and every key the last
row that it made, or else the one from before (`Pass.run_leaves`).
-/

namespace LedgerHistory

variable {d : ListDomain}

namespace Pass

open PassStep

/-! ## Entities of the aggregates -/

/-- The entities of the aggregates that a pass made, in order. -/
def made (p : Pass d) : List EntityId := p.rows.aggregates.map (·.entity)

section Made

variable (p : Pass d) (a : Allocator)

@[simp] theorem made_withSingleton (x : d.SingletonRow) : (p.withSingleton a x).made = p.made := rfl

@[simp] theorem made_withAggregate (x : Aggregate) :
    (p.withAggregate a x).made = p.made ++ [x.entity] := List.map_append

theorem map_modify_of_eq {α β : Type} {g : α → β} {f : α → α} (hf : ∀ b, g (f b) = g b)
    (as : List α) (i : Nat) : (as.modify i f).map g = as.map g := by
  refine List.ext_getElem? fun j => ?_
  rw [List.getElem?_map, List.getElem?_map, List.getElem?_modify]
  rcases as[j]? with _ | b
  · rfl
  · by_cases hj : i = j <;> simp [hj, hf]

@[simp] theorem made_withLink (place : Nat) (s : Option Int64) : (p.withLink place s).made = p.made :=
  map_modify_of_eq (fun _ => by rfl) _ _

@[simp] theorem made_withEntry (place : Nat) (x : d.Entry) : (p.withEntry a place x).made = p.made :=
  map_modify_of_eq (fun _ => by rfl) _ _

end Made

/-- Entities with an aggregate keep one. -/
theorem moves_made (e : EntityId) (gs : List d.Group) :
    Moves (fun p : Pass d => e ∈ p.made) gs where
  singleton h _ _ _ _ _ _ := by simpa using h
  aggregate h _ _ _ _ _ := by simp [h]
  link h _ _ := by simpa using h
  entry h _ _ _ _ _ _ _ := by simpa using h

/-- The aggregates that a pass makes are of its groups. -/
theorem moves_groupKeys (gs : List d.Group) :
    Moves (fun p : Pass d => ∀ k ∈ p.rows.aggregates.map Aggregate.groupKey, k ∈ gs.map (·.1)) gs where
  singleton h _ _ _ _ _ _ := h
  aggregate h _ x g hg hx k hk := by
    rw [withAggregate, List.map_append, List.mem_append] at hk
    rcases hk with hk | hk
    · exact h k hk
    · rw [List.mem_singleton.1 hk, hx]
      exact List.mem_map_of_mem hg
  link h place s k hk := by
    rw [withLink, map_modify_of_eq fun _ => by rfl] at hk
    exact h k hk
  entry h _ place x _ _ _ _ k hk := by
    rw [withEntry, map_modify_of_eq fun _ => by rfl] at hk
    exact h k hk

/-! ## What becomes of the prior state -/

variable {p p' : Pass d}

/-- Whether a value stands at a place of a list and at no later one. -/
def IsLastAt {α : Type} (xs : List α) (x : α) (i : Nat) : Prop :=
  ∃ before after, xs = before ++ x :: after ∧ before.length = i ∧ x ∉ after

/-- Whether the prior state is what a pass has made of the one that it began with. -/
structure Marks (prior : LatestRows d) (p : Pass d) : Prop where
  untouched {e : EntityId} (h : e ∉ p.made) : p.prior.aggregates.get? e = prior.aggregates.get? e
  touched {e : EntityId} (h : e ∈ p.made) :
    ∃ i, p.prior.aggregates.get? e = some (.pending i) ∧ IsLastAt p.made e i
  places : ∀ x ∈ p.prior.aggregates.entries, ∀ i, x.2 = .pending i → p.made[i]? = some x.1
  entries (k : d.EntryKey) :
    p.prior.entry? k = (lastWith d.entryKey k p.rows.entries).or (prior.entry? k)

theorem get?_withAggregate (p : Pass d) (a : Allocator) (x : Aggregate) (e : EntityId) :
    (p.withAggregate a x).prior.aggregates.get? e = if x.entity = e
      then some (.pending p.rows.aggregates.length) else p.prior.aggregates.get? e :=
  Dictionary.get?_insert ..

theorem moves_marks (prior : LatestRows d) (gs : List d.Group) : Moves (Marks prior) gs where
  singleton h _ _ _ _ _ _ := ⟨h.untouched, h.touched, h.places, h.entries⟩
  aggregate {p} h a x _ _ _ := by
    refine ⟨fun {e} he => ?_, fun {e} he => ?_, fun y hy i hi => ?_, h.entries⟩
    · rw [made_withAggregate, List.mem_append, List.mem_singleton, not_or] at he
      rw [get?_withAggregate, if_neg (Ne.symm he.2)]
      exact h.untouched he.1
    · rw [get?_withAggregate]
      by_cases hx : x.entity = e
      · rw [if_pos hx]
        exact ⟨_, rfl, p.made, [], by simp [hx], List.length_map _, List.not_mem_nil⟩
      · rw [made_withAggregate, List.mem_append, List.mem_singleton] at he
        obtain ⟨i, hi, before, after, hb, hlen, hafter⟩ := h.touched (he.resolve_right (Ne.symm hx))
        rw [if_neg hx]
        refine ⟨i, hi, before, after ++ [x.entity], by simp [hb], hlen, ?_⟩
        simp [hafter, Ne.symm hx]
    · rw [made_withAggregate]
      rcases Dictionary.mem_entries_insert hy with rfl | hy
      · cases hi
        simp [made]
      · have hplace := h.places y hy i hi
        rw [List.getElem?_append_left (List.getElem?_eq_some_iff.1 hplace).1, hplace]
  link {p} h place s := by
    refine ⟨fun he => ?_, fun he => ?_, ?_, h.entries⟩
    · rw [made_withLink] at he
      exact h.untouched he
    · rw [made_withLink] at he ⊢
      exact h.touched he
    · rw [made_withLink]
      exact h.places
  entry {p} h a place x _ _ _ _ := by
    refine ⟨fun he => ?_, fun he => ?_, ?_, fun k => ?_⟩
    · rw [made_withEntry] at he
      exact h.untouched he
    · rw [made_withEntry] at he ⊢
      exact h.touched he
    · rw [made_withEntry]
      exact h.places
    · have hk := h.entries k
      unfold LatestRows.entry? at hk ⊢
      rw [withEntry, lastWith_concat, LatestRows.putEntry, Dictionary.get?_insert]
      split
      · rfl
      · exact hk

/-- A place that a pass keeps for an entity is that of an aggregate of the entity. -/
theorem Marks.entity_of_place {prior : LatestRows d} (h : p.Marks prior) {e : EntityId} {i : Nat}
    (hi : p.prior.aggregates.get? e = some (.pending i)) :
    ∃ b, p.rows.aggregates[i]? = some b ∧ b.entity = e := by
  have := h.places _ (Dictionary.find?_mem hi) i rfl
  rwa [made, List.getElem?_map, Option.map_eq_some_iff] at this

/-! ## Every group has its aggregate -/

variable {prior : LatestRows d} {key : GroupKey}

theorem mem_made_of_exec_openAggregate {singleton : Option Int64} {previous : Option Aggregate}
    {place : Nat} (hx : (openAggregate key singleton previous).exec p = (.ok place, p')) :
    key.entity ∈ p'.made := by
  rcases hs : lacksSingleton d singleton previous with _ | _
  · rcases hn : p.allocator.next d.aggregateSchema.table with e | ⟨id, a⟩
    · rw [exec_openAggregate_of_error hs hn] at hx
      cases hx
    · rw [exec_openAggregate_of_ok hs hn] at hx
      cases hx
      simp [carriedOn]
  · rw [exec_openAggregate_of_lacks hs] at hx
    cases hx

theorem mem_made_of_exec_aggregatePlace (h : p.Marks prior) {singleton : Option Int64} {place : Nat}
    (hx : (aggregatePlace key singleton).exec p = (.ok place, p')) : key.entity ∈ p'.made := by
  rw [exec_aggregatePlace_eq] at hx
  split at hx
  · exact mem_made_of_exec_openAggregate hx
  · split at hx
    · cases hx
    · exact mem_made_of_exec_openAggregate hx
  · rename_i i hi
    obtain ⟨b, hb, he⟩ := h.entity_of_place hi
    have hmem : key.entity ∈ p.made := List.mem_map.2 ⟨b, List.mem_of_getElem? hb, he⟩
    simp only [hb] at hx
    split at hx
    · cases hx
      split
      · rwa [made_withLink]
      · exact hmem
    · exact mem_made_of_exec_openAggregate hx

theorem mem_made_of_exec_recordGroups (h : p.Marks prior) {gs : List d.Group}
    (hx : (recordGroups gs).exec p = (.ok (), p')) : ∀ g ∈ gs, g.1.entity ∈ p'.made := by
  induction gs generalizing p with
  | nil => exact nofun
  | cons g gs ih =>
    obtain ⟨⟨⟩, p₃, hg, hgs⟩ := exec_bind_eq_ok (f := fun _ => recordGroups gs) hx
    obtain ⟨singleton, p₁, hs, hg⟩ := exec_bind_eq_ok hg
    obtain ⟨place, p₂, hplace, hentries⟩ := exec_bind_eq_ok hg
    have h₁ : p₁.Marks prior := by
      have := keeps_newSingleton (moves_marks prior [g]) List.mem_cons_self p h
      rwa [hs] at this
    have h₃ : p₃.Marks prior := by
      have := keeps_recordGroup (moves_marks prior [g]) List.mem_cons_self p h
      rw [recordGroup, exec_bind_of_ok hs, exec_bind_of_ok hplace] at this
      rwa [hentries] at this
    have hmade : g.1.entity ∈ p₃.made := by
      have := keeps_recordEntries (moves_made g.1.entity [g]) List.mem_cons_self place p₂
        (mem_made_of_exec_aggregatePlace h₁ hplace)
      rwa [hentries] at this
    intro g' hg'
    rcases List.mem_cons.1 hg' with rfl | hg'
    · have := keeps_recordGroups (moves_made g'.1.entity gs) p₃ hmade
      rwa [hgs] at this
    · exact ih h₃ hgs g' hg'

end Pass

/-! ## What a pass leaves -/

/-- Whether no aggregate is one of a running pass. -/
def LatestRows.NonePending (prior : LatestRows d) : Prop :=
  ∀ x ∈ prior.aggregates.entries, ∀ i, x.2 ≠ .pending i

namespace Pass

open PassStep

variable {prior : LatestRows d} {p : Pass d} {changes : GroupedChanges d} {a : Allocator}
  {R : NewRows d}

theorem marks_start (h : prior.NonePending) (a : Allocator) : (Pass.mk prior a {}).Marks prior :=
  ⟨fun _ => rfl, nofun, fun x hx i hi => absurd hi (h x hx i), fun _ => rfl⟩

theorem lastWith_of_isLastAt {α κ : Type} [DecidableEq κ] {key : α → κ} {xs : List α} {k : κ} {i : Nat}
    (h : IsLastAt (xs.map key) k i) : ∃ x, xs[i]? = some x ∧ lastWith key k xs = some x := by
  obtain ⟨before, after, heq, hlen, hafter⟩ := h
  obtain ⟨xs₁, ys, rfl, rfl, hys⟩ := List.map_eq_append_iff.1 heq
  obtain ⟨x, xs₂, rfl, rfl, rfl⟩ := List.map_eq_cons_iff.1 hys
  have hnil : xs₂.filter (key · = key x) = [] := by
    simp only [List.filter_eq_nil_iff, decide_eq_true_eq]
    exact fun y hy he => hafter (List.mem_map.2 ⟨y, hy, he⟩)
  refine ⟨x, by simp [← hlen], ?_⟩
  rw [lastWith, List.filter_append, List.filter_cons_of_pos (by simp), hnil]
  simp

/-- Once the aggregates of a pass are settled, each entity's is the last one made for it, or else the
one from before. -/
theorem Marks.get?_settle (h : p.Marks prior) (hp : prior.NonePending) (e : EntityId) :
    (p.prior.settle p.rows.aggregates).aggregates.get? e
      = ((lastWith (·.entity) e p.rows.aggregates).map .settled).or (prior.aggregates.get? e) := by
  rw [LatestRows.settle, Dictionary.get?_map]
  by_cases he : e ∈ p.made
  · obtain ⟨i, hi, hlast⟩ := h.touched he
    obtain ⟨b, hb, hl⟩ := lastWith_of_isLastAt hlast
    rw [hi, hl]
    simp [hb]
  · have hnone : lastWith (·.entity) e p.rows.aggregates = none :=
      lastWith_eq_none_iff.2 fun b hb hbe => he (List.mem_map.2 ⟨b, hb, hbe⟩)
    rw [h.untouched he, hnone]
    rcases hslot : prior.aggregates.get? e with _ | b | i
    · rfl
    · rfl
    · exact absurd rfl (hp _ (Dictionary.find?_mem hslot) i)

/-- Settled aggregates are none of a running pass. -/
theorem Marks.nonePending (h : p.Marks prior) : (p.prior.settle p.rows.aggregates).NonePending := by
  intro x hx i hi
  obtain ⟨y, hy, rfl⟩ := List.mem_map.1 hx
  rcases hslot : y.2 with b | j
  · rw [hslot] at hi
    cases hi
  · have hplace := h.places y hy j hslot
    rw [made, List.getElem?_map, Option.map_eq_some_iff] at hplace
    obtain ⟨b, hb, _⟩ := hplace
    simp [hslot, hb] at hi

/-- What a pass that succeeds leaves in the prior state: of every entity and of every key the last row
that it made, or else the one from before. -/
structure Leaves (changes : GroupedChanges d) (prior : LatestRows d) (R : NewRows d)
    (left : LatestRows d) : Prop where
  nonePending : left.NonePending
  aggregates (e : EntityId) : left.aggregates.get? e
    = ((lastWith (·.entity) e R.aggregates).map .settled).or (prior.aggregates.get? e)
  entries (k : d.EntryKey) : left.entry? k = (lastWith d.entryKey k R.entries).or (prior.entry? k)
  keys : ∀ k ∈ R.aggregates.map Aggregate.groupKey, k ∈ changes.groups.keys
  entities (e : EntityId) : e ∈ R.aggregates.map (·.entity) ↔ e ∈ changes.entities

theorem run_leaves (hp : prior.NonePending) (hR : (run changes prior a).result = .ok R) :
    Leaves changes prior R (run changes prior a).prior := by
  obtain ⟨p, hx, rfl⟩ := exec_of_run_eq_ok hR
  have hmarks : p.Marks prior := by
    have := keeps_recordGroups (moves_marks prior changes.toList) _ (marks_start hp a)
    rwa [hx] at this
  have hgroups : ∀ k ∈ p.rows.aggregates.map Aggregate.groupKey, k ∈ changes.groups.keys := by
    have := keeps_recordGroups (moves_groupKeys changes.toList) ⟨prior, a, {}⟩ nofun
    rwa [hx] at this
  rw [run_of_exec_ok hx]
  refine ⟨hmarks.nonePending, hmarks.get?_settle hp, hmarks.entries, hgroups, fun e => ⟨fun he => ?_,
    fun he => ?_⟩⟩
  · obtain ⟨b, hb, rfl⟩ := List.mem_map.1 he
    exact List.mem_map.2 ⟨_, hgroups _ (List.mem_map_of_mem hb), rfl⟩
  · obtain ⟨_, hk, rfl⟩ := List.mem_map.1 he
    obtain ⟨g, hg, rfl⟩ := List.mem_map.1 hk
    exact mem_made_of_exec_recordGroups (marks_start hp a) hx g hg

end Pass

end LedgerHistory
