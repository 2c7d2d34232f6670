import LedgerHistory.Proofs.Aggregate.Faults
import LedgerHistory.Proofs.Domain.Rows
import LedgerHistory.Proofs.Store.Sequences

/-!
# Consistent chronicles

In a consistent chronicle the list of every aggregate has the ids of what is live among the entries
of its entity up to its version, and its singleton is the last one up to there
(`NewRows.Consistent`). A group that is not at fault keeps it so (`NewRows.Consistent.rowsOf`), and
so do all groups in the order of their versions (`NewRows.Consistent.rowsAfter`).
-/

namespace LedgerHistory

variable {d : ListDomain}

/-- The rows of an entity up to a version. -/
def upTo {χ : Type} (e : EntityId) (v : Int64) (xs : List (HistoryRow χ)) : List (HistoryRow χ) :=
  xs.filter fun x => x.entity = e ∧ x.stateVersion ≤ v

/-- The changes of an entity up to a version, each under its key. -/
theorem map_upTo {χ : Type} (e : EntityId) (v : Int64) (xs : List (HistoryRow χ)) :
    (upTo e v xs).map (fun x => (x.groupKey, x.change))
      = ((xs.map fun x => (x.groupKey, x.change)).filter (·.1.entity = e)).filter
        (·.1.stateVersion ≤ v) := by
  rw [upTo, List.filter_map, List.filter_map, List.filter_filter]
  congr 1
  refine List.filter_congr fun x _ => ?_
  simp [HistoryRow.groupKey, Bool.and_comm]

namespace NewRows

/-- Whether the rows of a chronicle stand in order, with increasing ids. -/
structure Ordered (C : NewRows d) : Prop where
  entries : (HistoryRow.versioned d.Change).Ordered C.entries
  aggregates : Aggregate.versioned.Ordered C.aggregates
  singletons : (HistoryRow.versioned d.Singleton).Ordered C.singletons

/-- What is live among entries. -/
def liveEntries (xs : List d.Entry) : List d.Entry :=
  live d.entryKey (fun x => d.isDeletion x.change) xs

/-- Whether the aggregates of a chronicle tell what its entries and singletons come to. -/
structure Consistent (C : NewRows d) : Prop where
  ordered : C.Ordered
  distinct : (C.aggregates.map Aggregate.groupKey).Nodup
  entryGroups : ∀ x ∈ C.entries, x.groupKey ∈ C.aggregates.map Aggregate.groupKey
  singletonGroups : ∀ x ∈ C.singletons, x.groupKey ∈ C.aggregates.map Aggregate.groupKey
  lists : ∀ a ∈ C.aggregates,
    a.list.ids = (liveEntries (upTo a.entity a.stateVersion C.entries)).map (·.id)
  singleton : ∀ a ∈ C.aggregates,
    a.singleton = (upTo a.entity a.stateVersion C.singletons).getLast?.map (·.id)
  present (h : d.aggregateSchema.singletonColumn.isSome) : ∀ a ∈ C.aggregates, a.singleton.isSome

/-- Whether ids are greater than those of a chronicle. -/
structure Below (C : NewRows d) (ids : FirstIds) : Prop where
  entries : ∀ x ∈ C.entries, x.id < ids.entry
  aggregates : ∀ a ∈ C.aggregates, a.id < ids.aggregate
  singletons : ∀ x ∈ C.singletons, x.id < ids.singleton

variable {C : NewRows d} {e : EntityId} {v : Int64}

theorem consistent_empty : ({} : NewRows d).Consistent where
  ordered := ⟨.nil, .nil, .nil⟩
  distinct := List.nodup_nil
  entryGroups := nofun
  singletonGroups := nofun
  lists := nofun
  singleton := nofun
  present _ := nofun

theorem Consistent.settled (h : C.Consistent) : C.Settled :=
  ⟨h.ordered.aggregates.imp fun hle => hle.1, h.present⟩

/-! ## The most recent aggregate -/

/-- The rows of an entity are those up to its most recent aggregate, if their groups have
aggregates. -/
theorem upTo_latest {χ : Type} {xs : List (HistoryRow χ)} (ho : C.Ordered)
    (hg : ∀ x ∈ xs, x.groupKey ∈ C.aggregates.map Aggregate.groupKey) {a : Aggregate}
    (ha : C.latest? e = some a) : upTo a.entity a.stateVersion xs = xs.filter (·.entity = e) := by
  refine List.filter_congr fun x hx => ?_
  obtain ⟨b, hb, hkey⟩ := List.mem_map.1 (hg x hx)
  obtain ⟨hent, hver⟩ := GroupKey.mk.inj hkey
  rw [(mem_of_latest? ha).2, decide_eq_decide]
  refine ⟨And.left, fun hx => ⟨hx, ?_⟩⟩
  obtain ⟨c, hc, hle⟩ := latest?_of_mem (ho.aggregates.imp fun h => h.1) hb
  rw [hent, hx, ha] at hc
  rw [← hver, Option.some.inj hc]
  exact hle

theorem filter_entity_eq_nil {χ : Type} {xs : List (HistoryRow χ)}
    (hg : ∀ x ∈ xs, x.groupKey ∈ C.aggregates.map Aggregate.groupKey) (h : C.latest? e = none) :
    xs.filter (·.entity = e) = [] := by
  refine List.filter_eq_nil_iff.2 fun x hx hxe => ?_
  obtain ⟨b, hb, hkey⟩ := List.mem_map.1 (hg x hx)
  obtain ⟨hent, _⟩ := GroupKey.mk.inj hkey
  have hnone := lastWith_eq_none_iff.1 h b hb
  simp only [decide_eq_true_eq] at hxe
  exact hnone (hent.trans hxe)

/-- The list that an entity's next aggregate carries on. -/
theorem Consistent.list_latest? (h : C.Consistent) (e : EntityId) :
    ((C.latest? e).map (·.list)).getD {}
      = ⟨(liveEntries (C.entries.filter (·.entity = e))).map (·.id)⟩ := by
  rcases ha : C.latest? e with _ | a
  · rw [filter_entity_eq_nil h.entryGroups ha]
    rfl
  · rw [← upTo_latest h.ordered h.entryGroups ha, ← h.lists a (mem_of_latest? ha).1]
    rfl

theorem Consistent.singleton_latest? (h : C.Consistent) (e : EntityId) :
    (C.latest? e).bind (·.singleton) = (C.singletons.filter (·.entity = e)).getLast?.map (·.id) := by
  rcases ha : C.latest? e with _ | a
  · rw [filter_entity_eq_nil h.singletonGroups ha]
    rfl
  · rw [← upTo_latest h.ordered h.singletonGroups ha, ← h.singleton a (mem_of_latest? ha).1]
    rfl

/-! ## Carrying a list on -/

/-- Entries of one entity that move to the front one after another keep its list to what is live. -/
theorem carry_live {before xs : List d.Entry} (hx : ∀ x ∈ xs, x.entity = e)
    (hid : ((before ++ xs).map (·.id)).Nodup) :
    carry before xs ⟨(liveEntries (before.filter (·.entity = e))).map (·.id)⟩
      = ⟨(liveEntries ((before ++ xs).filter (·.entity = e))).map (·.id)⟩ := by
  induction xs generalizing before with
  | nil => rw [List.append_nil, carry]
  | cons x xs ih =>
    have hxe : x.entity = e := hx x List.mem_cons_self
    have hsplit : before ++ x :: xs = before ++ [x] ++ xs := by simp
    rw [hsplit] at hid ⊢
    have hnd : ((before.filter (·.entity = e)).map (·.id)).Nodup := by
      refine hid.sublist ?_
      rw [List.append_assoc, List.map_append]
      exact (List.filter_sublist.map _).trans (List.sublist_append_left ..)
    have hlast : lastWith d.entryKey (d.entryKey x) before
        = lastWith d.entryKey (d.entryKey x) (before.filter (·.entity = e)) := by
      rw [lastWith, lastWith, List.filter_filter]
      congr 1
      refine List.filter_congr fun y _ => ?_
      rw [eq_comm, Bool.eq_iff_iff, Bool.and_eq_true, decide_eq_true_eq, decide_eq_true_eq]
      exact ⟨And.left, fun h => ⟨h, (congrArg Prod.fst h).trans hxe⟩⟩
    have hmove := moveToFront_live d.entryKey (fun y => d.isDeletion y.change) (·.id) hnd x
    rw [← hlast] at hmove
    have hfilter : before.filter (·.entity = e) ++ [x] = (before ++ [x]).filter (·.entity = e) := by
      simp [hxe]
    rw [hfilter] at hmove
    rw [carry]
    exact (congrArg (carry (before ++ [x]) xs) hmove).trans
      (ih (fun y hy => hx y (List.mem_cons_of_mem x hy)) hid)

end NewRows

/-! ## New ids -/

structure FirstIds.HasRoom (ids : FirstIds) (R : NewRows d) : Prop where
  entries : ids.entry.toInt + R.entries.length < 2 ^ 63
  aggregates : ids.aggregate.toInt + R.aggregates.length < 2 ^ 63
  singletons : ids.singleton.toInt + R.singletons.length < 2 ^ 63

theorem FirstIds.HasRoom.of_append {ids : FirstIds} {R R' : NewRows d} (h : ids.HasRoom (R ++ R')) :
    ids.HasRoom R ∧ (ids.after R).HasRoom R' := by
  obtain ⟨he, ha, hs⟩ := h
  simp only [NewRows.entries_append, NewRows.aggregates_append, NewRows.singletons_append,
    List.length_append, Int.natCast_add] at he ha hs
  refine ⟨⟨by omega, by omega, by omega⟩, ⟨?_, ?_, ?_⟩⟩ <;> unfold FirstIds.after <;>
    rw [toInt_add_ofNat (by omega)] <;> omega

/-- As long as ids do not begin anew below, the first is less than those behind it. -/
theorem lt_of_mem_idsFrom {first : Int64} {n : Nat} (h : first.toInt + (n + 1) ≤ 2 ^ 63) :
    ∀ id ∈ idsFrom (first + 1) n, first < id := by
  induction n generalizing first with
  | zero => exact nofun
  | succ n ih =>
    have hfirst : (first + 1).toInt = first.toInt + 1 := toInt_add_one (by omega)
    intro id hid
    rw [Int64.lt_iff_toInt_lt]
    rcases List.mem_cons.1 hid with rfl | hid
    · omega
    · have hlt := ih (by omega) id hid
      rw [Int64.lt_iff_toInt_lt] at hlt
      omega

theorem le_of_mem_idsFrom {first : Int64} {n : Nat} (h : first.toInt + n ≤ 2 ^ 63) :
    ∀ id ∈ idsFrom first n, first ≤ id := by
  cases n with
  | zero => exact nofun
  | succ n =>
    intro id hid
    rcases List.mem_cons.1 hid with rfl | hid
    · exact Int64.le_refl _
    · exact Int64.le_of_lt (lt_of_mem_idsFrom (by omega) id hid)

theorem increasing_idsFrom {first : Int64} {n : Nat} (h : first.toInt + n ≤ 2 ^ 63) :
    (idsFrom first n).Pairwise (· < ·) := by
  induction n generalizing first with
  | zero => exact .nil
  | succ n ih =>
    refine List.pairwise_cons.2 ⟨lt_of_mem_idsFrom (by omega), ?_⟩
    rcases Nat.eq_zero_or_pos n with rfl | hpos
    · exact .nil
    · have hfirst : (first + 1).toInt = first.toInt + 1 := toInt_add_one (by omega)
      exact ih (by omega)

theorem mem_idsFrom {first : Int64} {n : Nat} (h : first.toInt + n < 2 ^ 63) :
    ∀ id ∈ idsFrom first n, first ≤ id ∧ id < first + Int64.ofNat n := by
  induction n generalizing first with
  | zero => exact nofun
  | succ n ih =>
    have hfirst : (first + 1).toInt = first.toInt + 1 := toInt_add_one (by omega)
    have hlast : (first + Int64.ofNat (n + 1)).toInt = first.toInt + (n + 1) := by
      rw [toInt_add_ofNat h]
      omega
    have hnext : (first + 1 + Int64.ofNat n).toInt = first.toInt + (n + 1) := by
      rw [toInt_add_ofNat (by omega)]
      omega
    intro id hid
    rw [Int64.le_iff_toInt_le, Int64.lt_iff_toInt_lt, hlast]
    rcases List.mem_cons.1 hid with rfl | hid
    · omega
    · obtain ⟨hge, hlt⟩ := ih (by omega) id hid
      rw [Int64.le_iff_toInt_le, hfirst] at hge
      rw [Int64.lt_iff_toInt_lt, hnext] at hlt
      omega

section Numbered

variable {χ : Type} {first : Int64} {key : GroupKey} {cs : List χ}

theorem map_id_numbered : (numbered first key cs).map (·.id) = idsFrom first cs.length := by
  rw [numbered, map_id_enumerated, List.length_map]

theorem id_of_mem_numbered (h : first.toInt + cs.length < 2 ^ 63) :
    ∀ x ∈ numbered first key cs, first ≤ x.id ∧ x.id < first + Int64.ofNat cs.length := fun x hx =>
  mem_idsFrom h x.id (map_id_numbered ▸ List.mem_map_of_mem (f := (·.id)) hx)

theorem ordered_numbered (h : first.toInt + cs.length < 2 ^ 63) :
    (HistoryRow.versioned χ).Ordered (numbered first key cs) := by
  have hid : (numbered first key cs).Pairwise fun x y => x.id < y.id := by
    have := increasing_idsFrom (Int.le_of_lt h)
    rw [← map_id_numbered] at this
    exact List.pairwise_map.1 this
  refine List.Pairwise.imp_of_mem (fun {x y} hx hy hid => ⟨?_, hid⟩) hid
  have hkey : x.groupKey = y.groupKey :=
    (groupKey_of_mem_numbered hx).trans (groupKey_of_mem_numbered hy).symm
  show x.stateVersion ≤ y.stateVersion
  rw [(GroupKey.mk.inj hkey).2]
  exact Int64.le_refl _

end Numbered

/-! ## Groups -/

namespace NewRows

variable {C : NewRows d} {ids : FirstIds} {g : d.Group} {v : Int64}

theorem stateVersion_le (hv : C.Until v) {key : GroupKey}
    (h : key ∈ C.aggregates.map Aggregate.groupKey) : key.stateVersion ≤ v := by
  obtain ⟨a, ha, rfl⟩ := List.mem_map.1 h
  exact hv a ha

theorem upTo_append_of_older {χ : Type} {xs ys : List (HistoryRow χ)} {a : Aggregate}
    (hv : a.stateVersion ≤ g.1.stateVersion) (hne : a.groupKey ≠ g.1)
    (hy : ∀ y ∈ ys, y.groupKey = g.1) :
    upTo a.entity a.stateVersion (xs ++ ys) = upTo a.entity a.stateVersion xs := by
  have hnil : upTo a.entity a.stateVersion ys = [] := by
    refine List.filter_eq_nil_iff.2 fun y hyy hc => hne ?_
    obtain ⟨hent, hver⟩ := of_decide_eq_true hc
    obtain ⟨hke, hkv⟩ := GroupKey.mk.inj (hy y hyy)
    have : a.stateVersion = g.1.stateVersion := eq_of_le_of_le hv (hkv ▸ hver)
    rw [Aggregate.groupKey, ← hent, hke, this]
  rw [upTo, List.filter_append]
  exact (congrArg (_ ++ ·) hnil).trans (List.append_nil _)

theorem upTo_append_of_newest {χ : Type} {xs ys : List (HistoryRow χ)}
    (hx : ∀ x ∈ xs, x.stateVersion ≤ g.1.stateVersion) (hy : ∀ y ∈ ys, y.groupKey = g.1) :
    upTo g.1.entity g.1.stateVersion (xs ++ ys) = (xs ++ ys).filter (·.entity = g.1.entity) := by
  refine List.filter_congr fun x hm => ?_
  rw [decide_eq_decide]
  refine and_iff_left ?_
  rcases List.mem_append.1 hm with hm | hm
  · exact hx x hm
  · rw [← hy x hm]
    exact Int64.le_refl _

theorem below_rowsOf (hb : C.Below ids) (hroom : ids.HasRoom (C.rowsOf ids g)) :
    (C ++ C.rowsOf ids g).Below (ids.after (C.rowsOf ids g)) := by
  obtain ⟨he, ha, hs⟩ := hroom
  have hlt : ∀ {first : Int64} {n : Nat}, first.toInt + n < 2 ^ 63 → ∀ {x : Int64}, x < first →
      x < first + Int64.ofNat n := by
    intro first n hn x hx
    rw [Int64.lt_iff_toInt_lt] at hx ⊢
    rw [toInt_add_ofNat hn]
    omega
  refine ⟨fun x hx => ?_, fun a hm => ?_, fun x hx => ?_⟩
  · rcases List.mem_append.1 hx with hx | hx
    · exact hlt he (hb.entries x hx)
    · rw [rowsOf, length_numbered] at he
      have hid := (id_of_mem_numbered he x hx).2
      rwa [← length_numbered ids.entry g.1] at hid
  · rcases List.mem_append.1 hm with hm | hm
    · exact hlt ha (hb.aggregates a hm)
    · have ha : ids.aggregate.toInt + (1 : Nat) < 2 ^ 63 := ha
      rw [List.mem_singleton.1 hm]
      show ids.aggregate < ids.aggregate + Int64.ofNat 1
      rw [Int64.lt_iff_toInt_lt, toInt_add_ofNat ha]
      omega
  · rcases List.mem_append.1 hx with hx | hx
    · exact hlt hs (hb.singletons x hx)
    · rw [rowsOf, length_numbered] at hs
      have hid := (id_of_mem_numbered hs x hx).2
      rwa [← length_numbered ids.singleton g.1] at hid

theorem ordered_rowsOf (h : C.Consistent) (hb : C.Below ids) (hv : C.Until g.1.stateVersion)
    (hroom : ids.HasRoom (C.rowsOf ids g)) : (C ++ C.rowsOf ids g).Ordered := by
  obtain ⟨he, ha, hs⟩ := hroom
  rw [rowsOf, length_numbered] at he hs
  have hnew : ∀ {χ : Type} {xs : List (HistoryRow χ)} {first : Int64} {cs : List χ},
      (∀ x ∈ xs, x.groupKey ∈ C.aggregates.map Aggregate.groupKey) → (∀ x ∈ xs, x.id < first) →
      (HistoryRow.versioned χ).Ordered xs → first.toInt + cs.length < 2 ^ 63 →
      (HistoryRow.versioned χ).Ordered (xs ++ numbered first g.1 cs) := by
    intro χ xs first cs hg hid ho hroom
    refine List.pairwise_append.2 ⟨ho, ordered_numbered hroom, fun x hx y hy => ⟨?_, ?_⟩⟩
    · show x.stateVersion ≤ y.stateVersion
      rw [show y.stateVersion = g.1.stateVersion from
        congrArg GroupKey.stateVersion (groupKey_of_mem_numbered hy)]
      exact stateVersion_le hv (hg x hx)
    · exact Int64.lt_of_lt_of_le (hid x hx) (id_of_mem_numbered hroom y hy).1
  refine ⟨hnew h.entryGroups hb.entries h.ordered.entries he,
    List.pairwise_append.2 ⟨h.ordered.aggregates, List.pairwise_singleton .., fun a ha b hb' => ?_⟩,
    hnew h.singletonGroups hb.singletons h.ordered.singletons hs⟩
  rw [List.mem_singleton.1 hb']
  exact ⟨hv a ha, hb.aggregates a ha⟩

theorem nodup_ids (h : C.Ordered) : (C.entries.map (·.id)).Nodup :=
  nodup_of_increasing h.entries.increasing

/-- A group's rows have their key among those of the aggregates, as those before them have. -/
theorem groupKey_mem_rowsOf {χ : Type} {xs ys : List (HistoryRow χ)}
    (hx : ∀ x ∈ xs, x.groupKey ∈ C.aggregates.map Aggregate.groupKey)
    (hy : ∀ y ∈ ys, y.groupKey = g.1) :
    ∀ x ∈ xs ++ ys, x.groupKey ∈ (C ++ C.rowsOf ids g).aggregates.map Aggregate.groupKey := by
  intro x hm
  rw [groupKeys_rowsOf, List.mem_append, List.mem_singleton]
  exact (List.mem_append.1 hm).imp (hx x) (hy x)

/-- The singleton of a group's aggregate is the last one of the entity then. -/
theorem Consistent.singleton_rowsOf (h : C.Consistent) (ids : FirstIds) (g : d.Group) :
    ((C ++ C.rowsOf ids g).singletons.filter (·.entity = g.1.entity)).getLast?.map (·.id)
      = ((numbered ids.singleton g.1 g.2.singletons).getLast?.map (·.id)).or
        ((C.latest? g.1.entity).bind (·.singleton)) := by
  have hself : (C.rowsOf ids g).singletons.filter (·.entity = g.1.entity)
      = numbered ids.singleton g.1 g.2.singletons := by
    refine List.filter_eq_self.2 fun x hx => ?_
    rw [decide_eq_true_eq, ← groupKey_of_mem_numbered hx]
    rfl
  rw [singletons_append, List.filter_append, hself, List.getLast?_append, Option.map_or,
    ← h.singleton_latest?]

/-- A group that is no older than a consistent chronicle and not at fault keeps it consistent. -/
theorem Consistent.rowsOf (h : C.Consistent) (hb : C.Below ids) (hv : C.Until g.1.stateVersion)
    (hroom : ids.HasRoom (C.rowsOf ids g)) (hf : C.fault? g = none) :
    (C ++ C.rowsOf ids g).Consistent := by
  have ho := ordered_rowsOf h hb hv hroom
  obtain ⟨_, hnew, _⟩ := (fault?_eq_none_iff_of_until h.settled hv).1 hf
  have hentry : ∀ x ∈ (C.rowsOf ids g).entries, x.groupKey = g.1 := fun x hx =>
    groupKey_of_mem_numbered hx
  have hrow : ∀ x ∈ (C.rowsOf ids g).singletons, x.groupKey = g.1 := fun x hx =>
    groupKey_of_mem_numbered hx
  have hold : ∀ a ∈ C.aggregates, a.groupKey ≠ g.1 := fun a ha he =>
    hnew (List.mem_map.2 ⟨a, ha, he⟩)
  refine ⟨ho, ?_, groupKey_mem_rowsOf h.entryGroups hentry,
    groupKey_mem_rowsOf h.singletonGroups hrow, ?_, ?_, ?_⟩
  · rw [groupKeys_rowsOf C ids g]
    exact List.Nodup.append h.distinct (List.nodup_singleton _) (by simpa using hnew)
  · intro a ha
    rcases List.mem_append.1 ha with ha | ha
    · rw [entries_append, upTo_append_of_older (hv a ha) (hold a ha) hentry]
      exact h.lists a ha
    · have hcarry := carry_live (e := g.1.entity)
        (fun x hx => congrArg GroupKey.entity (hentry x hx)) (nodup_ids ho)
      rw [← h.list_latest?] at hcarry
      rw [List.mem_singleton.1 ha, entries_append, upTo_append_of_newest
        (fun x hx => stateVersion_le hv (h.entryGroups x hx)) hentry]
      exact congrArg RecencyList.ids hcarry
  · intro a ha
    rcases List.mem_append.1 ha with ha | ha
    · rw [singletons_append, upTo_append_of_older (hv a ha) (hold a ha) hrow]
      exact h.singleton a ha
    · rw [List.mem_singleton.1 ha, singletons_append, upTo_append_of_newest
        (fun x hx => stateVersion_le hv (h.singletonGroups x hx)) hrow]
      exact (h.singleton_rowsOf ids g).symm
  · exact fun hc a ha => (List.mem_append.1 ha).elim (h.present hc a)
      (isSome_singleton_rowsOf hf hc a)

/-- Groups in the order of their versions, none at fault, keep a chronicle consistent. -/
theorem Consistent.rowsAfter {gs : List d.Group} {R : NewRows d} (h : C.Consistent)
    (hb : C.Below ids) (hgs : gs.Pairwise fun g g' => g.1.stateVersion ≤ g'.1.stateVersion)
    (hv : ∀ g ∈ gs, C.Until g.1.stateVersion) (hroom : ids.HasRoom R)
    (hR : C.rowsAfter ids gs = .ok R) : (C ++ R).Consistent ∧ (C ++ R).Below (ids.after R) := by
  induction gs generalizing C ids R with
  | nil =>
    cases hR
    rw [append_empty, FirstIds.after_empty]
    exact ⟨h, hb⟩
  | cons g gs ih =>
    obtain ⟨hf, R', hR', rfl⟩ := rowsAfter_cons_eq_ok.1 hR
    obtain ⟨hroom₁, hroom'⟩ := hroom.of_append
    obtain ⟨hg, hgs⟩ := List.pairwise_cons.1 hgs
    have hvg := hv g List.mem_cons_self
    rw [← append_assoc, FirstIds.after_append]
    refine ih (h.rowsOf hb hvg hroom₁ hf) (below_rowsOf hb hroom₁) hgs (fun g' hg' a ha => ?_) hroom' hR'
    rcases List.mem_append.1 ha with ha | ha
    · exact hv g' (List.mem_cons_of_mem g hg') a ha
    · rw [List.mem_singleton.1 ha]
      exact hg g' hg'

/-! ## Changes that are read anew -/

theorem forall₂_upTo {χ χ' : Type} {P : HistoryRow χ → HistoryRow χ' → Prop}
    (hP : ∀ x y, P x y → x.groupKey = y.groupKey) {xs : List (HistoryRow χ)}
    {ys : List (HistoryRow χ')} (h : List.Forall₂ P xs ys) (e : EntityId) (v : Int64) :
    List.Forall₂ P (upTo e v xs) (upTo e v ys) := by
  refine forall₂_filter (fun x y hxy => ?_) h
  obtain ⟨he, hv⟩ := GroupKey.mk.inj (hP x y hxy)
  rw [he, hv]

/-- Whether entries are alike but for what their changes say besides the key and whether they are
deletions. -/
structure SameEntry (x y : d.Entry) : Prop where
  groupKey : x.groupKey = y.groupKey
  key : d.keyOf x.change = d.keyOf y.change
  isDeletion : d.isDeletion x.change = d.isDeletion y.change

/-- Entries that are alike are live alike. -/
theorem forall₂_liveEntries {P : d.Entry → d.Entry → Prop} (hP : ∀ x y, P x y → SameEntry x y)
    {xs ys : List d.Entry} (h : List.Forall₂ P xs ys) :
    List.Forall₂ P (liveEntries xs) (liveEntries ys) := by
  refine forall₂_live (fun x x' y y' hxy hxy' => ?_) (fun x y hxy => (hP x y hxy).isDeletion) h
  have hkey : ∀ {x y : d.Entry}, SameEntry x y → d.entryKey x = d.entryKey y := fun hxy =>
    Prod.ext (congrArg GroupKey.entity hxy.groupKey) hxy.key
  rw [hkey (hP x y hxy), hkey (hP x' y' hxy')]

/-- A chronicle stays consistent when its changes are read anew. -/
theorem Consistent.congr {C' : NewRows d} (h : C.Consistent)
    (he : List.Forall₂ (fun x y => x.id = y.id ∧ SameEntry x y) C.entries C'.entries)
    (ha : C.aggregates = C'.aggregates)
    (hs : List.Forall₂ (fun x y : d.SingletonRow => x.id = y.id ∧ x.groupKey = y.groupKey)
      C.singletons C'.singletons) : C'.Consistent := by
  have hordered : ∀ {χ : Type} {xs ys : List (HistoryRow χ)},
      List.Forall₂ (fun x y => x.id = y.id ∧ x.groupKey = y.groupKey) xs ys →
      (HistoryRow.versioned χ).Ordered xs → (HistoryRow.versioned χ).Ordered ys := by
    intro χ xs ys hxy hx
    have hmap : xs.map (fun x => (x.stateVersion, x.id)) = ys.map fun x => (x.stateVersion, x.id) :=
      map_eq_map_of_forall₂ (hxy.imp fun x y h => by
        rw [h.1, (GroupKey.mk.inj h.2).2])
    have hp : (xs.map fun x => (x.stateVersion, x.id)).Pairwise fun p q => p.1 ≤ q.1 ∧ p.2 < q.2 :=
      List.pairwise_map.2 hx
    rw [hmap] at hp
    exact List.pairwise_map.1 hp
  have hgroups : ∀ {χ : Type} {P : HistoryRow χ → HistoryRow χ → Prop} {xs ys : List (HistoryRow χ)},
      (∀ x y, P x y → x.groupKey = y.groupKey) → List.Forall₂ P xs ys →
      (∀ x ∈ xs, x.groupKey ∈ C.aggregates.map Aggregate.groupKey) →
      ∀ y ∈ ys, y.groupKey ∈ C'.aggregates.map Aggregate.groupKey := by
    intro χ P xs ys hP hxy hx y hy
    obtain ⟨x, hxm, hxp⟩ := exists_of_forall₂ hxy hy
    rw [← ha, ← hP x y hxp]
    exact hx x hxm
  have hentry : ∀ x y : d.Entry, (x.id = y.id ∧ SameEntry x y) → x.groupKey = y.groupKey :=
    fun x y h => h.2.groupKey
  have hrow : ∀ x y : d.SingletonRow, (x.id = y.id ∧ x.groupKey = y.groupKey) →
      x.groupKey = y.groupKey := fun x y h => h.2
  refine ⟨⟨?_, ha ▸ h.ordered.aggregates, hordered hs h.ordered.singletons⟩, ha ▸ h.distinct,
    hgroups hentry he h.entryGroups, hgroups hrow hs h.singletonGroups, fun a hm => ?_,
    fun a hm => ?_, fun hc a hm => h.present hc a (ha ▸ hm)⟩
  · exact hordered (he.imp fun x y hxy => ⟨hxy.1, hxy.2.groupKey⟩) h.ordered.entries
  · rw [h.lists a (ha ▸ hm)]
    have hlive := forall₂_liveEntries (fun x y hxy => hxy.2)
      (forall₂_upTo hentry he a.entity a.stateVersion)
    exact map_eq_map_of_forall₂ (hlive.imp fun x y hxy => hxy.1)
  · rw [h.singleton a (ha ▸ hm), ← List.getLast?_map, ← List.getLast?_map]
    congr 1
    exact map_eq_map_of_forall₂ ((forall₂_upTo hrow hs _ _).imp fun x y hxy => hxy.1)

end NewRows

end LedgerHistory
