import Mathlib.Algebra.GroupWithZero.Nat
import LedgerHistory.Proofs.Aggregate.Prior
import LedgerHistory.Proofs.Recording.Preparation

/-!
# Making all rows

Each recorder issues ids of its own tables alone, so from counters that stand at their starts the
recorders make their rows as if each were the only one (`Recorder.makeAll_eq`): a recorder with lists
those that its groups add to a chronicle (`Recorder.makes_list`), one without lists a row for each
change (`Recorder.makes_plain`).
-/

namespace LedgerHistory

/-! ## Batches -/

def rowCount (bs : List Batch) (name : String) : Nat :=
  (bs.map fun b => if b.table.name = name then b.rows.length else 0).sum

theorem rowCount_cons (b : Batch) (bs : List Batch) (name : String) : rowCount (b :: bs) name
    = (if b.table.name = name then b.rows.length else 0) + rowCount bs name := by
  simp [rowCount]

theorem rowCount_append (bs bs' : List Batch) (name : String) :
    rowCount (bs ++ bs') name = rowCount bs name + rowCount bs' name := by
  simp [rowCount]

theorem rowCount_eq_zero {bs : List Batch} {name : String} (h : ∀ b ∈ bs, b.table.name ≠ name) :
    rowCount bs name = 0 := by
  induction bs with
  | nil => rfl
  | cons b bs ih =>
    rw [rowCount_cons, if_neg (h b List.mem_cons_self),
      ih fun b' hb => h b' (List.mem_cons_of_mem b hb)]

theorem rowCount_of_mem {bs : List Batch} (h : (bs.map (·.table.name)).Nodup) {b : Batch}
    (hb : b ∈ bs) : rowCount bs b.table.name = b.rows.length := by
  induction bs with
  | nil => cases hb
  | cons b' bs ih =>
    obtain ⟨hb', hnd⟩ := List.nodup_cons.1 h
    rcases List.mem_cons.1 hb with rfl | hb
    · have hzero : rowCount bs b.table.name = 0 := rowCount_eq_zero fun b'' hm he =>
        hb' (List.mem_map.2 ⟨b'', hm, he⟩)
      rw [rowCount_cons, if_pos rfl, hzero, Nat.add_zero]
    · have hne : b'.table.name ≠ b.table.name := fun he => hb' (List.mem_map.2 ⟨b, hb, he.symm⟩)
      rw [rowCount_cons, if_neg hne, ih hnd hb, Nat.zero_add]

/-- The batches of the rows of a domain with lists. -/
def ListKind.batchesOf (k : ListKind) (R : NewRows k.domain) : List Batch :=
  [.ofRows k.domain.entryTable (R.entries.map k.domain.encodeEntry),
    .ofRows k.domain.aggregateSchema.table (R.aggregates.map k.domain.aggregateRow)]
  ++ (k.domain.singletonTable.map fun t => Batch.ofRows t.table (R.singletons.map t.encode)).toList

/-- The batch of the rows of a domain without lists. -/
def PlainKind.batchesOf (k : PlainKind) (xs : List (HistoryRow k.domain.Change)) : List Batch :=
  [.ofRows k.domain.table (xs.map k.domain.encode)]

theorem ListKind.batches_eq (k : ListKind) (p : ListRecorder k.domain) :
    p.batches = k.batchesOf p.output := by
  have haggs : p.output.aggregates.map k.domain.aggregateSchema.encode
      = (p.output.aggregates.map k.domain.aggregateRow).map .ok := by
    rw [List.map_map]
    exact List.map_congr_left fun a _ => k.encode_aggregate a
  rw [ListRecorder.batches, haggs]
  rfl

theorem ListKind.countedIn (k : ListKind) {ts : List Table} (hn : (ts.map (·.name)).Nodup)
    (hm : ∀ t ∈ k.domain.tables, t ∈ ts) : k.domain.CountedIn ts :=
  ⟨hn, fun h => hm _ h, by cases k <;> decide⟩

theorem ListKind.mem_batchesOf {k : ListKind} {R : NewRows k.domain} {b : Batch} :
    b ∈ k.batchesOf R
      ↔ b = .ofRows k.domain.entryTable (R.entries.map k.domain.encodeEntry)
        ∨ b = .ofRows k.domain.aggregateSchema.table (R.aggregates.map k.domain.aggregateRow)
        ∨ ∃ t, k.domain.singletonTable = some t
          ∧ b = .ofRows t.table (R.singletons.map t.encode) := by
  unfold batchesOf
  rcases k.domain.singletonTable with _ | t <;> simp

theorem ListKind.tables_batchesOf (k : ListKind) (R : NewRows k.domain) :
    (k.batchesOf R).map (·.table) = k.domain.tables := by
  unfold batchesOf ListDomain.tables
  rcases k.domain.singletonTable with _ | t <;> rfl

theorem ListKind.counts_eq {k : ListKind} {ts : List Table} (hd : k.domain.CountedIn ts)
    {n : String → Nat} (hn : ∀ t ∈ k.domain.tables, n t.name = 0) (R : NewRows k.domain) :
    k.domain.counts n R = fun name => n name + rowCount (k.batchesOf R) name := by
  have hnd : ((k.batchesOf R).map (·.table.name)).Nodup := by
    have hdistinct := hd.distinct
    rwa [← k.tables_batchesOf R, List.map_map] at hdistinct
  have hcount {b : Batch} (hb : b ∈ k.batchesOf R) :
      n b.table.name + rowCount (k.batchesOf R) b.table.name = b.rows.length := by
    rw [hn _ (k.tables_batchesOf R ▸ List.mem_map_of_mem hb), rowCount_of_mem hnd hb, Nat.zero_add]
  funext name
  unfold ListDomain.counts
  split
  · rename_i he
    have hentries := hcount (mem_batchesOf.2 (.inl rfl))
    simpa only [he, Batch.ofRows, List.length_map] using hentries.symm
  split
  · rename_i _ he
    have haggregates := hcount (mem_batchesOf.2 (.inr (.inl rfl)))
    simpa only [he, Batch.ofRows, List.length_map] using haggregates.symm
  split
  · rename_i _ _ he
    obtain ⟨t, ht, hname⟩ := (Option.any_eq_true _ _).1 he
    have hsingletons := hcount (mem_batchesOf.2 (.inr (.inr ⟨t, ht, rfl⟩)))
    simpa only [← of_decide_eq_true hname, Batch.ofRows, List.length_map] using hsingletons.symm
  · rename_i he ha hs
    rw [rowCount_eq_zero, Nat.add_zero]
    intro b hb hname
    rcases mem_batchesOf.1 hb with rfl | rfl | ⟨t, ht, rfl⟩
    · exact he hname.symm
    · exact ha hname.symm
    · exact hs ((Option.any_eq_true _ _).2 ⟨t, ht, decide_eq_true hname⟩)

/-! ## One recorder -/

namespace Recorder

/-- Whether a recorder makes its rows of these batches from counters at their starts, or fails so. -/
def Makes (ts : List Table) (start : String → Int64) (p : Recorder)
    (outcome : Except InvocationError (List Batch)) : Prop :=
  ∀ {n : String → Nat} {a : Allocator}, a.Issued ts start n → (∀ t ∈ p.tables, n t.name = 0) →
    match outcome with
    | .error e => (p.makeRows a).result = .error e
    | .ok bs => (p.makeRows a).result = .ok () ∧ (p.makeRows a).recorder.batches = bs
      ∧ (p.makeRows a).allocator.Issued ts start fun name => n name + rowCount bs name

variable {ts : List Table} {start : String → Int64}

/-- A recorder that knows a chronicle makes the rows that its groups add to it. -/
theorem makes_list {k : ListKind} (hd : k.domain.CountedIn ts) {p : ListRecorder k.domain}
    (hn : p.changes.groups.keys.Nodup) {B : NewRows k.domain}
    (ht : ∀ a, (Pass.mk p.prior a {}).Tracks B p.changes.entities p.changes.entryKeys) :
    Makes ts start (.list k p)
      ((B.rowsAfter (k.domain.firstIds start) p.changes.toList).map k.batchesOf) := by
  intro n a ha hzero
  obtain ⟨hrun, hissued⟩ := Pass.run_eq hd ha hzero hn (ht a)
  rcases hR : B.rowsAfter (k.domain.firstIds start) p.changes.toList with e | R
  · rw [hR] at hrun
    simp only [Except.map, makeRows, ListRecorder.makeRows, hrun]
  · rw [hR] at hrun
    have hissued := hissued R hrun
    rw [ListKind.counts_eq hd hzero] at hissued
    simp only [Except.map, makeRows, ListRecorder.makeRows, hrun, batches]
    exact ⟨trivial, ListKind.batches_eq k _, hissued⟩

theorem rowsOf_eq {k : PlainKind} (hnd : (ts.map (·.name)).Nodup) (ht : k.domain.table ∈ ts)
    (pending : List (Int64 × EntityId × k.domain.Change)) {n : String → Nat} {a : Allocator}
    (ha : a.Issued ts start n) :
    ∃ a', PlainRecorder.rowsOf (h := k.domain) a pending
        = (.ok ((enumerated (start k.domain.table.name + Int64.ofNat (n k.domain.table.name))
          (pending.map fun y => (⟨y.2.1, y.1⟩, y.2.2))).map k.domain.encode), a')
      ∧ a'.Issued ts start fun name =>
        n name + if k.domain.table.name = name then pending.length else 0 := by
  induction pending generalizing n a with
  | nil => exact ⟨a, rfl, by simpa using ha⟩
  | cons y pending ih =>
    obtain ⟨version, entity, change⟩ := y
    obtain ⟨a₁, hnext, ha₁⟩ := Allocator.next_of_issued ha hnd ht
    obtain ⟨a', hrest, ha'⟩ := ih ha₁
    have hid : start k.domain.table.name + Int64.ofNat (Allocator.oneMore n k.domain.table.name
        k.domain.table.name)
          = start k.domain.table.name + Int64.ofNat (n k.domain.table.name) + 1 := by
      rw [Allocator.oneMore, if_pos rfl, Int64.ofNat_add, ← Int64.add_assoc]
      rfl
    rw [hid] at hrest
    refine ⟨a', ?_, ?_⟩
    · rw [PlainRecorder.rowsOf, hnext]
      simp only [hrest]
      rfl
    · have hcount : (fun name => Allocator.oneMore n k.domain.table.name name
          + if k.domain.table.name = name then pending.length else 0)
            = fun name => n name + if k.domain.table.name = name then pending.length + 1 else 0 := by
        funext name
        unfold Allocator.oneMore
        by_cases hname : k.domain.table.name = name
        · rw [if_pos hname.symm, if_pos hname, if_pos hname]
          omega
        · rw [if_neg (Ne.symm hname), if_neg hname, if_neg hname]
      rw [hcount] at ha'
      exact ha'

/-- A recorder without lists makes a row of each change. -/
theorem makes_plain {k : PlainKind} (hnd : (ts.map (·.name)).Nodup) (ht : k.domain.table ∈ ts)
    (p : PlainRecorder k.domain) : Makes ts start (.plain k p)
      (.ok (k.batchesOf (enumerated (start k.domain.table.name)
        (p.pending.map fun y => (⟨y.2.1, y.1⟩, y.2.2))))) := by
  intro n a ha hzero
  obtain ⟨a', hrows, ha'⟩ := rowsOf_eq hnd ht p.pending ha
  rw [hzero _ List.mem_cons_self, show Int64.ofNat 0 = 0 from rfl, Int64.add_zero] at hrows
  have hcount : rowCount (k.batchesOf (enumerated (start k.domain.table.name)
      (p.pending.map fun y => (⟨y.2.1, y.1⟩, y.2.2))))
        = fun name => if k.domain.table.name = name then p.pending.length else 0 := by
    funext name
    simp [rowCount, PlainKind.batchesOf, Batch.ofRows]
  simp only [makeRows, PlainRecorder.makeRows, hrows, batches, hcount]
  exact ⟨trivial, rfl, ha'⟩

/-! ## All recorders -/

theorem tables_of_makes {p : Recorder} {a : Allocator} {bs : List Batch}
    (h : (p.makeRows a).recorder.batches = bs) : bs.map (·.table) = p.tables := by
  rw [← h, tables_batches, tables_eq, domain_makeRows, ← tables_eq]

/-- Recorders of different tables make their rows as each alone would, up to the first that fails. -/
theorem makeAll_eq {rs : List Recorder} {outcomes : List (Except InvocationError (List Batch))}
    (h : List.Forall₂ (Makes ts start) rs outcomes)
    (hnd : ((rs.flatMap tables).map (·.name)).Nodup) {n : String → Nat} {a : Allocator}
    (ha : a.Issued ts start n) (hn : ∀ t ∈ rs.flatMap tables, n t.name = 0) :
    match outcomes.mapM id with
    | .error e => makeAll a rs = .error e
    | .ok bss => ∃ made, makeAll a rs = .ok made ∧ made.1.flatMap batches = bss.flatten
      ∧ made.2.Issued ts start fun name => n name + rowCount bss.flatten name := by
  induction h generalizing n a with
  | nil => exact ⟨_, rfl, rfl, ha⟩
  | @cons p outcome rs outcomes hp hrest ih =>
    rw [List.flatMap_cons, List.map_append] at hnd
    have hmade := hp ha fun t ht => hn t (List.mem_append_left _ ht)
    rw [List.mapM_cons]
    rcases outcome with e | bs
    · show makeAll a (p :: rs) = .error e
      rw [makeAll, hmade]
      rfl
    · obtain ⟨hok, hbs, hissued⟩ := hmade
      have hzero : ∀ t ∈ rs.flatMap tables, n t.name + rowCount bs t.name = 0 := by
        intro t ht
        rw [hn t (List.mem_append_right _ ht), rowCount_eq_zero]
        intro b hb he
        have hbt : b.table ∈ p.tables := by
          rw [← tables_of_makes hbs]
          exact List.mem_map_of_mem hb
        exact List.disjoint_of_nodup_append hnd (List.mem_map_of_mem (f := (·.name)) hbt)
          (List.mem_map.2 ⟨t, ht, he.symm⟩)
      have ih := ih (List.Nodup.of_append_right hnd) hissued hzero
      show match (outcomes.mapM id >>= fun bss => Except.ok (bs :: bss)) with
        | .error e => makeAll a (p :: rs) = .error e
        | .ok bss => ∃ made, makeAll a (p :: rs) = .ok made ∧ made.1.flatMap batches = bss.flatten
          ∧ made.2.Issued ts start fun name => n name + rowCount bss.flatten name
      rcases hall : outcomes.mapM id with e | bss <;> rw [hall] at ih
      · show makeAll a (p :: rs) = .error e
        rw [makeAll, hok]
        show (makeAll (p.makeRows a).allocator rs >>= _) = _
        rw [ih]
        rfl
      · obtain ⟨made, hmake, hflat, hissued'⟩ := ih
        refine ⟨_, makeAll_cons_eq_ok.2 ⟨hok, made, hmake, rfl⟩, ?_, ?_⟩
        · rw [List.flatMap_cons, hbs, hflat]
          rfl
        · simp only [List.flatten_cons, rowCount_append, ← Nat.add_assoc]
          exact hissued'

theorem calm_mapM_loadLatest {P : Recorder → Recorder → Prop} {rs : List Recorder} {w : World}
    (h : ∀ p ∈ rs, ∃ p', p.loadLatest.run.calm w = (.ok p', w) ∧ P p p') :
    ∃ loaded, (rs.mapM loadLatest).run.calm w = (.ok loaded, w) ∧ List.Forall₂ P rs loaded := by
  induction rs with
  | nil => exact ⟨[], rfl, .nil⟩
  | cons p rs ih =>
    obtain ⟨p', hp, hP⟩ := h p List.mem_cons_self
    obtain ⟨loaded, hl, hrest⟩ := ih fun q hq => h q (List.mem_cons_of_mem p hq)
    refine ⟨p' :: loaded, ?_, .cons hP hrest⟩
    rw [List.mapM_cons, Action.calm_bind_of_ok hp, Action.calm_bind_of_ok hl]
    rfl

end Recorder

end LedgerHistory
