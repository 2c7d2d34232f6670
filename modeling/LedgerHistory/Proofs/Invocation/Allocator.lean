import Mathlib.Algebra.GroupWithZero.Nat
import LedgerHistory.Proofs.Outcome
import LedgerHistory.Proofs.Script.Calm
import LedgerHistory.Proofs.Store.Sequences
import LedgerHistory.Invocation.Allocator

/-!
# Issuing ids

Each table's ids are consecutive from the value that its sequence was advanced to
(`Allocator.next_of_issued`), and saving raises the sequence to the last of them
(`Allocator.calm_save`).
-/

namespace LedgerHistory

namespace Allocator

/-- So many ids of each table have been issued, from its start on. -/
structure Issued (ts : List Table) (start : String → Int64) (n : String → Nat)
    (a : Allocator) : Prop where
  keys : a.counters.keys = ts.map (·.name)
  counter {t : Table} (h : t ∈ ts) : a.counters.get? t.name
    = some ⟨t, start t.name, start t.name + Int64.ofNat (n t.name)⟩

/-- The numbers of ids issued after one more was. -/
def oneMore (n : String → Nat) (name : String) : String → Nat :=
  fun m => if m = name then n m + 1 else n m

variable {ts : List Table} {start : String → Int64} {n : String → Nat} {a : Allocator}

theorem next_of_issued (h : a.Issued ts start n) (hn : (ts.map (·.name)).Nodup) {t : Table}
    (ht : t ∈ ts) : ∃ a', a.next t = .ok (start t.name + Int64.ofNat (n t.name), a')
      ∧ a'.Issued ts start (oneMore n t.name) := by
  have hc := h.counter ht
  refine ⟨_, by simp [next, counter, hc, bind, Except.bind, pure, Except.pure]; rfl, ?_, ?_⟩
  · have hm : t.name ∈ a.counters.keys := by
      rw [h.keys]
      exact List.mem_map_of_mem ht
    rw [Dictionary.keys_insert, if_pos hm, h.keys]
  · intro u hu
    rw [Dictionary.get?_insert]
    by_cases he : t.name = u.name
    · have : t = u := List.inj_on_of_nodup_map hn ht hu he
      subst this
      rw [if_pos rfl]
      simp only [oneMore, if_true, Int64.ofNat_add, ← Int64.add_assoc]
      rfl
    · rw [if_neg he, h.counter hu]
      simp [oneMore, Ne.symm he]

/-! ## Loading -/

theorem distinctTables_of_nodup {ts : List Table} (h : (ts.map (·.name)).Nodup) :
    distinctTables ts = ts := by
  suffices ∀ front : List Table, (∀ t ∈ front, ∀ u ∈ ts, t.name ≠ u.name) →
      ts.foldl (fun ts t => if ts.any (·.name = t.name) then ts else ts ++ [t]) front
        = front ++ ts from
    (this [] fun t ht => absurd ht List.not_mem_nil).trans (List.nil_append ts)
  induction ts with
  | nil => simp
  | cons t ts ih =>
    intro front hf
    obtain ⟨ht, h⟩ := List.nodup_cons.1 h
    have hnone : front.any (·.name = t.name) = false := by
      rw [List.any_eq_false]
      exact fun u hu => by simpa using hf u hu t List.mem_cons_self
    rw [List.foldl_cons, hnone, if_neg Bool.false_ne_true, ih h, List.append_assoc]
    · rfl
    · intro u hu v hv
      rcases List.mem_append.1 hu with hu | hu
      · exact hf u hu v (List.mem_cons_of_mem t hv)
      · rw [List.mem_singleton.1 hu]
        exact fun e => ht (List.mem_map.2 ⟨v, hv, e.symm⟩)

theorem issued_ofValues {ts : List Table} (h : (ts.map (·.name)).Nodup) (start : String → Int64) :
    (ofValues (ts.map fun t => (t, start t.name))).Issued ts start fun _ => 0 := by
  have hfold : (ofValues (ts.map fun t => (t, start t.name))).counters.entries
      = ts.map fun t => (t.name, ⟨t, start t.name, start t.name⟩) := by
    suffices ∀ d : Dictionary String Counter, (∀ t ∈ ts, t.name ∉ d.keys) →
        ((ts.map fun t => (t, start t.name)).foldl
          (fun d v => d.insert v.1.name ⟨v.1, v.2, v.2⟩) d).entries
          = d.entries ++ ts.map fun t => (t.name, (⟨t, start t.name, start t.name⟩ : Counter)) from
      (this .empty fun _ _ => List.not_mem_nil).trans (List.nil_append _)
    induction ts with
    | nil => simp
    | cons t ts ih =>
      intro d hd
      obtain ⟨ht, h⟩ := List.nodup_cons.1 h
      have hnew : d.get? t.name = none := Dictionary.get?_eq_none_iff.2 (hd t List.mem_cons_self)
      rw [List.map_cons, List.foldl_cons, ih h, Dictionary.entries_insert_of_none hnew,
        List.append_assoc]
      · rfl
      · intro u hu
        rw [Dictionary.keys_insert, if_neg (hd t List.mem_cons_self), List.mem_append,
          List.mem_singleton, not_or]
        exact ⟨hd u (List.mem_cons_of_mem t hu), fun e => ht (List.mem_map.2 ⟨u, hu, e⟩)⟩
  have hkeys : (ofValues (ts.map fun t => (t, start t.name))).counters.keys = ts.map (·.name) := by
    rw [Dictionary.keys, hfold, List.map_map]
    rfl
  refine ⟨hkeys, fun {t} ht => ?_⟩
  rw [Dictionary.get?_eq_some_iff (hkeys ▸ h), hfold]
  refine List.mem_map.2 ⟨t, ht, ?_⟩
  rw [show Int64.ofNat 0 = 0 from rfl, Int64.add_zero]

/-- The ids start behind the values of the sequences. -/
theorem calm_load {ts : List Table} (h : (ts.map (·.name)).Nodup) (w : World) :
    ∃ a, (load ts).run.calm w = (.ok a, w.advanceAll (ts.map (·.sequenceName)))
      ∧ a.Issued ts (fun name => w.committed.sequence (Table.sequenceNameOf name) + 1) fun _ => 0 := by
  refine ⟨_, ?_, issued_ofValues h _⟩
  unfold load
  rw [distinctTables_of_nodup h]
  have hcall : (Action.request .loadSequences (.advanceSequences ts)).run.calm w
      = (.ok (ts.map fun t => w.committed.nextValue t.sequenceName),
        w.advanceAll (ts.map (·.sequenceName))) := by
    rw [Action.calm_request, World.serve_advanceSequences_eq w h]
    rfl
  rw [Action.calm_bind_of_ok hcall, Action.calm_pure]
  congr 3
  rw [List.zip, List.zipWith_map_right, List.zipWith_self]
  rfl

/-! ## Saving -/

variable {s : Snapshot}

theorem frame_raiseAll (values : List (Table × Int64)) :
    (s.raiseAll values).tables = s.tables
      ∧ (s.raiseAll values).entities = s.entities := by
  induction values generalizing s with
  | nil => exact ⟨rfl, rfl⟩
  | cons x values ih => exact ih (s := s.raise x.1.sequenceName x.2)

theorem sequence_raiseAll_of_notMem {values : List (Table × Int64)} {name : String}
    (h : name ∉ values.map (·.1.sequenceName)) :
    (s.raiseAll values).sequence name
      = s.sequence name := by
  induction values generalizing s with
  | nil => rfl
  | cons x values ih =>
    rw [List.map_cons, List.mem_cons, not_or] at h
    rw [Snapshot.raiseAll, List.foldl_cons, ← Snapshot.raiseAll, ih h.2, Snapshot.raise_eq, Snapshot.sequence_withSequence,
      if_neg (Ne.symm h.1)]

theorem sequence_raiseAll_of_mem {values : List (Table × Int64)}
    (hn : (values.map (·.1.sequenceName)).Nodup) {t : Table} {v : Int64} (h : (t, v) ∈ values) :
    (s.raiseAll values).sequence t.sequenceName
      = max (s.sequence t.sequenceName) v := by
  induction values generalizing s with
  | nil => cases h
  | cons x values ih =>
    obtain ⟨hx, hn⟩ := List.nodup_cons.1 hn
    rw [Snapshot.raiseAll, List.foldl_cons, ← Snapshot.raiseAll]
    rcases List.mem_cons.1 h with rfl | h
    · rw [sequence_raiseAll_of_notMem hx, Snapshot.raise_eq, Snapshot.sequence_withSequence,
        if_pos rfl]
    · have hne : x.1.sequenceName ≠ t.sequenceName := by
        intro e
        exact hx (List.mem_map.2 ⟨_, h, e.symm⟩)
      rw [ih hn h, Snapshot.raise_eq, Snapshot.sequence_withSequence, if_neg hne]

/-- A sequence that is in use stays so, and does not fall. -/
theorem get?_raiseAll (values : List (Table × Int64)) {name : String} {v : Int64}
    (h : s.sequences.get? name = some v) :
    ∃ v', (s.raiseAll values).sequences.get? name = some v'
      ∧ v ≤ v' := by
  induction values generalizing s v with
  | nil => exact ⟨v, h, Int64.le_refl v⟩
  | cons x values ih =>
    rw [Snapshot.raiseAll, List.foldl_cons, ← Snapshot.raiseAll]
    by_cases hx : x.1.sequenceName = name
    · obtain ⟨v', hv', hle⟩ := ih (s := s.raise x.1.sequenceName x.2) (v := max v x.2) (by
        rw [Snapshot.raise_eq, Snapshot.withSequence, Dictionary.get?_insert, if_pos hx, hx,
          Snapshot.sequence, Dictionary.getD, h]
        rfl)
      refine ⟨v', hv', Int64.le_trans ?_ hle⟩
      rw [Int64.le_iff_toInt_le, toInt_max]
      exact Int.le_max_left ..
    · exact ih (by
        rw [Snapshot.raise_eq, Snapshot.withSequence, Dictionary.get?_insert, if_neg hx, h])

/-- The values that are recorded: the last id of each table that received any. -/
theorem mem_lastIssued (h : a.Issued ts start n) (hn : (ts.map (·.name)).Nodup)
    (hroom : ∀ t ∈ ts, (start t.name).toInt + n t.name < 2 ^ 63) {x : Table × Int64} :
    x ∈ a.lastIssued
      ↔ x.1 ∈ ts ∧ 0 < n x.1.name ∧ x.2 = start x.1.name + Int64.ofNat (n x.1.name) - 1 := by
  have hkeys : a.counters.keys.Nodup := h.keys ▸ hn
  have hlt : ∀ t ∈ ts, start t.name < start t.name + Int64.ofNat (n t.name) ↔ 0 < n t.name := by
    intro t ht
    rw [Int64.lt_iff_toInt_lt, toInt_add_ofNat (hroom t ht)]
    omega
  rw [lastIssued, List.mem_mergeSort, List.mem_map]
  constructor
  · rintro ⟨c, hc, rfl⟩
    obtain ⟨hc, hpos⟩ := List.mem_filter.1 hc
    obtain ⟨⟨name, c⟩, he, rfl⟩ := List.mem_map.1 hc
    have hname : name ∈ ts.map (·.name) := h.keys ▸ List.mem_map_of_mem (f := (·.1)) he
    obtain ⟨t, ht, rfl⟩ := List.mem_map.1 hname
    have hc := (Dictionary.get?_eq_some_iff hkeys).2 he
    rw [h.counter ht] at hc
    cases hc
    exact ⟨ht, (hlt t ht).1 (by simpa using hpos), rfl⟩
  · rintro ⟨ht, hpos, hx⟩
    refine ⟨_, List.mem_filter.2 ⟨List.mem_map.2 ⟨_,
      (Dictionary.get?_eq_some_iff hkeys).1 (h.counter ht), rfl⟩, ?_⟩, Prod.ext rfl hx.symm⟩
    simpa using (hlt x.1 ht).2 hpos

theorem nodup_lastIssued (h : a.Issued ts start n) (hn : (ts.map (·.name)).Nodup) :
    (a.lastIssued.map (·.1.sequenceName)).Nodup := by
  have hvalues : (a.counters.values.map (·.table)).map (·.name) = ts.map (·.name) := by
    rw [← h.keys, Dictionary.values, Dictionary.keys, List.map_map, List.map_map]
    refine List.map_congr_left fun e he => ?_
    have hname : e.1 ∈ ts.map (·.name) := h.keys ▸ List.mem_map_of_mem (f := (·.1)) he
    obtain ⟨t, ht, htn⟩ := List.mem_map.1 hname
    have hc := (Dictionary.get?_eq_some_iff (h.keys ▸ hn)).2 he
    rw [← htn, h.counter ht] at hc
    simp only [Function.comp_apply]
    rw [← htn, ← Option.some.inj hc]
  have hsub : ((a.counters.values.filter fun c => c.start < c.next).map (·.table.name)).Nodup := by
    refine List.Nodup.sublist ((List.filter_sublist (p := _)).map _) ?_
    rw [List.map_map] at hvalues
    exact hvalues ▸ hn
  have hperm : (a.lastIssued.map (·.1.name)).Perm
      ((a.counters.values.filter fun c => c.start < c.next).map (·.table.name)) := by
    refine ((List.mergeSort_perm _ _).map _).trans ?_
    rw [List.map_map]
    exact List.Perm.refl _
  have hnames : ((a.lastIssued.map (·.1)).map (·.name)).Nodup := by
    rw [List.map_map]
    exact hperm.nodup_iff.2 hsub
  have := nodup_sequenceNames hnames
  rwa [List.map_map] at this

theorem calm_save_eq (a : Allocator) (w : World) : a.save.run.calm w = (.ok (), { w with
    working := w.working.raiseAll a.lastIssued }) := by
  unfold save
  split
  · rename_i h
    rw [h]
    rfl
  · rw [Action.calm_request, World.serve_raiseSequences]
    rfl

/-- After saving, the sequence of each table has the last id issued, if any was. -/
theorem calm_save (h : a.Issued ts start n) (hn : (ts.map (·.name)).Nodup)
    (hroom : ∀ t ∈ ts, (start t.name).toInt + n t.name < 2 ^ 63) {t : Table} (ht : t ∈ ts) :
    ((s.raiseAll a.lastIssued).sequence
        t.sequenceName).toInt
      = max (s.sequence t.sequenceName).toInt
        (if n t.name = 0 then (s.sequence t.sequenceName).toInt
          else (start t.name).toInt + n t.name - 1) := by
  by_cases hpos : n t.name = 0
  · rw [if_pos hpos, sequence_raiseAll_of_notMem]
    · exact (Int.max_self _).symm
    · intro hm
      obtain ⟨x, hx, he⟩ := List.mem_map.1 hm
      obtain ⟨hxt, hxp, _⟩ := (mem_lastIssued h hn hroom).1 hx
      have := List.inj_on_of_nodup_map hn hxt ht (Table.sequenceName_inj.1 he)
      rw [this] at hxp
      omega
  · have hr := hroom t ht
    have hl := Int64.le_toInt (start t.name)
    have hv : (start t.name + Int64.ofNat (n t.name) - 1).toInt
        = (start t.name).toInt + n t.name - 1 := by
      rw [Int64.toInt_sub, toInt_add_ofNat hr, show (1 : Int64).toInt = 1 from rfl]
      exact Int.bmod_eq_of_le (by omega) (by omega)
    have hm : (t, start t.name + Int64.ofNat (n t.name) - 1) ∈ a.lastIssued :=
      (mem_lastIssued h hn hroom).2 ⟨ht, Nat.pos_of_ne_zero hpos, rfl⟩
    rw [if_neg hpos, sequence_raiseAll_of_mem (nodup_lastIssued h hn) hm, toInt_max, hv]

/-! ## Counting -/

theorem foldl_add_ofNat (ms : List Nat) (k : Nat) :
    (ms.map Int64.ofNat).foldl (· + ·) (Int64.ofNat k) = Int64.ofNat (k + ms.sum) := by
  induction ms generalizing k with
  | nil => rfl
  | cons m ms ih =>
    rw [List.map_cons, List.foldl_cons, ← Int64.ofNat_add, ih, List.sum_cons, Nat.add_assoc]

/-- The number of ids issued is the sum over the tables. -/
theorem totalIssued_eq (h : a.Issued ts start n) (hn : (ts.map (·.name)).Nodup) :
    a.totalIssued = Int64.ofNat (ts.map (n ·.name)).sum := by
  have hissued : a.counters.values.map Counter.issued = (ts.map (n ·.name)).map Int64.ofNat := by
    have heach : a.counters.entries.map (·.2.issued)
        = a.counters.entries.map fun e => Int64.ofNat (n e.1) := by
      refine List.map_congr_left fun e he => ?_
      have hname : e.1 ∈ ts.map (·.name) := h.keys ▸ List.mem_map_of_mem (f := (·.1)) he
      obtain ⟨t, ht, htn⟩ := List.mem_map.1 hname
      have hc := (Dictionary.get?_eq_some_iff (h.keys ▸ hn)).2 he
      rw [← htn, h.counter ht] at hc
      rw [← Option.some.inj hc, ← htn, Counter.issued, Int64.add_comm, Int64.add_sub_cancel]
    rw [Dictionary.values, List.map_map]
    refine heach.trans ?_
    have hkeys := congrArg (List.map fun name => Int64.ofNat (n name)) h.keys
    rw [Dictionary.keys, List.map_map, List.map_map] at hkeys
    rw [List.map_map]
    exact hkeys
  have hsum := foldl_add_ofNat (ts.map (n ·.name)) 0
  rw [← hissued, List.foldl_map, Nat.zero_add] at hsum
  exact hsum

end Allocator

end LedgerHistory
