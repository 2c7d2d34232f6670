import LedgerHistory.Proofs.Interleaved.Safe
import LedgerHistory.Proofs.Recording.Completion

/-!
# Rows made of whatever was found

While others act on the store an invocation need not find the rows of one chronicle. Whatever a
recorder has loaded, the rows that it makes have consecutive ids from the starts of its tables
(`Recorder.Numbers`), and so have those of all recorders together (`Recorder.consecutive_makeAll`).
-/

namespace LedgerHistory

theorem getLast?_filter {α : Type} (p : α → Bool) (xs : List α) :
    (xs.filter p).getLast? = xs.reverse.find? p := by
  rw [List.getLast?_eq_head?_reverse, ← List.filter_reverse, List.head?_filter]

/-- A pass knows the most recent of the rows that its prior state was put together from. -/
theorem Pass.tracks_foldl {d : ListDomain} (as : List Aggregate) (xs : List d.Entry) (a : Allocator)
    (es : List EntityId) (ks : List d.EntryKey) :
    (Pass.mk (xs.foldl LatestRows.putEntry (as.foldl LatestRows.putAggregate {})) a {}).Tracks
      ⟨xs, as, []⟩ es ks := by
  have hslot : ∀ e, (xs.foldl LatestRows.putEntry
      (as.foldl LatestRows.putAggregate ({} : LatestRows d))).aggregates.get? e
        = (lastWith Aggregate.entity e as).map .settled := by
    intro e
    rw [LatestRows.frame_foldl_putEntry, LatestRows.get?_foldl_putAggregate, lastWith,
      getLast?_filter]
    exact Option.or_none
  refine ⟨fun {k} _ => ?_, fun {e} _ => ?_, fun {e i} hi => ?_⟩
  · rw [LatestRows.entry?_foldl_putEntry, LatestRows.entry?, LatestRows.frame_foldl_putAggregate,
      NewRows.append_empty, lastWith, getLast?_filter]
    exact Option.or_none
  · unfold Pass.latest?
    rw [hslot, NewRows.append_empty]
    show _ = lastWith Aggregate.entity e as
    rcases lastWith Aggregate.entity e as with _ | a <;> rfl
  · rw [hslot] at hi
    obtain ⟨_, _, hpending⟩ := Option.map_eq_some_iff.1 hi
    cases hpending

namespace Recorder

variable {ts : List Table} {start : String → Int64} {w : World}

/-- Whether a recorder has grouped the changes that it visited and loaded nothing yet. -/
def IsFresh : Recorder → Prop
  | .list k p => p.prior = {}
    ∧ ∃ xs : List (GroupKey × Meaning k.domain.Change k.domain.Singleton), p.changes = .ofList xs
  | .plain _ _ => True

theorem isFresh_new (warnLength : Nat) (d : DomainName) : (new warnLength d).IsFresh := by
  cases d with
  | defaultDepositRule | componentState => trivial
  | _ => exact ⟨rfl, [], rfl⟩

theorem IsFresh.addEvent {p p' : Recorder} (hp : p.IsFresh) {v : Int64} {e : Entity} {s : Substate}
    {known : KnownEntities} (h : p.addEvent v e s known = .ok p') :
    p'.domain = p.domain ∧ p'.IsFresh := by
  cases p with
  | list k p =>
    obtain ⟨hprior, xs, hxs⟩ := hp
    obtain ⟨q, hq, rfl⟩ := map_eq_ok.1 h
    obtain ⟨m, _, hq⟩ := bind_eq_ok.1 hq
    rcases m with _ | m
    · cases hq
    · cases hq
      refine ⟨rfl, hprior, xs ++ [(⟨e.id, v⟩, m)], ?_⟩
      rw [GroupedChanges.ofList_concat, ← hxs]
  | plain k p =>
    obtain ⟨q, _, rfl⟩ := map_eq_ok.1 h
    exact ⟨rfl, trivial⟩

/-- Whether the rows that a recorder makes, if any, have consecutive ids from the starts of its
tables. -/
def Numbers (ts : List Table) (start : String → Int64) (p : Recorder) : Prop :=
  ∃ outcome, p.Makes ts start outcome ∧ ∀ bs, outcome = .ok bs → ∀ b ∈ bs, b.Consecutive start

theorem numbers_list {k : ListKind} (hd : k.domain.CountedIn ts) {p : ListRecorder k.domain}
    (hn : p.changes.groups.keys.Nodup) (as : List Aggregate) (xs : List k.domain.Entry)
    (hp : p.prior = xs.foldl LatestRows.putEntry (as.foldl LatestRows.putAggregate {})) :
    (list k p).Numbers ts start := by
  refine ⟨_, makes_list hd hn (B := ⟨xs, as, []⟩) fun a => ?_, fun bs hbs => ?_⟩
  · rw [hp]
    exact Pass.tracks_foldl as xs a _ _
  · obtain ⟨R, hR, rfl⟩ := map_eq_ok.1 hbs
    exact ListKind.consecutive_batchesOf hR

theorem numbers_plain {k : PlainKind} (hnd : (ts.map (·.name)).Nodup) (ht : k.domain.table ∈ ts)
    (p : PlainRecorder k.domain) : (plain k p).Numbers ts start := by
  refine ⟨.ok (k.batchesOf (enumerated (start k.domain.table.name)
    (p.pending.map fun y => (⟨y.2.1, y.1⟩, y.2.2)))), makes_plain hnd ht p, fun bs hbs => ?_⟩
  cases hbs
  exact k.consecutive_batchesOf _

/-- All recorders together issue consecutive ids. -/
theorem consecutive_makeAll {rs : List Recorder} (h : ∀ p ∈ rs, p.Numbers ts start)
    (hnd : ((rs.flatMap tables).map (·.name)).Nodup) {a : Allocator}
    (ha : a.Issued ts start fun _ => 0) {made : List Recorder × Allocator}
    (hmade : makeAll a rs = .ok made) :
    (∀ b ∈ made.1.flatMap batches, b.Consecutive start)
      ∧ made.2.Issued ts start (rowCount (made.1.flatMap batches)) := by
  choose! outcome hmakes hids using h
  have hforall : List.Forall₂ (Makes ts start) rs (rs.map outcome) :=
    List.forall₂_map_right_iff.2 (List.forall₂_same.2 hmakes)
  have hall := makeAll_eq hforall hnd ha fun _ _ => rfl
  rcases hout : (rs.map outcome).mapM id with e | bss <;> rw [hout] at hall
  · rw [hall] at hmade
    cases hmade
  · obtain ⟨made', hmade', hflat, hissued⟩ := hall
    obtain rfl := Except.ok.inj (hmade.symm.trans hmade')
    simp only [Nat.zero_add] at hissued
    rw [hflat]
    refine ⟨fun b hb => ?_, hissued⟩
    obtain ⟨bs, hbs, hb⟩ := List.mem_flatten.1 hb
    obtain ⟨_, ho, hok⟩ := exists_of_forall₂ (mapM_eq_ok.1 hout) hbs
    obtain ⟨p, hp, rfl⟩ := List.mem_map.1 ho
    exact hids p hp bs hok b hb

end Recorder

end LedgerHistory
