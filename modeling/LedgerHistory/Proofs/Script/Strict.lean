import Mathlib.Data.Nat.Basic
import LedgerHistory.Proofs.Script.Runs
import LedgerHistory.Invocation.Allocator

/-!
# Strict scripts

A strict script passes every failure of a call and every cancellation on as its own error, and its
calls leave committed tables and entities alone and move each sequence forward by no more than a
given number of values. So it ends well only as in the run in which nothing goes wrong
(`Script.calm_of_runs`), and whatever happens the committed rows stay (`Script.advanced_of_runs`).
-/

namespace LedgerHistory

/-- The value of a sequence; one that was never used stands at zero. -/
def Snapshot.sequence (s : Snapshot) (name : String) : Int64 := s.sequences.getD name 0

/-- The committed tables and entities are the same, each sequence has gone forward by at most `n`
values, and none stands twice. -/
structure World.Advanced (n : Nat) (w w' : World) : Prop where
  tables : w'.committed.tables = w.committed.tables
  entities : w'.committed.entities = w.committed.entities
  sequence (name : String) :
    ∃ k ≤ n, w'.committed.sequence name = w.committed.sequence name + Int64.ofNat k
  nodup (h : w.committed.sequences.keys.Nodup) : w'.committed.sequences.keys.Nodup

namespace World.Advanced

variable {m n : Nat} {w w₁ w₂ : World}

theorem of_committed_eq (h : w₁.committed = w.committed) : w.Advanced n w₁ :=
  ⟨by rw [h], by rw [h], fun name => ⟨0, n.zero_le, by simp [h]⟩, by rw [h]; exact id⟩

theorem refl : w.Advanced n w := of_committed_eq rfl

theorem mono (h : w.Advanced m w₁) (hn : m ≤ n) : w.Advanced n w₁ :=
  ⟨h.tables, h.entities, fun name =>
    let ⟨k, hk, e⟩ := h.sequence name
    ⟨k, Nat.le_trans hk hn, e⟩, h.nodup⟩

theorem trans (h : w.Advanced m w₁) (h' : w₁.Advanced n w₂) : w.Advanced (m + n) w₂ := by
  refine ⟨h'.tables.trans h.tables, h'.entities.trans h.entities, fun name => ?_,
    fun hn => h'.nodup (h.nodup hn)⟩
  obtain ⟨k, hk, e⟩ := h.sequence name
  obtain ⟨k', hk', e'⟩ := h'.sequence name
  refine ⟨k + k', by omega, ?_⟩
  rw [e', e, Int64.ofNat_add, Int64.add_assoc]

end World.Advanced

namespace Script

variable {α β : Type}

/-- Whether a script passes every failure on and moves no sequence by more than `n` values. -/
def Strict (n : Nat) : Script (Except InvocationError α) → Prop
  | done _ => True
  | call c next => ∃ k ≤ n, (∀ w : World, w.Advanced k (w.serve c).2)
      ∧ (∀ e, ∃ e', next (.error e) = done (.error e')) ∧ ∀ r, (next (.ok r)).Strict (n - k)
  | ifCancelled next => (∃ e, next true = done (.error e)) ∧ (next false).Strict n
  | log _ next => next.Strict n

theorem Strict.mono {s : Script (Except InvocationError α)} {m n : Nat} (h : s.Strict m)
    (hn : m ≤ n) : s.Strict n := by
  induction s generalizing m n with
  | done a => trivial
  | call c next ih =>
    obtain ⟨k, hk, hw, he, hr⟩ := h
    exact ⟨k, Nat.le_trans hk hn, hw, he, fun r => ih _ (hr r) (Nat.sub_le_sub_right hn k)⟩
  | ifCancelled next ih => exact ⟨h.1, ih false h.2 hn⟩
  | log e next ih => exact ih h hn

theorem Strict.bindCont {s : Script (Except InvocationError α)}
    {f : α → Action β} {m n : Nat} (h : s.Strict m) (hf : ∀ a, (f a).run.Strict n) :
    (s.bind (ExceptT.bindCont f)).Strict (m + n) := by
  induction s generalizing m with
  | done r =>
    cases r with
    | error e => trivial
    | ok a => exact (hf a).mono (Nat.le_add_left n m)
  | call c next ih =>
    obtain ⟨k, hk, hw, he, hr⟩ := h
    refine ⟨k, by omega, hw, fun e => ?_, fun r => ?_⟩
    · obtain ⟨e', he'⟩ := he e
      exact ⟨e', by simp only [he', Script.bind, ExceptT.bindCont]; rfl⟩
    · exact (ih _ (hr r)).mono (by omega)
  | ifCancelled next ih =>
    obtain ⟨⟨e, he⟩, h⟩ := h
    exact ⟨⟨e, by simp only [he, Script.bind, ExceptT.bindCont]; rfl⟩, ih false h⟩
  | log e next ih => exact ih h

/-- Where a strict script ends well, nothing went wrong. -/
theorem calm_of_runs {n : Nat} {s : Script (Except InvocationError α)} (hs : s.Strict n)
    {w w' : World} {a : α} (h : s.Runs w (.ok a) w') : s.calm w = (.ok a, w') := by
  generalize hr : Except.ok a = r at h
  induction h generalizing n with
  | done => subst hr; rfl
  | @serve c next w w' r h ih =>
    obtain ⟨k, hk, hw, he, hok⟩ := hs
    rcases hc : (w.serve c).1 with e | v
    · obtain ⟨e', he'⟩ := he e
      rw [hc, he'] at h
      cases h
      cases hr
    · rw [calm]
      exact ih (hc ▸ hok v) hr
  | fail e h ih =>
    obtain ⟨k, hk, hw, he, hok⟩ := hs
    obtain ⟨e', he'⟩ := he e
    rw [he'] at h
    cases h
    cases hr
  | @check next w w' r cancelled h ih =>
    cases cancelled with
    | true =>
      obtain ⟨e, he⟩ := hs.1
      rw [he] at h
      cases h
      cases hr
    | false => exact ih hs.2 hr
  | log h ih => exact ih hs hr

/-- Whatever happens to a strict script, the committed rows stay and the sequences go no further
than it says. -/
theorem advanced_of_runs {n : Nat} {s : Script (Except InvocationError α)} (hs : s.Strict n)
    {w w' : World} {r : Except InvocationError α} (h : s.Runs w r w') : w.Advanced n w' := by
  induction h generalizing n with
  | done => exact .refl
  | @serve c next w w' r h ih =>
    obtain ⟨k, hk, hw, he, hok⟩ := hs
    rcases hc : (w.serve c).1 with e | v
    · obtain ⟨e', he'⟩ := he e
      rw [hc, he'] at h
      cases h
      exact (hw w).mono hk
    · exact ((hw w).trans (ih (hc ▸ hok v))).mono (by omega)
  | fail e h ih =>
    obtain ⟨k, hk, hw, he, hok⟩ := hs
    obtain ⟨e', he'⟩ := he e
    rw [he'] at h
    cases h
    exact .refl
  | @check next w w' r cancelled h ih =>
    cases cancelled with
    | true =>
      obtain ⟨e, he⟩ := hs.1
      rw [he] at h
      cases h
      exact .refl
    | false => exact ih hs.2
  | log h ih => exact ih hs

end Script

namespace Action

variable {α β : Type}

theorem strict_pure (a : α) : (pure a : Action α).run.Strict 0 := trivial

theorem strict_throw (e : InvocationError) : (throw e : Action α).run.Strict 0 := trivial

theorem strict_ofExcept (r : Except InvocationError α) : (ofExcept r).run.Strict 0 := trivial

theorem strict_log (e : LogEvent) : (log e).run.Strict 0 := trivial

theorem strict_failIfCancelled (stage : Stage) : (failIfCancelled stage).run.Strict 0 :=
  ⟨⟨_, rfl⟩, trivial⟩

theorem strict_bind {x : Action α} {f : α → Action β} {m n : Nat} (h : x.run.Strict m)
    (hf : ∀ a, (f a).run.Strict n) : (x >>= f).run.Strict (m + n) :=
  Script.Strict.bindCont h hf

theorem strict_perform {stage : Stage} {c : StoreCall} {n : Nat}
    (h : ∀ w : World, w.Advanced n (w.serve c).2) : (perform stage c).run.Strict n :=
  ⟨n, le_rfl, h, fun _ => ⟨_, rfl⟩, fun _ => trivial⟩

theorem strict_request {stage : Stage} {c : StoreCall} {n : Nat}
    (h : ∀ w : World, w.Advanced n (w.serve c).2) : (request stage c).run.Strict n :=
  (strict_bind (strict_failIfCancelled stage) fun _ => strict_perform h).mono (by omega)

theorem strict_mapM {f : α → Action β} (hf : ∀ a, (f a).run.Strict 0) :
    ∀ as : List α, (as.mapM f).run.Strict 0
  | [] => by simpa using strict_pure _
  | a :: as => by
    rw [List.mapM_cons]
    exact strict_bind (hf a) fun b => strict_bind (strict_mapM hf as) fun bs => strict_pure _

theorem strict_forM {f : α → Action Unit} (hf : ∀ a, (f a).run.Strict 0) :
    ∀ as : List α, (as.forM f).run.Strict 0
  | [] => strict_pure _
  | a :: as => strict_bind (hf a) fun _ => strict_forM hf as

end Action

end LedgerHistory
