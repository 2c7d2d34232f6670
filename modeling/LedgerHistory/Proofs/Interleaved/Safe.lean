import LedgerHistory.Proofs.Interleaved.Tidy

/-!
# Safe scripts

Between the calls of a script others may act on the committed state: it stays tidy and its sequences
do not go back (`Snapshot.Behind`). A script is safe if all calls that it comes to make are permitted,
whatever the others do and whichever calls fail, and it ends with a property of its result and its
world (`Script.Safe`). Safe actions go one after another (`Action.safe_bind`).
-/

namespace LedgerHistory

/-- Whether a property of the world outlasts what others do. -/
def World.Lasting (I : World → Prop) : Prop :=
  ∀ {w : World} {s : Snapshot}, w.committed.Behind s → I w → I ⟨s, w.working⟩

namespace Script

variable {α β : Type}

/-- Whether every call of a script is permitted, and its result has a property, whatever others do in
between. -/
def Safe (Q : α → World → Prop) : Script α → World → Prop
  | .done a, w => Q a w
  | .call c next, w => ∀ s : Snapshot, s.IsTidy → w.committed.Behind s →
    ((World.mk s w.working).HasRoom c → (World.mk s w.working).Permits c
      ∧ (next ((World.mk s w.working).serve c).1).Safe Q ((World.mk s w.working).serve c).2)
    ∧ ∀ e, (next (.error e)).Safe Q ⟨s, w.working⟩
  | .ifCancelled next, w => ∀ b, (next b).Safe Q w
  | .log _ next, w => next.Safe Q w

variable {Q Q' : α → World → Prop} {w : World}

theorem Safe.imp {script : Script α} (h : script.Safe Q w) (hq : ∀ a w, Q a w → Q' a w) :
    script.Safe Q' w := by
  induction script generalizing w with
  | done a => exact hq a w h
  | call c next ih =>
    intro s hs hb
    obtain ⟨hok, hfail⟩ := h s hs hb
    refine ⟨fun hroom => ?_, fun e => ih _ (hfail e)⟩
    exact ⟨(hok hroom).1, ih _ (hok hroom).2⟩
  | ifCancelled next ih => exact fun b => ih b (h b)
  | log e next ih => exact ih h

theorem safe_bind {script : Script α} {f : α → Script β} {Q : β → World → Prop}
    (h : script.Safe (fun a => (f a).Safe Q) w) : (script.bind f).Safe Q w := by
  induction script generalizing w with
  | done a => exact h
  | call c next ih =>
    intro s hs hb
    obtain ⟨hok, hfail⟩ := h s hs hb
    refine ⟨fun hroom => ?_, fun e => ih _ (hfail e)⟩
    exact ⟨(hok hroom).1, ih _ (hok hroom).2⟩
  | ifCancelled next ih => exact fun b => ih b (h b)
  | log e next ih => exact ih h

/-- What others do leaves a script safe of which nothing is asked in the end. -/
theorem Safe.of_behind {script : Script α} (h : script.Safe (fun _ _ => True) w) {s : Snapshot}
    (hb : w.committed.Behind s) : script.Safe (fun _ _ => True) ⟨s, w.working⟩ := by
  induction script with
  | done a => trivial
  | call c next _ => exact fun s' hs' hb' => h s' hs' (hb.trans hb')
  | ifCancelled next ih => exact fun b => ih b (h b)
  | log e next ih => exact ih h

end Script

namespace Action

variable {α β : Type} {w : World} {P : α → World → Prop}

/-- Whether every call of an action is permitted, and its result has a property if it succeeds. -/
def Safe (P : α → World → Prop) (x : Action α) (w : World) : Prop :=
  x.run.Safe (fun r w => ∀ a, r = .ok a → P a w) w

theorem Safe.imp {P' : α → World → Prop} {x : Action α} (h : x.Safe P w)
    (hp : ∀ a w, P a w → P' a w) : x.Safe P' w :=
  Script.Safe.imp h fun _ w hr a ha => hp a w (hr a ha)

theorem safe_pure {a : α} (h : P a w) : (pure a : Action α).Safe P w := by
  intro a' ha
  cases ha
  exact h

theorem safe_ofExcept {r : Except InvocationError α} (h : ∀ a, r = .ok a → P a w) :
    (ofExcept r).Safe P w := h

theorem safe_throw (e : InvocationError) : (throw e : Action α).Safe P w := by
  intro a ha
  cases ha

theorem safe_log {P : Unit → World → Prop} (e : LogEvent) (h : P () w) : (log e).Safe P w :=
  fun _ _ => h

theorem safe_failIfCancelled {P : Unit → World → Prop} (stage : Stage) (h : P () w) :
    (failIfCancelled stage).Safe P w :=
  fun _ _ _ => h

theorem safe_bind {x : Action α} {f : α → Action β} {P : β → World → Prop}
    (h : x.Safe (fun a => (f a).Safe P) w) : (x >>= f).Safe P w := by
  refine Script.safe_bind (Script.Safe.imp h fun r w hr => ?_)
  rcases r with e | a
  · exact safe_throw e
  · exact hr a rfl

/-- A call is safe if it is permitted whatever others have done, and leads to what is asked. -/
theorem safe_perform {stage : Stage} {c : StoreCall} {P : c.Reply → World → Prop}
    (h : ∀ s : Snapshot, s.IsTidy → w.committed.Behind s → (World.mk s w.working).HasRoom c →
      (World.mk s w.working).Permits c ∧ ∀ r, ((World.mk s w.working).serve c).1 = .ok r →
        P r ((World.mk s w.working).serve c).2) : (perform stage c).Safe P w := by
  intro s hs hb
  refine ⟨fun hroom => ?_, fun e a ha => by cases ha⟩
  obtain ⟨hp, hr⟩ := h s hs hb hroom
  refine ⟨hp, fun a ha => ?_⟩
  rcases hc : ((World.mk s w.working).serve c).1 with e | r
  · rw [hc] at ha
    cases ha
  · rw [hc] at ha
    cases ha
    exact hr a hc

theorem safe_request {stage : Stage} {c : StoreCall} {P : c.Reply → World → Prop}
    (h : ∀ s : Snapshot, s.IsTidy → w.committed.Behind s → (World.mk s w.working).HasRoom c →
      (World.mk s w.working).Permits c ∧ ∀ r, ((World.mk s w.working).serve c).1 = .ok r →
        P r ((World.mk s w.working).serve c).2) : (request stage c).Safe P w :=
  safe_bind (safe_failIfCancelled stage (safe_perform h))

/-- An action on each element of a list keeps a property of the world, and its results have
another. -/
theorem safe_mapM {I : World → Prop} {R : β → α → Prop} {f : β → Action α} {as : List β}
    (h : ∀ a ∈ as, ∀ w, I w → (f a).Safe (fun b w => I w ∧ R a b) w) (hw : I w) :
    (as.mapM f).Safe (fun bs w => I w ∧ List.Forall₂ R as bs) w := by
  induction as generalizing w with
  | nil => exact safe_pure ⟨hw, .nil⟩
  | cons a as ih =>
    rw [List.mapM_cons]
    refine safe_bind ((h a List.mem_cons_self w hw).imp fun b w hb => ?_)
    refine safe_bind ((ih (fun a' ha => h a' (List.mem_cons_of_mem a ha)) hb.1).imp fun bs w hbs => ?_)
    exact safe_pure ⟨hbs.1, .cons hb.2 hbs.2⟩

theorem safe_forM {f : β → Action Unit} {as : List β} {P : Unit → World → Prop}
    (h : ∀ a ∈ as, ∀ w, P () w → (f a).Safe P w) (hw : P () w) : (as.forM f).Safe P w := by
  induction as generalizing w with
  | nil => exact safe_pure hw
  | cons a as ih =>
    exact safe_bind ((h a List.mem_cons_self w hw).imp fun _ w hp =>
      ih (fun a' ha => h a' (List.mem_cons_of_mem a ha)) hp)

end Action

end LedgerHistory
