import LedgerHistory.Aggregate.Pass

/-!
# Steps of a pass

What a step of a pass answers and leaves (`PassStep.exec`), the properties of a pass that a step keeps,
whether it fails or not (`PassStep.Keeps`), and what a whole pass comes to by its steps
(`Pass.run_of_exec_ok`, `Pass.run_of_exec_error`).
-/

namespace LedgerHistory

variable {d : ListDomain} {α β : Type}

/-- What a step answers on a pass, and the pass that it leaves. -/
def PassStep.exec (x : PassStep d α) (p : Pass d) : Except InvocationError α × Pass d := x.run.run p

namespace PassStep

theorem exec_get (p : Pass d) : (get : PassStep d (Pass d)).exec p = (.ok p, p) := rfl

theorem exec_modify (f : Pass d → Pass d) (p : Pass d) :
    (modify f : PassStep d Unit).exec p = (.ok (), f p) := rfl

theorem exec_bind (x : PassStep d α) (f : α → PassStep d β) (p : Pass d) :
    (x >>= f).exec p = match x.exec p with
      | (.ok a, p) => (f a).exec p
      | (.error e, p) => (.error e, p) := by
  simp only [PassStep.exec, ExceptT.run_bind, StateT.run_bind]
  rcases h : x.run.run p with ⟨e | a, p'⟩ <;> rfl

theorem exec_bind_of_ok {x : PassStep d α} {f : α → PassStep d β} {p p' : Pass d} {a : α}
    (h : x.exec p = (.ok a, p')) : (x >>= f).exec p = (f a).exec p' := by
  rw [exec_bind, h]

theorem exec_bind_of_error {x : PassStep d α} {f : α → PassStep d β} {p p' : Pass d}
    {e : InvocationError} (h : x.exec p = (.error e, p')) : (x >>= f).exec p = (.error e, p') := by
  rw [exec_bind, h]

theorem fst_exec_bind_of_error {x : PassStep d α} {f : α → PassStep d β} {p : Pass d}
    {e : InvocationError} (h : (x.exec p).1 = .error e) : ((x >>= f).exec p).1 = .error e := by
  rw [exec_bind]
  rcases hx : x.exec p with ⟨r, p'⟩
  rw [hx] at h
  cases h
  rfl

theorem exec_bind_eq_ok {x : PassStep d α} {f : α → PassStep d β} {p p' : Pass d} {b : β}
    (h : (x >>= f).exec p = (.ok b, p')) :
    ∃ a p₁, x.exec p = (.ok a, p₁) ∧ (f a).exec p₁ = (.ok b, p') := by
  rw [exec_bind] at h
  rcases hx : x.exec p with ⟨e | a, p₁⟩ <;> rw [hx] at h
  · cases h
  · exact ⟨a, p₁, rfl, h⟩

/-! ## Properties that steps keep -/

/-- Whether a step keeps a property of the pass. -/
def Keeps (I : Pass d → Prop) (x : PassStep d α) : Prop := ∀ p, I p → I (x.exec p).2

variable {I : Pass d → Prop}

theorem keeps_pure (a : α) : Keeps I (pure a : PassStep d α) := fun _ h => h

theorem keeps_throw (e : InvocationError) : Keeps I (throw e : PassStep d α) := fun _ h => h

theorem keeps_bind {x : PassStep d α} {f : α → PassStep d β} (hx : Keeps I x)
    (hf : ∀ a, Keeps I (f a)) : Keeps I (x >>= f) := by
  intro p h
  have hp := hx p h
  rw [exec_bind]
  rcases he : x.exec p with ⟨e | a, p'⟩ <;> rw [he] at hp
  · exact hp
  · exact hf a p' hp

theorem keeps_forM {f : α → PassStep d Unit} :
    ∀ {as : List α}, (∀ a ∈ as, Keeps I (f a)) → Keeps I (as.forM f)
  | [], _ => keeps_pure ()
  | a :: _, hf => keeps_bind (hf a List.mem_cons_self) fun _ =>
      keeps_forM fun b hb => hf b (List.mem_cons_of_mem a hb)

end PassStep

/-! ## Whole passes -/

namespace Pass

variable {changes : GroupedChanges d} {prior : LatestRows d} {a : Allocator} {p : Pass d}
  {R : NewRows d}

theorem run_of_exec_ok (h : (recordGroups changes.toList).exec ⟨prior, a, {}⟩ = (.ok (), p)) :
    run changes prior a = ⟨.ok p.rows, p.prior.settle p.rows.aggregates, p.allocator⟩ := by
  unfold run
  unfold PassStep.exec at h
  rw [h]

theorem run_of_exec_error {e : InvocationError}
    (h : (recordGroups changes.toList).exec ⟨prior, a, {}⟩ = (.error e, p)) :
    run changes prior a = ⟨.error e, p.prior, p.allocator⟩ := by
  unfold run
  unfold PassStep.exec at h
  rw [h]

theorem exec_of_run_eq_ok (h : (run changes prior a).result = .ok R) :
    ∃ p, (recordGroups changes.toList).exec ⟨prior, a, {}⟩ = (.ok (), p) ∧ p.rows = R := by
  rcases hx : (recordGroups changes.toList).exec ⟨prior, a, {}⟩ with ⟨e | ⟨⟩, p⟩
  · rw [run_of_exec_error hx] at h
    cases h
  · rw [run_of_exec_ok hx] at h
    cases h
    exact ⟨p, rfl, rfl⟩

end Pass

end LedgerHistory
