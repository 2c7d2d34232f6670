import Mathlib.Data.List.Forall2

/-!
# Outcomes

What it takes for a composed computation that may fail to end well.
-/

namespace LedgerHistory

variable {ε ε' α β : Type}

theorem bind_eq_ok {x : Except ε α} {f : α → Except ε β} {b : β} :
    (x >>= f) = .ok b ↔ ∃ a, x = .ok a ∧ f a = .ok b := by
  cases x with
  | error e => simp [bind, Except.bind]
  | ok a => simp [bind, Except.bind]

theorem bind_eq_error {x : Except ε α} {f : α → Except ε β} {e : ε} :
    (x >>= f) = .error e ↔ x = .error e ∨ ∃ a, x = .ok a ∧ f a = .error e := by
  cases x with
  | error e' => simp [bind, Except.bind]
  | ok a => simp [bind, Except.bind]

theorem map_eq_ok {x : Except ε α} {f : α → β} {b : β} :
    x.map f = .ok b ↔ ∃ a, x = .ok a ∧ f a = b := by
  cases x <;> simp [Except.map]

theorem mapError_eq_ok {g : ε → ε'} {outcome : Except ε α} {a : α} :
    outcome.mapError g = .ok a ↔ outcome = .ok a := by
  rcases outcome with e | b
  · exact ⟨nofun, nofun⟩
  · simp [Except.mapError]

theorem ite_error_eq_ok {c : Prop} [Decidable c] {e : ε} {x : Except ε α} {a : α} :
    (if c then .error e else x) = .ok a ↔ ¬c ∧ x = .ok a := by
  by_cases h : c <;> simp [h]

theorem toOption_bind (x : Except ε α) (f : α → Except ε β) :
    (x >>= f).toOption = x.toOption.bind fun a => (f a).toOption := by
  cases x <;> rfl

theorem toOption_map (f : α → β) (x : Except ε α) : (x.map f).toOption = x.toOption.map f := by
  cases x <;> rfl

theorem toOption_mapError (f : ε → ε') (x : Except ε α) :
    (x.mapError f).toOption = x.toOption := by
  cases x <;> rfl

theorem toOption_eq_some {x : Except ε α} {a : α} : x.toOption = some a ↔ x = .ok a := by
  cases x <;> simp [Except.toOption]

theorem mapM_eq_ok {f : α → Except ε β} {as : List α} {bs : List β} :
    as.mapM f = .ok bs ↔ List.Forall₂ (fun a b => f a = .ok b) as bs := by
  induction as generalizing bs with
  | nil => cases bs <;> simp [pure, Except.pure]
  | cons a as ih =>
    rw [List.mapM_cons, bind_eq_ok]
    constructor
    · rintro ⟨b, hb, h⟩
      obtain ⟨bs', hbs, h⟩ := bind_eq_ok.1 h
      cases h
      exact .cons hb (ih.1 hbs)
    · rintro (_ | ⟨hb, hbs⟩)
      exact ⟨_, hb, bind_eq_ok.2 ⟨_, ih.2 hbs, rfl⟩⟩

/-- What fails first is the error. -/
theorem mapM_eq_error {f : α → Except ε β} {as : List α} {e : ε} :
    as.mapM f = .error e ↔ ∃ a, as.find? (fun a => !(f a).isOk) = some a ∧ f a = .error e := by
  induction as with
  | nil => exact ⟨nofun, nofun⟩
  | cons a as ih =>
    rw [List.mapM_cons, bind_eq_error]
    rcases ha : f a with e' | b
    · simp [Except.isOk, Except.toBool, ha]
    · have hfind : (a :: as).find? (fun a => !(f a).isOk) = as.find? (fun a => !(f a).isOk) := by
        simp [Except.isOk, Except.toBool, ha]
      rw [hfind, ← ih]
      constructor
      · rintro (h | ⟨b', -, h⟩)
        · cases h
        · rcases bind_eq_error.1 h with h | ⟨bs, -, h⟩
          · exact h
          · cases h
      · exact fun h => .inr ⟨b, rfl, bind_eq_error.2 (.inl h)⟩

theorem exists_eq_error_of_mapM {f : α → Except ε β} {as : List α} {e : ε}
    (h : as.mapM f = .error e) : ∃ a ∈ as, f a = .error e := by
  obtain ⟨a, hfind, ha⟩ := mapM_eq_error.1 h
  exact ⟨a, List.mem_of_find?_eq_some hfind, ha⟩

theorem forM_eq_ok {f : α → Except ε Unit} {as : List α} :
    as.forM f = .ok () ↔ ∀ a ∈ as, f a = .ok () := by
  induction as with
  | nil => exact ⟨nofun, fun _ => rfl⟩
  | cons a as ih =>
    show (f a >>= fun _ => as.forM f) = .ok () ↔ _
    rw [bind_eq_ok, List.forall_mem_cons, ← ih]
    exact ⟨fun ⟨_, ha, has⟩ => ⟨ha, has⟩, fun ⟨ha, has⟩ => ⟨(), ha, has⟩⟩

theorem exists_eq_error_of_forM {f : α → Except ε Unit} {as : List α} {e : ε}
    (h : as.forM f = .error e) : ∃ a ∈ as, f a = .error e := by
  induction as with
  | nil => cases h
  | cons a as ih =>
    obtain ha | ⟨_, -, has⟩ := bind_eq_error.1 (show (f a >>= fun _ => as.forM f) = .error e from h)
    · exact ⟨a, List.mem_cons_self, ha⟩
    · obtain ⟨a', ha', he⟩ := ih has
      exact ⟨a', List.mem_cons_of_mem a ha', he⟩

theorem mapM_option_eq_some {f : α → Option β} {as : List α} {bs : List β} :
    as.mapM f = some bs ↔ List.Forall₂ (fun a b => f a = some b) as bs := by
  induction as generalizing bs with
  | nil => cases bs <;> simp
  | cons a as ih =>
    rw [List.mapM_cons, Option.bind_eq_bind, Option.bind_eq_some_iff]
    constructor
    · rintro ⟨b, hb, h⟩
      obtain ⟨bs', hbs, h⟩ := Option.bind_eq_some_iff.1 h
      cases h
      exact .cons hb (ih.1 hbs)
    · rintro (_ | ⟨hb, hbs⟩)
      exact ⟨_, hb, Option.bind_eq_some_iff.2 ⟨_, ih.2 hbs, rfl⟩⟩

/-- What stands on the right of a pointwise relation has a partner on the left. -/
theorem exists_of_forall₂ {R : α → β → Prop} {as : List α} {bs : List β}
    (h : List.Forall₂ R as bs) {b : β} (hb : b ∈ bs) : ∃ a ∈ as, R a b := by
  induction h with
  | nil => cases hb
  | @cons a _ as _ hab _ ih =>
    rcases List.mem_cons.1 hb with rfl | hb
    · exact ⟨a, List.mem_cons_self, hab⟩
    · obtain ⟨a', ha', h⟩ := ih hb
      exact ⟨a', List.mem_cons_of_mem a ha', h⟩

/-- What stands in the middle on the right has its partner at the same place on the left. -/
theorem exists_split_of_forall₂ {R : α → β → Prop} {as : List α} {older newer : List β} {b : β}
    (h : List.Forall₂ R as (older ++ b :: newer)) :
    ∃ xs a ys, as = xs ++ a :: ys ∧ xs.length = older.length ∧ List.Forall₂ R xs older ∧ R a b
      ∧ List.Forall₂ R ys newer := by
  have holder := List.forall₂_take_append _ _ _ h
  obtain ⟨a, ys, ha, hnewer, hdrop⟩ :=
    List.forall₂_cons_right_iff.1 (List.forall₂_drop_append _ _ _ h)
  refine ⟨_, a, ys, ?_, holder.length_eq, holder, ha, hnewer⟩
  rw [← hdrop, List.take_append_drop]

theorem map_eq_map_of_forall₂ {γ : Type} {f : α → γ} {f' : β → γ} {xs : List α} {ys : List β}
    (h : List.Forall₂ (fun x y => f x = f' y) xs ys) : xs.map f = ys.map f' := by
  induction h with
  | nil => rfl
  | cons hxy _ ih => rw [List.map_cons, List.map_cons, hxy, ih]

/-- Outcomes in order are related to what they are of when each is. -/
theorem forall₂_iff_of_outcomes {f : α → Except ε β} {R : α → β → Prop} {as : List α} {bs : List β}
    (h : List.Forall₂ (fun a b => f a = .ok b) as bs) :
    List.Forall₂ R as bs ↔ ∀ a ∈ as, ∀ b, f a = .ok b → R a b := by
  induction h with
  | nil => simp
  | cons hab _ ih =>
    rw [List.forall₂_cons, ih, List.forall_mem_cons]
    refine and_congr_left fun _ => ⟨fun hr b hb => ?_, fun hr => hr _ hab⟩
    rw [hab] at hb
    cases hb
    exact hr

/-- What is related pointwise stands in its list. -/
theorem forall₂_mem {R : α → β → Prop} {as : List α} {bs : List β} (h : List.Forall₂ R as bs) :
    List.Forall₂ (fun a b => a ∈ as ∧ b ∈ bs ∧ R a b) as bs := by
  induction h with
  | nil => exact .nil
  | cons hab _ ih =>
    refine .cons ⟨List.mem_cons_self, List.mem_cons_self, hab⟩ (ih.imp fun a b h => ?_)
    exact ⟨List.mem_cons_of_mem _ h.1, List.mem_cons_of_mem _ h.2.1, h.2.2⟩

end LedgerHistory
