import LedgerHistory.Proofs.Recording.Routing

/-!
# Events that are refused

An event cannot be routed when its type is unknown, or when a domain that records it finds an
internal address among those mentioned (`refusal?`). Routing fails at the first such event, with an
error that depends on this event alone (`Routing.calm_routeAll_of_refusal`), and at no other
(`Routing.routable_of_routeAll`).
-/

namespace LedgerHistory

/-- The first of the addresses that a substate mentions that is not global. -/
def Substate.internalMention? (s : Substate) : Option Address := s.mentions.find? (!·.isGlobal)

/-- Why an event cannot be routed, if it cannot. -/
def refusal? (ds : List DomainName) (y : Int64 × SubstateEvent) : Option InvocationError :=
  match y.2.substate.domain? with
  | none => some (.unsupportedShape none y.2.entity y.1 y.2.substate.typeName)
  | some d =>
    if d ∈ ds then y.2.substate.internalMention?.map fun a => .notFound (.globalAddress a) else none

section Events

variable {ds : List DomainName} {y : Int64 × SubstateEvent} {e : InvocationError}

theorem Substate.internalMention?_eq_none_iff {s : Substate} :
    s.internalMention? = none ↔ ∀ a ∈ s.mentions, a.isGlobal := by
  simp [internalMention?]

theorem refusal?_eq_none_iff : refusal? ds y = none ↔ y.2.IsRoutable ds := by
  unfold refusal? SubstateEvent.IsRoutable
  rcases y.2.substate.domain? with _ | d
  · simp
  · by_cases hd : d ∈ ds
    · simp [hd, Substate.internalMention?_eq_none_iff]
    · simp [hd]

/-- An event that is refused is of an unknown type, or of a recorded domain with an internal
address. -/
theorem refusal?_eq_some (h : refusal? ds y = some e) :
    y.2.substate.domain? = none ∧ e = .unsupportedShape none y.2.entity y.1 y.2.substate.typeName
      ∨ ∃ d a, y.2.substate.domain? = some d ∧ d ∈ ds ∧ a ∈ y.2.substate.mentions ∧ ¬a.isGlobal
        ∧ e = .notFound (.globalAddress a) := by
  unfold refusal? at h
  rcases hd : y.2.substate.domain? with _ | d <;> rw [hd] at h
  · cases h
    exact .inl ⟨rfl, rfl⟩
  · right
    simp only at h
    split at h
    · rename_i hm
      obtain ⟨a, ha, rfl⟩ := Option.map_eq_some_iff.1 h
      exact ⟨d, a, rfl, hm, List.mem_of_find?_eq_some ha, by simpa using List.find?_some ha, rfl⟩
    · cases h

end Events

namespace Recorder

theorem addEvent_eq_error {p : Recorder} {v : Int64} {entity : Entity} {s : Substate}
    {known : KnownEntities} {a : Address} {e : InvocationError}
    (hd : s.domain? = some p.domain) (ha : a ∈ s.mentions)
    (h : (known.lookupGlobal a).1 = .error e) : p.addEvent v entity s known = .error e := by
  cases p with
  | list k p =>
    simp [addEvent, ListRecorder.addEvent, ListKind.meaningOf_eq_error hd ha h, bind, Except.bind,
      Except.map]
  | plain k p =>
    cases s <;> simp only [Substate.mentions, List.not_mem_nil] at ha
    all_goals cases k <;> cases hd

end Recorder

namespace Routing

theorem addEventIn_eq_error {d : DomainName} {f : Recorder → Except InvocationError Recorder}
    {rs : List Recorder} {e : InvocationError} (hd : d ∈ rs.map (·.domain))
    (hf : ∀ p ∈ rs, p.domain = d → f p = .error e) : addEventIn d f rs = .error e := by
  induction rs with
  | nil => cases hd
  | cons p rs ih =>
    by_cases hp : p.domain = d
    · rw [addEventIn, if_pos hp, hf p List.mem_cons_self hp]
      rfl
    · have hd : d ∈ rs.map (·.domain) := (List.mem_cons.1 hd).resolve_left (Ne.symm hp)
      rw [addEventIn, if_neg hp, ih hd fun q hq => hf q (List.mem_cons_of_mem p hq)]
      rfl

variable {r : Routing} {w : World} {e : InvocationError}

/-- Bringing an event that is refused to its recorder fails. -/
theorem calm_route_of_refusal (hr : r.known.Meets w) (hw : w.working.Addressed)
    {x : Int64 × SubstateEvent} (hx : refusal? (r.recorders.map (·.domain)) x = some e) :
    ∃ w', (r.route x.1 x.2).run.calm w = (.error e, w') := by
  rcases refusal?_eq_some hx with ⟨hdom, rfl⟩ | ⟨d, a, hdom, hmem, ha, hglobal, rfl⟩
  · refine ⟨w, ?_⟩
    simp only [route, hdom]
    rfl
  · have hany : r.recorders.any (·.domain = d) = true := by simpa using hmem
    obtain ⟨entity, r₁, h₁, hr₁, _⟩ := calm_resolve hr hw x.2.entity x.1
    obtain ⟨r₂, h₂, hr₂, _⟩ := calm_resolveAll hr₁
      (World.addressed_demandAll hw [(x.2.entity, x.1)]) x.1 x.2.substate.mentions
    have hadd : addEventIn d (fun p => p.addEvent x.1 entity x.2.substate r₂) r.recorders
        = .error (.notFound (.globalAddress a)) :=
      addEventIn_eq_error hmem fun p _ hp => Recorder.addEvent_eq_error (by rw [hdom, hp]) ha
        (KnownEntities.lookupGlobal_of_not_isGlobal hr₂.index hglobal)
    refine ⟨(w.demand (x.2.entity, x.1)).demandAll (x.2.substate.mentions.map (·, x.1)), ?_⟩
    simp only [route, hdom, hany, if_true]
    rw [Action.calm_bind_of_ok h₁, Action.calm_bind_of_ok h₂, hadd]
    exact Action.calm_bind_of_error (Action.calm_ofExcept ..)

/-- Routing fails as the first event that is refused. -/
theorem calm_routeAll_of_refusal (hr : r.known.Meets w) (hw : w.working.Addressed)
    (hd : (r.recorders.map (·.domain)).Nodup) {xs : List (Int64 × SubstateEvent)}
    (hx : xs.findSome? (refusal? (r.recorders.map (·.domain))) = some e) :
    ∃ w', (routeAll r xs).run.calm w = (.error e, w') := by
  induction xs generalizing r w with
  | nil => cases hx
  | cons x xs ih =>
    rw [List.findSome?_cons] at hx
    rcases hrefusal : refusal? (r.recorders.map (·.domain)) x with _ | e' <;> rw [hrefusal] at hx
    · have hroutable := refusal?_eq_none_iff.1 hrefusal
      obtain ⟨known, h₁, hk⟩ := calm_route hr hw hd hroutable _ (numbering_of_get? (w := w.demandAll _))
      have hdom := fun number => Recorder.map_domain_visit number [x] r.recorders
      obtain ⟨w', h'⟩ := ih (r := ⟨_, known⟩) hk (World.addressed_demandAll hw _)
        ((hdom _).symm ▸ hd) ((hdom _).symm ▸ hx)
      refine ⟨w', ?_⟩
      rw [routeAll, Action.calm_bind_of_ok h₁]
      exact h'
    · cases hx
      obtain ⟨w', h'⟩ := calm_route_of_refusal hr hw hrefusal
      exact ⟨w', by rw [routeAll, Action.calm_bind_of_error h']⟩

/-- Where routing ends well all events can be routed. -/
theorem routable_of_routeAll (hr : r.known.Meets w) (hw : w.working.Addressed)
    (hd : (r.recorders.map (·.domain)).Nodup) {xs : List (Int64 × SubstateEvent)} {r' : Routing}
    {w' : World} (h : (routeAll r xs).run.calm w = (.ok r', w')) :
    ∀ x ∈ xs, x.2.IsRoutable (r.recorders.map (·.domain)) := by
  rcases hx : xs.findSome? (refusal? (r.recorders.map (·.domain))) with _ | e
  · exact fun x hm => refusal?_eq_none_iff.1 (List.findSome?_eq_none_iff.1 hx x hm)
  · obtain ⟨w₁, he⟩ := calm_routeAll_of_refusal hr hw hd hx
    rw [h] at he
    cases he

end Routing

end LedgerHistory
