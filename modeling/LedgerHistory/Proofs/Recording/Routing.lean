import LedgerHistory.Proofs.Domain.Meaning
import LedgerHistory.Proofs.Invocation.KnownEntities
import LedgerHistory.Proofs.Outcome
import LedgerHistory.Recording

/-!
# Routing

An event can be routed when its type is known and the addresses that a recorded substate mentions are
global. When all events can be, each recorder has visited those of its domain and the addresses that
they need are in the directory (`Routing.calm_routeAll`).
-/

namespace LedgerHistory

namespace Routing

open KnownEntities

variable {r : KnownEntities} {w : World}

/-- Resolving an address demands it, and the entity that the directory then has for it is met. -/
theorem calm_resolve (hr : r.Meets w) (hw : w.working.Addressed) (a : Address) (v : Int64) :
    ∃ e r', (resolve r a v).run.calm w = (.ok (e, r'), w.demand (a, v))
      ∧ r'.Meets (w.demand (a, v)) ∧ (w.demand (a, v)).working.entities.get? a = some e
      ∧ e.address = a ∧ e ∈ r'.order ∧ ∀ x ∈ r.order, x ∈ r'.order := by
  unfold resolve KnownEntities.resolve
  rw [Action.calm_bind_of_ok (Action.calm_failIfCancelled _ _)]
  rcases hf : r.find? a with _ | e
  · obtain ⟨e, he⟩ := World.exists_get?_demand (w := w) (a, v)
    have hserve : w.serve (.resolveEntity a v) = (.ok e, w.demand (a, v)) := by
      rcases ha : w.working.entities.get? a with _ | e'
      · rw [World.serve_resolveEntity_none ha, ← World.demand_of_none ha]
        rw [World.demand_of_none ha] at he
        simp only [World.register, Dictionary.get?_insert, if_true, Option.some.injEq] at he
        rw [he]
      · rw [World.serve_resolveEntity_some ha, World.demand_of_some ha]
        rw [World.demand_of_some ha, ha] at he
        cases he
        rfl
    have hadd : (w.demand (a, v)).working.Addressed := World.addressed_demandAll hw [(a, v)]
    have haddr : e.address = a := hadd.address he
    have hm := hr.demand (a, v)
    have hget : (w.demand (a, v)).working.entities.get? e.address = some e := by rw [haddr]; exact he
    obtain ⟨h₁, h₂⟩ := insert_fst hm hget
    have hcalm : (Action.perform .resolve (.resolveEntity a v)).run.calm w
        = (.ok e, w.demand (a, v)) := by rw [Action.calm_perform, hserve]; rfl
    refine ⟨e, (r.insert e).2, ?_, hm.insert hget, he, haddr, h₂, fun x hx => mem_insert_of_mem hx⟩
    rw [Action.calm_bind_of_ok hcalm]
    show (Except.ok (r.insert e), w.demand (a, v)) = _
    rw [show r.insert e = (e, (r.insert e).2) from Prod.ext h₁ rfl]
  · have hm := List.mem_of_find?_eq_some hf
    have ha : e.address = a := by simpa using List.find?_some hf
    have hget := hr.known hm
    rw [ha] at hget
    rw [World.demand_of_some hget]
    exact ⟨e, r, rfl, hr, hget, ha, hm, fun x hx => hx⟩

theorem calm_resolveAll (hr : r.Meets w) (hw : w.working.Addressed) (v : Int64)
    (as : List Address) : ∃ r', (resolveAll r v as).run.calm w
        = (.ok r', w.demandAll (as.map (·, v)))
      ∧ r'.Meets (w.demandAll (as.map (·, v))) ∧ (∀ x ∈ r.order, x ∈ r'.order)
      ∧ ∀ a ∈ as, ∃ e ∈ r'.order, e.address = a := by
  induction as generalizing r w with
  | nil => exact ⟨r, rfl, hr, fun x hx => hx, fun a ha => absurd ha List.not_mem_nil⟩
  | cons a as ih =>
    obtain ⟨e, r₁, h₁, hr₁, _, ha, hm, hsub⟩ := calm_resolve hr hw a v
    obtain ⟨r', h', hr', hsub', hall⟩ := ih hr₁ (World.addressed_demandAll hw [(a, v)])
    refine ⟨r', ?_, hr', fun x hx => hsub' x (hsub x hx), fun b hb => ?_⟩
    · rw [resolveAll, Action.calm_bind_of_ok h₁]
      exact h'
    · rcases List.mem_cons.1 hb with rfl | hb
      · exact ⟨e, hsub' e hm, ha⟩
      · exact hall b hb

end Routing

/-! ## Visiting -/

/-- Whether an event can be brought to the recorder of its domain, if that is one of those given. -/
def SubstateEvent.IsRoutable (ds : List DomainName) (e : SubstateEvent) : Prop :=
  ∃ d, e.substate.domain? = some d ∧ (d ∈ ds → ∀ a ∈ e.substate.mentions, a.isGlobal)

/-- The addresses that recording an event demands. -/
def demandsOf (ds : List DomainName) (x : Int64 × SubstateEvent) : List Demand :=
  match x.2.substate.domain? with
  | some d => if d ∈ ds then (x.2.entity, x.1) :: x.2.substate.mentions.map (·, x.1) else []
  | none => []

/-- The changes that events mean to a domain with lists. -/
def ListKind.visits (number : Numbering) (k : ListKind) (xs : List (Int64 × SubstateEvent)) :
    List (GroupKey × Meaning k.domain.Change k.domain.Singleton) :=
  xs.filterMap fun x => (k.meaning number x.2.substate).map (⟨number x.2.entity, x.1⟩, ·)

theorem ListKind.mem_visits_iff {number : Numbering} {k : ListKind}
    {xs : List (Int64 × SubstateEvent)} {key : GroupKey}
    {m : Meaning k.domain.Change k.domain.Singleton} : (key, m) ∈ k.visits number xs
      ↔ ∃ y ∈ xs, k.meaning number y.2.substate = some m ∧ key = ⟨number y.2.entity, y.1⟩ := by
  rw [visits, List.mem_filterMap]
  refine exists_congr fun y => and_congr_right fun _ => ?_
  rw [Option.map_eq_some_iff]
  constructor
  · rintro ⟨m', hm, he⟩
    cases he
    exact ⟨hm, rfl⟩
  · rintro ⟨hm, rfl⟩
    exact ⟨m, hm, rfl⟩

/-- The changes that events mean to a domain without lists. -/
def PlainKind.visits (number : Numbering) (k : PlainKind) (xs : List (Int64 × SubstateEvent)) :
    List (Int64 × EntityId × k.domain.Change) :=
  xs.filterMap fun x => (k.domain.meaningOf x.2.substate).map (x.1, number x.2.entity, ·)

/-- The recorder after it has visited changes. -/
def ListRecorder.visit {d : ListDomain} (p : ListRecorder d)
    (xs : List (GroupKey × Meaning d.Change d.Singleton)) : ListRecorder d :=
  { p with
    changes := xs.foldl (fun c x => c.add x.1 x.2) p.changes
    maxStateVersion := xs.foldl (fun m x => raiseVersion m x.1.stateVersion) p.maxStateVersion }

namespace Recorder

/-- The recorder after it has visited the events of its domain. -/
def visit (number : Numbering) (xs : List (Int64 × SubstateEvent)) : Recorder → Recorder
  | .list k p => .list k (p.visit (k.visits number xs))
  | .plain k p => .plain k { p with pending := p.pending ++ k.visits number xs }

variable {number : Numbering}

@[simp] theorem domain_visit (p : Recorder) (xs : List (Int64 × SubstateEvent)) :
    (p.visit number xs).domain = p.domain := by
  cases p <;> rfl

theorem map_domain_visit (number : Numbering) (xs : List (Int64 × SubstateEvent))
    (rs : List Recorder) : (rs.map (·.visit number xs)).map (·.domain) = rs.map (·.domain) := by
  rw [List.map_map]
  exact List.map_congr_left fun p _ => p.domain_visit xs

theorem visit_nil (p : Recorder) : p.visit number [] = p := by
  cases p with
  | list k p => rfl
  | plain k p => simp [visit, PlainKind.visits]

theorem visit_append (p : Recorder) (xs ys : List (Int64 × SubstateEvent)) :
    p.visit number (xs ++ ys) = (p.visit number xs).visit number ys := by
  cases p with
  | list k p => simp [visit, ListKind.visits, ListRecorder.visit, List.filterMap_append]
  | plain k p => simp [visit, PlainKind.visits, List.filterMap_append]

theorem visit_of_ne {p : Recorder} {x : Int64 × SubstateEvent}
    (h : x.2.substate.domain? ≠ some p.domain) : p.visit number [x] = p := by
  cases p with
  | list k p =>
    have hm : k.meaning number x.2.substate = none := by
      rw [← Option.not_isSome_iff_eq_none, ListKind.isSome_meaning]
      exact h
    simp [visit, ListKind.visits, ListRecorder.visit, hm]
  | plain k p =>
    have hm : k.domain.meaningOf x.2.substate = none := by
      rw [← Option.not_isSome_iff_eq_none, PlainKind.isSome_meaningOf]
      exact h
    simp [visit, PlainKind.visits, hm]

theorem addEvent_eq {p : Recorder} {x : Int64 × SubstateEvent} {entity : Entity}
    {known : KnownEntities} (hd : x.2.substate.domain? = some p.domain)
    (he : number x.2.entity = entity.id)
    (hk : ∀ a ∈ x.2.substate.mentions, ∃ e, (known.lookupGlobal a).1 = .ok e ∧ e.id = number a) :
    p.addEvent x.1 entity x.2.substate known = .ok (p.visit number [x]) := by
  cases p with
  | list k p =>
    obtain ⟨m, hm⟩ := Option.isSome_iff_exists.1 ((k.isSome_meaning number).2 hd)
    have hmean := k.meaningOf_eq hk
    rw [hm] at hmean
    simp [addEvent, ListRecorder.addEvent, hmean, visit, ListKind.visits, ListRecorder.visit, hm, he,
      bind, Except.bind, pure, Except.pure, Except.map]
  | plain k p =>
    obtain ⟨c, hc⟩ := Option.isSome_iff_exists.1 (k.isSome_meaningOf.2 hd)
    simp [addEvent, PlainRecorder.addEvent, hc, visit, PlainKind.visits, he, Except.map]

end Recorder

/-! ## All events -/

namespace Routing

open KnownEntities

theorem addEventIn_eq {d : DomainName} {f : Recorder → Except InvocationError Recorder}
    {g : Recorder → Recorder} {rs : List Recorder} (hn : (rs.map (·.domain)).Nodup)
    (hd : d ∈ rs.map (·.domain)) (hf : ∀ p ∈ rs, p.domain = d → f p = .ok (g p))
    (hg : ∀ p ∈ rs, p.domain ≠ d → g p = p) : addEventIn d f rs = .ok (rs.map g) := by
  induction rs with
  | nil => cases hd
  | cons p rs ih =>
    obtain ⟨hp, hn⟩ := List.nodup_cons.1 hn
    by_cases hpd : p.domain = d
    · have hrest : rs.map g = rs := by
        refine (List.map_congr_left fun q hq => ?_).trans (List.map_id rs)
        exact hg q (List.mem_cons_of_mem p hq) fun hqd =>
          hp (List.mem_map.2 ⟨q, hq, hqd.trans hpd.symm⟩)
      simp [addEventIn, hpd, hf p List.mem_cons_self hpd, hrest, Except.map]
    · have hd : d ∈ rs.map (·.domain) := by
        rcases List.mem_cons.1 hd with h | h
        · exact absurd h.symm hpd
        · exact h
      have ih := ih hn hd (fun q hq => hf q (List.mem_cons_of_mem p hq))
        (fun q hq => hg q (List.mem_cons_of_mem p hq))
      simp [addEventIn, hpd, ih, hg p List.mem_cons_self hpd, Except.map]

variable {r : Routing} {w : World}

/-- Bringing one event to its recorder. -/
theorem calm_route (hr : r.known.Meets w) (hw : w.working.Addressed)
    (hd : (r.recorders.map (·.domain)).Nodup) {x : Int64 × SubstateEvent}
    (hx : x.2.IsRoutable (r.recorders.map (·.domain))) (number : Numbering)
    (hn : ∀ {a e}, (w.demandAll (demandsOf (r.recorders.map (·.domain)) x)).working.entities.get? a
      = some e → number a = e.id) :
    ∃ known, (r.route x.1 x.2).run.calm w = (.ok ⟨r.recorders.map (·.visit number [x]), known⟩,
        w.demandAll (demandsOf (r.recorders.map (·.domain)) x))
      ∧ known.Meets (w.demandAll (demandsOf (r.recorders.map (·.domain)) x)) := by
  obtain ⟨d, hdom, hglobal⟩ := hx
  have hany : r.recorders.any (·.domain = d) = true ↔ d ∈ r.recorders.map (·.domain) := by
    simp
  by_cases hmem : d ∈ r.recorders.map (·.domain)
  · have hdem : demandsOf (r.recorders.map (·.domain)) x
        = (x.2.entity, x.1) :: x.2.substate.mentions.map (·, x.1) := by
      simp only [demandsOf, hdom, if_pos hmem]
    rw [hdem] at hn ⊢
    obtain ⟨entity, r₁, h₁, hr₁, hget, _, _, _⟩ := calm_resolve hr hw x.2.entity x.1
    have hw₁ : (w.demand (x.2.entity, x.1)).working.Addressed :=
      World.addressed_demandAll hw [(x.2.entity, x.1)]
    obtain ⟨r₂, h₂, hr₂, _, hmen⟩ := calm_resolveAll hr₁ hw₁ x.1 x.2.substate.mentions
    have hent : number x.2.entity = entity.id := hn (World.get?_demandAll_of_some hget _)
    have hlook : ∀ a ∈ x.2.substate.mentions,
        ∃ e, (r₂.lookupGlobal a).1 = .ok e ∧ e.id = number a := by
      intro a ha
      obtain ⟨e, he, rfl⟩ := hmen a ha
      exact ⟨e, lookupGlobal_eq hr₂ he (hglobal hmem _ ha), (hn (hr₂.known he)).symm⟩
    have hadd : addEventIn d (fun p => p.addEvent x.1 entity x.2.substate r₂) r.recorders
        = .ok (r.recorders.map (·.visit number [x])) := by
      refine addEventIn_eq hd hmem (fun p _ hp => ?_) (fun p _ hp => ?_)
      · exact Recorder.addEvent_eq (by rw [hdom, hp]) hent hlook
      · exact Recorder.visit_of_ne (by rw [hdom]; simpa using Ne.symm hp)
    refine ⟨r₂, ?_, hr₂⟩
    simp only [route, hdom, hany.2 hmem, if_true]
    rw [Action.calm_bind_of_ok h₁, Action.calm_bind_of_ok h₂, hadd]
    rfl
  · have hdem : demandsOf (r.recorders.map (·.domain)) x = [] := by
      simp only [demandsOf, hdom, if_neg hmem]
    rw [hdem] at hn ⊢
    refine ⟨r.known, ?_, hr⟩
    simp only [route, hdom, mt hany.1 hmem]
    have hsame : r.recorders.map (·.visit number [x]) = r.recorders := by
      refine (List.map_congr_left fun p hp => ?_).trans (List.map_id _)
      refine Recorder.visit_of_ne fun e => hmem ?_
      rw [hdom] at e
      cases e
      exact List.mem_map_of_mem hp
    rw [hsame]
    rfl

/-- When all events can be routed, each recorder has visited those of its domain. -/
theorem calm_routeAll (hr : r.known.Meets w) (hw : w.working.Addressed)
    (hd : (r.recorders.map (·.domain)).Nodup) {xs : List (Int64 × SubstateEvent)}
    (hx : ∀ x ∈ xs, x.2.IsRoutable (r.recorders.map (·.domain))) (number : Numbering)
    (hn : ∀ {a e}, (w.demandAll (xs.flatMap (demandsOf (r.recorders.map (·.domain))))).working.entities.get? a
      = some e → number a = e.id) :
    ∃ known, (routeAll r xs).run.calm w = (.ok ⟨r.recorders.map (·.visit number xs), known⟩,
      w.demandAll (xs.flatMap (demandsOf (r.recorders.map (·.domain))))) := by
  induction xs generalizing r w with
  | nil =>
    refine ⟨r.known, ?_⟩
    have hsame : r.recorders.map (·.visit number []) = r.recorders :=
      (List.map_congr_left fun p _ => p.visit_nil).trans (List.map_id _)
    rw [hsame]
    rfl
  | cons x xs ih =>
    have hsplit : w.demandAll ((x :: xs).flatMap (demandsOf (r.recorders.map (·.domain))))
        = (w.demandAll (demandsOf (r.recorders.map (·.domain)) x)).demandAll
          (xs.flatMap (demandsOf (r.recorders.map (·.domain)))) := by
      simp [World.demandAll, List.foldl_append]
    rw [hsplit] at hn ⊢
    obtain ⟨known, h₁, hk⟩ := calm_route hr hw hd (hx x List.mem_cons_self) number
      fun he => hn (World.get?_demandAll_of_some he _)
    have hdom := Recorder.map_domain_visit number [x] r.recorders
    obtain ⟨known', h'⟩ := ih (r := ⟨r.recorders.map (·.visit number [x]), known⟩) hk
      (World.addressed_demandAll hw _) (by rw [hdom]; exact hd)
      (fun y hy => by rw [hdom]; exact hx y (List.mem_cons_of_mem x hy)) (by rw [hdom]; exact hn)
    refine ⟨known', ?_⟩
    rw [routeAll, Action.calm_bind_of_ok h₁, h', hdom, List.map_map]
    congr 3
    exact List.map_congr_left fun p _ => (p.visit_append [x] xs).symm

def numbering (w : World) : Numbering := fun a =>
  ((w.working.entities.get? a).map (·.id)).getD default

theorem numbering_of_get? {a : Address} {e : Entity} (h : w.working.entities.get? a = some e) :
    numbering w a = e.id := by
  simp [numbering, h]

end Routing

end LedgerHistory
