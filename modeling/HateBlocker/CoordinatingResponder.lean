-- The route of an event: `coordinatingResponder` leads from a view to its
-- controller, and from a controller to its coordinator, its parent or the view
-- that its own view lies in. An embedding container moves these links one by one.
import HateBlocker.ContainerController
import HateBlocker.Hops
import Mathlib.Logic.Relation

open UIKit Runs Hops

namespace HateBlocker

/-! ## Responders -/

inductive Responder (C : Type)
  | controller (c : C)
  | view (v : View C)
  deriving DecidableEq

/-- The containers and the links of `Injectable`. -/
structure Scene (C : Type) extends State C where
  parentController : C → Option C
  childControllers : C → List C

variable {C : Type}

/-- `next` of a view. -/
def viewNext : View C → Responder C
  | .root c => .controller c
  | .sub v _ => .view v

/-- `coordinatingResponder`, with the override of controllers. -/
def coordinatingResponder (s : Scene C) : Responder C → Option (Responder C)
  | .view v => some (viewNext v)
  | .controller c =>
    match s.parentController c with
    | some p => some (.controller p)
    | none =>
      match s.parent c with
      | some p => some (.controller p)
      | none => (s.superview c).map .view

/-- `didTapOnAddPost` and `didCreatePost`: a responder that does not override the method passes
the call on to its `coordinatingResponder`. The result is the responder that takes the call. -/
def sendEvent (s : Scene C) (overrides : Responder C → Bool) (fuel : ℕ) (sender : Responder C) :
    Option (Responder C) :=
  receiver (coordinatingResponder s) overrides fuel sender

/-- `addChildController` of the container `self`. -/
def addChildController [DecidableEq C] (s : Scene C) (self controller : C) : Scene C :=
  { s with
    childControllers :=
      Function.update s.childControllers self (s.childControllers self ++ [controller])
    parentController := Function.update s.parentController controller (some self) }

/-- What can happen in a scene. -/
inductive SceneEvent (C : Type)
  | contain (e : Event C)
  | addChildController (self controller : C)
  deriving DecidableEq

def sceneStep [DecidableEq C] (s : Scene C) : SceneEvent C → Option (Scene C)
  | .contain e => (step s.toState e).map fun t => { s with toState := t }
  | .addChildController self controller => some (addChildController s self controller)

/-! ## Nested containers -/

/-- The one container that each controller is handed to. Containers are nested to any depth, but
never in a circle. -/
structure Nesting (C : Type) where
  home : C → Option C
  depth : C → ℕ
  depth_home : ∀ c k, home c = some k → depth k < depth c

/-- The controller `c` is nested somewhere inside the container `p`. -/
def Nesting.Within (n : Nesting C) : C → C → Prop :=
  Relation.TransGen fun c p => n.home c = some p

theorem Nesting.Within.depth_lt {n : Nesting C} {c p : C} (h : n.Within c p) :
    n.depth p < n.depth c := by
  induction h with
  | single h => exact n.depth_home _ _ h
  | tail _ h ih => exact (n.depth_home _ _ h).trans ih

/-- A container embeds its own controllers, into its own view or a view inside it, and is made
the coordinator of controllers nested inside it. -/
def Allowed (n : Nesting C) (s : Scene C) : SceneEvent C → Prop
  | .contain (.embed self c v _ _) =>
    n.home c = some self ∧ Passes s.superviewOf v (.root self)
  | .contain (.fire _) => True
  | .addChildController self c => n.Within c self

/-- The target of the call lies outside the views of the controllers that are embedded. -/
def SceneEvent.IntoOwnViews : SceneEvent C → Prop
  | .contain (.embed self _ v _ _) => v.owner = self
  | _ => True

/-- No controller is linked to another, and nothing waits. -/
structure Unlinked (s : Scene C) : Prop where
  no_parent : ∀ c, s.parent c = none
  no_superview : ∀ c, s.superview c = none
  no_coordinator : ∀ c, s.parentController c = none
  no_pending : s.pending = []

/-! ## The invariant -/

/-- Every link leads outward in the nesting. -/
structure Routed (n : Nesting C) (s : Scene C) : Prop where
  parent_home : ∀ c p, s.parent c = some p → n.home c = some p
  superview_home : ∀ c v, s.superview c = some v → n.home c = some v.owner
  coordinator_outer : ∀ c p, s.parentController c = some p → n.Within c p
  arrival_home : ∀ self c v useSafeArea d, s.Pends (.insert self c v useSafeArea d) →
    n.home c = some self ∧ v.owner = self

theorem Unlinked.routed {n : Nesting C} {s : Scene C} (h : Unlinked s) : Routed n s where
  parent_home c p hp := by simp [h.no_parent] at hp
  superview_home c v hv := by simp [h.no_superview] at hv
  coordinator_outer c p hp := by simp [h.no_coordinator] at hp
  arrival_home _ _ _ _ _ hp := absurd hp (not_pends_of_nil h.no_pending _)

/-- What the links of controllers must do when the container part of a scene changes. -/
structure LinksFrom (n : Nesting C) (s t : State C) : Prop where
  parent : ∀ c p, t.parent c = some p → s.parent c = some p ∨ n.home c = some p
  superview : ∀ c v, t.superview c = some v → s.superview c = some v ∨ n.home c = some v.owner
  arrival : ∀ self c v useSafeArea d, t.Pends (.insert self c v useSafeArea d) →
    s.Pends (.insert self c v useSafeArea d) ∨ (n.home c = some self ∧ v.owner = self)

theorem Routed.of_linksFrom {n : Nesting C} {s : Scene C} {t : State C} (h : Routed n s)
    (hl : LinksFrom n s.toState t) : Routed n { s with toState := t } where
  parent_home c p hp := (hl.parent c p hp).elim (h.parent_home c p) id
  superview_home c v hv := (hl.superview c v hv).elim (h.superview_home c v) id
  coordinator_outer := h.coordinator_outer
  arrival_home self c v safe d hp := (hl.arrival self c v safe d hp).elim
    (h.arrival_home self c v safe d) id

theorem LinksFrom.trans {n : Nesting C} {s t u : State C} (h1 : LinksFrom n s t)
    (h2 : LinksFrom n t u) : LinksFrom n s u where
  parent c p hp := (h2.parent c p hp).elim (h1.parent c p) Or.inr
  superview c v hv := (h2.superview c v hv).elim (h1.superview c v) Or.inr
  arrival self c v safe d hp := (h2.arrival self c v safe d hp).elim
    (h1.arrival self c v safe d) Or.inr

section Links

variable [DecidableEq C]

/-- A link after an update of one entry is the new one or an old one. -/
theorem update_eq_some {β : Type} {f : C → Option β} {c d : C} {o : Option β} {b : β}
    (h : Function.update f c o d = some b) : (d = c ∧ o = some b) ∨ f d = some b := by
  by_cases hdc : d = c
  · subst hdc
    exact Or.inl ⟨rfl, by simpa using h⟩
  · exact Or.inr (by simpa [Function.update_of_ne hdc] using h)

theorem linksFrom_insertView {n : Nesting C} (s : State C) {self c : C} {v : View C}
    (useSafeArea : Bool) (hc : n.home c = some self) (hv : v.owner = self) :
    LinksFrom n s (insertView s self c v useSafeArea) := by
  refine ⟨?_, ?_, fun _ _ _ _ _ hp => Or.inl hp⟩
  · intro d p hp
    rw [insertView_parent] at hp
    rcases update_eq_some hp with ⟨rfl, hs⟩ | hp
    · cases hs
      exact Or.inr hc
    · exact Or.inl hp
  · intro d w hw
    rw [insertView_superview] at hw
    rcases update_eq_some hw with ⟨rfl, hs⟩ | hw
    · cases hs
      exact Or.inr (hv ▸ hc)
    · exact Or.inl hw

theorem linksFrom_leave {n : Nesting C} (s : State C) (c : C) : LinksFrom n s (leave s c) := by
  refine ⟨?_, ?_, fun _ _ _ _ _ hp => Or.inl hp⟩
  · intro d p hp
    rw [leave_parent] at hp
    rcases update_eq_some hp with ⟨-, hs⟩ | hp
    · cases hs
    · exact Or.inl hp
  · intro d w hw
    rw [leave_superview] at hw
    rcases update_eq_some hw with ⟨-, hs⟩ | hw
    · cases hs
    · exact Or.inl hw

theorem linksFrom_disappear {n : Nesting C} (s : State C) (c : C) (d : ℚ) :
    LinksFrom n s (disappear s c d) := by
  refine ⟨?_, fun _ _ hw => Or.inl hw, ?_⟩
  · intro e p hp
    rw [disappear_parent] at hp
    rcases update_eq_some hp with ⟨-, hs⟩ | hp
    · cases hs
    · exact Or.inl hp
  · intro self e v safe p hp
    rcases pends_runAfter.mp hp with hp | hp
    · exact Or.inl hp
    · cases hp

theorem linksFrom_embed {n : Nesting C} (s : State C) {self c : C} {v : View C}
    (useSafeArea animated : Bool) (hc : n.home c = some self) (hv : v.owner = self) :
    LinksFrom n s (embed s self c v useSafeArea animated) := by
  rcases embed_cases s self c v useSafeArea animated with
    ⟨-, he⟩ | ⟨old, -, -, he⟩ | ⟨old, -, -, he⟩
  · rw [he]
    have h := linksFrom_insertView (s.named self c) useSafeArea hc hv
    exact ⟨h.parent, h.superview, h.arrival⟩
  · rw [he]
    have h := linksFrom_disappear (n := n) s old (1 / 10)
    refine ⟨h.parent, h.superview, ?_⟩
    intro self' e w safe p hp
    rcases pends_runAfter.mp hp with hp | hp
    · exact h.arrival self' e w safe p hp
    · cases hp
      exact Or.inr ⟨hc, hv⟩
  · rw [he]
    refine (linksFrom_leave s old).trans ?_
    have h := linksFrom_insertView ((leave s old).named self c) useSafeArea hc hv
    exact ⟨h.parent, h.superview, h.arrival⟩

theorem linksFrom_fire {n : Nesting C} {s u : State C} {i : ℕ}
    (harrive : ∀ self c v useSafeArea d, s.Pends (.insert self c v useSafeArea d) →
      n.home c = some self ∧ v.owner = self)
    (hu : step s (.fire i) = some u) : LinksFrom n s u := by
  obtain ⟨⟨delay, closure⟩, hi, rfl⟩ := fire_cases hu
  have herase : LinksFrom n s { s with pending := s.pending.eraseIdx i } :=
    ⟨fun _ _ hp => Or.inl hp, fun _ _ hw => Or.inl hw, fun _ _ _ _ _ hp =>
      Or.inl (pends_of_eraseIdx hp)⟩
  refine herase.trans ?_
  cases closure with
  | remove c =>
    simp only [Closure.fire]
    split
    · refine ⟨fun d p hp => Or.inl (by simpa using hp), ?_, fun _ _ _ _ _ hp => Or.inl hp⟩
      intro d w hw
      rcases update_eq_some hw with ⟨-, hs⟩ | hw
      · cases hs
      · exact Or.inl hw
    · exact ⟨fun _ _ => Or.inl, fun _ _ => Or.inl, fun _ _ _ _ _ => Or.inl⟩
  | insert self c v useSafeArea p =>
    obtain ⟨hc, hv⟩ := harrive self c v useSafeArea p (pends_of_getElem? hi)
    simp only [Closure.fire]
    split
    · have h := linksFrom_insertView (n := n) { s with pending := s.pending.eraseIdx i }
        useSafeArea hc hv
      exact ⟨h.parent, h.superview, h.arrival⟩
    · exact ⟨fun _ _ => Or.inl, fun _ _ => Or.inl, fun _ _ _ _ _ => Or.inl⟩

/-- Every event keeps the links leading outward. -/
theorem Routed.step {n : Nesting C} {s u : Scene C} {e : SceneEvent C} (h : Routed n s)
    (ha : Allowed n s e) (hown : e.IntoOwnViews) (hu : sceneStep s e = some u) : Routed n u := by
  cases e with
  | contain e =>
    obtain ⟨t, ht, rfl⟩ := Option.map_eq_some_iff.mp hu
    refine h.of_linksFrom ?_
    cases e with
    | embed self c v useSafeArea animated =>
      cases ht
      exact linksFrom_embed _ useSafeArea animated ha.1 hown
    | fire i => exact linksFrom_fire h.arrival_home ht
  | addChildController self c =>
    cases hu
    refine ⟨h.parent_home, h.superview_home, ?_, h.arrival_home⟩
    intro d p hp
    rcases update_eq_some hp with ⟨rfl, hs⟩ | hp
    · cases hs
      exact ha
    · exact h.coordinator_outer d p hp

end Links

/-! ## Routes -/

/-- Where the events of a controller go next: to its coordinator, or without one to the
container whose own view tree holds its view. -/
def Stop (s : Scene C) (c p : C) : Prop :=
  s.parentController c = some p ∨
    (s.parentController c = none ∧ ∃ v, s.superview c = some v ∧ v.owner = p)

/-- The stops from a controller outward, the controller itself included. -/
def Outward (s : Scene C) : C → C → Prop := Relation.ReflTransGen (Stop s)

/-- The events of a view go to the controller whose own view tree holds it. -/
theorem passes_owner (s : Scene C) (v : View C) :
    Passes (coordinatingResponder s) (.view v) (.controller v.owner) := by
  induction v with
  | root c => exact Passes.single rfl
  | sub v i ih => exact Passes.head (b := .view v) rfl ih

theorem Routed.passes_stop {n : Nesting C} {s : Scene C} {c p : C} (h : Routed n s)
    (hp : Stop s c p) : Passes (coordinatingResponder s) (.controller c) (.controller p) := by
  rcases hp with hp | ⟨hnone, v, hv, rfl⟩
  · exact Passes.single (by simp [coordinatingResponder, hp])
  · cases hq : s.parent c with
    | some q =>
      -- a parent is the container that the controller was handed to
      have hhome := h.parent_home c q hq
      rw [h.superview_home c v hv] at hhome
      cases hhome
      exact Passes.single (by simp [coordinatingResponder, hnone, hq])
    | none =>
      -- a view that fades out still lies in the container
      refine Passes.head ?_ (passes_owner s v)
      simp [coordinatingResponder, hnone, hq, hv]

theorem Routed.passes_outward {n : Nesting C} {s : Scene C} {c p : C} (h : Routed n s)
    (hp : Outward s c p) : Passes (coordinatingResponder s) (.controller c) (.controller p) := by
  induction hp with
  | refl => exact Passes.refl _
  | tail _ hstop ih => exact ih.trans (h.passes_stop hstop)

/-- Every hop between controllers leads to a smaller depth, so every route ends. -/
theorem Routed.ends {n : Nesting C} {s : Scene C} (h : Routed n s) (c : C) :
    Ends (coordinatingResponder s) (.controller c) := by
  induction hd : n.depth c using Nat.strong_induction_on generalizing c with
  | _ d ih =>
    subst hd
    cases hp : s.parentController c with
    | some p =>
      have hlt := (h.coordinator_outer c p hp).depth_lt
      exact Ends.head (b := .controller p) (by simp [coordinatingResponder, hp]) (ih _ hlt p rfl)
    | none =>
      cases hq : s.parent c with
      | some q =>
        have hlt := n.depth_home c q (h.parent_home c q hq)
        exact Ends.head (b := .controller q) (by simp [coordinatingResponder, hp, hq])
          (ih _ hlt q rfl)
      | none =>
        cases hv : s.superview c with
        | none => exact Ends.of_next_none (by simp [coordinatingResponder, hp, hq, hv])
        | some v =>
          have hlt := n.depth_home c v.owner (h.superview_home c v hv)
          refine Ends.head (b := .view v) (by simp [coordinatingResponder, hp, hq, hv]) ?_
          exact Ends.of_passes (passes_owner s v) (ih _ hlt v.owner rfl)

/-- The responders that a controller's events start from: the controller and its own views. -/
def Sends (c : C) (r : Responder C) : Prop :=
  r = .controller c ∨ ∃ w : View C, w.owner = c ∧ r = .view w

theorem passes_sender (s : Scene C) {c : C} {r : Responder C} (hr : Sends c r) :
    Passes (coordinatingResponder s) r (.controller c) := by
  rcases hr with rfl | ⟨w, rfl, rfl⟩
  · exact Passes.refl _
  · exact passes_owner s w

theorem routed_of_run [DecidableEq C] {n : Nesting C} {s u : Scene C} {es : List (SceneEvent C)}
    (hs : Unlinked s) (hes : EveryStep sceneStep (fun _ => Allowed n) s es)
    (hown : ∀ e ∈ es, e.IntoOwnViews) (h : run sceneStep s es = some u) : Routed n u := by
  have howned : EveryStep sceneStep (fun _ _ e => e.IntoOwnViews) s es := .of_forall_mem hown
  have hok := hes.and howned
  refine run_induction_where (P := fun _ => Routed n) hs.routed ?_ hok h
  intro _ t e u hP he hu
  exact hP.step he.1 he.2 hu

/-- However the containers embed and the closures fire: from a controller whose view lies in a
container, and from each view of its own, the route ends; it passes through the coordinator of
the controller, or without one through the container; it passes through every stop outward;
and a stop outward that overrides an event method does not let the event get lost. -/
theorem events_pass_every_stop_outward [DecidableEq C] {n : Nesting C} {s u : Scene C}
    {es : List (SceneEvent C)} (hs : Unlinked s)
    (hes : EveryStep sceneStep (fun _ => Allowed n) s es) (hown : ∀ e ∈ es, e.IntoOwnViews)
    (h : run sceneStep s es = some u) {c : C} {v : View C} (hv : u.superview c = some v)
    {r : Responder C} (hr : Sends c r) :
    Ends (coordinatingResponder u) r ∧
      n.home c = some v.owner ∧
      (∀ p, u.parentController c = some p →
        Passes (coordinatingResponder u) r (.controller p)) ∧
      (u.parentController c = none →
        Passes (coordinatingResponder u) r (.controller v.owner)) ∧
      (∀ p, Outward u c p → Passes (coordinatingResponder u) r (.controller p)) ∧
      ∀ overrides p, Outward u c p → overrides (.controller p) = true →
        ∃ fuel receiver, sendEvent u overrides fuel r = some receiver ∧
          overrides receiver = true := by
  have hu := routed_of_run hs hes hown h
  have hsend := passes_sender u hr
  have hout : ∀ p, Outward u c p → Passes (coordinatingResponder u) r (.controller p) :=
    fun p hp => hsend.trans (hu.passes_outward hp)
  refine ⟨Ends.of_passes hsend (hu.ends c), hu.superview_home c v hv, ?_, ?_, hout, ?_⟩
  · intro p hp
    exact hsend.trans (hu.passes_stop (Or.inl hp))
  · intro hnone
    exact hsend.trans (hu.passes_stop (Or.inr ⟨hnone, v, hv, rfl⟩))
  · intro overrides p hp ho
    obtain ⟨fuel, receiver, hrec, ht, -⟩ := exists_receiver (hout p hp) ho
    exact ⟨fuel, receiver, hrec, ht⟩

/-! ## Routes that skip a container -/

/-- Container 0 holds container 1, which holds 2, 3 and 4. Controller 2 is a container too, and
holds 5. -/
def fiveNested : Nesting ℕ where
  home
    | 1 => some 0
    | 2 => some 1
    | 3 => some 1
    | 4 => some 1
    | 5 => some 2
    | _ => none
  depth
    | 1 => 1
    | 2 => 2
    | 3 => 2
    | 4 => 2
    | 5 => 3
    | _ => 0
  depth_home c k h := by
    split at h
    all_goals cases h
    all_goals decide

def Scene.apart : Scene C := ⟨State.apart, fun _ => none, fun _ => []⟩

theorem unlinked_apart : Unlinked (Scene.apart : Scene ℕ) :=
  ⟨fun _ => rfl, fun _ => rfl, fun _ => rfl, rfl⟩

theorem within_two_zero : fiveNested.Within 2 0 :=
  .tail (.single (show fiveNested.home 2 = some 1 from rfl))
    (show fiveNested.home 1 = some 0 from rfl)

theorem within_five_zero : fiveNested.Within 5 0 :=
  .head (show fiveNested.home 5 = some 2 from rfl) within_two_zero

/-- While controller 2 fades out, its events still go to the container 1, and on to 0. -/
theorem events_pass_a_container_while_fading :
    ∃ u : Scene ℕ, run sceneStep Scene.apart
        [.addChildController 0 1, .contain (.embed 0 1 (.root 0) false true),
          .contain (.embed 1 2 (.sub (.root 1) 0) false true),
          .contain (.embed 1 3 (.root 1) false true)] = some u ∧
      Ends (coordinatingResponder u) (.view (.sub (.root 2) 7)) ∧
      Passes (coordinatingResponder u) (.view (.sub (.root 2) 7)) (.controller 1) := by
  obtain ⟨u, hu⟩ : ∃ u : Scene ℕ, run sceneStep Scene.apart
      [.addChildController 0 1, .contain (.embed 0 1 (.root 0) false true),
        .contain (.embed 1 2 (.sub (.root 1) 0) false true),
        .contain (.embed 1 3 (.root 1) false true)] = some u := ⟨_, rfl⟩
  have hes : EveryStep sceneStep (fun _ => Allowed fiveNested) Scene.apart
      [.addChildController 0 1, .contain (.embed 0 1 (.root 0) false true),
        .contain (.embed 1 2 (.sub (.root 1) 0) false true),
        .contain (.embed 1 3 (.root 1) false true)] := by
    refine EveryStep.cons (Relation.TransGen.single rfl) rfl ?_
    refine EveryStep.cons ⟨rfl, Passes.refl _⟩ rfl ?_
    refine EveryStep.cons ⟨rfl, Passes.single rfl⟩ rfl ?_
    exact EveryStep.cons ⟨rfl, Passes.refl _⟩ rfl (everyStep_nil _ _)
  have hv : u.superview 2 = some (.sub (.root 1) 0) := by cases hu; rfl
  have hnone : u.parentController 2 = none := by cases hu; rfl
  have hroute := events_pass_every_stop_outward unlinked_apart hes
    (by simp [SceneEvent.IntoOwnViews]) hu hv (r := .view (.sub (.root 2) 7))
    (Or.inr ⟨_, rfl, rfl⟩)
  exact ⟨u, hu, hroute.1, hroute.2.2.2.1 hnone⟩

/-- Controller 5, inside the container 2, gets the outermost container as its coordinator. -/
def innerCoordinatorRun : List (SceneEvent ℕ) :=
  [.contain (.embed 0 1 (.root 0) false true), .contain (.embed 1 2 (.root 1) false true),
    .contain (.embed 2 5 (.root 2) false true), .addChildController 0 5]

/-- Controller 3 is embedded into the view of 2, which fades out with 0 as its coordinator, and
then 3 fades out as well. -/
def guestOfGuestRun : List (SceneEvent ℕ) :=
  [.contain (.embed 0 1 (.root 0) false true), .contain (.embed 1 2 (.root 1) false true),
    .addChildController 0 2, .contain (.embed 1 3 (.root 2) false true), .contain (.fire 1),
    .contain (.embed 1 4 (.root 1) false true)]

/-- Controller 2 has no coordinator and lies in the container 1, but the events of a view inside
its view, one of controller 5, go straight to 0. And controller 3, which fades out inside the
view of 2, has no coordinator and belongs to the container 1, but its events go from 2 to 0. -/
theorem a_coordinator_on_the_way_skips_a_container :
    (EveryStep sceneStep (fun _ => Allowed fiveNested) Scene.apart innerCoordinatorRun ∧
      ∃ u, run sceneStep Scene.apart innerCoordinatorRun = some u ∧
        u.superview 5 = some (.root 2) ∧ u.superview 2 = some (.root 1) ∧
        u.parentController 2 = none ∧
        ¬ Passes (coordinatingResponder u) (.view (.root 5)) (.controller 1)) ∧
    (EveryStep sceneStep (fun _ => Allowed fiveNested) Scene.apart guestOfGuestRun ∧
      ∃ u, run sceneStep Scene.apart guestOfGuestRun = some u ∧
        u.superview 3 = some (.root 2) ∧ u.superview 2 = some (.root 1) ∧
        u.parentController 3 = none ∧ fiveNested.home 3 = some 1 ∧
        ¬ Passes (coordinatingResponder u) (.controller 3) (.controller 1)) := by
  refine ⟨⟨?_, _, rfl, rfl, rfl, rfl, ?_⟩, ⟨?_, _, rfl, rfl, rfl, rfl, rfl, ?_⟩⟩
  · refine EveryStep.cons ⟨rfl, Passes.refl _⟩ rfl ?_
    refine EveryStep.cons ⟨rfl, Passes.refl _⟩ rfl ?_
    refine EveryStep.cons ⟨rfl, Passes.refl _⟩ rfl ?_
    exact EveryStep.cons within_five_zero rfl (everyStep_nil _ _)
  · intro hpass
    obtain ⟨m, hm, he⟩ := hpass.lt_of_ended (n := 4) rfl
    revert m
    decide
  · refine EveryStep.cons ⟨rfl, Passes.refl _⟩ rfl ?_
    refine EveryStep.cons ⟨rfl, Passes.refl _⟩ rfl ?_
    refine EveryStep.cons within_two_zero rfl ?_
    refine EveryStep.cons ⟨rfl, Passes.single rfl⟩ rfl ?_
    refine EveryStep.cons trivial rfl ?_
    exact EveryStep.cons ⟨rfl, Passes.refl _⟩ rfl (everyStep_nil _ _)
  · intro hpass
    obtain ⟨m, hm, he⟩ := hpass.lt_of_ended (n := 6) rfl
    revert m
    decide

end HateBlocker
