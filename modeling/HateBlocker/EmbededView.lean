-- What the embedded view looks like once nothing waits: where it lies, how it is
-- tied to its superview, and whether it can be seen. A closure that outlives the
-- call that scheduled it can spoil each of these.
import HateBlocker.Containment

open AutoLayout UIKit Runs

namespace HateBlocker

variable {C : Type}

/-! ## The constraints of an insertion -/

theorem edgeConstraints_base {c : C} {v : View C} {useSafeArea : Bool} :
    ∀ q ∈ edgeConstraints (some v) c useSafeArea,
      (q.firstItem.base = .root c ∧ q.secondItem.base = v) ∨
        (q.firstItem.base = v ∧ q.secondItem.base = .root c) := by
  intro q hq
  cases useSafeArea with
  | true =>
    simp only [edgeConstraints, attachToSafeArea, if_true] at hq
    simp at hq
    rcases hq with rfl | rfl | rfl | rfl <;> simp [LayoutAnchor.constraintRelated, Item.base]
  | false =>
    simp [edgeConstraints, attach] at hq
    rcases hq with rfl | rfl | rfl | rfl <;> simp [layoutConstraint, Item.base]

/-- One insertion adds one constraint for each edge. -/
theorem edgeConstraints_length (c : C) (v : View C) (useSafeArea : Bool) :
    (edgeConstraints (some v) c useSafeArea).length = 4 := by
  cases useSafeArea <;> rfl

theorem ne_root_of_owner {k c : C} {v : View C} (hc : c ≠ k) (hv : v.owner = k) :
    v ≠ .root c := by
  rintro rfl
  exact hc hv

variable [DecidableEq C]

/-- They are constraints between the root view and its superview. -/
theorem edgeConstraints_ties (c : C) (v : View C) (useSafeArea : Bool) :
    (edgeConstraints (some v) c useSafeArea).filter (Constraint.ties (.root c) v) =
      edgeConstraints (some v) c useSafeArea := by
  rw [List.filter_eq_self]
  intro q hq
  rcases edgeConstraints_base q hq with ⟨h1, h2⟩ | ⟨h1, h2⟩
  · simp [Constraint.ties, h1, h2]
  · simp [Constraint.ties, h1, h2]

/-- They are none between another root view and its superview. -/
theorem edgeConstraints_no_ties {c c' : C} {v v' : View C} (useSafeArea : Bool)
    (hne : c' ≠ c ∨ v' ≠ v) (hv : v ≠ .root c') (hv' : v' ≠ .root c) :
    (edgeConstraints (some v) c useSafeArea).filter (Constraint.ties (.root c') v') = [] := by
  rw [List.filter_eq_nil_iff]
  intro q hq
  have hroot : View.root c = View.root c' ↔ c = c' := by simp
  rcases edgeConstraints_base q hq with ⟨h1, h2⟩ | ⟨h1, h2⟩
  · simp only [Constraint.ties, h1, h2, hroot]
    rcases hne with h | h
    · simp [h.symm, hv'.symm]
    · simp [h.symm, hv'.symm]
  · simp only [Constraint.ties, h1, h2, hroot]
    rcases hne with h | h
    · simp [h.symm, hv]
    · simp [h.symm, hv]

theorem tiesBetween_insertView (s : State C) (self c : C) (v : View C) (useSafeArea : Bool)
    (a b : View C) :
    (insertView s self c v useSafeArea).tiesBetween a b =
      (s.addSubview v c).tiesBetween a b ++
        (edgeConstraints (some v) c useSafeArea).filter (Constraint.ties a b) := by
  simp only [Hierarchy.tiesBetween, insertView_constraints, List.filter_append]

/-! ## Constraints only where a view lies -/

/-- No constraint is left between a root view and a view of the container `k` that is not its
superview. -/
def Untied (k : C) (h : Hierarchy C) : Prop :=
  ∀ c v, c ≠ k → v.owner = k → h.superview c ≠ some v → h.tiesBetween (.root c) v = []

/-- A root view that moves leaves no constraint behind. -/
theorem Untied.move {k : C} {h : Hierarchy C} (hun : Untied k h) (c : C)
    (target : Option (View C)) :
    Untied k { h.dropTies c with superview := Function.update h.superview c target } := by
  intro c' v' hc' hv' hne
  change (h.dropTies c).tiesBetween (.root c') v' = []
  by_cases hcc : c' = c
  · subst hcc
    by_cases hsup : h.superview c' = some v'
    · exact Hierarchy.tiesBetween_dropTies_self hsup
    · exact Hierarchy.tiesBetween_dropTies_nil _ (hun c' v' hc' hv' hsup)
  · have hsup : h.superview c' ≠ some v' := by simpa [Function.update_of_ne hcc] using hne
    exact Hierarchy.tiesBetween_dropTies_nil _ (hun c' v' hc' hv' hsup)

theorem Untied.addSubview {k : C} {h : Hierarchy C} (hun : Untied k h) (c : C) (v : View C) :
    Untied k (h.addSubview v c) := by
  unfold Hierarchy.addSubview
  split
  · exact hun
  · exact hun.move c (some v)

theorem Untied.leave {k : C} {s : State C} (hun : Untied k s.toHierarchy) (c : C) :
    Untied k (leave s c).toHierarchy := by
  have hmove := hun.move c none
  intro c' v' hc' hv' hne
  rw [leave_superview] at hne
  have hnil := hmove c' v' hc' hv' hne
  simpa only [Hierarchy.tiesBetween, leave_constraints] using hnil

theorem Untied.insertView {k c : C} {s : State C} {v : View C} (hun : Untied k s.toHierarchy)
    (useSafeArea : Bool) (hc : c ≠ k) (hv : v.owner = k) :
    Untied k (insertView s k c v useSafeArea).toHierarchy := by
  intro c' v' hc' hv' hne
  have hadd : (s.addSubview v c).superview c' ≠ some v' := by simpa using hne
  rw [tiesBetween_insertView, hun.addSubview c v c' v' hc' hv' hadd, List.nil_append]
  refine edgeConstraints_no_ties useSafeArea ?_ (ne_root_of_owner hc' hv) (ne_root_of_owner hc hv')
  by_contra hboth
  simp only [not_or, not_not] at hboth
  obtain ⟨rfl, rfl⟩ := hboth
  exact hne (by simp)

/-! ## A placed view -/

/-- The controller is a child of the container `k`, its view lies directly in `v`, and one set of
edge constraints of the given kind ties the two. -/
structure PlacedIn (k c : C) (v : View C) (useSafeArea : Bool) (s : State C) : Prop where
  child : s.parent c = some k
  inside : s.superview c = some v
  tied : s.tiesBetween (.root c) v = edgeConstraints (some v) c useSafeArea

theorem placedIn_insertView {k c : C} {s : State C} {v : View C} (useSafeArea : Bool)
    (hun : Untied k s.toHierarchy) (hc : c ≠ k) (hv : v.owner = k)
    (hsup : s.superview c ≠ some v) :
    PlacedIn k c v useSafeArea (insertView s k c v useSafeArea) := by
  refine ⟨by simp, by simp, ?_⟩
  rw [tiesBetween_insertView, edgeConstraints_ties]
  have hnil : (s.addSubview v c).tiesBetween (.root c) v = [] := by
    simp only [Hierarchy.tiesBetween, Hierarchy.addSubview_constraints_of_ne hsup]
    exact Hierarchy.tiesBetween_dropTies_nil c (hun c v hc hv hsup)
  rw [hnil, List.nil_append]

/-- The removal of another view leaves a placed view as it is. -/
theorem PlacedIn.removeFromSuperview {k c d : C} {s : State C} {v : View C} {useSafeArea : Bool}
    (h : PlacedIn k c v useSafeArea s) (hdc : d ≠ c) (hdk : d ≠ k) (hv : v.owner = k) :
    PlacedIn k c v useSafeArea
      { s with toHierarchy := s.toHierarchy.removeFromSuperview d } := by
  refine ⟨by simpa using h.child, ?_, ?_⟩
  · simpa [Function.update_of_ne hdc.symm] using h.inside
  · exact (Hierarchy.tiesBetween_dropTies_of_ne hdc (ne_root_of_owner hdk hv)).trans h.tied

/-! ## The last call wins, unless an older closure acts -/

/-- What keeps the last call in force. A call that inserts at once finds the view outside of its
target, but for the view that it replaces; an insertion that passes its guard is the one that
the last call asked for, and finds the view outside of its target too. -/
def InsertionFits (k : C) (before : List (Event C)) (s : State C) : Event C → Prop
  | .embed _ c v _ animated =>
    animated = false → s.superview c = some v → s.embededController k = some c
  | .fire i =>
    ∀ waiting, s.pending[i]? = some waiting →
      ∀ c v useSafeArea d, waiting.closure = .insert k c v useSafeArea d →
        s.embededController k = some c →
          lastCall before = some (c, v, useSafeArea) ∧ s.superview c ≠ some v

/-- What every fitting event keeps: the view of the last call is placed, or about to be. -/
structure LastInForce (k : C) (es : List (Event C)) (s : State C) : Prop where
  contained : Contained k s
  untied : Untied k s.toHierarchy
  last : ∀ c v useSafeArea, lastCall es = some (c, v, useSafeArea) →
    s.embededController k = some c ∧ v.owner = k ∧
      (PlacedIn k c v useSafeArea s ∨ ∃ d, s.Pends (.insert k c v useSafeArea d))

theorem LastInForce.embed {k c : C} {es : List (Event C)} {s : State C} {v : View C}
    {useSafeArea animated : Bool} (h : LastInForce k es s) (hc : c ≠ k) (hv : v.owner = k)
    (hfit : animated = false → s.superview c = some v → s.embededController k = some c) :
    LastInForce k (es ++ [.embed k c v useSafeArea animated])
      (embed s k c v useSafeArea animated) := by
  have hcont := h.contained.embed useSafeArea animated hc hv
  suffices hlast : Untied k (HateBlocker.embed s k c v useSafeArea animated).toHierarchy ∧
      (PlacedIn k c v useSafeArea (HateBlocker.embed s k c v useSafeArea animated) ∨
        ∃ d, (HateBlocker.embed s k c v useSafeArea animated).Pends
          (.insert k c v useSafeArea d)) by
    refine ⟨hcont, hlast.1, ?_⟩
    intro c' v' safe' hl
    rw [lastCall_snoc] at hl
    cases hl
    exact ⟨by simp, hv, hlast.2⟩
  rcases embed_cases s k c v useSafeArea animated with
    ⟨hnone, he⟩ | ⟨old, hold, -, he⟩ | ⟨old, hold, hanim, he⟩
  · rw [he]
    have hsup : s.superview c ≠ some v := fun hs =>
      h.contained.unnamed_empty hnone c ⟨v, hs, hv⟩
    have hun : Untied k (s.named k c).toHierarchy := h.untied
    exact ⟨hun.insertView useSafeArea hc hv,
      Or.inl (placedIn_insertView useSafeArea hun hc hv hsup)⟩
  · rw [he]
    exact ⟨h.untied, Or.inr ⟨3 / 20, pends_runAfter.mpr (Or.inr rfl)⟩⟩
  · rw [he]
    have hun : Untied k ((leave s old).named k c).toHierarchy := h.untied.leave old
    have hsup : ((leave s old).named k c).superview c ≠ some v := by
      by_cases hco : c = old
      · subst hco; simp [State.named]
      · intro hs
        have hs' : s.superview c = some v := by
          simpa [State.named, Function.update_of_ne hco] using hs
        have hn := hfit hanim hs'
        rw [hold] at hn
        cases hn
        exact hco rfl
    exact ⟨hun.insertView useSafeArea hc hv,
      Or.inl (placedIn_insertView useSafeArea hun hc hv hsup)⟩

theorem LastInForce.fire_remove {k c : C} {es : List (Event C)} {s : State C} {i : ℕ} {delay : ℚ}
    (h : LastInForce k es s) (hi : s.pending[i]? = some ⟨delay, .remove c⟩) :
    LastInForce k (es ++ [.fire i])
      ((Closure.remove c).fire { s with pending := s.pending.eraseIdx i }) := by
  have hck : c ≠ k := h.contained.own_queue _ (pends_of_getElem? hi)
  refine ⟨h.contained.fire_remove hi, ?_, ?_⟩
  · simp only [Closure.fire]
    split
    · exact h.untied.move c none
    · exact h.untied
  · intro c' v' safe' hl
    rw [lastCall_snoc] at hl
    obtain ⟨hn, hv, hplaced⟩ := h.last c' v' safe' hl
    refine ⟨by simpa using hn, hv, ?_⟩
    simp only [Closure.fire]
    split
    · rename_i hnone
      rcases hplaced with hp | ⟨d, hd⟩
      · have hne : c ≠ c' := by
          rintro rfl
          have hchild := hp.child
          change s.parent c = none at hnone
          rw [hnone] at hchild
          cases hchild
        have hp' : PlacedIn k c' v' safe' { s with pending := s.pending.eraseIdx i } :=
          ⟨hp.child, hp.inside, hp.tied⟩
        exact Or.inl (hp'.removeFromSuperview hne hck hv)
      · exact Or.inr ⟨d, pends_insert_of_dequeued_removal hi hd⟩
    · rcases hplaced with hp | ⟨d, hd⟩
      · exact Or.inl ⟨hp.child, hp.inside, hp.tied⟩
      · exact Or.inr ⟨d, pends_insert_of_dequeued_removal hi hd⟩

theorem LastInForce.fire_insert {k self c : C} {es : List (Event C)} {s : State C} {v : View C}
    {useSafeArea : Bool} {i : ℕ} {delay p : ℚ} (h : LastInForce k es s)
    (hi : s.pending[i]? = some ⟨delay, .insert self c v useSafeArea p⟩)
    (hfit : InsertionFits k es s (.fire i)) :
    LastInForce k (es ++ [.fire i])
      ((Closure.insert self c v useSafeArea p).fire
        { s with pending := s.pending.eraseIdx i }) := by
  have hcont := h.contained.fire_insert hi
  obtain ⟨rfl, hck, hv⟩ := h.contained.own_queue _ (pends_of_getElem? hi)
  by_cases hnamed : s.embededController self = some c
  · -- the guard passes, so this is the insertion of the last call
    obtain ⟨hlast, hsup⟩ := hfit _ hi c v useSafeArea p rfl hnamed
    have hun : Untied self (State.toHierarchy { s with pending := s.pending.eraseIdx i }) :=
      h.untied
    have hp := placedIn_insertView useSafeArea hun hck hv hsup
    refine ⟨hcont, ?_, ?_⟩
    · simp only [Closure.fire, hnamed, if_true]
      exact hun.insertView useSafeArea hck hv
    · intro c' v' safe' hl
      rw [lastCall_snoc] at hl
      have hsame := hlast.symm.trans hl
      cases hsame
      refine ⟨by simpa using hnamed, hv, Or.inl ?_⟩
      simp only [Closure.fire, hnamed, if_true]
      exact ⟨hp.child, hp.inside, hp.tied⟩
  · refine ⟨hcont, ?_, ?_⟩
    · simp only [Closure.fire, hnamed, if_false]
      exact h.untied
    · intro c' v' safe' hl
      rw [lastCall_snoc] at hl
      obtain ⟨hn, hv', hplaced⟩ := h.last c' v' safe' hl
      have hne : c' ≠ c := by
        rintro rfl
        exact hnamed hn
      simp only [Closure.fire, hnamed, if_false]
      refine ⟨hn, hv', hplaced.imp (fun hp => ⟨hp.child, hp.inside, hp.tied⟩) ?_⟩
      rintro ⟨d, hd⟩
      exact ⟨d, pends_insert_of_dequeued_insertion hi hne hd⟩

theorem LastInForce.step {k : C} {es : List (Event C)} {s u : State C} {e : Event C}
    (h : LastInForce k es s) (he : e.On k) (hfit : InsertionFits k es s e)
    (hu : step s e = some u) : LastInForce k (es ++ [e]) u := by
  cases e with
  | embed self c v useSafeArea animated =>
    obtain ⟨rfl, hc, hv⟩ := he
    cases hu
    exact h.embed hc hv hfit
  | fire i =>
    obtain ⟨⟨delay, closure⟩, hi, rfl⟩ := fire_cases hu
    cases closure with
    | remove c => exact h.fire_remove hi
    | insert self c v useSafeArea p => exact h.fire_insert hi hfit

/-- As long as no older insertion acts, and none repeats one, the last call wins: once nothing
waits, its controller's view lies directly in its target, tied by one set of four edge
constraints of its kind. -/
theorem last_embed_wins {k : C} {s u : State C} {es : List (Event C)} (hs : Vacant k s)
    (hun : Untied k s.toHierarchy) (hes : ∀ e ∈ es, e.On k)
    (hfit : EveryStep step (InsertionFits k) s es) (h : run step s es = some u)
    {c : C} {v : View C} {useSafeArea : Bool} (hlast : lastCall es = some (c, v, useSafeArea))
    (hquiet : u.pending = []) :
    u.embededController k = some c ∧ u.superview c = some v ∧
      u.tiesBetween (.root c) v = edgeConstraints (some v) c useSafeArea ∧
      (u.tiesBetween (.root c) v).length = 4 := by
  have hstart : LastInForce k [] s := by
    refine ⟨hs.contained, hun, ?_⟩
    intro c v useSafeArea hnil
    cases hnil
  have hon : EveryStep step (fun _ _ e => e.On k) s es := .of_forall_mem hes
  have hok := hon.and hfit
  have hu : LastInForce k es u := by
    refine run_induction_where (P := LastInForce k) hstart ?_ hok h
    intro es t e u hP he hu
    exact hP.step he.1 he.2 hu
  obtain ⟨hnamed, -, hplaced⟩ := hu.last c v useSafeArea hlast
  rcases hplaced with hp | ⟨d, hd⟩
  · exact ⟨hnamed, hp.inside, hp.tied, by rw [hp.tied, edgeConstraints_length]⟩
  · exact absurd hd (not_pends_of_nil hquiet _)

theorem untied_apart (k : C) : Untied k (State.apart : State C).toHierarchy := by
  intro c v _ _ _
  rfl

/-- Controller 2 takes the place of 1, with safe-area constraints. -/
theorem last_embed_wins_over_one :
    ∃ u : State ℕ, run step State.apart
        [.embed 0 1 (.root 0) false true, .embed 0 2 (.sub (.root 0) 0) true true,
          .fire 0, .fire 0] = some u ∧
      u.embededController 0 = some 2 ∧ u.superview 2 = some (.sub (.root 0) 0) ∧
      u.tiesBetween (.root 2) (.sub (.root 0) 0) =
        edgeConstraints (some (.sub (.root 0) 0)) 2 true ∧
      (u.tiesBetween (.root 2) (.sub (.root 0) 0)).length = 4 := by
  obtain ⟨u, hu⟩ : ∃ u : State ℕ, run step State.apart
      [.embed 0 1 (.root 0) false true, .embed 0 2 (.sub (.root 0) 0) true true,
        .fire 0, .fire 0] = some u := ⟨_, rfl⟩
  have hquiet : u.pending = [] := by cases hu; rfl
  refine ⟨u, hu, last_embed_wins (vacant_apart 0) (untied_apart 0) (by simp [Event.On]) ?_ hu
    rfl hquiet⟩
  refine EveryStep.cons (by simp [InsertionFits]) rfl ?_
  refine EveryStep.cons (by simp [InsertionFits]) rfl ?_
  refine EveryStep.cons ?_ rfl (EveryStep.cons ?_ rfl (everyStep_nil _ _))
  · rintro w ⟨⟩ c v safe d ⟨⟩
  · rintro w ⟨⟩ c v safe d ⟨⟩ _
    exact ⟨rfl, by decide⟩

/-- Controller 2 is sent to one view with animation, and then to another without. -/
def staleRun : List (Event ℕ) :=
  [.embed 0 1 (.root 0) false true, .embed 0 2 (.sub (.root 0) 0) false true,
    .embed 0 2 (.sub (.root 0) 1) false false, .fire 0, .fire 0]

/-- The insertion of an animated call acts after a newer call put the same controller in another
view, even when the closures fire in the order in which they were scheduled. -/
theorem a_stale_insertion_moves_the_view :
    (∀ e ∈ staleRun, e.On 0) ∧ lastCall staleRun = some (2, .sub (.root 0) 1, false) ∧
      ∃ u, run step State.apart staleRun = some u ∧ u.pending = [] ∧
        u.embededController 0 = some 2 ∧ u.superview 2 = some (.sub (.root 0) 0) ∧
        u.superview 2 ≠ some (.sub (.root 0) 1) := by
  refine ⟨by simp [staleRun, Event.On], rfl, _, rfl, rfl, rfl, rfl, by decide⟩

/-! ## The opacity of the embedded view -/

/-- A call without animation finds the view of its controller opaque, or an insertion of the
controller is still to come. -/
def OpacityFits (k : C) : State C → Event C → Prop
  | s, .embed _ c _ _ animated => animated = false → (s.layer c).opacity = 1 ∨ s.Arriving k c
  | _, .fire _ => True

/-- What every fitting event keeps: the named controller is opaque, or an insertion that makes
it so is still to come. Before the first call every view is opaque. -/
structure Visible (k : C) (s : State C) : Prop where
  contained : Contained k s
  unnamed : s.embededController k = none → ∀ c, (s.layer c).opacity = 1
  named : ∀ c, s.embededController k = some c → (s.layer c).opacity = 1 ∨ s.Arriving k c

theorem Visible.embed {k c : C} {s : State C} {v : View C} {useSafeArea animated : Bool}
    (h : Visible k s) (hc : c ≠ k) (hv : v.owner = k)
    (hfit : animated = false → (s.layer c).opacity = 1 ∨ s.Arriving k c) :
    Visible k (embed s k c v useSafeArea animated) := by
  refine ⟨h.contained.embed useSafeArea animated hc hv, by simp, ?_⟩
  intro c' hn
  have hcc : c = c' := by simpa using hn
  subst hcc
  rcases embed_cases s k c v useSafeArea animated with
    ⟨hnone, he⟩ | ⟨old, -, -, he⟩ | ⟨old, -, hanim, he⟩
  · rw [he]
    exact Or.inl (by simpa [State.named] using h.unnamed hnone c)
  · rw [he]
    exact Or.inr ⟨v, useSafeArea, 3 / 20, pends_runAfter.mpr (Or.inr rfl)⟩
  · rw [he]
    exact (hfit hanim).imp_left fun ho => by simpa [State.named] using ho

theorem Visible.fire_remove {k c : C} {s : State C} {i : ℕ} {delay : ℚ} (h : Visible k s)
    (hi : s.pending[i]? = some ⟨delay, .remove c⟩) :
    Visible k ((Closure.remove c).fire { s with pending := s.pending.eraseIdx i }) := by
  have hlayer : ((Closure.remove c).fire { s with pending := s.pending.eraseIdx i }).layer =
      s.layer := by
    simp only [Closure.fire]
    split <;> simp
  refine ⟨h.contained.fire_remove hi, ?_, ?_⟩
  · intro hnone d
    rw [hlayer]
    exact h.unnamed (by simpa using hnone) d
  · intro d hn
    rw [hlayer]
    refine (h.named d (by simpa using hn)).imp_right ?_
    intro ha
    obtain ⟨v, safe, p, hp⟩ := arriving_of_dequeued_removal hi ha
    exact ⟨v, safe, p, by simpa [State.Pends] using hp⟩

/-- An insertion that acts shows its view, and any other changes no view. -/
theorem Visible.fire_insert {k self c : C} {s : State C} {v : View C} {useSafeArea : Bool} {i : ℕ}
    {delay p : ℚ} (h : Visible k s)
    (hi : s.pending[i]? = some ⟨delay, .insert self c v useSafeArea p⟩) :
    Visible k
      ((Closure.insert self c v useSafeArea p).fire
        { s with pending := s.pending.eraseIdx i }) := by
  have hcont := h.contained.fire_insert hi
  obtain ⟨rfl, -, -⟩ := h.contained.own_queue _ (pends_of_getElem? hi)
  by_cases hnamed : s.embededController self = some c
  · refine ⟨hcont, by simp [hnamed], ?_⟩
    intro d hn
    have hcd : c = d := by simpa [hnamed] using hn
    subst hcd
    left
    simp [Closure.fire, hnamed, Hierarchy.setLayer]
  · simp only [Closure.fire, hnamed, if_false] at hcont ⊢
    refine ⟨hcont, h.unnamed, ?_⟩
    intro d hn
    have hdc : d ≠ c := by
      rintro rfl
      exact hnamed hn
    exact (h.named d hn).imp_right (arriving_of_dequeued_insertion hi hdc)

theorem Visible.step {k : C} {s u : State C} {e : Event C} (h : Visible k s) (he : e.On k)
    (hfit : OpacityFits k s e) (hu : step s e = some u) : Visible k u := by
  cases e with
  | embed self c v useSafeArea animated =>
    obtain ⟨rfl, hc, hv⟩ := he
    cases hu
    exact h.embed hc hv hfit
  | fire i =>
    obtain ⟨⟨delay, closure⟩, hi, rfl⟩ := fire_cases hu
    cases closure with
    | remove c => exact h.fire_remove hi
    | insert self c v useSafeArea p => exact h.fire_insert hi

/-! ## Letting the closures fire -/

/-- The closures that wait can always fire, oldest first. -/
theorem exists_drain (s : State C) :
    ∃ fires u, (∀ e ∈ fires, e.isFire = true) ∧ run step s fires = some u ∧ u.pending = [] := by
  induction hq : s.pending generalizing s with
  | nil => exact ⟨[], s, by simp, rfl, hq⟩
  | cons waiting rest ih =>
    have hstep : step s (.fire 0) =
        some (waiting.closure.fire { s with pending := s.pending.eraseIdx 0 }) := by
      simp [step, hq]
    obtain ⟨fires, u, hfires, hrun, hquiet⟩ :=
      ih (waiting.closure.fire { s with pending := s.pending.eraseIdx 0 }) (by simp [hq])
    refine ⟨.fire 0 :: fires, u, ?_, ?_, hquiet⟩
    · simpa [Event.isFire] using hfires
    · simp only [run, hstep, Option.bind_some]
      exact hrun

/-- A named controller that is not opaque stays so while closures fire, when none of them is
an insertion of it. -/
theorem dim_of_fires {k c : C} {s u : State C} {fires : List (Event C)} (hcont : Contained k s)
    (hnamed : s.embededController k = some c) (hdim : (s.layer c).opacity ≠ 1)
    (hnot : ¬ s.Arriving k c) (hfires : ∀ e ∈ fires, e.isFire = true)
    (hrun : run step s fires = some u) :
    u.embededController k = some c ∧ (u.layer c).opacity ≠ 1 := by
  have hok : EveryStep step (fun _ _ e => e.isFire = true) s fires :=
    EveryStep.of_forall_mem hfires
  suffices h : Contained k u ∧ u.embededController k = some c ∧ (u.layer c).opacity ≠ 1 ∧
      ¬ u.Arriving k c from ⟨h.2.1, h.2.2.1⟩
  refine run_induction_where (P := fun _ u => Contained k u ∧ u.embededController k = some c ∧
    (u.layer c).opacity ≠ 1 ∧ ¬ u.Arriving k c) ⟨hcont, hnamed, hdim, hnot⟩ ?_ hok hrun
  rintro _ t e u ⟨hcont, hnamed, hdim, hnot⟩ he hu
  cases e with
  | embed => cases he
  | fire i =>
    refine ⟨hcont.step (e := .fire i) trivial hu, ?_⟩
    obtain ⟨⟨delay, closure⟩, hi, rfl⟩ := fire_cases hu
    refine ⟨by simpa using hnamed, ?_, ?_⟩
    · cases closure with
      | remove d => simp only [Closure.fire]; split <;> simpa using hdim
      | insert self d v useSafeArea p =>
        obtain ⟨rfl, -, -⟩ := hcont.own_queue _ (pends_of_getElem? hi)
        have hother : t.embededController self ≠ some d := by
          intro hd
          rw [hnamed] at hd
          cases hd
          exact hnot ⟨v, useSafeArea, p, pends_of_getElem? hi⟩
        simpa only [Closure.fire, hother, if_false] using hdim
    · rintro ⟨v, safe, d, hd⟩
      have hd' : State.Pends { t with pending := t.pending.eraseIdx i } (.insert k c v safe d) := by
        simpa [State.Pends] using hd
      exact hnot ⟨v, safe, d, pends_of_eraseIdx hd'⟩

theorem everyStep_append_fires {k : C} {s : State C} {es fires : List (Event C)}
    (h : EveryStep step (fun _ => OpacityFits k) s es) (hfires : ∀ e ∈ fires, e.isFire = true) :
    EveryStep step (fun _ => OpacityFits k) s (es ++ fires) := by
  induction fires using List.reverseRecOn with
  | nil => simpa using h
  | append_singleton fires e ih =>
    rw [← List.append_assoc]
    refine (ih fun e he => hfires e (by simp [he])).snoc fun t _ => ?_
    have he := hfires e (by simp)
    cases e with
    | embed => cases he
    | fire i => trivial

/-- After every part of the run, and however the closures that then wait fire, the embedded view
is opaque once nothing waits. -/
def NeverLeftInvisible (k : C) (s : State C) (es : List (Event C)) : Prop :=
  ∀ before fires t, before <+: es → (∀ e ∈ fires, e.isFire = true) →
    run step s (before ++ fires) = some t → t.pending = [] →
      ∀ c, t.embededController k = some c → (t.layer c).opacity = 1

/-- A call without animation does not change how visible its own controller is. -/
theorem dim_of_immediate {k c : C} {s : State C} (v : View C) (useSafeArea : Bool)
    (hdim : (s.layer c).opacity ≠ 1) (harr : ¬ s.Arriving k c) :
    ((embed s k c v useSafeArea false).layer c).opacity ≠ 1 ∧
      ¬ (embed s k c v useSafeArea false).Arriving k c := by
  rcases embed_cases s k c v useSafeArea false with
    ⟨-, he⟩ | ⟨old, -, hanim, -⟩ | ⟨old, -, -, he⟩
  · rw [he]
    exact ⟨by simpa [State.named] using hdim, harr⟩
  · cases hanim
  · rw [he]
    exact ⟨by simpa [State.named] using hdim, harr⟩

/-- A call that takes a dim view, with no insertion of it to come, leaves it dim for good. -/
theorem opacityFits_of_neverLeftInvisible {k : C} {s : State C} {es : List (Event C)}
    (hs : Vacant k s) (hes : ∀ e ∈ es, e.On k) (hall : NeverLeftInvisible k s es) :
    EveryStep step (fun _ => OpacityFits k) s es := by
  intro before e hpre t ht
  cases e with
  | fire i => trivial
  | embed self c v useSafeArea animated =>
    rintro rfl
    by_contra hdim
    simp only [not_or] at hdim
    have hbefore : ∀ e ∈ before ++ [Event.embed self c v useSafeArea false], e.On k :=
      fun e he => hes e (hpre.subset he)
    obtain ⟨rfl, -, -⟩ := hbefore (.embed self c v useSafeArea false) (by simp)
    have hrun : run step s (before ++ [.embed self c v useSafeArea false]) =
        some (embed t self c v useSafeArea false) := by
      rw [run_snoc, ht]; rfl
    obtain ⟨fires, w, hfires, hw, hquiet⟩ := exists_drain (embed t self c v useSafeArea false)
    obtain ⟨hlayer, harr⟩ := dim_of_immediate v useSafeArea hdim.1 hdim.2
    have hend := dim_of_fires (contained_of_run hs hbefore hrun) (by simp) hlayer harr hfires hw
    refine hend.2 (hall _ fires w hpre hfires ?_ hquiet c hend.1)
    rw [run_append, hrun]
    exact hw

theorem neverLeftInvisible_of_opacityFits {k : C} {s : State C} {es : List (Event C)}
    (hs : Vacant k s) (hclear : ∀ c, (s.layer c).opacity = 1) (hes : ∀ e ∈ es, e.On k)
    (hfit : EveryStep step (fun _ => OpacityFits k) s es) : NeverLeftInvisible k s es := by
  intro before fires t hpre hfires ht hquiet c hnamed
  have hon : ∀ e ∈ before ++ fires, e.On k := by
    intro e he
    rcases List.mem_append.mp he with he | he
    · exact hes e (hpre.subset he)
    · exact on_of_isFire hfires e he
  have hcalls : EveryStep step (fun _ _ e => e.On k) s (before ++ fires) := .of_forall_mem hon
  have hok := hcalls.and (everyStep_append_fires (hfit.of_prefix hpre) hfires)
  have hstart : Visible k s := ⟨hs.contained, fun _ => hclear, by simp [hs.names_none]⟩
  have hvis : Visible k t := by
    refine run_induction_where (P := fun _ => Visible k) hstart ?_ hok ht
    intro _ t e u hP he hu
    exact hP.step he.1 he.2 hu
  rcases hvis.named c hnamed with ho | ⟨v, safe, d, hd⟩
  · exact ho
  · exact absurd hd (not_pends_of_nil hquiet _)

/-- The embedded view is never left invisible exactly when no call without animation takes a
view that an earlier call has faded out and that no insertion will show again. -/
theorem never_left_invisible_iff {k : C} {s : State C} {es : List (Event C)} (hs : Vacant k s)
    (hclear : ∀ c, (s.layer c).opacity = 1) (hes : ∀ e ∈ es, e.On k) :
    NeverLeftInvisible k s es ↔ EveryStep step (fun _ => OpacityFits k) s es := by
  constructor
  · intro hall
    exact opacityFits_of_neverLeftInvisible hs hes hall
  · intro hfit
    exact neverLeftInvisible_of_opacityFits hs hclear hes hfit

/-- Controller 1 gives way to 2 and comes back, animated each time. -/
def returnRun : List (Event ℕ) :=
  [.embed 0 1 (.root 0) false false, .embed 0 2 (.root 0) false true, .fire 0, .fire 0,
    .embed 0 1 (.root 0) false true]

theorem never_left_invisible_on_an_animated_return :
    NeverLeftInvisible 0 State.apart returnRun := by
  refine (never_left_invisible_iff (vacant_apart 0) (fun _ => rfl)
    (by simp [returnRun, Event.On])).mpr ?_
  refine EveryStep.cons (fun _ => Or.inl rfl) rfl ?_
  refine EveryStep.cons (by simp [OpacityFits]) rfl ?_
  refine EveryStep.cons trivial rfl ?_
  refine EveryStep.cons trivial rfl ?_
  exact EveryStep.cons (by simp [OpacityFits]) rfl (everyStep_nil _ _)

/-- Controller 1 gives way to 2 with animation, and comes back without. -/
def dimRun : List (Event ℕ) :=
  [.embed 0 1 (.root 0) false true, .embed 0 2 (.root 0) false true, .fire 0, .fire 0,
    .embed 0 1 (.root 0) false false]

/-- The call that fades the old view out sets its opacity to 0, and the insertion without
animation never sets it back. -/
theorem a_faded_view_comes_back_invisible :
    (∀ c, ((State.apart : State ℕ).layer c).opacity = 1) ∧ (∀ e ∈ dimRun, e.On 0) ∧
      ∃ u, run step State.apart dimRun = some u ∧ u.pending = [] ∧
        u.embededController 0 = some 1 ∧ (u.layer 1).opacity = 0 := by
  refine ⟨fun _ => rfl, by simp [dimRun, Event.On], _, rfl, rfl, rfl, rfl⟩

end HateBlocker
