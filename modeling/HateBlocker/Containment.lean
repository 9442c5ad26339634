-- The containment of one container: whatever the order of its `embed` calls and
-- of the closures that they leave behind, its one child is the controller that
-- it names, and no other view stays in it once the closures have fired.
import HateBlocker.ContainerController

open AutoLayout UIKit Runs

namespace HateBlocker

variable {C : Type}

/-! ## The runs of one container -/

/-- The root view of `c` lies in the view tree of the container `k` itself. -/
def State.Inside (s : State C) (k c : C) : Prop :=
  ∃ v, s.superview c = some v ∧ v.owner = k

/-- The container has no child, names no controller, holds no view and has nothing to wait
for. -/
structure Vacant (k : C) (s : State C) : Prop where
  names_none : s.embededController k = none
  no_child : ∀ c, s.parent c ≠ some k
  no_view : ∀ c, ¬ s.Inside k c
  no_pending : s.pending = []

/-- A call on the container `k`, for another controller and for a target view in the view tree
of `k` itself, so outside the views of the embedded controllers. -/
def Event.On (k : C) : Event C → Prop
  | .embed self controller view _ _ => self = k ∧ controller ≠ k ∧ view.owner = k
  | .fire _ => True

def Event.isFire : Event C → Bool
  | .embed .. => false
  | .fire _ => true

theorem on_of_isFire {k : C} {es : List (Event C)} (h : ∀ e ∈ es, e.isFire = true) :
    ∀ e ∈ es, e.On k := by
  intro e he
  have hf := h e he
  cases e with
  | embed => cases hf
  | fire i => trivial

/-- The controller, the target view and the flag of a call. -/
def Event.call : Event C → Option (C × View C × Bool)
  | .embed _ controller view useSafeArea _ => some (controller, view, useSafeArea)
  | .fire _ => none

/-- The last call of a run. -/
def lastCall (es : List (Event C)) : Option (C × View C × Bool) := es.reverse.findSome? Event.call

theorem lastCall_snoc (es : List (Event C)) (e : Event C) :
    lastCall (es ++ [e]) = (e.call <|> lastCall es) := by
  simp only [lastCall, List.reverse_append, List.reverse_singleton, List.singleton_append,
    List.findSome?_cons]
  cases e.call <;> rfl

/-- A removal of `c` waits. -/
def State.Leaving (s : State C) (c : C) : Prop := s.Pends (.remove c)

/-- An insertion of `c` into the container `k` waits. -/
def State.Arriving (s : State C) (k c : C) : Prop :=
  ∃ v useSafeArea d, s.Pends (.insert k c v useSafeArea d)

/-- A closure that a call on the container `k` left behind. -/
def Closure.Own (k : C) : Closure C → Prop
  | .remove c => c ≠ k
  | .insert self c v _ _ => self = k ∧ c ≠ k ∧ v.owner = k

/-- Only calls on the container `k` left something behind. -/
def OwnQueue (k : C) (s : State C) : Prop := ∀ closure, s.Pends closure → closure.Own k

/-! ## The invariant -/

/-- What every event of the container keeps. -/
structure Contained (k : C) (s : State C) : Prop where
  /-- A child is the named controller. -/
  child_named : ∀ c, s.parent c = some k → s.embededController k = some c
  /-- A child has its view inside. -/
  child_inside : ∀ c, s.parent c = some k → s.Inside k c
  /-- A view inside that is not a child's is about to leave. -/
  guest_leaving : ∀ c, s.Inside k c → s.parent c ≠ some k → s.Leaving c
  /-- A controller that is about to leave has no other parent. -/
  leaving_orphan : ∀ c, s.Leaving c → s.parent c = none ∨ s.parent c = some k
  /-- The named controller is a child or about to become one. -/
  named_arrives : ∀ c, s.embededController k = some c → s.parent c = some k ∨ s.Arriving k c
  /-- While no controller is named, no view is inside. -/
  unnamed_empty : s.embededController k = none → ∀ c, ¬ s.Inside k c
  /-- The container does not name itself. -/
  named_other : s.embededController k ≠ some k
  own_queue : OwnQueue k s

theorem Vacant.contained {k : C} {s : State C} (h : Vacant k s) : Contained k s where
  child_named c hc := absurd hc (h.no_child c)
  child_inside c hc := absurd hc (h.no_child c)
  guest_leaving c hc := absurd hc (h.no_view c)
  leaving_orphan c hc := absurd hc (not_pends_of_nil h.no_pending _)
  named_arrives c hc := by rw [h.names_none] at hc; cases hc
  unnamed_empty _ := h.no_view
  named_other := by simp [h.names_none]
  own_queue _ hc := absurd hc (not_pends_of_nil h.no_pending _)

/-- In a contained state only the named controller can be a child. -/
theorem Contained.eq_of_child {k old c : C} {s : State C} (h : Contained k s)
    (hold : s.embededController k = some old) (hc : s.parent c = some k) : c = old := by
  have hn := h.child_named c hc
  rw [hold] at hn
  cases hn
  rfl

/-- A removal of `c` that leaves the queue leaves those of the other controllers there. -/
theorem leaving_of_dequeued_removal {c d : C} {s : State C} {i : ℕ} {delay : ℚ}
    (hi : s.pending[i]? = some ⟨delay, .remove c⟩) (hdc : d ≠ c) (hl : s.Leaving d) :
    State.Leaving { s with pending := s.pending.eraseIdx i } d :=
  (pends_eraseIdx hi hl).resolve_left (by simpa using hdc)

/-- And it leaves the insertions there. -/
theorem pends_insert_of_dequeued_removal {k c d : C} {v : View C} {useSafeArea : Bool} {p : ℚ}
    {s : State C} {i : ℕ} {delay : ℚ} (hi : s.pending[i]? = some ⟨delay, .remove c⟩)
    (hp : s.Pends (.insert k d v useSafeArea p)) :
    State.Pends { s with pending := s.pending.eraseIdx i } (.insert k d v useSafeArea p) :=
  (pends_eraseIdx hi hp).resolve_left (by simp)

theorem arriving_of_dequeued_removal {k c d : C} {s : State C} {i : ℕ} {delay : ℚ}
    (hi : s.pending[i]? = some ⟨delay, .remove c⟩) (ha : s.Arriving k d) :
    State.Arriving { s with pending := s.pending.eraseIdx i } k d := by
  obtain ⟨v, safe, p, hp⟩ := ha
  exact ⟨v, safe, p, pends_insert_of_dequeued_removal hi hp⟩

/-- An insertion of `c` that leaves the queue leaves those of the other controllers there. -/
theorem pends_insert_of_dequeued_insertion {k self c d : C} {v w : View C}
    {useSafeArea safe : Bool} {p q : ℚ} {s : State C} {i : ℕ} {delay : ℚ}
    (hi : s.pending[i]? = some ⟨delay, .insert self c v useSafeArea p⟩) (hdc : d ≠ c)
    (hp : s.Pends (.insert k d w safe q)) :
    State.Pends { s with pending := s.pending.eraseIdx i } (.insert k d w safe q) := by
  refine (pends_eraseIdx hi hp).resolve_left ?_
  intro heq
  cases heq
  exact hdc rfl

theorem arriving_of_dequeued_insertion {k self c d : C} {v : View C} {useSafeArea : Bool} {p : ℚ}
    {s : State C} {i : ℕ} {delay : ℚ}
    (hi : s.pending[i]? = some ⟨delay, .insert self c v useSafeArea p⟩) (hdc : d ≠ c)
    (ha : s.Arriving k d) : State.Arriving { s with pending := s.pending.eraseIdx i } k d := by
  obtain ⟨w, safe, q, hq⟩ := ha
  exact ⟨w, safe, q, pends_insert_of_dequeued_insertion hi hdc hq⟩

/-- A removal leaves a controller alone that was embedded again in the meantime: it is no
guest. -/
theorem Contained.spare_child {k c : C} {s : State C} {i : ℕ} {delay : ℚ} (h : Contained k s)
    (hi : s.pending[i]? = some ⟨delay, .remove c⟩) (hchild : s.parent c = some k) :
    Contained k { s with pending := s.pending.eraseIdx i } := by
  refine ⟨h.child_named, h.child_inside, ?_, ?_, ?_, h.unnamed_empty, h.named_other,
    fun _ hw => h.own_queue _ (pends_of_eraseIdx hw)⟩
  · intro d hin hnot
    have hdc : d ≠ c := by
      rintro rfl
      exact hnot hchild
    exact leaving_of_dequeued_removal hi hdc (h.guest_leaving d hin hnot)
  · intro d hl
    exact h.leaving_orphan d (pends_of_eraseIdx hl)
  · intro d hd
    exact (h.named_arrives d hd).imp_right (arriving_of_dequeued_removal hi)

theorem vacant_apart (k : C) : Vacant k (State.apart : State C) := by
  refine ⟨rfl, by simp [State.apart], ?_, rfl⟩
  rintro c ⟨v, hv, -⟩
  cases hv

/-! ## The invariant of one event -/

variable [DecidableEq C]

/-- What an insertion of `c` into the container `k` needs. -/
structure Ready (k c : C) (s : State C) : Prop where
  named : s.embededController k = some c
  only_child : ∀ d, s.parent d = some k → d = c
  guest_leaving : ∀ d, d ≠ c → s.Inside k d → s.Leaving d
  leaving_orphan : ∀ d, d ≠ c → s.Leaving d → s.parent d = none
  other : c ≠ k
  own_queue : OwnQueue k s

theorem Ready.insertView {k c : C} {s : State C} {v : View C} (useSafeArea : Bool)
    (h : Ready k c s) (hv : v.owner = k) : Contained k (insertView s k c v useSafeArea) where
  child_named d hd := by
    by_cases hdc : d = c
    · subst hdc; exact h.named
    · rw [insertView_parent, Function.update_of_ne hdc] at hd
      exact absurd (h.only_child d hd) hdc
  child_inside d hd := by
    by_cases hdc : d = c
    · subst hdc; exact ⟨v, by simp, hv⟩
    · rw [insertView_parent, Function.update_of_ne hdc] at hd
      exact absurd (h.only_child d hd) hdc
  guest_leaving d hin hnot := by
    have hdc : d ≠ c := by
      rintro rfl
      exact hnot (by simp)
    obtain ⟨w, hw, hk⟩ := hin
    rw [insertView_superview, Function.update_of_ne hdc] at hw
    exact h.guest_leaving d hdc ⟨w, hw, hk⟩
  leaving_orphan d hd := by
    by_cases hdc : d = c
    · subst hdc; exact Or.inr (by simp)
    · rw [insertView_parent, Function.update_of_ne hdc]
      exact Or.inl (h.leaving_orphan d hdc hd)
  named_arrives d hd := by
    rw [insertView_embededController, h.named] at hd
    cases hd
    exact Or.inl (by simp)
  unnamed_empty hd := by
    rw [insertView_embededController, h.named] at hd
    cases hd
  named_other := by
    rw [insertView_embededController, h.named]
    simpa using h.other
  own_queue := h.own_queue

/-- Once the named controller has lost its parent, none is a child. -/
theorem Contained.childless {k old : C} {s : State C} (h : Contained k s)
    (hold : s.embededController k = some old) (c : C) :
    Function.update s.parent old none c ≠ some k := by
  intro hc
  by_cases hco : c = old
  · subst hco; simp at hc
  · rw [Function.update_of_ne hco] at hc
    exact hco (h.eq_of_child hold hc)

theorem Contained.ready_first {k c : C} {s : State C} (h : Contained k s) (hc : c ≠ k)
    (hnone : s.embededController k = none) : Ready k c (s.named k c) := by
  have hchild : ∀ d, s.parent d ≠ some k := by
    intro d hd
    have hn := h.child_named d hd
    rw [hnone] at hn
    cases hn
  refine ⟨by simp [State.named], fun d hd => absurd hd (hchild d), ?_, ?_, hc, h.own_queue⟩
  · intro d _ hin
    exact h.guest_leaving d hin (hchild d)
  · intro d _ hl
    exact (h.leaving_orphan d hl).resolve_right (hchild d)

theorem Contained.ready_leave {k c old : C} {s : State C} (h : Contained k s) (hc : c ≠ k)
    (hold : s.embededController k = some old) : Ready k c ((leave s old).named k c) := by
  have hchild : ∀ d, (leave s old).parent d ≠ some k := by
    intro d
    rw [leave_parent]
    exact h.childless hold d
  refine ⟨by simp [State.named], fun d hd => absurd hd (hchild d), ?_, ?_, hc, h.own_queue⟩
  · rintro d - ⟨w, hw, hk⟩
    have hdo : d ≠ old := by
      rintro rfl
      simp [State.named] at hw
    have hw' : s.superview d = some w := by
      simpa [State.named, Function.update_of_ne hdo] using hw
    refine h.guest_leaving d ⟨w, hw', hk⟩ fun hp => hchild d ?_
    rwa [leave_parent, Function.update_of_ne hdo]
  · intro d _ hl
    by_cases hdo : d = old
    · subst hdo; simp [State.named]
    · rcases h.leaving_orphan d hl with hp | hp
      · simpa [State.named, Function.update_of_ne hdo] using hp
      · exact absurd (h.eq_of_child hold hp) hdo

theorem Contained.disappear {k old c : C} {s : State C} {v : View C} (d p : ℚ)
    (useSafeArea : Bool) (h : Contained k s) (hold : s.embededController k = some old)
    (hc : c ≠ k) (hv : v.owner = k) :
    Contained k (runAfter ((disappear s old d).named k c) d (.insert k c v useSafeArea p)) where
  child_named e he := by
    have he' : Function.update s.parent old none e = some k := by
      simpa [runAfter, State.named] using he
    exact absurd he' (h.childless hold e)
  child_inside e he := by
    have he' : Function.update s.parent old none e = some k := by
      simpa [runAfter, State.named] using he
    exact absurd he' (h.childless hold e)
  guest_leaving e hin _ := by
    by_cases heo : e = old
    · subst heo
      exact pends_runAfter.mpr (Or.inl (pends_runAfter.mpr (Or.inr rfl)))
    · have hp : s.parent e ≠ some k := fun hp => heo (h.eq_of_child hold hp)
      exact pends_runAfter.mpr (Or.inl (pends_runAfter.mpr (Or.inl (h.guest_leaving e hin hp))))
  leaving_orphan e hl := by
    by_cases heo : e = old
    · subst heo; left; simp [runAfter, State.named]
    · have hl' : s.Leaving e := by
        rcases pends_runAfter.mp hl with hl | hl
        · exact (pends_runAfter.mp hl).resolve_right (by simpa using heo)
        · cases hl
      have hp := (h.leaving_orphan e hl').resolve_right fun hp => heo (h.eq_of_child hold hp)
      left
      simpa [runAfter, State.named, Function.update_of_ne heo] using hp
  named_arrives e he := by
    have hce : c = e := by simpa [runAfter, State.named] using he
    subst hce
    exact Or.inr ⟨v, useSafeArea, p, pends_runAfter.mpr (Or.inr rfl)⟩
  unnamed_empty he := by simp [runAfter, State.named] at he
  named_other := by simpa [runAfter, State.named] using hc
  own_queue closure hw := by
    rcases pends_runAfter.mp hw with hw | rfl
    · rcases pends_runAfter.mp hw with hw | rfl
      · exact h.own_queue closure hw
      · rintro rfl
        exact h.named_other hold
    · exact ⟨rfl, hc, hv⟩

/-- A call keeps the containment. -/
theorem Contained.embed {k c : C} {s : State C} {v : View C} (useSafeArea animated : Bool)
    (h : Contained k s) (hc : c ≠ k) (hv : v.owner = k) :
    Contained k (embed s k c v useSafeArea animated) := by
  rcases embed_cases s k c v useSafeArea animated with
    ⟨hnone, he⟩ | ⟨old, hold, -, he⟩ | ⟨old, hold, -, he⟩
  · rw [he]
    exact (h.ready_first hc hnone).insertView useSafeArea hv
  · rw [he]
    exact h.disappear _ _ useSafeArea hold hc hv
  · rw [he]
    exact (h.ready_leave hc hold).insertView useSafeArea hv

/-- A removal takes away the view of a controller that has no parent. -/
theorem Contained.remove_orphan {k c : C} {s : State C} {i : ℕ} {delay : ℚ} (h : Contained k s)
    (hi : s.pending[i]? = some ⟨delay, .remove c⟩) (hnone : s.parent c = none) :
    Contained k { s with
      toHierarchy := s.toHierarchy.removeFromSuperview c, pending := s.pending.eraseIdx i } := by
  have hinside : ∀ d w, Function.update s.superview c none d = some w → d ≠ c ∧
      s.superview d = some w := by
    intro d w hw
    by_cases hdc : d = c
    · subst hdc; simp at hw
    · exact ⟨hdc, by simpa [Function.update_of_ne hdc] using hw⟩
  refine ⟨?_, ?_, ?_, ?_, ?_, ?_, h.named_other, fun _ hw => h.own_queue _ (pends_of_eraseIdx hw)⟩
  · intro d hd
    exact h.child_named d (by simpa using hd)
  · intro d hd
    have hd' : s.parent d = some k := by simpa using hd
    have hdc : d ≠ c := by
      rintro rfl
      rw [hnone] at hd'
      cases hd'
    obtain ⟨w, hw, hk⟩ := h.child_inside d hd'
    exact ⟨w, by simpa [Function.update_of_ne hdc] using hw, hk⟩
  · rintro d ⟨w, hw, hk⟩ hnot
    obtain ⟨hdc, hw'⟩ := hinside d w (by simpa using hw)
    exact leaving_of_dequeued_removal hi hdc
      (h.guest_leaving d ⟨w, hw', hk⟩ (by simpa using hnot))
  · intro d hl
    simpa using h.leaving_orphan d (pends_of_eraseIdx hl)
  · intro d hd
    rcases h.named_arrives d hd with hp | hp
    · exact Or.inl (by simpa using hp)
    · exact Or.inr (arriving_of_dequeued_removal hi hp)
  · rintro hnamed d ⟨w, hw, hk⟩
    exact h.unnamed_empty hnamed d ⟨w, (hinside d w (by simpa using hw)).2, hk⟩

/-- A removal that fires takes away only a view that was due to leave. -/
theorem Contained.fire_remove {k c : C} {s : State C} {i : ℕ} {delay : ℚ} (h : Contained k s)
    (hi : s.pending[i]? = some ⟨delay, .remove c⟩) :
    Contained k ((Closure.remove c).fire { s with pending := s.pending.eraseIdx i }) := by
  simp only [Closure.fire]
  split
  · rename_i hnone
    exact h.remove_orphan hi hnone
  · rename_i hsome
    exact h.spare_child hi ((h.leaving_orphan c (pends_of_getElem? hi)).resolve_left hsome)

/-- An insertion that fires inserts the named controller, or does nothing. -/
theorem Contained.fire_insert {k self c : C} {s : State C} {v : View C} {useSafeArea : Bool}
    {i : ℕ} {delay p : ℚ} (h : Contained k s)
    (hi : s.pending[i]? = some ⟨delay, .insert self c v useSafeArea p⟩) :
    Contained k
      ((Closure.insert self c v useSafeArea p).fire
        { s with pending := s.pending.eraseIdx i }) := by
  obtain ⟨rfl, hck, hv⟩ := h.own_queue _ (pends_of_getElem? hi)
  have hstays : ∀ d, s.Leaving d →
      State.Leaving { s with pending := s.pending.eraseIdx i } d := by
    intro d hl
    exact (pends_eraseIdx hi hl).resolve_left (by simp)
  simp only [Closure.fire]
  split
  · rename_i hnamed
    have hready : Ready self c { s with pending := s.pending.eraseIdx i } := by
      refine ⟨hnamed, fun d hd => h.eq_of_child hnamed hd, ?_, ?_, hck,
        fun _ hw => h.own_queue _ (pends_of_eraseIdx hw)⟩
      · intro d hdc hin
        exact hstays d (h.guest_leaving d hin fun hp => hdc (h.eq_of_child hnamed hp))
      · intro d hdc hl
        exact (h.leaving_orphan d (pends_of_eraseIdx hl)).resolve_right
          fun hp => hdc (h.eq_of_child hnamed hp)
    have hin := hready.insertView useSafeArea hv
    exact ⟨hin.child_named, hin.child_inside, hin.guest_leaving, hin.leaving_orphan,
      hin.named_arrives, hin.unnamed_empty, hin.named_other, hin.own_queue⟩
  · rename_i hother
    refine ⟨h.child_named, h.child_inside, fun d hin hnot => hstays d (h.guest_leaving d hin hnot),
      fun d hl => h.leaving_orphan d (pends_of_eraseIdx hl), ?_, h.unnamed_empty,
      h.named_other, fun _ hw => h.own_queue _ (pends_of_eraseIdx hw)⟩
    · intro d hd
      have hdc : d ≠ c := by
        rintro rfl
        exact hother hd
      exact (h.named_arrives d hd).imp_right (arriving_of_dequeued_insertion hi hdc)

/-- Every event of the container keeps the containment. -/
theorem Contained.step {k : C} {s u : State C} {e : Event C} (h : Contained k s) (he : e.On k)
    (hu : step s e = some u) : Contained k u := by
  cases e with
  | embed self c v useSafeArea animated =>
    obtain ⟨rfl, hc, hv⟩ := he
    cases hu
    exact h.embed useSafeArea animated hc hv
  | fire i =>
    obtain ⟨⟨delay, closure⟩, hi, rfl⟩ := fire_cases hu
    cases closure with
    | remove c => exact h.fire_remove hi
    | insert self c v useSafeArea p => exact h.fire_insert hi

/-! ## Whole runs -/

/-- The controller of the last call is the named one, and its target a view of the container. -/
theorem named_of_lastCall {k : C} {s u : State C} {es : List (Event C)}
    (hes : ∀ e ∈ es, e.On k) (h : run step s es = some u) {c : C} {v : View C} {useSafeArea : Bool}
    (hlast : lastCall es = some (c, v, useSafeArea)) :
    u.embededController k = some c ∧ c ≠ k ∧ v.owner = k := by
  have hok : EveryStep step (fun _ _ e => e.On k) s es := EveryStep.of_forall_mem hes
  refine run_induction_where (P := fun es u => ∀ c v useSafeArea,
    lastCall es = some (c, v, useSafeArea) →
      u.embededController k = some c ∧ c ≠ k ∧ v.owner = k) ?_ ?_ hok h c v useSafeArea hlast
  · intro c v useSafeArea hnil
    cases hnil
  · intro es t e u hP he hu c v useSafeArea hlast
    rw [lastCall_snoc] at hlast
    cases e with
    | embed self c' v' safe animated =>
      obtain ⟨rfl, hc, hv⟩ := he
      cases hu
      cases hlast
      exact ⟨by simp, hc, hv⟩
    | fire i =>
      obtain ⟨waiting, -, rfl⟩ := fire_cases hu
      rw [fire_embededController]
      exact hP c v useSafeArea hlast

theorem contained_of_run {k : C} {s u : State C} {es : List (Event C)} (hs : Vacant k s)
    (hes : ∀ e ∈ es, e.On k) (h : run step s es = some u) : Contained k u := by
  have hok : EveryStep step (fun _ _ e => e.On k) s es := EveryStep.of_forall_mem hes
  refine run_induction_where (P := fun _ => Contained k) hs.contained ?_ hok h
  intro _ t e u hP he hu
  exact hP.step he hu

/-- However the calls and the closures interleave: the container has at most one child, the
one that it names; a view inside that is not the child's waits for its removal; and once
nothing waits, the controller of the last call is the only child and the only view inside. -/
theorem containment_survives_every_interleaving {k : C} {s u : State C} {es : List (Event C)}
    (hs : Vacant k s) (hes : ∀ e ∈ es, e.On k) (h : run step s es = some u) :
    (∀ c d, u.parent c = some k → u.parent d = some k → c = d) ∧
    (∀ c, u.parent c = some k → u.embededController k = some c) ∧
    (∀ c, u.Inside k c → u.parent c ≠ some k → u.Leaving c) ∧
    (∀ c v useSafeArea, lastCall es = some (c, v, useSafeArea) → u.pending = [] →
      u.embededController k = some c ∧ (∀ d, u.parent d = some k ↔ d = c) ∧
        ∀ d, u.Inside k d ↔ d = c) := by
  have hu := contained_of_run hs hes h
  refine ⟨?_, hu.child_named, hu.guest_leaving, ?_⟩
  · intro c d hc hd
    exact hu.eq_of_child (hu.child_named d hd) hc
  · intro c v useSafeArea hlast hquiet
    have hnamed := (named_of_lastCall hes h hlast).1
    have hchild : u.parent c = some k := by
      rcases hu.named_arrives c hnamed with hp | ⟨w, safe, d, hd⟩
      · exact hp
      · exact absurd hd (not_pends_of_nil hquiet _)
    refine ⟨hnamed, fun d => ⟨fun hd => hu.eq_of_child hnamed hd, ?_⟩, fun d => ⟨?_, ?_⟩⟩
    · rintro rfl
      exact hchild
    · intro hin
      by_contra hdc
      have hl := hu.guest_leaving d hin fun hp => hdc (hu.eq_of_child hnamed hp)
      exact not_pends_of_nil hquiet _ hl
    · rintro rfl
      exact hu.child_inside d hchild

/-- Controller 1 gives way to 2, and 2 to 1 again, before any closure fires. -/
theorem containment_survives_a_return :
    ∃ u : State ℕ, run step State.apart
        [.embed 0 1 (.root 0) false true, .embed 0 2 (.root 0) false true,
          .embed 0 1 (.root 0) false true, .fire 3, .fire 0, .fire 1, .fire 0] = some u ∧
      u.embededController 0 = some 1 ∧ (∀ d, u.parent d = some 0 ↔ d = 1) ∧
        ∀ d, u.Inside 0 d ↔ d = 1 := by
  obtain ⟨u, hu⟩ : ∃ u : State ℕ, run step State.apart
      [.embed 0 1 (.root 0) false true, .embed 0 2 (.root 0) false true,
        .embed 0 1 (.root 0) false true, .fire 3, .fire 0, .fire 1, .fire 0] = some u :=
    ⟨_, rfl⟩
  have hquiet : u.pending = [] := by cases hu; rfl
  exact ⟨u, hu, (containment_survives_every_interleaving (vacant_apart 0)
    (by simp [Event.On]) hu).2.2.2 1 (.root 0) false rfl hquiet⟩

end HateBlocker
