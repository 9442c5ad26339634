-- `ContainerController.embed` and the closures that it hands to `runAfter`. A
-- call changes the state at once and leaves closures behind, and each of them
-- fires later, in any order, on the state that it then finds.
import HateBlocker.Runs
import HateBlocker.UIKit
import HateBlocker.UIViewExtension

open AutoLayout UIKit

namespace HateBlocker

/-! ## The state -/

/-- The two closures of an animated call: the guarded removal of the old view, and the guarded
insertion of the new one. -/
inductive Closure (C : Type)
  | remove (controller : C)
  | insert (self controller : C) (view : View C) (useSafeArea : Bool) (fadeInDuration : ℚ)
  deriving DecidableEq

/-- A closure with the delay that `runAfter` was given. -/
structure Scheduled (C : Type) where
  delay : ℚ
  closure : Closure C

structure State (C : Type) extends Hierarchy C where
  embededController : C → Option C
  pending : List (Scheduled C)

variable {C : Type}

/-- The closure was scheduled and has not fired. -/
def State.Pends (s : State C) (closure : Closure C) : Prop :=
  ∃ delay, ⟨delay, closure⟩ ∈ s.pending

def runAfter (s : State C) (delay : ℚ) (closure : Closure C) : State C :=
  { s with pending := s.pending ++ [⟨delay, closure⟩] }

@[simp] theorem pends_runAfter {s : State C} {delay : ℚ} {k k' : Closure C} :
    (runAfter s delay k).Pends k' ↔ s.Pends k' ∨ k' = k := by
  simp only [State.Pends, runAfter, List.mem_append, List.mem_singleton, Scheduled.mk.injEq]
  constructor
  · rintro ⟨d, hd | ⟨-, rfl⟩⟩
    · exact Or.inl ⟨d, hd⟩
    · exact Or.inr rfl
  · rintro (⟨d, hd⟩ | rfl)
    · exact ⟨d, Or.inl hd⟩
    · exact ⟨delay, Or.inr ⟨rfl, rfl⟩⟩

/-- Only the closure that fires stops waiting. -/
theorem pends_eraseIdx {s : State C} {i : ℕ} {waiting : Scheduled C} {k : Closure C}
    (hi : s.pending[i]? = some waiting) (hk : s.Pends k) :
    k = waiting.closure ∨ { s with pending := s.pending.eraseIdx i }.Pends k := by
  obtain ⟨d, hd⟩ := hk
  obtain ⟨j, hj⟩ := List.mem_iff_getElem?.mp hd
  by_cases hij : j = i
  · subst hij
    rw [hi] at hj
    left
    cases hj
    rfl
  · right
    exact ⟨d, List.mem_eraseIdx_iff_getElem?.mpr ⟨j, hij, hj⟩⟩

theorem pends_of_eraseIdx {s : State C} {i : ℕ} {k : Closure C}
    (hk : { s with pending := s.pending.eraseIdx i }.Pends k) : s.Pends k := by
  obtain ⟨d, hd⟩ := hk
  exact ⟨d, List.mem_of_mem_eraseIdx hd⟩

theorem pends_of_getElem? {s : State C} {i : ℕ} {waiting : Scheduled C}
    (hi : s.pending[i]? = some waiting) : s.Pends waiting.closure :=
  ⟨waiting.delay, List.mem_of_getElem? hi⟩

theorem not_pends_of_nil {s : State C} (h : s.pending = []) (k : Closure C) : ¬ s.Pends k := by
  rintro ⟨d, hd⟩
  simp [h] at hd

variable [DecidableEq C]

/-- `attach(left: 0, top: 0, right: 0, bottom: 0)` of the root view of `controller`, or the same
of `attachToSafeArea`. -/
def edgeConstraints (superview : Option (View C)) (controller : C) (useSafeArea : Bool) :
    List (Constraint (Item (View C))) :=
  let zero := some (LayoutSpecifier.ofInt 0)
  if useSafeArea then
    attachToSafeArea true View.isRoot (.root controller) superview none zero zero zero zero
  else attach (.root controller) superview none zero zero zero zero requiredPriority

/-- The insertion that both branches of `embed` share. -/
def insertView (s : State C) (self controller : C) (view : View C) (useSafeArea : Bool) :
    State C :=
  let h := (s.toHierarchy.addSubview view controller).addChild self controller
  { s with
    toHierarchy :=
      h.addConstraints (edgeConstraints (h.superviewOf (.root controller)) controller useSafeArea) }

/-- The old controller of an animated call fades out and loses its parent, but keeps its
superview for now. -/
def disappear (s : State C) (controller : C) (fadeOutDuration : ℚ) : State C :=
  let h := s.toHierarchy.setLayer controller
    ⟨0, some ⟨[1, 0], fadeOutDuration, [0, 1]⟩⟩
  runAfter { s with toHierarchy := h.removeFromParent controller } fadeOutDuration
    (.remove controller)

/-- The old controller of a call that is not animated leaves at once. -/
def leave (s : State C) (controller : C) : State C :=
  let h := s.toHierarchy.removeFromParent controller
  { s with
    toHierarchy := if h.parent controller = none then h.removeFromSuperview controller else h }

/-- `embed(controller:toView:useSafeArea:animated:)` of the container `self`. -/
def embed (s : State C) (self controller : C) (view : View C) (useSafeArea animated : Bool) :
    State C :=
  let fadeOutDuration : ℚ := if animated then 1 / 10 else 0
  let fadeInDuration : ℚ := if animated then 3 / 20 else 0
  let faded :=
    match s.embededController self, animated with
    | some old, true => disappear s old fadeOutDuration
    | some old, false => leave s old
    | none, _ => s
  let previous := faded.embededController self
  let named :=
    { faded with
      embededController := Function.update faded.embededController self (some controller) }
  if previous = none ∨ animated = false then insertView named self controller view useSafeArea
  else runAfter named fadeOutDuration (.insert self controller view useSafeArea fadeInDuration)

/-- What a closure does when it fires. -/
def Closure.fire (s : State C) : Closure C → State C
  | .remove controller =>
    if s.parent controller = none then
      { s with toHierarchy := s.toHierarchy.removeFromSuperview controller }
    else s
  | .insert self controller view useSafeArea fadeInDuration =>
    if s.embededController self = some controller then
      let t := insertView s self controller view useSafeArea
      { t with
        toHierarchy := t.toHierarchy.setLayer controller
          ⟨1, some ⟨[0, 1], fadeInDuration, [2 / 5, 1]⟩⟩ }
    else s

/-- Every controller on its own, with an opaque view that lies nowhere. -/
def State.apart : State C where
  parent _ := none
  superview _ := none
  layer _ := ⟨1, none⟩
  constraints := []
  embededController _ := none
  pending := []

/-- A call of `embed`, or the firing of the `i`-th closure that waits. -/
inductive Event (C : Type)
  | embed (self controller : C) (view : View C) (useSafeArea animated : Bool)
  | fire (i : ℕ)
  deriving DecidableEq

def step (s : State C) : Event C → Option (State C)
  | .embed self controller view useSafeArea animated =>
    some (embed s self controller view useSafeArea animated)
  | .fire i =>
    match s.pending[i]? with
    | some waiting => some (waiting.closure.fire { s with pending := s.pending.eraseIdx i })
    | none => none

/-! ## What the parts of a call change -/

section Parts

variable (s : State C) (self c : C) (v : View C) (useSafeArea : Bool) (d : ℚ)

@[simp] theorem insertView_parent :
    (insertView s self c v useSafeArea).parent = Function.update s.parent c (some self) := by
  simp [insertView, Hierarchy.addChild, Hierarchy.addConstraints]

@[simp] theorem insertView_superview :
    (insertView s self c v useSafeArea).superview = Function.update s.superview c (some v) := by
  simp [insertView, Hierarchy.addChild, Hierarchy.addConstraints]

@[simp] theorem insertView_layer : (insertView s self c v useSafeArea).layer = s.layer := by
  simp [insertView, Hierarchy.addChild, Hierarchy.addConstraints]

@[simp] theorem insertView_embededController :
    (insertView s self c v useSafeArea).embededController = s.embededController := rfl

@[simp] theorem insertView_pending :
    (insertView s self c v useSafeArea).pending = s.pending := rfl

theorem insertView_constraints :
    (insertView s self c v useSafeArea).constraints =
      (s.addSubview v c).constraints ++ edgeConstraints (some v) c useSafeArea := by
  simp [insertView, Hierarchy.addChild, Hierarchy.addConstraints, Hierarchy.superviewOf]

@[simp] theorem disappear_parent :
    (disappear s c d).parent = Function.update s.parent c none := rfl

@[simp] theorem disappear_superview : (disappear s c d).superview = s.superview := rfl

@[simp] theorem disappear_layer :
    (disappear s c d).layer = Function.update s.layer c ⟨0, some ⟨[1, 0], d, [0, 1]⟩⟩ := rfl

@[simp] theorem disappear_constraints : (disappear s c d).constraints = s.constraints := rfl

@[simp] theorem disappear_embededController :
    (disappear s c d).embededController = s.embededController := rfl

@[simp] theorem disappear_pending :
    (disappear s c d).pending = s.pending ++ [⟨d, .remove c⟩] := rfl

/-- The guard of `leave` always holds: the parent has just been taken away. -/
theorem leave_eq :
    leave s c = { s with
      toHierarchy := (s.toHierarchy.removeFromParent c).removeFromSuperview c } := by
  simp [leave, Hierarchy.removeFromParent]

@[simp] theorem leave_parent : (leave s c).parent = Function.update s.parent c none := by
  simp [leave_eq, Hierarchy.removeFromParent]

@[simp] theorem leave_superview :
    (leave s c).superview = Function.update s.superview c none := by
  simp [leave_eq, Hierarchy.removeFromParent]

@[simp] theorem leave_layer : (leave s c).layer = s.layer := by
  simp [leave_eq, Hierarchy.removeFromParent]

@[simp] theorem leave_embededController :
    (leave s c).embededController = s.embededController := rfl

@[simp] theorem leave_pending : (leave s c).pending = s.pending := rfl

theorem leave_constraints : (leave s c).constraints = (s.dropTies c).constraints := by
  simp only [leave_eq, Hierarchy.removeFromSuperview_constraints, Hierarchy.dropTies,
    Hierarchy.removeFromParent]
  split <;> rfl

end Parts

/-! ## What a call does -/

/-- `embededController` of `self` set to `c`. -/
def State.named (s : State C) (self c : C) : State C :=
  { s with embededController := Function.update s.embededController self (some c) }

section Calls

variable {s : State C} {self c old : C} {v : View C} {useSafeArea animated : Bool}

/-- The first call inserts at once. -/
theorem embed_first (h : s.embededController self = none) :
    embed s self c v useSafeArea animated = insertView (s.named self c) self c v useSafeArea := by
  simp [embed, h, State.named]

/-- An animated call that replaces `old` only schedules the removal and the insertion. -/
theorem embed_animated (h : s.embededController self = some old) :
    embed s self c v useSafeArea true =
      runAfter ((disappear s old (1 / 10)).named self c) (1 / 10)
        (.insert self c v useSafeArea (3 / 20)) := by
  simp [embed, h, State.named]

/-- A call that is not animated removes `old` and inserts at once. -/
theorem embed_immediate (h : s.embededController self = some old) :
    embed s self c v useSafeArea false =
      insertView ((leave s old).named self c) self c v useSafeArea := by
  simp [embed, h, State.named]

/-- The three kinds of call. -/
theorem embed_cases (s : State C) (self c : C) (v : View C) (useSafeArea animated : Bool) :
    (s.embededController self = none ∧
      embed s self c v useSafeArea animated =
        insertView (s.named self c) self c v useSafeArea) ∨
    (∃ old, s.embededController self = some old ∧ animated = true ∧
      embed s self c v useSafeArea animated =
        runAfter ((disappear s old (1 / 10)).named self c) (1 / 10)
          (.insert self c v useSafeArea (3 / 20))) ∨
    (∃ old, s.embededController self = some old ∧ animated = false ∧
      embed s self c v useSafeArea animated =
        insertView ((leave s old).named self c) self c v useSafeArea) := by
  cases h : s.embededController self with
  | none => exact Or.inl ⟨rfl, embed_first h⟩
  | some old =>
    cases animated with
    | true => exact Or.inr (Or.inl ⟨old, rfl, rfl, embed_animated h⟩)
    | false => exact Or.inr (Or.inr ⟨old, rfl, rfl, embed_immediate h⟩)

/-- A call always names its own controller. -/
@[simp] theorem embed_embededController :
    (embed s self c v useSafeArea animated).embededController =
      Function.update s.embededController self (some c) := by
  rcases embed_cases s self c v useSafeArea animated with
    ⟨-, he⟩ | ⟨old, -, -, he⟩ | ⟨old, -, -, he⟩
  all_goals rw [he]
  all_goals simp [State.named, runAfter]

end Calls

/-! ## What a firing does -/

/-- The `i`-th waiting closure leaves the queue and runs. -/
theorem fire_cases {s u : State C} {i : ℕ} (h : step s (.fire i) = some u) :
    ∃ waiting, s.pending[i]? = some waiting ∧
      u = waiting.closure.fire { s with pending := s.pending.eraseIdx i } := by
  simp only [step] at h
  split at h
  · rename_i waiting hw
    exact ⟨waiting, hw, by simpa using h.symm⟩
  · cases h

/-- A firing never touches the queue or `embededController`. -/
@[simp] theorem fire_pending (s : State C) (k : Closure C) : (k.fire s).pending = s.pending := by
  cases k <;> simp only [Closure.fire] <;> split <;> rfl

@[simp] theorem fire_embededController (s : State C) (k : Closure C) :
    (k.fire s).embededController = s.embededController := by
  cases k <;> simp only [Closure.fire] <;> split <;> rfl

end HateBlocker
