-- The part of UIKit that embedding one controller in another touches: parents,
-- superviews, layers and the constraints between a view and its superview.
import HateBlocker.AutoLayout
import Mathlib.Logic.Function.Basic

open AutoLayout

namespace UIKit

/-! ## Views -/

/-- A view is the root view of a controller or a subview that its controller made itself.
Only root views ever move. -/
inductive View (C : Type)
  | root (c : C)
  | sub (v : View C) (index : ℕ)
  deriving DecidableEq

variable {C : Type}

/-- The controller whose own view tree holds the view. -/
def View.owner : View C → C
  | .root c => c
  | .sub v _ => v.owner

def View.isRoot : View C → Bool
  | .root _ => true
  | .sub _ _ => false

@[simp] theorem View.owner_root (c : C) : (View.root c).owner = c := rfl
@[simp] theorem View.owner_sub (v : View C) (i : ℕ) : (View.sub v i).owner = v.owner := rfl

/-! ## The state -/

structure KeyframeAnimation where
  values : List ℚ
  duration : ℚ
  keyTimes : List ℚ
  deriving DecidableEq

/-- The layer of a root view, with the animation under the key `opacityAnimation`. -/
structure Layer where
  opacity : ℚ
  opacityAnimation : Option KeyframeAnimation
  deriving DecidableEq

/-- Where each controller and its root view stand. -/
structure Hierarchy (C : Type) where
  parent : C → Option C
  superview : C → Option (View C)
  layer : C → Layer
  constraints : List (Constraint (Item (View C)))

namespace Hierarchy

/-- The superview of any view. -/
def superviewOf (h : Hierarchy C) : View C → Option (View C)
  | .root c => h.superview c
  | .sub v _ => some v

variable [DecidableEq C]

/-- The constraints between two views. -/
def tiesBetween (h : Hierarchy C) (a b : View C) : List (Constraint (Item (View C))) :=
  h.constraints.filter (Constraint.ties a b)

/-! ## The operations -/

/-- A root view that leaves its superview loses the constraints between the two. -/
def dropTies (h : Hierarchy C) (c : C) : Hierarchy C :=
  match h.superview c with
  | none => h
  | some v => { h with constraints := h.constraints.filter (fun k => !k.ties (.root c) v) }

def removeFromSuperview (h : Hierarchy C) (c : C) : Hierarchy C :=
  { h.dropTies c with superview := Function.update h.superview c none }

/-- `addSubview` moves the root view of `c` to `v`. A view that is in `v` already stays there
with its constraints, and only comes to the front. -/
def addSubview (h : Hierarchy C) (v : View C) (c : C) : Hierarchy C :=
  if h.superview c = some v then h
  else { h.dropTies c with superview := Function.update h.superview c (some v) }

/-- `addChild` takes the child from the parent that it had before. -/
def addChild (h : Hierarchy C) (self c : C) : Hierarchy C :=
  { h with parent := Function.update h.parent c (some self) }

def removeFromParent (h : Hierarchy C) (c : C) : Hierarchy C :=
  { h with parent := Function.update h.parent c none }

def setLayer (h : Hierarchy C) (c : C) (l : Layer) : Hierarchy C :=
  { h with layer := Function.update h.layer c l }

def addConstraints (h : Hierarchy C) (cs : List (Constraint (Item (View C)))) : Hierarchy C :=
  { h with constraints := h.constraints ++ cs }

/-! ## What each operation changes -/

@[simp] theorem dropTies_parent (h : Hierarchy C) (c : C) : (h.dropTies c).parent = h.parent := by
  unfold dropTies; split <;> rfl

@[simp] theorem dropTies_superview (h : Hierarchy C) (c : C) :
    (h.dropTies c).superview = h.superview := by
  unfold dropTies; split <;> rfl

@[simp] theorem dropTies_layer (h : Hierarchy C) (c : C) : (h.dropTies c).layer = h.layer := by
  unfold dropTies; split <;> rfl

@[simp] theorem removeFromSuperview_parent (h : Hierarchy C) (c : C) :
    (h.removeFromSuperview c).parent = h.parent := by
  simp [removeFromSuperview]

@[simp] theorem removeFromSuperview_superview (h : Hierarchy C) (c : C) :
    (h.removeFromSuperview c).superview = Function.update h.superview c none := rfl

@[simp] theorem removeFromSuperview_layer (h : Hierarchy C) (c : C) :
    (h.removeFromSuperview c).layer = h.layer := by
  simp [removeFromSuperview]

@[simp] theorem removeFromSuperview_constraints (h : Hierarchy C) (c : C) :
    (h.removeFromSuperview c).constraints = (h.dropTies c).constraints := rfl

@[simp] theorem addSubview_parent (h : Hierarchy C) (v : View C) (c : C) :
    (h.addSubview v c).parent = h.parent := by
  unfold addSubview; split <;> simp

@[simp] theorem addSubview_superview (h : Hierarchy C) (v : View C) (c : C) :
    (h.addSubview v c).superview = Function.update h.superview c (some v) := by
  unfold addSubview
  split
  · rename_i hv
    rw [← hv, Function.update_eq_self]
  · rfl

@[simp] theorem addSubview_layer (h : Hierarchy C) (v : View C) (c : C) :
    (h.addSubview v c).layer = h.layer := by
  unfold addSubview; split <;> simp

theorem addSubview_constraints_of_ne {h : Hierarchy C} {v : View C} {c : C}
    (hv : h.superview c ≠ some v) :
    (h.addSubview v c).constraints = (h.dropTies c).constraints := by
  simp [addSubview, hv]

/-- After it left its superview, a root view has no constraint with that superview. -/
theorem tiesBetween_dropTies_self {h : Hierarchy C} {c : C} {v : View C}
    (hv : h.superview c = some v) : (h.dropTies c).tiesBetween (.root c) v = [] := by
  simp only [dropTies, hv, tiesBetween, List.filter_filter, List.filter_eq_nil_iff]
  intro k _
  simp

/-- The constraints of other root views stay. -/
theorem tiesBetween_dropTies_of_ne {h : Hierarchy C} {c d : C} {v : View C} (hdc : d ≠ c)
    (hv : v ≠ .root d) : (h.dropTies d).tiesBetween (.root c) v = h.tiesBetween (.root c) v := by
  unfold dropTies
  split
  · rfl
  · simp only [tiesBetween, List.filter_filter]
    apply List.filter_congr
    intro k _
    by_cases hk : k.ties (.root c) v = true
    · have hroot : View.root c ≠ View.root d := by simpa using hdc.symm
      simp only [Constraint.ties, Bool.or_eq_true, Bool.and_eq_true, decide_eq_true_eq] at hk
      rcases hk with ⟨h1, h2⟩ | ⟨h1, h2⟩
      · simp [Constraint.ties, h1, h2, hroot, hv]
      · simp [Constraint.ties, h1, h2, hroot, hv]
    · simp [hk]

/-- Constraints are only ever dropped. -/
theorem tiesBetween_dropTies_nil {h : Hierarchy C} {a b : View C} (c : C)
    (hnil : h.tiesBetween a b = []) : (h.dropTies c).tiesBetween a b = [] := by
  unfold dropTies
  split
  · exact hnil
  · simp only [tiesBetween, List.filter_eq_nil_iff] at hnil ⊢
    intro k hk
    exact hnil k (List.mem_filter.mp hk).1

end Hierarchy

end UIKit
