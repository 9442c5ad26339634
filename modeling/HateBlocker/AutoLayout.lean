-- Layout constraints and their meaning: a constraint ties one edge of a frame to
-- an edge of another. The leading and trailing edges depend on the direction
-- that the text is read in, the left and right edges do not.
import Mathlib.Data.Rat.Defs
import Mathlib.Algebra.Order.Field.Rat
import Mathlib.Tactic.Linarith

namespace AutoLayout

/-! ## Frames -/

/-- A frame, with the y axis pointing down. -/
@[ext] structure Rect where
  x : ℚ
  y : ℚ
  width : ℚ
  height : ℚ
  width_nonneg : 0 ≤ width
  height_nonneg : 0 ≤ height

namespace Rect

def left (r : Rect) : ℚ := r.x
def right (r : Rect) : ℚ := r.x + r.width
def top (r : Rect) : ℚ := r.y
def bottom (r : Rect) : ℚ := r.y + r.height

end Rect

inductive Direction
  | leftToRight
  | rightToLeft
  deriving DecidableEq

inductive Attribute
  | left
  | right
  | top
  | bottom
  | leading
  | trailing
  deriving DecidableEq

/-- Where an edge lies on its axis. The axis of the leading and trailing edges points in the
reading direction. -/
def Rect.position (d : Direction) (r : Rect) : Attribute → ℚ
  | .left => r.left
  | .right => r.right
  | .top => r.top
  | .bottom => r.bottom
  | .leading =>
    match d with
    | .leftToRight => r.left
    | .rightToLeft => -r.right
  | .trailing =>
    match d with
    | .leftToRight => r.right
    | .rightToLeft => -r.left

/-! ## Constraints -/

inductive Relation
  | equal
  | greaterThanOrEqual
  | lessThanOrEqual
  deriving DecidableEq

/-- `a` stands in the relation to `b`. -/
def Relation.Holds : Relation → ℚ → ℚ → Prop
  | .equal, a, b => a = b
  | .greaterThanOrEqual, a, b => b ≤ a
  | .lessThanOrEqual, a, b => a ≤ b

structure Constraint (I : Type) where
  firstItem : I
  firstAttribute : Attribute
  relation : Relation
  secondItem : I
  secondAttribute : Attribute
  multiplier : ℚ
  constant : ℚ
  priority : ℚ
  deriving DecidableEq

/-- What a constraint can refer to: a view, the safe area of a view, or the layout guides of
the controller that has the view as its root view. -/
inductive Item (V : Type)
  | view (v : V)
  | safeAreaLayoutGuide (v : V)
  | topLayoutGuide (v : V)
  | bottomLayoutGuide (v : V)
  deriving DecidableEq

/-- The view that an item belongs to. -/
def Item.base {V : Type} : Item V → V
  | .view v => v
  | .safeAreaLayoutGuide v => v
  | .topLayoutGuide v => v
  | .bottomLayoutGuide v => v

/-- The constraint is one between `a` and `b`. -/
def Constraint.ties {V : Type} [DecidableEq V] (a b : V) (c : Constraint (Item V)) : Bool :=
  (c.firstItem.base = a && c.secondItem.base = b) ||
    (c.firstItem.base = b && c.secondItem.base = a)

/-- The priority of a constraint that the layout must meet. -/
def requiredPriority : ℚ := 1000

variable {I : Type}

def Constraint.Holds (d : Direction) (frame : I → Rect) (c : Constraint I) : Prop :=
  c.relation.Holds ((frame c.firstItem).position d c.firstAttribute)
    (c.multiplier * (frame c.secondItem).position d c.secondAttribute + c.constant)

/-- The frames meet every required constraint of the list. -/
def Satisfies (d : Direction) (frame : I → Rect) (cs : List (Constraint I)) : Prop :=
  ∀ c ∈ cs, c.priority = requiredPriority → c.Holds d frame

@[simp] theorem satisfies_nil (d : Direction) (frame : I → Rect) :
    Satisfies d frame [] := by
  simp [Satisfies]

@[simp] theorem satisfies_append (d : Direction) (frame : I → Rect) (cs ds : List (Constraint I)) :
    Satisfies d frame (cs ++ ds) ↔ Satisfies d frame cs ∧ Satisfies d frame ds := by
  simp only [Satisfies, List.mem_append]
  constructor
  · intro h
    exact ⟨fun c hc => h c (Or.inl hc), fun c hc => h c (Or.inr hc)⟩
  · rintro ⟨h1, h2⟩ c (hc | hc)
    · exact h1 c hc
    · exact h2 c hc

/-! ## Relations and insets -/

/-- A constraint on a position is a constraint on the distance to the other position. -/
theorem Relation.holds_iff_inset (r : Relation) (a b c : ℚ) :
    r.Holds a (1 * b + c) ↔ r.Holds (a - b) c := by
  cases r
  · simp only [Relation.Holds]; constructor <;> intro h <;> linarith
  · simp only [Relation.Holds]; constructor <;> intro h <;> linarith
  · simp only [Relation.Holds]; constructor <;> intro h <;> linarith

theorem Relation.holds_self (r : Relation) (a : ℚ) : r.Holds a a := by
  cases r <;> simp [Relation.Holds]

/-- Every relation fails for some value. -/
theorem Relation.exists_not_holds (r : Relation) (c : ℚ) : ∃ a, ¬ r.Holds a c := by
  cases r
  · exact ⟨c + 1, by simp [Relation.Holds]⟩
  · exact ⟨c - 1, by simp [Relation.Holds]⟩
  · exact ⟨c + 1, by simp [Relation.Holds]⟩

/-- For every four insets there are a frame and a frame around it with these insets. -/
theorem exists_insets (left top right bottom : ℚ) :
    ∃ inner outer : Rect, inner.left - outer.left = left ∧ inner.top - outer.top = top ∧
      outer.right - inner.right = right ∧ outer.bottom - inner.bottom = bottom := by
  have hw : 0 ≤ |left| + |right| - left - right := by
    linarith [le_abs_self left, le_abs_self right]
  have hh : 0 ≤ |top| + |bottom| - top - bottom := by
    linarith [le_abs_self top, le_abs_self bottom]
  refine ⟨⟨left, top, _, _, hw, hh⟩,
    ⟨0, 0, |left| + |right|, |top| + |bottom|, by positivity, by positivity⟩, ?_, ?_, ?_, ?_⟩
  all_goals simp only [Rect.left, Rect.top, Rect.right, Rect.bottom]
  all_goals linarith

end AutoLayout
