-- The two helpers that tie the edges of a view to a target, `attach` and
-- `attachToSafeArea`. The first builds constraints from attributes, the second
-- from anchors, and its left edge is the leading anchor.
import HateBlocker.AutoLayout

open AutoLayout

namespace HateBlocker

/-! ## The constraints that the helpers add -/

/-- A number with a relation, as an `Int`, a `Double` or a string such as `">=8"` gives it. -/
structure LayoutSpecifier where
  layoutRelation : Relation
  layoutConstant : ℚ
  deriving DecidableEq

/-- The specifier of an integer literal. -/
def LayoutSpecifier.ofInt (n : Int) : LayoutSpecifier := ⟨.equal, n⟩

variable {V : Type}

/-- The initializer of `NSLayoutConstraint`, then the priority. -/
def layoutConstraint (item : V) (attr : Attribute) (relatedBy : Relation) (toItem : V)
    (toAttribute : Attribute) (constant priority : ℚ) : Constraint (Item V) :=
  ⟨.view item, attr, relatedBy, .view toItem, toAttribute, 1, constant, priority⟩

/-- `attach(toView:left:top:right:bottom:priority:)` of `self`: the constraints that it adds
to the superview. -/
def attach (self : V) (superview toView : Option V)
    (left top right bottom : Option LayoutSpecifier) (priority : ℚ) :
    List (Constraint (Item V)) :=
  match toView <|> superview, superview with
  | some view, some _ =>
    (left.map fun s => layoutConstraint self .left s.layoutRelation view .left
      s.layoutConstant priority).toList ++
    (top.map fun s => layoutConstraint self .top s.layoutRelation view .top
      s.layoutConstant priority).toList ++
    (right.map fun s => layoutConstraint view .right s.layoutRelation self .right
      s.layoutConstant priority).toList ++
    (bottom.map fun s => layoutConstraint view .bottom s.layoutRelation self .bottom
      s.layoutConstant priority).toList
  | _, _ => []

/-- An edge of an item that constraints are built from. -/
structure LayoutAnchor (V : Type) where
  item : Item V
  attr : Attribute

/-- `constraint(equalTo:constant:)` and its two siblings, at required priority. -/
def LayoutAnchor.constraintRelated (a : LayoutAnchor V) (relation : Relation)
    (anchor : LayoutAnchor V) (constant : ℚ) : Constraint (Item V) :=
  ⟨a.item, a.attr, relation, anchor.item, anchor.attr, 1, constant, requiredPriority⟩

/-- `constraint(to:relation:constant:)`, the same for both axes. -/
def LayoutAnchor.constraint (a anchor : LayoutAnchor V) (relation : Relation) (constant : ℚ) :
    Constraint (Item V) :=
  match relation with
  | .equal => a.constraintRelated .equal anchor constant
  | .greaterThanOrEqual => a.constraintRelated .greaterThanOrEqual anchor constant
  | .lessThanOrEqual => a.constraintRelated .lessThanOrEqual anchor constant

/-- `attachToSafeArea(toView:left:top:right:bottom:)` of `self`: the constraints that it adds
to the superview. `iOS11` is the availability check, and `isRoot` tells the root views of
controllers from other views. -/
def attachToSafeArea (iOS11 : Bool) (isRoot : V → Bool) (self : V) (superview toView : Option V)
    (left top right bottom : Option LayoutSpecifier) : List (Constraint (Item V)) :=
  match toView <|> superview, superview with
  | some view, some _ =>
    (left.map fun s =>
      let guide := if iOS11 then .safeAreaLayoutGuide view else .view view
      LayoutAnchor.constraint ⟨.view self, .leading⟩ ⟨guide, .leading⟩
        s.layoutRelation s.layoutConstant).toList ++
    (top.map fun s =>
      let guide : LayoutAnchor V :=
        if iOS11 then ⟨.safeAreaLayoutGuide view, .top⟩
        else if isRoot view then ⟨.topLayoutGuide view, .bottom⟩
        else ⟨.view view, .top⟩
      LayoutAnchor.constraint ⟨.view self, .top⟩ guide
        s.layoutRelation s.layoutConstant).toList ++
    (right.map fun s =>
      let guide := if iOS11 then .safeAreaLayoutGuide view else .view view
      LayoutAnchor.constraint ⟨guide, .right⟩ ⟨.view self, .right⟩
        s.layoutRelation s.layoutConstant).toList ++
    (bottom.map fun s =>
      let guide : LayoutAnchor V :=
        if iOS11 then ⟨.safeAreaLayoutGuide view, .bottom⟩
        else if isRoot view then ⟨.bottomLayoutGuide view, .top⟩
        else ⟨.view view, .bottom⟩
      LayoutAnchor.constraint guide ⟨.view self, .bottom⟩
        s.layoutRelation s.layoutConstant).toList
  | _, _ => []

@[simp] theorem LayoutAnchor.constraint_eq (a anchor : LayoutAnchor V) (relation : Relation)
    (constant : ℚ) :
    a.constraint anchor relation constant = a.constraintRelated relation anchor constant := by
  cases relation <;> rfl

/-- Every constraint of `attach` has the priority that the call asks for. -/
theorem priority_of_attach {self : V} {superview toView : Option V}
    {left top right bottom : Option LayoutSpecifier} {priority : ℚ} :
    ∀ c ∈ attach self superview toView left top right bottom priority, c.priority = priority := by
  intro c hc
  unfold attach at hc
  split at hc
  · simp only [List.mem_append, Option.mem_toList, Option.map_eq_some_iff] at hc
    rcases hc with ((⟨_, -, rfl⟩ | ⟨_, -, rfl⟩) | ⟨_, -, rfl⟩) | ⟨_, -, rfl⟩ <;> rfl
  · simp at hc

/-! ## What the constraints say about the insets -/

/-- The inset of one edge stands in the relation of its specifier, when there is one. -/
def InsetMet (inset : ℚ) (spec : Option LayoutSpecifier) : Prop :=
  ∀ s, spec = some s → s.layoutRelation.Holds inset s.layoutConstant

/-- Each given edge of `inner` lies inside the same edge of `outer` by a fitting inset. -/
def InsetsMet (inner outer : Rect) (left top right bottom : Option LayoutSpecifier) : Prop :=
  InsetMet (inner.left - outer.left) left ∧ InsetMet (inner.top - outer.top) top ∧
    InsetMet (outer.right - inner.right) right ∧ InsetMet (outer.bottom - inner.bottom) bottom

theorem satisfies_toList {d : Direction} {frame : Item V → Rect} {spec : Option LayoutSpecifier}
    {build : LayoutSpecifier → Constraint (Item V)} {inset : ℚ}
    (hreq : ∀ s, (build s).priority = requiredPriority)
    (hbuild : ∀ s, (build s).Holds d frame ↔ s.layoutRelation.Holds inset s.layoutConstant) :
    Satisfies d frame (spec.map build).toList ↔ InsetMet inset spec := by
  cases spec with
  | none => simp [InsetMet]
  | some s => simp [Satisfies, InsetMet, hreq, hbuild]

/-- `attach` at required priority asks for the four insets, in both directions. -/
theorem satisfies_attach (d : Direction) (frame : Item V → Rect) (self superview : V)
    (toView : Option V) (left top right bottom : Option LayoutSpecifier) :
    Satisfies d frame
        (attach self (some superview) toView left top right bottom requiredPriority) ↔
      InsetsMet (frame (.view self)) (frame (.view (toView.getD superview)))
        left top right bottom := by
  have hview : (toView <|> some superview) = some (toView.getD superview) := by
    cases toView <;> rfl
  simp only [attach, hview, satisfies_append, InsetsMet, and_assoc]
  refine and_congr ?_ (and_congr ?_ (and_congr ?_ ?_))
  all_goals refine satisfies_toList (fun _ => rfl) fun s => ?_
  all_goals exact Relation.holds_iff_inset _ _ _ _

/-- The inset that the leading edge of `attachToSafeArea` counts. -/
def leadingInset (d : Direction) (inner outer : Rect) : ℚ :=
  match d with
  | .leftToRight => inner.left - outer.left
  | .rightToLeft => outer.right - inner.right

/-- `attachToSafeArea` asks for the same insets, but for the leading one in place of the
left one. -/
theorem satisfies_attachToSafeArea (d : Direction) (frame : Item V → Rect) (isRoot : V → Bool)
    (self superview : V) (toView : Option V) (left top right bottom : Option LayoutSpecifier) :
    Satisfies d frame
        (attachToSafeArea true isRoot self (some superview) toView left top right bottom) ↔
      let inner := frame (.view self)
      let outer := frame (.safeAreaLayoutGuide (toView.getD superview))
      InsetMet (leadingInset d inner outer) left ∧ InsetMet (inner.top - outer.top) top ∧
        InsetMet (outer.right - inner.right) right ∧
        InsetMet (outer.bottom - inner.bottom) bottom := by
  have hview : (toView <|> some superview) = some (toView.getD superview) := by
    cases toView <;> rfl
  simp only [attachToSafeArea, hview, satisfies_append, and_assoc, if_true,
    LayoutAnchor.constraint_eq]
  refine and_congr ?_ (and_congr ?_ (and_congr ?_ ?_))
  · refine satisfies_toList (fun _ => rfl) fun s => ?_
    cases d with
    | leftToRight => exact Relation.holds_iff_inset _ _ _ _
    | rightToLeft =>
      -- the axis is turned around, so the inset is counted from the right edge
      refine (Relation.holds_iff_inset _ _ _ _).trans ?_
      simp only [LayoutAnchor.constraintRelated, Rect.position, leadingInset]
      rw [neg_sub_neg]
  all_goals refine satisfies_toList (fun _ => rfl) fun s => ?_
  all_goals exact Relation.holds_iff_inset _ _ _ _

/-! ## The two helpers compared -/

/-- Both helpers mean the four insets: for all frames in which the safe area of the target is
the whole target, the constraints of one hold exactly when those of the other do. -/
def HelpersAgree (d : Direction) (isRoot : V → Bool) (self superview : V) (toView : Option V)
    (left top right bottom : Option LayoutSpecifier) : Prop :=
  ∀ frame : Item V → Rect,
    let target := toView.getD superview
    let added := attach self (some superview) toView left top right bottom requiredPriority
    frame (.safeAreaLayoutGuide target) = frame (.view target) →
      (Satisfies d frame
          (attachToSafeArea true isRoot self (some superview) toView left top right bottom) ↔
        Satisfies d frame added) ∧
      (Satisfies d frame added ↔
        InsetsMet (frame (.view self)) (frame (.view target)) left top right bottom)

/-- The frames in which the view is `inner` and every other item is `outer`. -/
noncomputable def framesOf (self : V) (inner outer : Rect) : Item V → Rect := by
  classical exact fun i => if i = .view self then inner else outer

@[simp] theorem framesOf_self (self : V) (inner outer : Rect) :
    framesOf self inner outer (.view self) = inner := by
  simp [framesOf]

theorem framesOf_other {self : V} {i : Item V} (inner outer : Rect) (h : i ≠ .view self) :
    framesOf self inner outer i = outer := by
  simp [framesOf, h]

theorem insetMet_constant (spec : Option LayoutSpecifier) :
    InsetMet ((spec.map LayoutSpecifier.layoutConstant).getD 0) spec := by
  rintro s rfl
  exact s.layoutRelation.holds_self _

/-- When the left and the right inset are told apart by the left specifier, and the right one
suits its own, the two helpers differ in the right-to-left direction. -/
theorem helpers_differ {isRoot : V → Bool} {self superview : V} {toView : Option V}
    {left top right bottom : Option LayoutSpecifier} {x z : ℚ}
    (hself : self ≠ toView.getD superview)
    (hright : InsetMet z right) (hxz : ¬ (InsetMet x left ↔ InsetMet z left)) :
    ¬ HelpersAgree .rightToLeft isRoot self superview toView left top right bottom := by
  intro hagree
  obtain ⟨inner, outer, hl, ht, hr, hb⟩ := exists_insets x
    ((top.map LayoutSpecifier.layoutConstant).getD 0) z
    ((bottom.map LayoutSpecifier.layoutConstant).getD 0)
  have hview : framesOf self inner outer (.view (toView.getD superview)) = outer :=
    framesOf_other _ _ (by simpa using hself.symm)
  have hguide : framesOf self inner outer (.safeAreaLayoutGuide (toView.getD superview)) = outer :=
    framesOf_other _ _ (by simp)
  have h := (hagree (framesOf self inner outer) (hguide.trans hview.symm)).1
  rw [satisfies_attachToSafeArea, satisfies_attach] at h
  simp only [hview, hguide, framesOf_self, leadingInset, InsetsMet, hl, ht, hr, hb,
    insetMet_constant, hright, and_true] at h
  exact hxz h.symm

/-- Some left inset is told apart from some right inset that suits the right specifier. -/
theorem exists_insets_apart (s : LayoutSpecifier) (right : Option LayoutSpecifier) :
    ∃ x z, InsetMet z right ∧ ¬ (InsetMet x (some s) ↔ InsetMet z (some s)) := by
  have hright := insetMet_constant right
  generalize (right.map LayoutSpecifier.layoutConstant).getD 0 = z at hright
  by_cases hz : InsetMet z (some s)
  · obtain ⟨x, hx⟩ := s.layoutRelation.exists_not_holds s.layoutConstant
    exact ⟨x, z, hright, fun h => hx (h.mpr hz s rfl)⟩
  · exact ⟨s.layoutConstant, z, hright, fun h => hz (h.mp (insetMet_constant (some s)))⟩

/-- The two helpers mean the same four insets exactly when the text is read from left to
right, or no left edge is given, or the view is its own target. -/
theorem attachToSafeArea_agrees_with_attach_iff (d : Direction) (isRoot : V → Bool)
    (self superview : V) (toView : Option V) (left top right bottom : Option LayoutSpecifier) :
    HelpersAgree d isRoot self superview toView left top right bottom ↔
      d = .leftToRight ∨ left = none ∨ self = toView.getD superview := by
  constructor
  · intro hagree
    by_contra hnot
    simp only [not_or] at hnot
    obtain ⟨hd, hleft, hself⟩ := hnot
    obtain ⟨s, rfl⟩ := Option.ne_none_iff_exists'.mp hleft
    obtain ⟨x, z, hright, hxz⟩ := exists_insets_apart s right
    cases d with
    | leftToRight => exact hd rfl
    | rightToLeft => exact helpers_differ hself hright hxz hagree
  · intro hcase frame target added htarget
    refine ⟨?_, satisfies_attach d frame self superview toView left top right bottom⟩
    rw [satisfies_attachToSafeArea, satisfies_attach]
    simp only [InsetsMet]
    change frame (.safeAreaLayoutGuide (toView.getD superview)) = _ at htarget
    rw [htarget]
    refine and_congr_left fun _ => ?_
    rcases hcase with rfl | rfl | hself
    · rfl
    · simp [InsetMet]
    · simp only [target, ← hself]
      cases d <;> simp [leadingInset]

/-- The name field of the add-post screen, `attachToSafeArea(left: 24, top: 16, right: 24)`,
read from right to left: nothing holds its left edge. -/
theorem attachToSafeArea_misses_the_left_edge :
    ¬ HelpersAgree (V := ℕ) .rightToLeft (fun _ => false) 0 1 none (some (.ofInt 24))
      (some (.ofInt 16)) (some (.ofInt 24)) none := by
  refine helpers_differ (x := 0) (z := 24) (by decide) ?_ ?_
  · rintro s ⟨⟩
    rfl
  · intro h
    have h0 := h.mpr (by rintro s ⟨⟩; rfl) _ rfl
    simp [LayoutSpecifier.ofInt, Relation.Holds] at h0

end HateBlocker
