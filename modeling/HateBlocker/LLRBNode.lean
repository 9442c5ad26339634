-- The left-leaning red-black tree of the sorted dictionary that Firebase keeps the
-- children of a node in: its moves, what the tree checks of itself, and inserting.
import HateBlocker.Entries
import Mathlib.Algebra.Group.Nat.Defs

open Std

namespace HateBlocker

inductive Color
  | red
  | black
  deriving DecidableEq, Repr

def Color.flip : Color → Color
  | .red => .black
  | .black => .red

/-- A node of the tree. Where a message goes to no node, as `[node.left.left isRed]` below an empty
node, the answer is that of the empty node. -/
inductive LLRBNode (K V : Type)
  | empty
  | value (color : Color) (left : LLRBNode K V) (key : K) (val : V) (right : LLRBNode K V)
  deriving Repr

namespace LLRBNode

variable {K V : Type}

def isEmpty : LLRBNode K V → Bool
  | empty => true
  | value .. => false

def isRed : LLRBNode K V → Bool
  | empty => false
  | value c .. => c = .red

def left : LLRBNode K V → LLRBNode K V
  | empty => empty
  | value _ l .. => l

def right : LLRBNode K V → LLRBNode K V
  | empty => empty
  | value _ _ _ _ r => r

@[simp] theorem left_value (c : Color) (l : LLRBNode K V) (k : K) (v : V) (r : LLRBNode K V) :
    (value c l k v r).left = l := rfl

@[simp] theorem right_value (c : Color) (l : LLRBNode K V) (k : K) (v : V) (r : LLRBNode K V) :
    (value c l k v r).right = r := rfl

@[simp] theorem isRed_empty : (empty : LLRBNode K V).isRed = false := rfl

@[simp] theorem isRed_value (c : Color) (l : LLRBNode K V) (k : K) (v : V) (r : LLRBNode K V) :
    (value c l k v r).isRed = decide (c = .red) := rfl

/-- `copyWith:nil withValue:nil withColor:` and the two below, one for each argument given. An
empty node stays as it is. -/
def withColor (c : Color) : LLRBNode K V → LLRBNode K V
  | empty => empty
  | value _ l k v r => value c l k v r

def withLeft : LLRBNode K V → LLRBNode K V → LLRBNode K V
  | empty, _ => empty
  | value c _ k v r, l => value c l k v r

def withRight : LLRBNode K V → LLRBNode K V → LLRBNode K V
  | empty, _ => empty
  | value c l k v _, r => value c l k v r

def count : LLRBNode K V → Nat
  | empty => 0
  | value _ l _ _ r => l.count + 1 + r.count

/-- The entries in the order that `inorderTraversal` meets them. -/
def toList : LLRBNode K V → List (K × V)
  | empty => []
  | value _ l k v r => l.toList ++ (k, v) :: r.toList

/-- The entry of `[node min]`. -/
def min : LLRBNode K V → Option (K × V)
  | empty => none
  | value _ l k v _ => if l.isEmpty then some (k, v) else l.min

def minKey (t : LLRBNode K V) : Option K := t.min.map Prod.fst

def maxKey : LLRBNode K V → Option K
  | empty => none
  | value _ _ k _ r => if r.isEmpty then some k else r.maxKey

def rotateLeft : LLRBNode K V → LLRBNode K V
  | empty => empty
  | value c l k v r => (r.withLeft (value .red l k v r.left)).withColor c

def rotateRight : LLRBNode K V → LLRBNode K V
  | empty => empty
  | value c l k v r => (l.withRight (value .red l.right k v r)).withColor c

/-- The color of the empty node is `nil`, and its copy is the empty node again. -/
def flipColor : LLRBNode K V → LLRBNode K V
  | empty => empty
  | value c l k v r => value c.flip l k v r

def colorFlip : LLRBNode K V → LLRBNode K V
  | empty => empty
  | value c l k v r => value c.flip l.flipColor k v r.flipColor

def fixUp (n : LLRBNode K V) : LLRBNode K V :=
  let n := if n.right.isRed && !n.left.isRed then n.rotateLeft else n
  let n := if n.left.isRed && n.left.left.isRed then n.rotateRight else n
  if n.left.isRed && n.right.isRed then n.colorFlip else n

def moveRedLeft (n : LLRBNode K V) : LLRBNode K V :=
  let n := n.colorFlip
  if n.right.left.isRed then ((n.withRight n.right.rotateRight).rotateLeft).colorFlip else n

def moveRedRight (n : LLRBNode K V) : LLRBNode K V :=
  let n := n.colorFlip
  if n.left.left.isRed then n.rotateRight.colorFlip else n

/-! ## What the rotations keep -/

section Counts

variable (n : LLRBNode K V)

@[simp] theorem count_withColor (c : Color) : (n.withColor c).count = n.count := by
  cases n <;> rfl

@[simp] theorem count_flipColor : n.flipColor.count = n.count := by
  cases n <;> rfl

@[simp] theorem count_colorFlip : n.colorFlip.count = n.count := by
  cases n with
  | empty => rfl
  | value c l k v r => simp [colorFlip, count]

theorem count_rotateLeft_le : n.rotateLeft.count ≤ n.count := by
  rcases n with _ | ⟨c, l, k, v, _ | ⟨c', rl, k', v', rr⟩⟩
  · simp [rotateLeft]
  · simp [rotateLeft, withLeft, withColor, count]
  · simp only [rotateLeft, withLeft, left, count_withColor, count]
    omega

theorem count_rotateRight_le : n.rotateRight.count ≤ n.count := by
  rcases n with _ | ⟨c, _ | ⟨c', ll, k', v', lr⟩, k, v, r⟩
  · simp [rotateRight]
  · simp [rotateRight, withRight, withColor, count]
  · simp only [rotateRight, withRight, right, count_withColor, count]
    omega

theorem count_withRight_rotateRight_le :
    (n.withRight n.right.rotateRight).count ≤ n.count := by
  cases n with
  | empty => simp [withRight]
  | value c l k v r =>
    have h := count_rotateRight_le r
    simp only [withRight, right, count]
    omega

theorem count_moveRedLeft_le : n.moveRedLeft.count ≤ n.count := by
  unfold moveRedLeft
  dsimp only
  split
  · have h1 := count_rotateLeft_le (n.colorFlip.withRight n.colorFlip.right.rotateRight)
    have h2 := count_withRight_rotateRight_le n.colorFlip
    have h3 := count_colorFlip n
    simp only [count_colorFlip]
    omega
  · simp

theorem count_moveRedRight_le : n.moveRedRight.count ≤ n.count := by
  unfold moveRedRight
  dsimp only
  split
  · have h1 := count_rotateRight_le n.colorFlip
    have h3 := count_colorFlip n
    simp only [count_colorFlip]
    omega
  · simp

theorem count_fixUp_le : n.fixUp.count ≤ n.count := by
  unfold fixUp
  extract_lets m m'
  have h1 : m.count ≤ n.count := by
    by_cases h : n.right.isRed && !n.left.isRed
    · simpa [m, h] using count_rotateLeft_le n
    · simp [m, h]
  have h2 : m'.count ≤ m.count := by
    by_cases h : m.left.isRed && m.left.left.isRed
    · simpa [m', h] using count_rotateRight_le m
    · simp [m', h]
  split
  · rw [count_colorFlip]
    omega
  · omega

end Counts

/-! ## Inserting and removing -/

def insertKey (cmp : K → K → Ordering) (aKey : K) (aValue : V) : LLRBNode K V → LLRBNode K V
  | empty => value .red empty aKey aValue empty
  | value c l k v r =>
    match cmp aKey k with
    | .lt => fixUp (value c (insertKey cmp aKey aValue l) k v r)
    | .eq => fixUp (value c l k aValue r)
    | .gt => fixUp (value c l k v (insertKey cmp aKey aValue r))

/-- The node that `removeMin` goes on with. -/
def borrowLeft (n : LLRBNode K V) : LLRBNode K V :=
  if !n.left.isRed && !n.left.left.isRed then n.moveRedLeft else n

theorem count_borrowLeft_le (n : LLRBNode K V) : n.borrowLeft.count ≤ n.count := by
  unfold borrowLeft
  split
  · exact count_moveRedLeft_le n
  · exact Nat.le_refl _

/-- A node goes on to a smaller one. -/
theorem count_left_lt_of_le {m n : LLRBNode K V} (h : m.count ≤ n.count) (hn : 0 < n.count) :
    m.left.count < n.count := by
  cases m with
  | empty => simpa [left, count] using hn
  | value c l k v r =>
    simp only [count] at h
    simp only [left]
    omega

theorem count_right_lt_of_le {m n : LLRBNode K V} (h : m.count ≤ n.count) (hn : 0 < n.count) :
    m.right.count < n.count := by
  cases m with
  | empty => simpa [right, count] using hn
  | value c l k v r =>
    simp only [count] at h
    simp only [right]
    omega

theorem count_value_pos (c : Color) (l : LLRBNode K V) (k : K) (v : V) (r : LLRBNode K V) :
    0 < (value c l k v r).count := by
  simp only [count]
  omega

def removeMin : LLRBNode K V → LLRBNode K V
  | empty => empty
  | value c l k v r =>
    if l.isEmpty then empty
    else
      let n := borrowLeft (value c l k v r)
      fixUp (n.withLeft (removeMin n.left))
termination_by n => n.count
decreasing_by
  exact count_left_lt_of_le (count_borrowLeft_le _) (count_value_pos ..)

theorem count_withLeft_le {n l : LLRBNode K V} (h : l.count ≤ n.left.count) :
    (n.withLeft l).count ≤ n.count := by
  cases n with
  | empty => exact Nat.le_refl _
  | value c l' k v r =>
    simp only [left] at h
    simp only [withLeft, count]
    omega

theorem count_removeMin_le (n : LLRBNode K V) : n.removeMin.count ≤ n.count := by
  induction n using removeMin.induct with
  | case1 => simp [removeMin]
  | case2 c l k v r hl => simp [removeMin, hl, count]
  | case3 c l k v r hl n ih =>
    rw [removeMin, if_neg hl]
    calc (fixUp (n.withLeft n.left.removeMin)).count
        ≤ (n.withLeft n.left.removeMin).count := count_fixUp_le _
      _ ≤ n.count := count_withLeft_le ih
      _ ≤ (value c l k v r).count := count_borrowLeft_le _

/-- The node that `remove` goes on with where the key is on the left. -/
def leanLeft (n : LLRBNode K V) : LLRBNode K V :=
  if !n.left.isEmpty && !n.left.isRed && !n.left.left.isRed then n.moveRedLeft else n

/-- And where it is here or on the right. -/
def leanRight (n : LLRBNode K V) : LLRBNode K V :=
  let n := if n.left.isRed then n.rotateRight else n
  if !n.right.isEmpty && !n.right.isRed && !n.right.left.isRed then n.moveRedRight else n

theorem count_leanLeft_le (n : LLRBNode K V) : n.leanLeft.count ≤ n.count := by
  unfold leanLeft
  split
  · exact count_moveRedLeft_le n
  · exact Nat.le_refl _

theorem count_leanRight_le (n : LLRBNode K V) : n.leanRight.count ≤ n.count := by
  unfold leanRight
  extract_lets m
  have h1 : m.count ≤ n.count := by
    by_cases h : n.left.isRed
    · simpa [m, h] using count_rotateRight_le n
    · simp [m, h]
  split
  · exact Nat.le_trans (count_moveRedRight_le m) h1
  · exact h1

def remove (cmp : K → K → Ordering) (aKey : K) : LLRBNode K V → LLRBNode K V
  | empty => empty
  | value c l k v r =>
    if cmp aKey k = .lt then
      let n := leanLeft (value c l k v r)
      fixUp (n.withLeft (remove cmp aKey n.left))
    else
      match _h : leanRight (value c l k v r) with
      | empty => empty
      | value c' l' k' v' r' =>
        if cmp aKey k' = .eq then
          -- The key of the least entry on the right comes here, and the key is looked for on the
          -- right once more.
          match r'.min with
          | none => empty
          | some smallest =>
            fixUp (value c' l' smallest.1 smallest.2 (remove cmp aKey r'.removeMin))
        else fixUp (value c' l' k' v' (remove cmp aKey r'))
termination_by n => n.count
decreasing_by
  · exact count_left_lt_of_le (count_leanLeft_le _) (count_value_pos ..)
  · have h1 := count_leanRight_le (value c l k v r)
    have h2 := count_right_lt_of_le h1 (count_value_pos ..)
    rw [_h] at h2
    exact Nat.lt_of_le_of_lt (count_removeMin_le r') h2
  · have h1 := count_leanRight_le (value c l k v r)
    have h2 := count_right_lt_of_le h1 (count_value_pos ..)
    rw [_h] at h2
    exact h2

/-! ## Balance -/

/-- What the tree asserts of itself in `check`. -/
inductive Balanced : Color → Nat → LLRBNode K V → Prop
  | empty : Balanced .black 0 empty
  | red {n : Nat} {l r : LLRBNode K V} {k : K} {v : V} :
      Balanced .black n l → Balanced .black n r → Balanced .red n (value .red l k v r)
  | black {c : Color} {n : Nat} {l r : LLRBNode K V} {k : K} {v : V} :
      Balanced c n l → Balanced .black n r → Balanced .black (n + 1) (value .black l k v r)

/-- A red node whose left child may be red too. -/
inductive NearRed : Nat → LLRBNode K V → Prop
  | mk {c : Color} {n : Nat} {l r : LLRBNode K V} {k : K} {v : V} :
      Balanced c n l → Balanced .black n r → NearRed n (value .red l k v r)

inductive CheckError (V : Type)
  | redChild
  | rightRed
  | blackDepth (val : V) (color : Color) (left right : Nat)
  deriving DecidableEq

def check : LLRBNode K V → Except (CheckError V) Nat
  | empty => .ok 0
  | value c l _ v r =>
    if c = .red ∧ l.isRed then .error .redChild
    else if r.isRed then .error .rightRed
    else do
      let blackDepth ← l.check
      let rightDepth ← r.check
      if blackDepth ≠ rightDepth then .error (.blackDepth v c blackDepth rightDepth)
      else return blackDepth + (if c = .red then 0 else 1)

def checkMaxDepth (n : LLRBNode K V) : Except (CheckError V) Bool :=
  n.check.map (fun blackDepth => 2 ^ blackDepth ≤ n.count + 1)

theorem Balanced.isRed_eq {c : Color} {n : Nat} {t : LLRBNode K V} (h : Balanced c n t) :
    t.isRed = decide (c = .red) := by
  cases h <;> rfl

theorem Balanced.check_eq {c : Color} {n : Nat} {t : LLRBNode K V} (h : Balanced c n t) :
    t.check = .ok n := by
  induction h with
  | empty => rfl
  | red hl hr ihl ihr =>
    simp [check, hl.isRed_eq, hr.isRed_eq, ihl, ihr, bind, Except.bind, pure, Except.pure]
  | black hl hr ihl ihr =>
    simp [check, hr.isRed_eq, ihl, ihr, bind, Except.bind, pure, Except.pure]

/-- `check` throws on every other tree. -/
theorem balanced_of_check {t : LLRBNode K V} {n : Nat} (h : t.check = .ok n) :
    ∃ c, Balanced c n t := by
  induction t generalizing n with
  | empty =>
    cases h
    exact ⟨.black, .empty⟩
  | value c l k v r ihl ihr =>
    simp only [check] at h
    split at h
    · cases h
    · rename_i hredChild
      split at h
      · cases h
      · rename_i hrightRed
        cases hl : l.check with
        | error e => simp [hl, bind, Except.bind] at h
        | ok dl =>
          cases hr : r.check with
          | error e => simp [hl, hr, bind, Except.bind] at h
          | ok dr =>
            simp only [hl, hr, bind, Except.bind] at h
            split at h
            · cases h
            · rename_i hd
              obtain rfl : dl = dr := by simpa using hd
              obtain ⟨cl, hbl⟩ := ihl hl
              obtain ⟨cr, hbr⟩ := ihr hr
              have hcr : cr = .black := by
                cases cr with
                | red => simp [hbr.isRed_eq] at hrightRed
                | black => rfl
              subst hcr
              cases c with
              | red =>
                have hcl : cl = .black := by
                  cases cl with
                  | red => simp [hbl.isRed_eq] at hredChild
                  | black => rfl
                subst hcl
                cases h
                exact ⟨.red, .red hbl hbr⟩
              | black =>
                cases h
                exact ⟨.black, .black hbl hbr⟩

/-- A tree of that depth has at least so many entries. -/
theorem Balanced.two_pow_le {c : Color} {n : Nat} {t : LLRBNode K V} (h : Balanced c n t) :
    2 ^ n ≤ t.count + 1 := by
  induction h with
  | empty => simp [count]
  | red hl hr ihl ihr =>
    simp only [count]
    omega
  | black hl hr ihl ihr =>
    simp only [count, Nat.pow_succ]
    omega

theorem Balanced.blacken {c : Color} {n : Nat} {t : LLRBNode K V} (h : Balanced c n t) :
    ∃ m, Balanced .black m (t.withColor .black) := by
  cases h with
  | empty => exact ⟨0, .empty⟩
  | red hl hr => exact ⟨_, .black hl hr⟩
  | black hl hr => exact ⟨_, .black hl hr⟩

theorem NearRed.blacken {n : Nat} {t : LLRBNode K V} (h : NearRed n t) :
    ∃ m, Balanced .black m (t.withColor .black) := by
  cases h with
  | mk hl hr => exact ⟨_, .black hl hr⟩

/-! ## Fixing up -/

theorem isEmpty_of_isRed {t : LLRBNode K V} (h : t.isRed) : t.isEmpty = false := by
  cases t with
  | empty => simp [isRed] at h
  | value => rfl

@[simp] theorem toList_withColor (c : Color) (t : LLRBNode K V) :
    (t.withColor c).toList = t.toList := by
  cases t <;> rfl

@[simp] theorem toList_flipColor (t : LLRBNode K V) : t.flipColor.toList = t.toList := by
  cases t <;> rfl

@[simp] theorem toList_colorFlip (t : LLRBNode K V) : t.colorFlip.toList = t.toList := by
  cases t with
  | empty => rfl
  | value c l k v r => simp [colorFlip, toList]

theorem toList_rotateLeft {t : LLRBNode K V} (h : t.right.isEmpty = false) :
    t.rotateLeft.toList = t.toList := by
  rcases t with _ | ⟨c, l, k, v, _ | ⟨c', rl, k', v', rr⟩⟩
  · rfl
  · simp [right, isEmpty] at h
  · simp [rotateLeft, withLeft, withColor, left, toList]

theorem toList_rotateRight {t : LLRBNode K V} (h : t.left.isEmpty = false) :
    t.rotateRight.toList = t.toList := by
  rcases t with _ | ⟨c, _ | ⟨c', ll, k', v', lr⟩, k, v, r⟩
  · rfl
  · simp [left, isEmpty] at h
  · simp [rotateRight, withRight, withColor, right, toList]

/-- The rotations stand behind a red child, so no entry is lost. -/
theorem toList_fixUp (t : LLRBNode K V) : t.fixUp.toList = t.toList := by
  unfold fixUp
  extract_lets m m'
  have h1 : m.toList = t.toList := by
    by_cases h : t.right.isRed && !t.left.isRed
    · have hred : t.right.isRed := by simp_all
      simpa [m, h] using toList_rotateLeft (isEmpty_of_isRed hred)
    · simp [m, h]
  have h2 : m'.toList = m.toList := by
    by_cases h : m.left.isRed && m.left.left.isRed
    · have hred : m.left.isRed := by simp_all
      simpa [m', h] using toList_rotateRight (isEmpty_of_isRed hred)
    · simp [m', h]
  split
  · rw [toList_colorFlip, h2, h1]
  · rw [h2, h1]

section Fixing

variable {c cl cr : Color} {n : Nat} {l r : LLRBNode K V} (k : K) (v : V)

theorem fixUp_eq_self (hl : Balanced cl n l) (hr : Balanced .black n r) :
    fixUp (value c l k v r) = value c l k v r := by
  have hr' : r.isRed = false := by simp [hr.isRed_eq]
  have hl' : (l.isRed && l.left.isRed) = false := by
    cases hl with
    | empty => rfl
    | red hll hlr => simp [hll.isRed_eq]
    | black hll hlr => simp [isRed]
  unfold fixUp
  simp [hr', hl']

/-- A red child on the right alone moves to the left. -/
theorem fixUp_rotateLeft (hl : Balanced .black n l) {rl rr : LLRBNode K V} {k' : K} {v' : V} :
    fixUp (value c l k v (value .red rl k' v' rr)) =
      if rr.isRed then colorFlip (value c (value .red l k v rl) k' v' rr)
      else value c (value .red l k v rl) k' v' rr := by
  have hl' : l.isRed = false := by simp [hl.isRed_eq]
  unfold fixUp
  simp [hl', rotateLeft, withLeft, withColor]

/-- Two red children turn black. -/
theorem fixUp_colorFlip {ll lr rl rr : LLRBNode K V} {kl kr : K} {vl vr : V}
    (hll : Balanced .black n ll) :
    fixUp (value c (value .red ll kl vl lr) k v (value .red rl kr vr rr)) =
      value c.flip (value .black ll kl vl lr) k v (value .black rl kr vr rr) := by
  have hll' : ll.isRed = false := by simp [hll.isRed_eq]
  unfold fixUp
  simp [hll', colorFlip, flipColor, Color.flip]

/-- Two red nodes on the left part, one to each side of the node between them. -/
theorem fixUp_rotateRight {lll llr lr : LLRBNode K V} {kll kl : K} {vll vl : V}
    (hr : Balanced .black n r) :
    fixUp (value .black (value .red (value .red lll kll vll llr) kl vl lr) k v r) =
      value .red (value .black lll kll vll llr) kl vl (value .black lr k v r) := by
  have hr' : r.isRed = false := by simp [hr.isRed_eq]
  unfold fixUp
  simp [hr', rotateRight, withRight, withColor, colorFlip, flipColor, Color.flip]

theorem fixUp_black_of_red (hl : Balanced .red n l) (hr : Balanced .red n r) :
    Balanced .red (n + 1) (fixUp (value .black l k v r)) := by
  cases hl with
  | red hll hlr =>
    cases hr with
    | red hrl hrr =>
      rw [fixUp_colorFlip k v hll]
      exact .red (.black hll hlr) (.black hrl hrr)

theorem fixUp_black (hl : Balanced cl n l) (hr : Balanced cr n r) :
    ∃ c', Balanced c' (n + 1) (fixUp (value .black l k v r)) := by
  cases cr with
  | black =>
    rw [fixUp_eq_self k v hl hr]
    exact ⟨.black, .black hl hr⟩
  | red =>
    cases hr with
    | red hrl hrr =>
      cases cl with
      | black =>
        rw [fixUp_rotateLeft k v hl, if_neg (by simp [hrr.isRed_eq])]
        exact ⟨.black, .black (.red hl hrl) hrr⟩
      | red => exact ⟨.red, fixUp_black_of_red k v hl (.red hrl hrr)⟩

/-- Where the right child is black, so is the node that is left. -/
theorem fixUp_black_left (hl : Balanced cl n l) (hr : Balanced .black n r) :
    Balanced .black (n + 1) (fixUp (value .black l k v r)) := by
  rw [fixUp_eq_self k v hl hr]
  exact .black hl hr

theorem fixUp_black_right (hl : Balanced .black n l) (hr : Balanced cr n r) :
    Balanced .black (n + 1) (fixUp (value .black l k v r)) := by
  cases hr with
  | red hrl hrr =>
    rw [fixUp_rotateLeft k v hl, if_neg (by simp [hrr.isRed_eq])]
    exact .black (.red hl hrl) hrr
  | empty => exact fixUp_black_left k v hl .empty
  | black hrl hrr => exact fixUp_black_left k v hl (.black hrl hrr)

theorem fixUp_red (hl : Balanced .black n l) (hr : Balanced .black n r) :
    Balanced .red n (fixUp (value .red l k v r)) := by
  rw [fixUp_eq_self k v hl hr]
  exact .red hl hr

theorem fixUp_nearRed_left (hl : Balanced cl n l) (hr : Balanced .black n r) :
    NearRed n (fixUp (value .red l k v r)) := by
  rw [fixUp_eq_self k v hl hr]
  exact .mk hl hr

theorem fixUp_nearRed_right (hl : Balanced .black n l) (hr : Balanced cr n r) :
    NearRed n (fixUp (value .red l k v r)) := by
  cases hr with
  | red hrl hrr =>
    rw [fixUp_rotateLeft k v hl, if_neg (by simp [hrr.isRed_eq])]
    exact .mk (.red hl hrl) hrr
  | empty => exact fixUp_nearRed_left k v hl .empty
  | black hrl hrr => exact fixUp_nearRed_left k v hl (.black hrl hrr)

/-- Two red children under a red node. -/
theorem fixUp_red_red (hl : Balanced .red n l) (hr : Balanced .red n r) :
    Balanced .black (n + 2) (fixUp (value .red l k v r)) := by
  cases hl with
  | red hll hlr =>
    cases hr with
    | red hrl hrr =>
      rw [fixUp_colorFlip k v hll]
      exact .black (.black hll hlr) (.black hrl hrr)

/-- A red node above a red one on the left of a black node is rotated up. -/
theorem fixUp_of_nearRed (hl : NearRed n l) (hr : Balanced .black n r) :
    ∃ c', Balanced c' (n + 1) (fixUp (value .black l k v r)) := by
  cases hl with
  | @mk c _ ll lr _ _ hll hlr =>
    cases c with
    | black => exact fixUp_black k v (.red hll hlr) hr
    | red =>
      cases hll with
      | red hlll hllr =>
        rw [fixUp_rotateRight k v hr]
        exact ⟨.red, .red (.black hlll hllr) (.black hlr hr)⟩

end Fixing

/-! ## What inserting keeps -/

theorem insertKey_balanced (cmp : K → K → Ordering) (aKey : K) (aValue : V) {c : Color} {n : Nat}
    {t : LLRBNode K V} (h : Balanced c n t) :
    (c = .black → ∃ c', Balanced c' n (insertKey cmp aKey aValue t)) ∧
      (c = .red → NearRed n (insertKey cmp aKey aValue t)) := by
  induction h with
  | empty =>
    refine ⟨fun _ => ⟨.red, ?_⟩, fun h => by cases h⟩
    exact .red .empty .empty
  | @red n l r k v hl hr ihl ihr =>
    refine ⟨fun h => (by cases h), fun _ => ?_⟩
    obtain ⟨cl, hl'⟩ := ihl.1 rfl
    obtain ⟨cr, hr'⟩ := ihr.1 rfl
    simp only [insertKey]
    cases cmp aKey k with
    | lt => exact fixUp_nearRed_left k v hl' hr
    | eq => exact fixUp_nearRed_left k aValue hl hr
    | gt => exact fixUp_nearRed_right k v hl hr'
  | @black c n l r k v hl hr ihl ihr =>
    refine ⟨fun _ => ?_, fun h => by cases h⟩
    obtain ⟨cr, hr'⟩ := ihr.1 rfl
    simp only [insertKey]
    cases cmp aKey k with
    | lt =>
      cases c with
      | black =>
        obtain ⟨cl, hl'⟩ := ihl.1 rfl
        exact fixUp_black k v hl' hr
      | red => exact fixUp_of_nearRed k v (ihl.2 rfl) hr
    | eq => exact ⟨.black, fixUp_black_left k aValue hl hr⟩
    | gt => exact fixUp_black k v hl hr'

theorem insertKey_toList (cmp : K → K → Ordering) [TransCmp cmp] (aKey : K) (aValue : V)
    {t : LLRBNode K V} (h : Entries.Sorted cmp t.toList) :
    (insertKey cmp aKey aValue t).toList =
      Entries.put cmp (fun _ old => old) aKey aValue t.toList := by
  induction t with
  | empty => rfl
  | value c l k v r ihl ihr =>
    obtain ⟨hl, hr, hlk, -, -⟩ := Entries.Sorted.cut_iff.mp h
    have hleft : cmp aKey k ≠ .lt → ∀ e ∈ l.toList, cmp aKey e.1 = .gt := by
      intro hne e he
      cases hk : cmp aKey k with
      | lt => exact absurd hk hne
      | eq =>
        exact OrientedCmp.gt_of_lt (TransCmp.lt_of_lt_of_eq (hlk e he) (OrientedCmp.eq_symm hk))
      | gt => exact OrientedCmp.gt_of_lt (TransCmp.lt_trans (hlk e he) (OrientedCmp.lt_of_gt hk))
    simp only [insertKey, toList]
    cases hk : cmp aKey k with
    | lt =>
      rw [Entries.put_append_right _ _ _ hk, ← ihl hl]
      simp [toList_fixUp, toList]
    | eq =>
      rw [Entries.put_append_left _ _ (hleft (by simp [hk]))]
      simp [toList_fixUp, toList, Entries.put, hk]
    | gt =>
      rw [Entries.put_append_left _ _ (hleft (by simp [hk]))]
      simp [toList_fixUp, toList, Entries.put, hk, ihr hr]

end LLRBNode

end HateBlocker
