-- Removing from the left-leaning red-black tree. On the way down a node is made red or
-- gets a red child, so that it has one to lose. The root has none to ask, and may come
-- out red above a red child: it is painted black in the end.
import HateBlocker.LLRBNode

open Std

namespace HateBlocker

namespace LLRBNode

variable {K V : Type}

/-! ## Moving a red child down -/

/-- A black node with a red child on the left, and one with a red child on the right. -/
inductive LeftRed : Nat → LLRBNode K V → Prop
  | mk {n : Nat} {l r : LLRBNode K V} {k : K} {v : V} :
      Balanced .red n l → Balanced .black n r → LeftRed (n + 1) (value .black l k v r)

inductive RightRed : Nat → LLRBNode K V → Prop
  | mk {n : Nat} {l r : LLRBNode K V} {k : K} {v : V} :
      Balanced .black n l → Balanced .red n r → RightRed (n + 1) (value .black l k v r)

theorem LeftRed.balanced {n : Nat} {t : LLRBNode K V} (h : LeftRed n t) :
    Balanced .black n t := by
  cases h with
  | mk hl hr => exact .black hl hr

theorem Balanced.eq_empty {t : LLRBNode K V} (h : Balanced .black 0 t) : t = LLRBNode.empty := by
  cases h
  rfl

section Moving

variable {c : Color} {n : Nat} {l r : LLRBNode K V} {k : K} {v : V}

theorem moveRedLeft_borrow {ll lr a b rr : LLRBNode K V} {lk bk rk : K} {lv bv rv : V} :
    moveRedLeft (value c (value .black ll lk lv lr) k v
        (value .black (value .red a bk bv b) rk rv rr)) =
      value c (value .black (value .red ll lk lv lr) k v a) bk bv (value .black b rk rv rr) := by
  simp [moveRedLeft, colorFlip, flipColor, rotateRight, rotateLeft, withRight, withLeft, withColor,
    Color.flip]
  cases c <;> rfl

theorem moveRedLeft_merge {ll lr rl rr : LLRBNode K V} {lk rk : K} {lv rv : V}
    (h : rl.isRed = false) :
    moveRedLeft (value c (value .black ll lk lv lr) k v (value .black rl rk rv rr)) =
      value c.flip (value .red ll lk lv lr) k v (value .red rl rk rv rr) := by
  simp [moveRedLeft, colorFlip, flipColor, Color.flip, h]

theorem moveRedRight_borrow {a b lr rl rr : LLRBNode K V} {ak lk rk : K} {av lv rv : V} :
    moveRedRight (value c (value .black (value .red a ak av b) lk lv lr) k v
        (value .black rl rk rv rr)) =
      value c (value .black a ak av b) lk lv (value .black lr k v (value .red rl rk rv rr)) := by
  simp [moveRedRight, colorFlip, flipColor, rotateRight, withRight, withColor, Color.flip]
  cases c <;> rfl

theorem moveRedRight_merge {ll lr rl rr : LLRBNode K V} {lk rk : K} {lv rv : V}
    (h : ll.isRed = false) :
    moveRedRight (value c (value .black ll lk lv lr) k v (value .black rl rk rv rr)) =
      value c.flip (value .red ll lk lv lr) k v (value .red rl rk rv rr) := by
  simp [moveRedRight, colorFlip, flipColor, Color.flip, h]

theorem Balanced.red_or_not {t : LLRBNode K V} {d : Color} (h : Balanced d n t) :
    (∃ a k v b, t = value .red a k v b ∧ Balanced .red n t) ∨
      (t.isRed = false ∧ Balanced .black n t) := by
  cases h with
  | empty => exact Or.inr ⟨rfl, .empty⟩
  | red hl hr => exact Or.inl ⟨_, _, _, _, rfl, .red hl hr⟩
  | black hl hr => exact Or.inr ⟨rfl, .black hl hr⟩

/-- What a node with two black children goes on with on the left: a left child with a red child of
its own, or two children that have turned red. -/
theorem leanLeft_cases (hl : Balanced .black (n + 1) l) (hr : Balanced .black (n + 1) r) :
    ∃ l' k' v' r', (value c l' k' v' r').toList = (value c l k v r).toList ∧
      ((k', v') = (k, v) ∨ (k, v) ∈ l'.toList) ∧
      ((leanLeft (value c l k v r) = value c l' k' v' r' ∧ LeftRed (n + 1) l' ∧
          Balanced .black (n + 1) r') ∨
        (leanLeft (value c l k v r) = value c.flip l' k' v' r' ∧ Balanced .red n l' ∧
          Balanced .red n r')) := by
  cases hl with
  | @black _ _ ll lr lk lv hll hlr =>
    cases hr with
    | @black _ _ rl rr rk rv hrl hrr =>
      rcases hll.red_or_not with ⟨_, _, _, _, rfl, hll'⟩ | ⟨hll', hll⟩
      · refine ⟨_, k, v, _, rfl, Or.inl rfl, Or.inl ⟨?_, .mk hll' hlr, .black hrl hrr⟩⟩
        simp [leanLeft]
      · have hmove : leanLeft (value c (value .black ll lk lv lr) k v (value .black rl rk rv rr)) =
            moveRedLeft (value c (value .black ll lk lv lr) k v (value .black rl rk rv rr)) := by
          simp [leanLeft, isEmpty, hll']
        rcases hrl.red_or_not with ⟨a, bk, bv, b, rfl, hrl'⟩ | ⟨hrl', hrl⟩
        · cases hrl' with
          | red ha hb =>
            refine ⟨_, bk, bv, _, ?_, Or.inr ?_, Or.inl ⟨hmove.trans moveRedLeft_borrow,
              .mk (.red hll hlr) ha, .black hb hrr⟩⟩
            · simp [toList]
            · simp [toList]
        · exact ⟨value .red ll lk lv lr, k, v, value .red rl rk rv rr, rfl, Or.inl rfl,
            Or.inr ⟨hmove.trans (moveRedLeft_merge hrl'), .red hll hlr, .red hrl hrr⟩⟩

/-- On the right: a right child with a red child of its own on its left, two children that have
turned red, or the node itself gone down to the right and the key of its left child in its
place. -/
theorem leanRight_cases (hl : Balanced .black (n + 1) l) (hr : Balanced .black (n + 1) r) :
    (leanRight (value c l k v r) = value c l k v r ∧ LeftRed (n + 1) r) ∨
      (∃ l' r', leanRight (value c l k v r) = value c.flip l' k v r' ∧
        l'.toList = l.toList ∧ r'.toList = r.toList ∧ Balanced .red n l' ∧ Balanced .red n r') ∨
      (∃ l' k' v' rl rr, leanRight (value c l k v r) = value c l' k' v' (value .black rl k v rr) ∧
        l.toList = l'.toList ++ (k', v') :: rl.toList ∧ r.toList = rr.toList ∧
        Balanced .black (n + 1) l' ∧ Balanced .black n rl ∧ Balanced .red n rr) := by
  cases hl with
  | @black _ _ ll lr lk lv hll hlr =>
    cases hr with
    | @black _ _ rl rr rk rv hrl hrr =>
      rcases hrl.red_or_not with ⟨_, _, _, _, rfl, hrl'⟩ | ⟨hrl', hrl⟩
      · refine Or.inl ⟨?_, .mk hrl' hrr⟩
        simp [leanRight]
      · have hmove : leanRight (value c (value .black ll lk lv lr) k v (value .black rl rk rv rr)) =
            moveRedRight (value c (value .black ll lk lv lr) k v (value .black rl rk rv rr)) := by
          simp [leanRight, isEmpty, hrl']
        rcases hll.red_or_not with ⟨a, ak, av, b, rfl, hll'⟩ | ⟨hll', hll⟩
        · cases hll' with
          | red ha hb =>
            exact Or.inr (Or.inr ⟨_, lk, lv, _, _, hmove.trans moveRedRight_borrow, rfl, rfl,
              .black ha hb, hlr, .red hrl hrr⟩)
        · exact Or.inr (Or.inl ⟨_, _, hmove.trans (moveRedRight_merge hll'), rfl, rfl,
            .red hll hlr, .red hrl hrr⟩)

end Moving

/-! ## What removing the least entry keeps -/

theorem min_eq_head (t : LLRBNode K V) : t.min = t.toList.head? := by
  induction t with
  | empty => rfl
  | value c l k v r ihl ihr =>
    simp only [min, toList, List.head?_append]
    cases l with
    | empty => simp [isEmpty, toList]
    | value c' ll k' v' lr =>
      rw [if_neg (by simp [isEmpty]), ihl]
      simp only [toList, List.head?_append]
      cases ll.toList.head? <;> rfl

/-- A node that can lose an entry and keep its black depth. -/
def Ready (n : Nat) (t : LLRBNode K V) : Prop := Balanced .red n t ∨ LeftRed n t

/-- How a node `t` with an entry to lose may come out of it. -/
structure Loses (n : Nat) (t u : LLRBNode K V) : Prop where
  ofRed : Balanced .red n t → ∃ c, Balanced c n u
  ofLeftRed : LeftRed n t → Balanced .black n u

theorem Loses.balanced {n : Nat} {t u : LLRBNode K V} (h : Loses n t u) (ht : Ready n t) :
    ∃ c, Balanced c n u := by
  rcases ht with hred | hleft
  · exact h.ofRed hred
  · exact ⟨.black, h.ofLeftRed hleft⟩

theorem Balanced.not_leftRed {n : Nat} {t : LLRBNode K V} (h : Balanced .red n t) :
    ¬ LeftRed n t := by
  intro hleft
  cases hleft
  cases h

theorem loses_of_red {n : Nat} {t u : LLRBNode K V} (ht : Balanced .red n t)
    (h : ∃ c, Balanced c n u) : Loses n t u :=
  ⟨fun _ => h, fun hleft => absurd hleft ht.not_leftRed⟩

theorem loses_of_black {n : Nat} {t u : LLRBNode K V} (h : Balanced .black n u) : Loses n t u :=
  ⟨fun _ => ⟨.black, h⟩, fun _ => h⟩

theorem borrowLeft_eq_leanLeft {t : LLRBNode K V} (h : t.left.isEmpty = false) :
    t.borrowLeft = t.leanLeft := by
  simp [borrowLeft, leanLeft, h]

theorem removeMin_value {c c' : Color} {l l' r r' : LLRBNode K V} {k k' : K} {v v' : V}
    (hl : l.isEmpty = false) (h : leanLeft (value c l k v r) = value c' l' k' v' r') :
    removeMin (value c l k v r) = fixUp (value c' l'.removeMin k' v' r') := by
  rw [removeMin, if_neg (by simp [hl])]
  simp only [borrowLeft_eq_leanLeft (t := value c l k v r) hl, h, left_value, withLeft]

/-- `removeMin` takes the first entry off. -/
theorem removeMin_spec {n : Nat} {t : LLRBNode K V} (h : Ready n t) :
    Loses n t t.removeMin ∧ ∃ e, t.toList = e :: t.removeMin.toList := by
  induction hm : t.count using Nat.strongRecOn generalizing n t with
  | ind m ih =>
    subst hm
    rcases h with hred | hleft
    · cases hred with
      | @red _ l r k v hl hr =>
        cases hl with
        | empty =>
          obtain rfl := hr.eq_empty
          refine ⟨loses_of_black ?_, (k, v), ?_⟩
          · simpa [removeMin, isEmpty] using Balanced.empty
          · simp [removeMin, isEmpty, toList]
        | @black cl p ll lr lk lv hll hlr =>
          have hne : (value .black ll lk lv lr).isEmpty = false := rfl
          have hcount := count_leanLeft_le (value .red (value .black ll lk lv lr) k v r)
          obtain ⟨l', k', v', r', hlist, -, hcase⟩ :=
            leanLeft_cases (c := .red) (k := k) (v := v) (.black hll hlr) hr
          rcases hcase with ⟨hlean, hl', hr'⟩ | ⟨hlean, hl', hr'⟩
          · rw [hlean] at hcount
            have hlt := count_left_lt_of_le hcount (count_value_pos ..)
            obtain ⟨hloses, e, he⟩ := ih _ hlt (Or.inr hl') rfl
            rw [removeMin_value hne hlean]
            refine ⟨loses_of_red (.red (.black hll hlr) hr) ⟨.red, ?_⟩, e, ?_⟩
            · exact fixUp_red k' v' (hloses.ofLeftRed hl') hr'
            · rw [← hlist, toList_fixUp]
              simp [toList, he]
          · rw [hlean] at hcount
            have hlt := count_left_lt_of_le hcount (count_value_pos ..)
            obtain ⟨hloses, e, he⟩ := ih _ hlt (Or.inl hl') rfl
            rw [removeMin_value hne hlean]
            obtain ⟨c', hl''⟩ := hloses.ofRed hl'
            refine ⟨loses_of_red (.red (.black hll hlr) hr) ?_, e, ?_⟩
            · exact fixUp_black k' v' hl'' hr'
            · rw [← hlist, toList_fixUp]
              simp [toList, he]
    · cases hleft with
      | @mk p l r k v hl hr =>
        have hne : l.isEmpty = false := isEmpty_of_isRed (by simp [hl.isRed_eq])
        have hlean : leanLeft (value .black l k v r) = value .black l k v r := by
          simp [leanLeft, hl.isRed_eq]
        have hlt : l.count < (value .black l k v r).count := by
          simp only [count]
          omega
        obtain ⟨hloses, e, he⟩ := ih _ hlt (Or.inl hl) rfl
        obtain ⟨c', hl'⟩ := hloses.ofRed hl
        rw [removeMin_value hne hlean]
        refine ⟨loses_of_black (fixUp_black_left k v hl' hr), e, ?_⟩
        rw [toList_fixUp]
        simp [toList, he]

/-! ## What removing a key keeps -/

section Removing

variable (cmp : K → K → Ordering) (aKey : K)

theorem remove_left {c c' : Color} {l l' r r' : LLRBNode K V} {k k' : K} {v v' : V}
    (hk : cmp aKey k = .lt) (h : leanLeft (value c l k v r) = value c' l' k' v' r') :
    remove cmp aKey (value c l k v r) = fixUp (value c' (remove cmp aKey l') k' v' r') := by
  rw [remove, if_pos hk]
  simp only [h, left_value, withLeft]

theorem remove_right {c c' : Color} {l l' r r' : LLRBNode K V} {k k' : K} {v v' : V}
    (hk : cmp aKey k ≠ .lt) (h : leanRight (value c l k v r) = value c' l' k' v' r')
    (hk' : cmp aKey k' ≠ .eq) :
    remove cmp aKey (value c l k v r) = fixUp (value c' l' k' v' (remove cmp aKey r')) := by
  rw [remove, if_neg hk]
  split
  · simp_all
  · rename_i heq
    rw [h] at heq
    cases heq
    rw [if_neg hk']

theorem remove_here {c c' : Color} {l l' r r' : LLRBNode K V} {k k' : K} {v v' : V}
    (hk : cmp aKey k ≠ .lt) (h : leanRight (value c l k v r) = value c' l' k' v' r')
    (hk' : cmp aKey k' = .eq) {e : K × V} (hmin : r'.min = some e) :
    remove cmp aKey (value c l k v r) =
      fixUp (value c' l' e.1 e.2 (remove cmp aKey r'.removeMin)) := by
  rw [remove, if_neg hk]
  split
  · simp_all
  · rename_i heq
    rw [h] at heq
    cases heq
    rw [if_pos hk']
    simp only [hmin]

/-- A key below the whole tree is not found. The way down to its place and back leaves the color
and the depth of the root. -/
theorem remove_below {c : Color} {n : Nat} {t : LLRBNode K V} (h : Balanced c n t)
    (hbelow : ∀ e ∈ t.toList, cmp aKey e.1 = .lt) :
    Balanced c n (remove cmp aKey t) ∧ (remove cmp aKey t).toList = t.toList := by
  induction hm : t.count using Nat.strongRecOn generalizing c n t with
  | ind m ih =>
    subst hm
    cases t with
    | empty =>
      rw [remove]
      exact ⟨h, rfl⟩
    | value c₀ l k v r =>
      have hk : cmp aKey k = .lt := hbelow (k, v) (by simp [toList])
      have hcount := count_leanLeft_le (value c₀ l k v r)
      -- One step down, whatever the move made of the node.
      have down : ∀ {c' cl : Color} {p : Nat} {l' r' : LLRBNode K V} {k' : K} {v' : V},
          leanLeft (value c₀ l k v r) = value c' l' k' v' r' → Balanced cl p l' →
          (value c' l' k' v' r').toList = (value c₀ l k v r).toList →
          remove cmp aKey (value c₀ l k v r) = fixUp (value c' (remove cmp aKey l') k' v' r') ∧
            Balanced cl p (remove cmp aKey l') ∧
            (remove cmp aKey (value c₀ l k v r)).toList = (value c₀ l k v r).toList := by
        intro c' cl p l' r' k' v' hlean hl' hlist
        rw [hlean] at hcount
        have hlt := count_left_lt_of_le hcount (count_value_pos ..)
        have hbelow' : ∀ e ∈ l'.toList, cmp aKey e.1 = .lt := by
          intro e he
          apply hbelow
          rw [← hlist]
          simp [toList, he]
        obtain ⟨hbal, hsame⟩ := ih _ hlt hl' hbelow' rfl
        have heq := remove_left cmp aKey hk hlean
        refine ⟨heq, hbal, ?_⟩
        rw [heq, toList_fixUp, ← hlist]
        simp only [toList, hsame]
      have both : ∀ {p : Nat}, Balanced .black p l → Balanced .black p r →
          (remove cmp aKey (value c₀ l k v r)).toList = (value c₀ l k v r).toList ∧
          ((c₀ = .red → Balanced .red p (remove cmp aKey (value c₀ l k v r))) ∧
            (c₀ = .black → Balanced .black (p + 1) (remove cmp aKey (value c₀ l k v r)))) := by
        intro p hl hr
        cases p with
        | zero =>
          obtain rfl := hl.eq_empty
          obtain ⟨heq, hl', hsame⟩ := down (p := 0) (by simp [leanLeft, isEmpty]) .empty rfl
          rw [heq] at hsame ⊢
          refine ⟨hsame, ?_, ?_⟩
          · rintro rfl
            exact fixUp_red k v hl' hr
          · rintro rfl
            exact fixUp_black_left k v hl' hr
        | succ p =>
          obtain ⟨l', k', v', r', hlist, -, hcase⟩ := leanLeft_cases (c := c₀) (k := k) (v := v) hl hr
          rcases hcase with ⟨hlean, hl', hr'⟩ | ⟨hlean, hl', hr'⟩
          · obtain ⟨heq, hl'', hsame⟩ := down hlean hl'.balanced hlist
            rw [heq] at hsame ⊢
            refine ⟨hsame, ?_, ?_⟩
            · rintro rfl
              exact fixUp_red k' v' hl'' hr'
            · rintro rfl
              exact fixUp_black_left k' v' hl'' hr'
          · obtain ⟨heq, hl'', hsame⟩ := down hlean hl' hlist
            rw [heq] at hsame ⊢
            refine ⟨hsame, ?_, ?_⟩
            · rintro rfl
              exact fixUp_black_of_red k' v' hl'' hr'
            · rintro rfl
              exact fixUp_red_red k' v' hl'' hr'
      cases h with
      | red hl hr =>
        obtain ⟨hsame, hred, -⟩ := both hl hr
        exact ⟨hred rfl, hsame⟩
      | @black cl p _ _ _ _ hl hr =>
        cases cl with
        | black =>
          obtain ⟨hsame, -, hblack⟩ := both hl hr
          exact ⟨hblack rfl, hsame⟩
        | red =>
          have hlean : leanLeft (value .black l k v r) = value .black l k v r := by
            simp [leanLeft, hl.isRed_eq]
          obtain ⟨heq, hl', hsame⟩ := down hlean hl rfl
          rw [heq] at hsame ⊢
          exact ⟨fixUp_black_left k v hl' hr, hsame⟩

variable {cmp aKey}

/-- The node leaves the color and the depth as `Loses` says, and the key has gone. -/
structure Removes (cmp : K → K → Ordering) (aKey : K) (n : Nat) (t u : LLRBNode K V) : Prop where
  loses : Loses n t u
  toList : u.toList = Entries.erase cmp aKey t.toList

/-- The same under a node whose key is at most `aKey` and whose red child is on the right. -/
def RemovesRight (cmp : K → K → Ordering) (aKey : K) (n : Nat) (t : LLRBNode K V) : Prop :=
  ∀ l k v r, t = value .black l k v r → Balanced .black n l → Balanced .red n r →
    cmp aKey k ≠ .lt → Balanced .black (n + 1) (remove cmp aKey t) ∧
      (remove cmp aKey t).toList = Entries.erase cmp aKey t.toList

/-- What is left of a node with two black children. -/
inductive Leaves (c : Color) (n : Nat) : LLRBNode K V → Prop
  | none : n = 0 → Leaves c n empty
  | same {l r : LLRBNode K V} {k : K} {v : V} : Balanced .black n l → Balanced .black n r →
      Leaves c n (fixUp (value c l k v r))
  | mergedLeft {p : Nat} {d : Color} {l r : LLRBNode K V} {k : K} {v : V} : n = p + 1 →
      Balanced d p l → Balanced .red p r → Leaves c n (fixUp (value c.flip l k v r))
  | mergedRight {p : Nat} {d : Color} {l r : LLRBNode K V} {k : K} {v : V} : n = p + 1 →
      Balanced .red p l → Balanced d p r → Leaves c n (fixUp (value c.flip l k v r))

/-- What is known of every smaller tree. -/
def RemovesBelow (cmp : K → K → Ordering) (aKey : K) (m : Nat) : Prop :=
  ∀ u : LLRBNode K V, u.count < m → Entries.Sorted cmp u.toList →
    (∀ p, Ready p u → Removes cmp aKey p u (remove cmp aKey u)) ∧
      ∀ p, RemovesRight cmp aKey p u

/-- The node itself and its two children, both black. -/
def LeavesErased (cmp : K → K → Ordering) (aKey : K) (c : Color) (n : Nat)
    (t : LLRBNode K V) : Prop :=
  Leaves c n (remove cmp aKey t) ∧
    (remove cmp aKey t).toList = Entries.erase cmp aKey t.toList

theorem remove_leaf (c : Color) (k : K) (v : V) :
    LeavesErased cmp aKey c 0 (value c (empty : LLRBNode K V) k v empty) := by
  by_cases hk : cmp aKey k = .lt
  · have hlean : leanLeft (value c (empty : LLRBNode K V) k v empty) = value c empty k v empty := by
      simp [leanLeft, isEmpty]
    have hrem := remove_left cmp aKey hk hlean
    rw [remove] at hrem
    refine ⟨?_, ?_⟩
    · rw [hrem]
      exact .same .empty .empty
    · rw [hrem, toList_fixUp]
      simp [toList, Entries.erase, hk]
  · have hlean : leanRight (value c (empty : LLRBNode K V) k v empty) =
        value c empty k v empty := by
      simp [leanRight, isEmpty]
    by_cases heq : cmp aKey k = .eq
    · have hrem : remove cmp aKey (value c (empty : LLRBNode K V) k v empty) = empty := by
        rw [remove, if_neg hk]
        split
        · rfl
        · rename_i h
          rw [hlean] at h
          cases h
          rw [if_pos heq]
          rfl
      refine ⟨?_, ?_⟩
      · rw [hrem]
        exact .none rfl
      · rw [hrem]
        simp [toList, Entries.erase, heq]
    · have hrem := remove_right cmp aKey hk hlean heq
      rw [remove] at hrem
      refine ⟨?_, ?_⟩
      · rw [hrem]
        exact .same .empty .empty
      · rw [hrem, toList_fixUp]
        simp [toList, Entries.erase, heq]

variable [TransCmp cmp]

/-- Only the part on the left of an entry above the key loses something. -/
theorem erase_cut_lt {l r : List (K × V)} {e : K × V} (h : Entries.Sorted cmp (l ++ e :: r))
    (hk : cmp aKey e.1 = .lt) :
    Entries.erase cmp aKey (l ++ e :: r) = Entries.erase cmp aKey l ++ e :: r := by
  obtain ⟨-, -, -, her, -⟩ := Entries.Sorted.cut_iff.mp h
  have hr : Entries.erase cmp aKey r = r := by
    refine Entries.erase_of_ne fun f hf => ?_
    rw [TransCmp.lt_trans hk (her f hf)]
    simp
  rw [Entries.erase_append, Entries.erase_cons_ne (by simp [hk]), hr]

/-- Only the part on the right of an entry below the key, and the entry itself where its key is
the one. -/
theorem erase_cut_not_lt {l r : List (K × V)} {e : K × V} (h : Entries.Sorted cmp (l ++ e :: r))
    (hk : cmp aKey e.1 ≠ .lt) :
    Entries.erase cmp aKey (l ++ e :: r) = l ++ Entries.erase cmp aKey (e :: r) := by
  obtain ⟨-, -, hle, -, -⟩ := Entries.Sorted.cut_iff.mp h
  have hl : Entries.erase cmp aKey l = l := by
    refine Entries.erase_of_ne fun f hf heq => ?_
    exact hk (TransCmp.lt_of_eq_of_lt heq (hle f hf))
  rw [Entries.erase_append, hl]

/-- The step down to the left. -/
theorem removes_left {c c' : Color} {l l' r r' : LLRBNode K V} {k k' : K} {v v' : V} {p : Nat}
    (hk : cmp aKey k = .lt) (hlean : leanLeft (value c l k v r) = value c' l' k' v' r')
    (hlist : (value c l' k' v' r').toList = (value c l k v r).toList)
    (hwhere : (k', v') = (k, v) ∨ (k, v) ∈ l'.toList)
    (hsort : Entries.Sorted cmp (value c l k v r).toList)
    (hl' : Removes cmp aKey p l' (remove cmp aKey l')) :
    remove cmp aKey (value c l k v r) = fixUp (value c' (remove cmp aKey l') k' v' r') ∧
      (remove cmp aKey (value c l k v r)).toList =
        Entries.erase cmp aKey (value c l k v r).toList := by
  have heq := remove_left cmp aKey hk hlean
  refine ⟨heq, ?_⟩
  rw [← hlist] at hsort ⊢
  have hk' : cmp aKey k' = .lt := by
    rcases hwhere with hsame | hmem
    · cases hsame
      exact hk
    · obtain ⟨-, -, hbelow, -, -⟩ := Entries.Sorted.cut_iff.mp hsort
      exact TransCmp.lt_trans hk (hbelow _ hmem)
  rw [heq, toList_fixUp]
  simp only [toList]
  rw [erase_cut_lt hsort hk', hl'.toList]

/-- The step to the right, or the key itself. -/
theorem removes_right {c c' : Color} {l l' r r' : LLRBNode K V} {k k' : K} {v v' : V} {p : Nat}
    (hk : cmp aKey k ≠ .lt) (hlean : leanRight (value c l k v r) = value c' l' k' v' r')
    (hlist : (value c l' k' v' r').toList = (value c l k v r).toList)
    (hk' : cmp aKey k' ≠ .lt) (hsort : Entries.Sorted cmp (value c l k v r).toList)
    (hready : Ready p r')
    (hr' : Entries.Sorted cmp r'.toList → Removes cmp aKey p r' (remove cmp aKey r')) :
    ∃ k'' v'' r'', remove cmp aKey (value c l k v r) = fixUp (value c' l' k'' v'' r'') ∧
      Loses p r' r'' ∧
      (remove cmp aKey (value c l k v r)).toList =
        Entries.erase cmp aKey (value c l k v r).toList := by
  rw [← hlist] at hsort ⊢
  by_cases heq : cmp aKey k' = .eq
  · obtain ⟨hloses, e, he⟩ := removeMin_spec hready
    have hmin : r'.min = some e := by rw [min_eq_head, he]; rfl
    have hrem := remove_here cmp aKey hk hlean heq hmin
    obtain ⟨-, -, -, habove, -⟩ := Entries.Sorted.cut_iff.mp hsort
    have hbelow : ∀ f ∈ r'.toList, cmp aKey f.1 = .lt := by
      intro f hf
      exact TransCmp.lt_of_eq_of_lt heq (habove f hf)
    have hbelow' : ∀ f ∈ r'.removeMin.toList, cmp aKey f.1 = .lt := by
      intro f hf
      apply hbelow
      rw [he]
      exact List.mem_cons_of_mem _ hf
    obtain ⟨d, hd⟩ := hloses.balanced hready
    obtain ⟨-, hsame⟩ := remove_below cmp aKey hd hbelow'
    refine ⟨e.1, e.2, _, hrem, ⟨?_, ?_⟩, ?_⟩
    · intro hred
      obtain ⟨d', hd'⟩ := hloses.ofRed hred
      exact ⟨d', (remove_below cmp aKey hd' hbelow').1⟩
    · intro hleft
      exact (remove_below cmp aKey (hloses.ofLeftRed hleft) hbelow').1
    · have hnone : ∀ f ∈ r'.toList, cmp aKey f.1 ≠ .eq := by
        intro f hf
        simp [hbelow f hf]
      rw [hrem, toList_fixUp]
      simp only [toList, hsame]
      rw [erase_cut_not_lt hsort hk', Entries.erase_cons_eq heq, Entries.erase_of_ne hnone, he]
  · have hrem := remove_right cmp aKey hk hlean heq
    have hr'' := hr' ((Entries.Sorted.cut_iff.mp hsort).2.1)
    refine ⟨k', v', _, hrem, hr''.loses, ?_⟩
    rw [hrem, toList_fixUp]
    simp only [toList]
    rw [erase_cut_not_lt hsort hk', Entries.erase_cons_ne heq, hr''.toList]

variable {c : Color} {n : Nat} {l r : LLRBNode K V} {k : K} {v : V}

theorem remove_two_black_left (hl : Balanced .black (n + 1) l) (hr : Balanced .black (n + 1) r)
    (hsort : Entries.Sorted cmp (value c l k v r).toList) (hk : cmp aKey k = .lt)
    (ih : RemovesBelow cmp aKey (V := V) (value c l k v r).count) :
    LeavesErased cmp aKey c (n + 1) (value c l k v r) := by
  obtain ⟨l', k', v', r', hlist, hwhere, hcase⟩ :=
    leanLeft_cases (c := c) (k := k) (v := v) hl hr
  have hcount := count_leanLeft_le (value c l k v r)
  have hsort' : Entries.Sorted cmp l'.toList := by
    rw [← hlist] at hsort
    exact (Entries.Sorted.cut_iff.mp hsort).1
  rcases hcase with ⟨hlean, hl', hr'⟩ | ⟨hlean, hl', hr'⟩
  · rw [hlean] at hcount
    have hlt := count_left_lt_of_le hcount (count_value_pos ..)
    have hrem := (ih _ hlt hsort').1 _ (Or.inr hl')
    obtain ⟨heq, hlist'⟩ := removes_left hk hlean hlist hwhere hsort hrem
    refine ⟨?_, hlist'⟩
    rw [heq]
    exact .same (hrem.loses.ofLeftRed hl') hr'
  · rw [hlean] at hcount
    have hlt := count_left_lt_of_le hcount (count_value_pos ..)
    have hrem := (ih _ hlt hsort').1 _ (Or.inl hl')
    obtain ⟨heq, hlist'⟩ := removes_left hk hlean hlist hwhere hsort hrem
    obtain ⟨d, hd⟩ := hrem.loses.ofRed hl'
    refine ⟨?_, hlist'⟩
    rw [heq]
    exact .mergedLeft rfl hd hr'

/-- An entry of the list before one whose key is at most `aKey`. -/
theorem gt_of_lt_not_lt {k' : K} (hlt : cmp k' k = .lt) (hk : cmp aKey k ≠ .lt) :
    cmp aKey k' = .gt := by
  cases hc : cmp aKey k with
  | lt => exact absurd hc hk
  | eq => exact OrientedCmp.gt_of_lt (TransCmp.lt_of_lt_of_eq hlt (OrientedCmp.eq_symm hc))
  | gt => exact OrientedCmp.gt_of_lt (TransCmp.lt_trans hlt (OrientedCmp.lt_of_gt hc))

theorem remove_two_black_right (hl : Balanced .black (n + 1) l) (hr : Balanced .black (n + 1) r)
    (hsort : Entries.Sorted cmp (value c l k v r).toList) (hk : cmp aKey k ≠ .lt)
    (ih : RemovesBelow cmp aKey (V := V) (value c l k v r).count) :
    LeavesErased cmp aKey c (n + 1) (value c l k v r) := by
  have hcount := count_leanRight_le (value c l k v r)
  rcases leanRight_cases (c := c) (k := k) (v := v) hl hr with
    ⟨hlean, hr'⟩ | ⟨l', r', hlean, hll, hrr, hl', hr'⟩ |
      ⟨l', k', v', rl, rr, hlean, hll, hrr, hl', hrl, hrr'⟩
  · rw [hlean] at hcount
    have hlt := count_right_lt_of_le hcount (count_value_pos ..)
    obtain ⟨k'', v'', r'', heq, hloses, hlist⟩ := removes_right hk hlean rfl hk hsort
      (Or.inr hr') (fun hs => (ih _ hlt hs).1 _ (Or.inr hr'))
    refine ⟨?_, hlist⟩
    rw [heq]
    exact .same hl (hloses.ofLeftRed hr')
  · have hlist : (value c.flip l' k v r').toList = (value c l k v r).toList := by
      simp only [toList, hll, hrr]
    rw [hlean] at hcount
    have hlt := count_right_lt_of_le hcount (count_value_pos ..)
    obtain ⟨k'', v'', r'', heq, hloses, hlist'⟩ := removes_right hk hlean hlist hk hsort
      (Or.inl hr') (fun hs => (ih _ hlt hs).1 _ (Or.inl hr'))
    obtain ⟨d, hd⟩ := hloses.ofRed hr'
    refine ⟨?_, hlist'⟩
    rw [heq]
    exact .mergedRight rfl hl' hd
  · -- The key of the left child came up, and this node went down above its red right child.
    have hlist : (value c l' k' v' (value .black rl k v rr)).toList =
        (value c l k v r).toList := by
      simp [toList, hll, hrr]
    have hsort' := hsort
    rw [← hlist] at hsort'
    obtain ⟨-, hsortr, -, habove, -⟩ := Entries.Sorted.cut_iff.mp hsort'
    have hk' : cmp aKey k' = .gt :=
      gt_of_lt_not_lt (habove (k, v) (by simp [toList])) hk
    rw [hlean] at hcount
    have hlt := count_right_lt_of_le hcount (count_value_pos ..)
    rw [right_value] at hlt
    obtain ⟨hbal, hrem⟩ := (ih _ hlt hsortr).2 n rl k v rr rfl hrl hrr' hk
    have heq := remove_right cmp aKey hk hlean (by simp [hk'])
    refine ⟨?_, ?_⟩
    · rw [heq]
      exact .same hl' hbal
    · rw [heq, toList_fixUp, ← hlist]
      have herase := erase_cut_not_lt hsort' (show cmp aKey _ ≠ .lt by simp [hk'])
      rw [Entries.erase_cons_ne (by simp [hk'])] at herase
      simp only [toList] at hrem herase ⊢
      rw [herase, hrem]

theorem remove_two_black (hl : Balanced .black n l) (hr : Balanced .black n r)
    (hsort : Entries.Sorted cmp (value c l k v r).toList)
    (ih : RemovesBelow cmp aKey (V := V) (value c l k v r).count) :
    LeavesErased cmp aKey c n (value c l k v r) := by
  cases n with
  | zero =>
    obtain rfl := hl.eq_empty
    obtain rfl := hr.eq_empty
    exact remove_leaf c k v
  | succ n =>
    by_cases hk : cmp aKey k = .lt
    · exact remove_two_black_left hl hr hsort hk ih
    · exact remove_two_black_right hl hr hsort hk ih

theorem Leaves.ofRed {u : LLRBNode K V} (h : Leaves .red n u) : ∃ d, Balanced d n u := by
  cases h with
  | none hn =>
    subst hn
    exact ⟨.black, .empty⟩
  | same hl hr => exact ⟨.red, fixUp_red _ _ hl hr⟩
  | mergedLeft hn hl hr =>
    subst hn
    exact fixUp_black _ _ hl hr
  | mergedRight hn hl hr =>
    subst hn
    exact fixUp_black _ _ hl hr

/-- Only the root may come out of it red with a red child, and it is painted black. -/
theorem Leaves.ofBlack {u : LLRBNode K V} (h : Leaves .black n u) :
    ∃ m, Balanced .black m (u.withColor .black) := by
  cases h with
  | none hn => exact ⟨0, .empty⟩
  | same hl hr => exact (fixUp_black_left _ _ hl hr).blacken
  | @mergedLeft p d l r k v hn hl hr =>
    cases d with
    | red => exact (fixUp_red_red k v hl hr).blacken
    | black => exact (fixUp_nearRed_right k v hl hr).blacken
  | @mergedRight p d l r k v hn hl hr =>
    cases d with
    | red => exact (fixUp_red_red k v hl hr).blacken
    | black => exact (fixUp_nearRed_left k v hl hr).blacken

theorem removes_leftRed {t : LLRBNode K V} (h : LeftRed n t) (hsort : Entries.Sorted cmp t.toList)
    (ih : RemovesBelow cmp aKey (V := V) t.count) :
    Removes cmp aKey n t (remove cmp aKey t) := by
  cases h with
  | @mk p l r k v hl hr =>
    by_cases hk : cmp aKey k = .lt
    · have hlean : leanLeft (value .black l k v r) = value .black l k v r := by
        simp [leanLeft, hl.isRed_eq]
      have hlt : l.count < (value .black l k v r).count := by
        simp only [count]
        omega
      have hrem := (ih l hlt (Entries.Sorted.cut_iff.mp hsort).1).1 _ (Or.inl hl)
      obtain ⟨heq, hlist⟩ := removes_left hk hlean rfl (Or.inl rfl) hsort hrem
      obtain ⟨d, hd⟩ := hrem.loses.ofRed hl
      refine ⟨loses_of_black ?_, hlist⟩
      rw [heq]
      exact fixUp_black_left k v hd hr
    · cases hl with
      | @red _ ll lr lk lv hll hlr =>
        have hlean : leanRight (value .black (value .red ll lk lv lr) k v r) =
            value .black ll lk lv (value .red lr k v r) := by
          simp [leanRight, rotateRight, withRight, withColor]
        have hlist : (value .black ll lk lv (value .red lr k v r)).toList =
            (value .black (value .red ll lk lv lr) k v r).toList := by
          simp [toList]
        have hk' : cmp aKey lk = .gt := by
          obtain ⟨-, -, hbelow, -, -⟩ := Entries.Sorted.cut_iff.mp hsort
          exact gt_of_lt_not_lt (hbelow (lk, lv) (by simp [toList])) hk
        have hlt : (value .red lr k v r).count <
            (value .black (value .red ll lk lv lr) k v r).count := by
          simp only [count]
          omega
        have hr' : Balanced .red p (value .red lr k v r) := .red hlr hr
        obtain ⟨k'', v'', r'', heq, hloses, hlist'⟩ := removes_right hk hlean hlist
          (by simp [hk']) hsort (Or.inl hr') (fun hs => (ih _ hlt hs).1 _ (Or.inl hr'))
        obtain ⟨d, hd⟩ := hloses.ofRed hr'
        refine ⟨loses_of_black ?_, hlist'⟩
        rw [heq]
        exact fixUp_black_right k'' v'' hll hd

theorem removesRight (hl : Balanced .black n l) (hr : Balanced .red n r)
    (hsort : Entries.Sorted cmp (value .black l k v r).toList) (hk : cmp aKey k ≠ .lt)
    (ih : RemovesBelow cmp aKey (V := V) (value .black l k v r).count) :
    Balanced .black (n + 1) (remove cmp aKey (value .black l k v r)) ∧
      (remove cmp aKey (value .black l k v r)).toList =
        Entries.erase cmp aKey (value .black l k v r).toList := by
  have hlean : leanRight (value .black l k v r) = value .black l k v r := by
    simp [leanRight, hl.isRed_eq, hr.isRed_eq]
  have hlt : r.count < (value .black l k v r).count := by
    simp only [count]
    omega
  obtain ⟨k'', v'', r'', heq, hloses, hlist⟩ := removes_right hk hlean rfl hk hsort
    (Or.inl hr) (fun hs => (ih _ hlt hs).1 _ (Or.inl hr))
  obtain ⟨d, hd⟩ := hloses.ofRed hr
  refine ⟨?_, hlist⟩
  rw [heq]
  exact fixUp_black_right k'' v'' hl hd

/-- By induction on the number of entries. -/
theorem removesBelow (m : Nat) : RemovesBelow cmp aKey (V := V) m := by
  induction m with
  | zero =>
    intro u hu
    omega
  | succ m ihm =>
    intro u hu hsort
    have ih : RemovesBelow cmp aKey (V := V) u.count :=
      fun w hw hs => ihm w (by omega) hs
    refine ⟨?_, ?_⟩
    · intro p hp
      rcases hp with hred | hleft
      · cases hred with
        | red hl hr =>
          obtain ⟨hleaves, hlist⟩ := remove_two_black (c := .red) hl hr hsort ih
          exact ⟨loses_of_red (.red hl hr) hleaves.ofRed, hlist⟩
      · exact removes_leftRed hleft hsort ih
    · rintro p l k v r rfl hl hr hk
      exact removesRight hl hr hsort hk ih

/-- Removing at the root. -/
theorem remove_spec (aKey : K) {t : LLRBNode K V} (h : Balanced .black n t)
    (hsort : Entries.Sorted cmp t.toList) :
    (∃ m, Balanced .black m ((remove cmp aKey t).withColor .black)) ∧
      (remove cmp aKey t).toList = Entries.erase cmp aKey t.toList := by
  cases h with
  | empty =>
    rw [remove]
    exact ⟨⟨0, .empty⟩, rfl⟩
  | @black c p l r k v hl hr =>
    cases c with
    | black =>
      obtain ⟨hleaves, hlist⟩ := remove_two_black (c := .black) hl hr hsort (removesBelow _)
      exact ⟨hleaves.ofBlack, hlist⟩
    | red =>
      have hleft : LeftRed (p + 1) (value .black l k v r) := .mk hl hr
      have hrem : Removes cmp aKey (p + 1) _ _ := removes_leftRed hleft hsort (removesBelow _)
      exact ⟨(hrem.loses.ofLeftRed hleft).blacken, hrem.toList⟩

end Removing

end LLRBNode

end HateBlocker
