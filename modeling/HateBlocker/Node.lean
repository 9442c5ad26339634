-- The nodes that the database client keeps data in: plain values, and nodes with
-- children in the order of their keys. A node without children is the empty node, and
-- no operation leaves an empty node under a key.
import HateBlocker.Entries
import HateBlocker.PathMaps

open Std

namespace HateBlocker

/-- `FLeafNode` and `FChildrenNode` without priorities; the empty node has no children. -/
inductive FNode (K L : Type)
  | leaf (value : L)
  | children (entries : List (K × FNode K L))

namespace FNode

variable {K L : Type}

/-- `[FEmptyNode emptyNode]`. -/
def empty : FNode K L := children []

def isLeafNode : FNode K L → Bool
  | leaf _ => true
  | children _ => false

def isEmpty : FNode K L → Bool
  | leaf _ => false
  | children entries => entries.isEmpty

def numChildren : FNode K L → Nat
  | leaf _ => 0
  | children entries => entries.length

/-- What `enumerateChildrenUsingBlock:` passes over, in its order. -/
def childEntries : FNode K L → List (K × FNode K L)
  | leaf _ => []
  | children entries => entries

/-- The plain value of a leaf. -/
def value? : FNode K L → Option L
  | leaf value => some value
  | children _ => none

section Operations

variable (cmp : K → K → Ordering)

def getImmediateChild (childName : K) : FNode K L → FNode K L
  | leaf _ => empty
  | children entries => (Entries.find cmp childName entries).getD empty

def getChild : List K → FNode K L → FNode K L
  | [], n => n
  | _ :: _, leaf _ => empty
  | front :: path, children entries =>
    getChild path ((children entries).getImmediateChild cmp front)

def hasChild (childName : K) (n : FNode K L) : Bool := !(n.getImmediateChild cmp childName).isEmpty

/-- A leaf to which a child comes is no leaf any more. -/
def updateImmediateChild (n : FNode K L) (childName : K) (newChildNode : FNode K L) : FNode K L :=
  match n with
  | leaf value =>
    if newChildNode.isEmpty then leaf value else children [(childName, newChildNode)]
  | children entries =>
    if newChildNode.isEmpty then children (Entries.erase cmp childName entries)
    else children (Entries.put cmp (fun k _ => k) childName newChildNode entries)

def updateChild : FNode K L → List K → FNode K L → FNode K L
  | _, [], newChildNode => newChildNode
  | leaf value, front :: path, newChildNode =>
    if newChildNode.isEmpty then leaf value
    else (leaf value).updateImmediateChild cmp front (updateChild empty path newChildNode)
  | children entries, front :: path, newChildNode =>
    (children entries).updateImmediateChild cmp front
      (updateChild ((children entries).getImmediateChild cmp front) path newChildNode)

mutual
/-- Two nodes with children are equal when they have as many and each child finds its equal. -/
def isEqual [BEq L] : FNode K L → FNode K L → Bool
  | leaf value, leaf value' => value == value'
  | leaf _, children _ => false
  | children _, leaf _ => false
  | children entries, children entries' =>
    (entries.isEmpty && entries'.isEmpty) ||
      (entries.length == entries'.length && haveEquals entries (children entries'))

/-- The enumeration of `isEqual`. -/
def haveEquals [BEq L] : List (K × FNode K L) → FNode K L → Bool
  | [], _ => true
  | (key, node) :: entries, other =>
    isEqual node (other.getImmediateChild cmp key) && haveEquals entries other
end

/-- What an invalid node would break: the order of the keys, and that no child is empty. -/
inductive Proper : FNode K L → Prop
  | leaf (value : L) : Proper (leaf value)
  | children {entries : List (K × FNode K L)} (sorted : Entries.Sorted cmp entries)
      (proper : ∀ e ∈ entries, Proper e.2) (nonempty : ∀ e ∈ entries, e.2.isEmpty = false) :
      Proper (children entries)

/-- The plain value at the end of a path. -/
def leaves (n : FNode K L) (path : List K) : Option L := (n.getChild cmp path).value?

end Operations

variable {cmp : K → K → Ordering}

theorem isEmpty_iff {n : FNode K L} : n.isEmpty = true ↔ n = empty := by
  cases n with
  | leaf value => simp [isEmpty, empty]
  | children entries => simp [isEmpty, empty]

@[simp] theorem isEmpty_empty : (empty : FNode K L).isEmpty = true := rfl

/-! ## Looking down -/

@[simp] theorem getImmediateChild_empty (k : K) :
    (empty : FNode K L).getImmediateChild cmp k = empty := rfl

@[simp] theorem getImmediateChild_leaf (k : K) (value : L) :
    (leaf value).getImmediateChild cmp k = empty := rfl

@[simp] theorem getChild_nil (n : FNode K L) : n.getChild cmp [] = n := by
  cases n <;> rfl

@[simp] theorem getChild_empty (path : List K) : (empty : FNode K L).getChild cmp path = empty := by
  induction path with
  | nil => rfl
  | cons k path ih =>
    unfold empty getChild
    exact ih

theorem getChild_cons (k : K) (path : List K) (n : FNode K L) :
    n.getChild cmp (k :: path) = (n.getImmediateChild cmp k).getChild cmp path := by
  cases n with
  | leaf value => simp [getChild]
  | children entries => rfl

theorem getChild_append (p q : List K) (n : FNode K L) :
    n.getChild cmp (p ++ q) = (n.getChild cmp p).getChild cmp q := by
  induction p generalizing n with
  | nil => simp
  | cons k p ih => rw [List.cons_append, getChild_cons, getChild_cons, ih]

@[simp] theorem leaves_nil (n : FNode K L) : n.leaves cmp [] = n.value? := by
  simp [leaves]

theorem leaves_cons (n : FNode K L) (k : K) (path : List K) :
    n.leaves cmp (k :: path) = (n.getImmediateChild cmp k).leaves cmp path := by
  unfold leaves
  rw [getChild_cons]

@[simp] theorem leaves_empty : (empty : FNode K L).leaves cmp = fun _ => none := by
  funext path
  unfold leaves
  rw [getChild_empty]
  rfl

/-- The leaves of what stands at a path are the leaves from the path on. -/
theorem below_leaves (p : List K) (n : FNode K L) :
    PathMaps.below p (n.leaves cmp) = (n.getChild cmp p).leaves cmp := by
  funext q
  simp only [PathMaps.below, leaves, getChild_append]

/-! ## Nodes in order -/

theorem proper_empty : (empty : FNode K L).Proper cmp :=
  .children .nil (by simp) (by simp)

theorem mem_of_find {k : K} {n : FNode K L} {entries : List (K × FNode K L)}
    (h : Entries.find cmp k entries = some n) : ∃ e ∈ entries, e.2 = n := by
  unfold Entries.find at h
  obtain ⟨e, he, rfl⟩ := Option.map_eq_some_iff.mp h
  exact ⟨e, List.mem_of_find?_eq_some he, rfl⟩

theorem Proper.getImmediateChild {n : FNode K L} (h : n.Proper cmp) (k : K) :
    (n.getImmediateChild cmp k).Proper cmp := by
  cases h with
  | leaf value => exact proper_empty
  | @children entries sorted proper nonempty =>
    simp only [FNode.getImmediateChild]
    cases hfind : Entries.find cmp k entries with
    | none => exact proper_empty
    | some child =>
      obtain ⟨e, he, rfl⟩ := mem_of_find hfind
      exact proper e he

theorem Proper.getChild {n : FNode K L} (h : n.Proper cmp) (path : List K) :
    (n.getChild cmp path).Proper cmp := by
  induction path generalizing n with
  | nil => simpa using h
  | cons k path ih =>
    rw [getChild_cons]
    exact ih (h.getImmediateChild k)

/-- Where a child is found it is not empty. -/
theorem find_eq_of_proper {entries : List (K × FNode K L)} (h : (children entries).Proper cmp)
    (k : K) :
    Entries.find cmp k entries =
      if ((children entries).getImmediateChild cmp k).isEmpty then none
      else some ((children entries).getImmediateChild cmp k) := by
  cases h with
  | children sorted proper nonempty =>
    rcases Option.eq_none_or_eq_some (Entries.find cmp k entries) with hfind | ⟨child, hfind⟩
    · simp [getImmediateChild, hfind]
    · obtain ⟨e, he, rfl⟩ := mem_of_find hfind
      simp [getImmediateChild, hfind, nonempty e he]

/-- A node that is not empty holds a plain value somewhere. -/
theorem Proper.exists_leaf [ReflCmp cmp] {n : FNode K L} (h : n.Proper cmp)
    (hne : n.isEmpty = false) : ∃ path value, n.leaves cmp path = some value := by
  induction h with
  | leaf value => exact ⟨[], value, by simp [value?]⟩
  | @children entries sorted proper nonempty ih =>
    cases entries with
    | nil => simp [isEmpty] at hne
    | cons e entries =>
      obtain ⟨path, value, hleaf⟩ := ih e (by simp) (nonempty e (by simp))
      refine ⟨e.1 :: path, value, ?_⟩
      rw [leaves_cons]
      have hself : cmp e.1 e.1 = .eq := ReflCmp.compare_self
      simpa [FNode.getImmediateChild, Entries.find_cons, hself] using hleaf

theorem Proper.isEmpty_iff_leaves [ReflCmp cmp] {n : FNode K L} (h : n.Proper cmp) :
    n.isEmpty = true ↔ n.leaves cmp = fun _ => none := by
  constructor
  · intro hempty
    rw [isEmpty_iff.mp hempty, leaves_empty]
  · intro hleaves
    by_contra hne
    obtain ⟨path, value, hleaf⟩ := h.exists_leaf (Bool.eq_false_iff.mpr hne)
    rw [hleaves] at hleaf
    cases hleaf

/-- Below a leaf there is nothing. -/
theorem leaves_append_of_leaf {n : FNode K L} {p : List K} {value : L} (k : K) (q : List K)
    (h : n.leaves cmp p = some value) : n.leaves cmp (p ++ k :: q) = none := by
  unfold leaves at h ⊢
  rw [getChild_append]
  cases hn : n.getChild cmp p with
  | leaf value => rfl
  | children entries => simp [hn, value?] at h

section Updates

variable [TransCmp cmp] [LawfulEqCmp cmp]

/-- A node is what its leaves say. -/
theorem eq_of_leaves {n m : FNode K L} (hn : n.Proper cmp) (hm : m.Proper cmp)
    (h : n.leaves cmp = m.leaves cmp) : n = m := by
  induction hn generalizing m with
  | leaf value =>
    have hnil := congrFun h []
    cases m with
    | leaf value' => simpa [value?] using hnil
    | children entries => simp [value?] at hnil
  | @children entries sorted proper nonempty ih =>
    have hproper : (children entries).Proper cmp := .children sorted proper nonempty
    cases m with
    | leaf value =>
      have hnil := congrFun h []
      simp [value?] at hnil
    | children entries' =>
      cases hm with
      | children sorted' proper' nonempty' =>
        have hproper' : (children entries').Proper cmp := .children sorted' proper' nonempty'
        congr 1
        refine Entries.eq_of_find sorted sorted' fun k => ?_
        have hleaves : ((children entries).getImmediateChild cmp k).leaves cmp =
            ((children entries').getImmediateChild cmp k).leaves cmp := by
          funext path
          rw [← leaves_cons, ← leaves_cons, h]
        have hempty : ((children entries).getImmediateChild cmp k).isEmpty =
            ((children entries').getImmediateChild cmp k).isEmpty := by
          rw [Bool.eq_iff_iff, (hproper.getImmediateChild k).isEmpty_iff_leaves,
            (hproper'.getImmediateChild k).isEmpty_iff_leaves, hleaves]
        have hchild : (children entries).getImmediateChild cmp k =
            (children entries').getImmediateChild cmp k := by
          cases hfind : Entries.find cmp k entries with
          | none =>
            have hk : (children entries).getImmediateChild cmp k = empty := by
              simp [getImmediateChild, hfind]
            rw [hk] at hempty ⊢
            exact (isEmpty_iff.mp hempty.symm).symm
          | some child =>
            obtain ⟨e, he, rfl⟩ := mem_of_find hfind
            have hk : (children entries).getImmediateChild cmp k = e.2 := by
              simp [getImmediateChild, hfind]
            rw [hk] at hleaves ⊢
            exact ih e he (hproper'.getImmediateChild k) hleaves
        rw [find_eq_of_proper hproper, find_eq_of_proper hproper', hchild]

variable [DecidableEq K]

theorem getImmediateChild_updateImmediateChild {n : FNode K L} (h : n.Proper cmp) (k l : K)
    (m : FNode K L) :
    (n.updateImmediateChild cmp k m).getImmediateChild cmp l =
      if l = k then m else n.getImmediateChild cmp l := by
  by_cases hm : m.isEmpty
  · obtain rfl := isEmpty_iff.mp hm
    cases h with
    | leaf value => simp [updateImmediateChild]
    | children sorted proper nonempty =>
      simp only [updateImmediateChild, isEmpty_empty, ↓reduceIte, getImmediateChild,
        Entries.find_erase_self]
      split <;> rfl
  · cases h with
    | leaf value =>
      simp only [updateImmediateChild, if_neg hm, getImmediateChild, Entries.find_cons,
        LawfulEqCmp.compare_eq_iff_eq, Entries.find_nil]
      split <;> rfl
    | children sorted proper nonempty =>
      simp only [updateImmediateChild, if_neg hm, getImmediateChild,
        Entries.find_put_self Entries.picks_new k l m sorted]
      split <;> rfl

omit [TransCmp cmp] [LawfulEqCmp cmp] [DecidableEq K] in
theorem value?_updateImmediateChild (k : K) (n m : FNode K L) :
    (n.updateImmediateChild cmp k m).value? = if m.isEmpty then n.value? else none := by
  cases n with
  | leaf value =>
    simp only [updateImmediateChild]
    split <;> rfl
  | children entries =>
    simp only [updateImmediateChild]
    split <;> rfl

omit [LawfulEqCmp cmp] [DecidableEq K] in
theorem Proper.updateImmediateChild {n m : FNode K L} (h : n.Proper cmp) (hm : m.Proper cmp)
    (k : K) : (n.updateImmediateChild cmp k m).Proper cmp := by
  by_cases hempty : m.isEmpty
  · cases h with
    | leaf value =>
      simp only [FNode.updateImmediateChild, hempty, ↓reduceIte]
      exact .leaf value
    | children sorted proper nonempty =>
      simp only [FNode.updateImmediateChild, hempty, ↓reduceIte]
      refine .children (sorted.erase k) ?_ ?_
      · exact fun e he => proper e (List.mem_of_mem_filter he)
      · exact fun e he => nonempty e (List.mem_of_mem_filter he)
  · cases h with
    | leaf value =>
      simp only [FNode.updateImmediateChild, if_neg hempty]
      refine .children (List.pairwise_singleton _ _) ?_ ?_
      · simpa using hm
      · simpa using hempty
    | @children entries sorted proper nonempty =>
      simp only [FNode.updateImmediateChild, if_neg hempty]
      have hmem : ∀ e ∈ Entries.put cmp (fun k _ => k) k m entries, e.2 = m ∨ e ∈ entries := by
        intro e he
        rcases Entries.mem_put he with rfl | ⟨f, -, -, rfl⟩ | h'
        · exact Or.inl rfl
        · exact Or.inl rfl
        · exact Or.inr h'
      refine .children (sorted.put Entries.picks_new k m) ?_ ?_
      · intro e he
        rcases hmem e he with heq | he
        · rw [heq]
          exact hm
        · exact proper e he
      · intro e he
        rcases hmem e he with heq | he
        · rw [heq]
          exact Bool.eq_false_iff.mpr hempty
        · exact nonempty e he

omit [TransCmp cmp] [LawfulEqCmp cmp] [DecidableEq K] in
theorem updateChild_empty_empty (path : List K) :
    (empty : FNode K L).updateChild cmp path empty = empty := by
  induction path with
  | nil => rfl
  | cons k path ih =>
    unfold empty updateChild
    rw [show (children [] : FNode K L).getImmediateChild cmp k = empty from rfl]
    unfold empty at ih ⊢
    rw [ih]
    rfl

omit [TransCmp cmp] [LawfulEqCmp cmp] [DecidableEq K] in
/-- A leaf needs no case of its own. -/
theorem updateChild_cons (k : K) (path : List K) (n m : FNode K L) :
    n.updateChild cmp (k :: path) m =
      n.updateImmediateChild cmp k ((n.getImmediateChild cmp k).updateChild cmp path m) := by
  cases n with
  | leaf value =>
    by_cases hm : m.isEmpty
    · obtain rfl := isEmpty_iff.mp hm
      simp [updateChild, updateChild_empty_empty, updateImmediateChild]
    · simp [updateChild, hm]
  | children entries => rfl

omit [LawfulEqCmp cmp] [DecidableEq K] in
theorem Proper.updateChild {n m : FNode K L} (h : n.Proper cmp) (hm : m.Proper cmp)
    (path : List K) : (n.updateChild cmp path m).Proper cmp := by
  induction path generalizing n with
  | nil => cases n <;> exact hm
  | cons k path ih =>
    rw [updateChild_cons]
    exact h.updateImmediateChild (ih (h.getImmediateChild k)) k

/-- An update overwrites the leaves from its path on, unless it goes below a leaf: that leaf
makes room, but only where something comes. -/
theorem leaves_updateChild {n m : FNode K L} {p : List K} (h : n.Proper cmp)
    (hclear : PathMaps.Clear (n.leaves cmp) p ∨ m.isEmpty = true) :
    (n.updateChild cmp p m).leaves cmp = PathMaps.graft p (m.leaves cmp) (n.leaves cmp) := by
  induction p generalizing n with
  | nil => cases n <;> rfl
  | cons k p ih =>
    have hchild : PathMaps.Clear ((n.getImmediateChild cmp k).leaves cmp) p ∨
        m.isEmpty = true := by
      rcases hclear with hclear | hempty
      · have hbelow := (PathMaps.clear_cons.mp hclear).2
        rw [below_leaves, getChild_cons, getChild_nil] at hbelow
        exact Or.inl hbelow
      · exact Or.inr hempty
    have hinner := ih (h.getImmediateChild k) hchild
    funext q
    rw [updateChild_cons]
    cases q with
    | nil =>
      rw [PathMaps.graft_cons_nil, leaves_nil, leaves_nil, value?_updateImmediateChild]
      split
      · rfl
      · rename_i hne
        rcases hclear with hclear | hempty
        · have hnil := (PathMaps.clear_cons.mp hclear).1
          rw [leaves_nil] at hnil
          exact hnil.symm
        · cases n with
          | leaf value =>
            obtain rfl := isEmpty_iff.mp hempty
            rw [getImmediateChild_leaf, updateChild_empty_empty] at hne
            exact absurd rfl hne
          | children entries => rfl
    | cons l q =>
      rw [PathMaps.graft_cons_cons, leaves_cons, getImmediateChild_updateImmediateChild h]
      by_cases hl : l = k
      · subst hl
        rw [if_pos rfl, if_pos rfl, hinner, below_leaves, getChild_cons, getChild_nil]
      · rw [if_neg hl, if_neg (Ne.symm hl), leaves_cons]

end Updates

/-! ## Equality -/

section Equality

variable [TransCmp cmp] [LawfulEqCmp cmp] [BEq L] [LawfulBEq L]

omit [TransCmp cmp] [LawfulEqCmp cmp] [LawfulBEq L] in
theorem haveEquals_iff {entries : List (K × FNode K L)} {other : FNode K L} :
    haveEquals cmp entries other = true ↔
      ∀ e ∈ entries, isEqual cmp e.2 (other.getImmediateChild cmp e.1) = true := by
  induction entries with
  | nil => simp [haveEquals]
  | cons e entries ih =>
    obtain ⟨key, node⟩ := e
    simp [haveEquals, ih]

theorem isEqual_iff {n m : FNode K L} (hn : n.Proper cmp) (hm : m.Proper cmp) :
    isEqual cmp n m = true ↔ n = m := by
  induction hn generalizing m with
  | leaf value =>
    cases m with
    | leaf value' => simp [isEqual]
    | children entries => simp [isEqual]
  | @children entries sorted proper nonempty ih =>
    cases m with
    | leaf value => simp [isEqual]
    | children entries' =>
      have hchild : ∀ e ∈ entries,
          (isEqual cmp e.2 ((children entries').getImmediateChild cmp e.1) = true ↔
            e ∈ entries') := by
        intro e he
        rw [ih e he (hm.getImmediateChild e.1)]
        have hfind := find_eq_of_proper hm e.1
        cases hm with
        | children sorted' proper' nonempty' =>
          rw [← Entries.find_eq_some_iff sorted', hfind]
          constructor
          · intro heq
            rw [← heq, nonempty e he]
            rfl
          · split
            · intro hnone
              cases hnone
            · intro hsome
              exact (Option.some.inj hsome).symm
      rw [isEqual, Bool.or_eq_true, Bool.and_eq_true, Bool.and_eq_true, haveEquals_iff]
      cases hm with
      | children sorted' proper' nonempty' =>
        constructor
        · rintro (⟨hnil, hnil'⟩ | ⟨hlen, hall⟩)
          · rw [List.isEmpty_iff.mp hnil, List.isEmpty_iff.mp hnil']
          · congr 1
            refine Entries.eq_of_subset sorted sorted' ?_ (beq_iff_eq.mp hlen).ge
            exact fun e he => (hchild e he).mp (hall e he)
        · intro heq
          cases heq
          refine Or.inr ⟨by simp, ?_⟩
          exact fun e he => (hchild e he).mpr he

end Equality

/-! ## The children -/

theorem Proper.of_mem {n : FNode K L} (h : n.Proper cmp) {e : K × FNode K L}
    (he : e ∈ n.childEntries) : e.2.Proper cmp := by
  cases h with
  | leaf value => cases he
  | children sorted proper nonempty => exact proper e he

theorem Proper.sorted_childEntries {n : FNode K L} (h : n.Proper cmp) :
    Entries.Sorted cmp n.childEntries := by
  cases h with
  | leaf value => exact .nil
  | children sorted proper nonempty => exact sorted

theorem Proper.mem_childEntries [TransCmp cmp] [LawfulEqCmp cmp] {n : FNode K L}
    (h : n.Proper cmp) {k : K} {m : FNode K L} :
    (k, m) ∈ n.childEntries ↔ n.getImmediateChild cmp k = m ∧ m.isEmpty = false := by
  cases h with
  | leaf value =>
    simp only [childEntries, List.not_mem_nil, getImmediateChild_leaf, false_iff, not_and]
    rintro rfl
    simp
  | @children entries sorted proper nonempty =>
    rw [childEntries, ← Entries.find_eq_some_iff sorted]
    constructor
    · intro hfind
      refine ⟨by simp [FNode.getImmediateChild, hfind], ?_⟩
      exact nonempty _ ((Entries.find_eq_some_iff sorted).mp hfind)
    · rintro ⟨rfl, hm⟩
      rcases Option.eq_none_or_eq_some (Entries.find cmp k entries) with hnone | ⟨child, hsome⟩
      · simp [FNode.getImmediateChild, hnone] at hm
      · simp [FNode.getImmediateChild, hsome]

end FNode

/-! ## Nodes that are in order by construction -/

structure Node {K : Type} (cmp : K → K → Ordering) (L : Type) where
  node : FNode K L
  proper : node.Proper cmp

namespace Node

variable {K L : Type} {cmp : K → K → Ordering}

def empty : Node cmp L := ⟨FNode.empty, FNode.proper_empty⟩

def leaf (value : L) : Node cmp L := ⟨.leaf value, .leaf value⟩

def isEmpty (n : Node cmp L) : Bool := n.node.isEmpty

def isLeafNode (n : Node cmp L) : Bool := n.node.isLeafNode

def leaves (n : Node cmp L) : List K → Option L := n.node.leaves cmp

def getImmediateChild (n : Node cmp L) (k : K) : Node cmp L :=
  ⟨n.node.getImmediateChild cmp k, n.proper.getImmediateChild k⟩

def getChild (n : Node cmp L) (path : List K) : Node cmp L :=
  ⟨n.node.getChild cmp path, n.proper.getChild path⟩

def hasChild (n : Node cmp L) (k : K) : Bool := n.node.hasChild cmp k

def updateImmediateChild [TransCmp cmp] (n : Node cmp L) (k : K) (m : Node cmp L) : Node cmp L :=
  ⟨n.node.updateImmediateChild cmp k m.node, n.proper.updateImmediateChild m.proper k⟩

def updateChild [TransCmp cmp] (n : Node cmp L) (path : List K) (m : Node cmp L) : Node cmp L :=
  ⟨n.node.updateChild cmp path m.node, n.proper.updateChild m.proper path⟩

/-- The children, as `enumerateChildrenUsingBlock:` passes over them. -/
def children (n : Node cmp L) : List (K × Node cmp L) :=
  n.node.childEntries.attach.map (fun e => (e.1.1, ⟨e.1.2, n.proper.of_mem e.2⟩))

@[simp] theorem leaves_empty : (empty : Node cmp L).leaves = fun _ => none := FNode.leaves_empty

@[simp] theorem isEmpty_empty : (empty : Node cmp L).isEmpty = true := rfl

theorem isEmpty_iff {n : Node cmp L} : n.isEmpty = true ↔ n = empty := by
  obtain ⟨node, proper⟩ := n
  simp [isEmpty, empty, FNode.isEmpty_iff]

theorem isLeafNode_iff {n : Node cmp L} : n.isLeafNode = true ↔ n.leaves [] ≠ none := by
  obtain ⟨node, proper⟩ := n
  cases node with
  | leaf value => simp [isLeafNode, leaves, FNode.isLeafNode, FNode.value?]
  | children entries => simp [isLeafNode, leaves, FNode.isLeafNode, FNode.value?]

@[simp] theorem getChild_nil (n : Node cmp L) : n.getChild [] = n := by
  simp [getChild]

theorem getChild_cons (n : Node cmp L) (k : K) (path : List K) :
    n.getChild (k :: path) = (n.getImmediateChild k).getChild path := by
  simp [getChild, getImmediateChild, FNode.getChild_cons]

theorem getChild_append (n : Node cmp L) (p q : List K) :
    n.getChild (p ++ q) = (n.getChild p).getChild q := by
  simp [getChild, FNode.getChild_append]

theorem leaves_getChild (n : Node cmp L) (p : List K) :
    (n.getChild p).leaves = PathMaps.below p n.leaves := (FNode.below_leaves p n.node).symm

theorem leaves_getImmediateChild (n : Node cmp L) (k : K) :
    (n.getImmediateChild k).leaves = PathMaps.below [k] n.leaves := by
  rw [← leaves_getChild, getChild_cons, getChild_nil]

theorem hasChild_eq (n : Node cmp L) (k : K) : n.hasChild k = !(n.getImmediateChild k).isEmpty :=
  rfl

theorem getImmediateChild_of_leaf {n : Node cmp L} (h : n.isLeafNode = true) (k : K) :
    n.getImmediateChild k = empty := by
  obtain ⟨node, proper⟩ := n
  cases node with
  | leaf value => rfl
  | children entries => cases h

theorem leaves_append_of_leaf {n : Node cmp L} {p : List K} {value : L} (k : K) (q : List K)
    (h : n.leaves p = some value) : n.leaves (p ++ k :: q) = none :=
  FNode.leaves_append_of_leaf k q h

theorem sorted_children (n : Node cmp L) : Entries.Sorted cmp n.children := by
  unfold Entries.Sorted children
  rw [List.pairwise_map]
  have hsorted := n.proper.sorted_childEntries
  rw [← List.attach_map_subtype_val n.node.childEntries] at hsorted
  exact List.pairwise_map.mp hsorted

theorem mem_children [TransCmp cmp] [LawfulEqCmp cmp] {n m : Node cmp L} {k : K} :
    (k, m) ∈ n.children ↔ n.getImmediateChild k = m ∧ m.isEmpty = false := by
  obtain ⟨node, proper⟩ := m
  have hentries := n.proper.mem_childEntries (k := k) (m := node)
  simp only [children, List.mem_map, List.mem_attach, true_and, Subtype.exists, Prod.exists,
    Prod.mk.injEq, mk.injEq, getImmediateChild, isEmpty]
  rw [← hentries]
  constructor
  · rintro ⟨l, m', hm, rfl, rfl⟩
    exact hm
  · intro hm
    exact ⟨k, node, hm, rfl, rfl⟩

section Laws

theorem isEmpty_iff_leaves [ReflCmp cmp] {n : Node cmp L} :
    n.isEmpty = true ↔ n.leaves = fun _ => none :=
  n.proper.isEmpty_iff_leaves

variable [TransCmp cmp]

@[simp] theorem updateChild_nil (n m : Node cmp L) : n.updateChild [] m = m := by
  obtain ⟨node, proper⟩ := n
  cases node <;> rfl

theorem updateChild_cons (n : Node cmp L) (k : K) (path : List K) (m : Node cmp L) :
    n.updateChild (k :: path) m =
      n.updateImmediateChild k ((n.getImmediateChild k).updateChild path m) := by
  simp [updateChild, updateImmediateChild, getImmediateChild, FNode.updateChild_cons]

variable [LawfulEqCmp cmp]

theorem eq_of_leaves {n m : Node cmp L} (h : n.leaves = m.leaves) : n = m := by
  have hnode := FNode.eq_of_leaves n.proper m.proper h
  cases n
  cases m
  simpa using hnode

instance [DecidableEq L] : DecidableEq (Node cmp L) := fun n m =>
  decidable_of_iff (FNode.isEqual cmp n.node m.node = true) (by
    rw [FNode.isEqual_iff n.proper m.proper]
    cases n
    cases m
    simp)

/-- Nodes without a value of their own that have the same children. -/
theorem eq_of_getImmediateChild {n m : Node cmp L}
    (h : n.getImmediateChild = m.getImmediateChild) (hn : n.isLeafNode = false)
    (hm : m.isLeafNode = false) : n = m := by
  have hvalue : ∀ n : Node cmp L, n.isLeafNode = false → n.leaves [] = none := by
    intro n hn
    by_contra hne
    rw [isLeafNode_iff.mpr hne] at hn
    cases hn
  apply eq_of_leaves
  funext q
  cases q with
  | nil => rw [hvalue n hn, hvalue m hm]
  | cons k q =>
    have hchild := congrFun (congrArg leaves (congrFun h k)) q
    rw [leaves_getImmediateChild, leaves_getImmediateChild] at hchild
    exact hchild

/-- Where there are children, they are all there is to a node. -/
theorem eq_of_children {n m : Node cmp L} (h : n.getImmediateChild = m.getImmediateChild)
    (hleaf : m.isLeafNode = false) (hempty : m.isEmpty = false) : n = m := by
  refine eq_of_getImmediateChild h ?_ hleaf
  rw [Bool.eq_false_iff]
  intro hn
  have hm : m = empty := by
    refine eq_of_getImmediateChild (h.symm.trans ?_) hleaf rfl
    funext k
    rw [getImmediateChild_of_leaf hn]
    rfl
  rw [hm] at hempty
  cases hempty

variable [DecidableEq K]

theorem leaves_updateChild {n m : Node cmp L} {p : List K}
    (h : PathMaps.Clear n.leaves p ∨ m.isEmpty = true) :
    (n.updateChild p m).leaves = PathMaps.graft p m.leaves n.leaves :=
  FNode.leaves_updateChild n.proper h

theorem getImmediateChild_updateImmediateChild (n : Node cmp L) (k l : K) (m : Node cmp L) :
    (n.updateImmediateChild k m).getImmediateChild l =
      if l = k then m else n.getImmediateChild l := by
  have h := FNode.getImmediateChild_updateImmediateChild n.proper k l m.node
  split at h
  · rename_i heq
    rw [if_pos heq]
    exact eq_of_leaves (by simp only [leaves, getImmediateChild, updateImmediateChild, h])
  · rename_i hne
    rw [if_neg hne]
    exact eq_of_leaves (by simp only [leaves, getImmediateChild, updateImmediateChild, h])

/-- A child in its own place changes nothing. -/
theorem updateImmediateChild_self (n : Node cmp L) (k : K) :
    n.updateImmediateChild k (n.getImmediateChild k) = n := by
  have hclear : PathMaps.Clear n.leaves [k] ∨ (n.getImmediateChild k).isEmpty = true := by
    cases hleaf : n.isLeafNode with
    | true =>
      rw [getImmediateChild_of_leaf hleaf]
      exact Or.inr rfl
    | false =>
      refine Or.inl (PathMaps.clear_cons.mpr ⟨?_, PathMaps.clear_nil _⟩)
      by_contra hne
      rw [isLeafNode_iff.mpr hne] at hleaf
      cases hleaf
  have hupdate := leaves_updateChild hclear
  rw [updateChild_cons, updateChild_nil, leaves_getImmediateChild, PathMaps.graft_below] at hupdate
  exact eq_of_leaves hupdate

end Laws

end Node

end HateBlocker
