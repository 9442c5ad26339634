-- `FImmutableTree`: a tree with values at some of its places. Lookups say what the tree
-- holds; setting and removing values and whole subtrees are overwrites of one path, and no
-- subtree without a value is left behind.
import HateBlocker.Entries
import HateBlocker.PathMaps
import HateBlocker.Runs

open Std

namespace HateBlocker

inductive FImmutableTree (K V : Type)
  | node (value : Option V) (children : List (K × FImmutableTree K V))

namespace FImmutableTree

variable {K V : Type}

/-- `[FImmutableTree empty]`. -/
def empty : FImmutableTree K V := node none []

/-- `initWithValue:`. -/
def withValue (aValue : V) : FImmutableTree K V := node (some aValue) []

def value : FImmutableTree K V → Option V
  | node value _ => value

def children : FImmutableTree K V → List (K × FImmutableTree K V)
  | node _ children => children

def isEmpty (t : FImmutableTree K V) : Bool := t.value.isNone && t.children.isEmpty

section Operations

variable (cmp : K → K → Ordering)

def valueAtPath : FImmutableTree K V → List K → Option V
  | node value _, [] => value
  | node _ children, front :: path =>
    match Entries.find cmp front children with
    | some child => child.valueAtPath path
    | none => none

def subtreeAtPath : FImmutableTree K V → List K → FImmutableTree K V
  | t, [] => t
  | node _ children, front :: path =>
    match Entries.find cmp front children with
    | some child => child.subtreeAtPath path
    | none => empty

/-- The first value on the path that the predicate holds of, and where it stands. -/
def findRootMostMatchingPath (predicate : V → Bool) :
    FImmutableTree K V → List K → Option (List K × V)
  | node value _, [] => (value.filter predicate).map (fun v => ([], v))
  | node value children, front :: path =>
    match value.filter predicate with
    | some v => some ([], v)
    | none =>
      match Entries.find cmp front children with
      | some child =>
        (child.findRootMostMatchingPath predicate path).map (fun pv => (front :: pv.1, pv.2))
      | none => none

def findRootMostValueAndPath : FImmutableTree K V → List K → Option (List K × V) :=
  findRootMostMatchingPath cmp (fun _ => true)

def setValue (newValue : V) : FImmutableTree K V → List K → FImmutableTree K V
  | node _ children, [] => node (some newValue) children
  | node value children, front :: path =>
    let child := (Entries.find cmp front children).getD empty
    node value (Entries.put cmp (fun k _ => k) front (child.setValue newValue path) children)

def removeValueAtPath : FImmutableTree K V → List K → FImmutableTree K V
  | node _ children, [] => if children.isEmpty then empty else node none children
  | node value children, front :: path =>
    match Entries.find cmp front children with
    | some child =>
      let newChild := child.removeValueAtPath path
      let newChildren :=
        if newChild.isEmpty then Entries.erase cmp front children
        else Entries.put cmp (fun k _ => k) front newChild children
      if value.isNone && newChildren.isEmpty then empty else node value newChildren
    | none => node value children

def setTree : FImmutableTree K V → FImmutableTree K V → List K → FImmutableTree K V
  | _, newTree, [] => newTree
  | node value children, newTree, front :: path =>
    let newChild := ((Entries.find cmp front children).getD empty).setTree newTree path
    if newChild.isEmpty then node value (Entries.erase cmp front children)
    else node value (Entries.put cmp (fun k _ => k) front newChild children)

mutual
/-- The values with their paths, in the order of `forEach:`, the children first. -/
def forEach : FImmutableTree K V → List (List K × V)
  | node value children => forEachChild children ++ (value.map (fun v => ([], v))).toList

/-- The values below the children. -/
def forEachChild : List (K × FImmutableTree K V) → List (List K × V)
  | [] => []
  | (key, child) :: children =>
    child.forEach.map (fun pv => (key :: pv.1, pv.2)) ++ forEachChild children
end

/-- The children are in order and none of them is empty. -/
inductive Sound : FImmutableTree K V → Prop
  | node (value : Option V) {children : List (K × FImmutableTree K V)}
      (sorted : Entries.Sorted cmp children) (sound : ∀ e ∈ children, Sound e.2)
      (nonempty : ∀ e ∈ children, e.2.isEmpty = false) : Sound (node value children)

end Operations

variable {cmp : K → K → Ordering}

/-! ## Looking up -/

theorem isEmpty_iff {t : FImmutableTree K V} : t.isEmpty = true ↔ t = empty := by
  obtain ⟨value, children⟩ := t
  simp [isEmpty, empty, FImmutableTree.value, FImmutableTree.children]

@[simp] theorem isEmpty_empty : (empty : FImmutableTree K V).isEmpty = true := rfl

@[simp] theorem valueAtPath_nil (t : FImmutableTree K V) : t.valueAtPath cmp [] = t.value := by
  cases t
  rfl

/-- The child under a key, empty where there is none. -/
def childAt (cmp : K → K → Ordering) (t : FImmutableTree K V) (k : K) : FImmutableTree K V :=
  (Entries.find cmp k t.children).getD empty

@[simp] theorem valueAtPath_empty : (empty : FImmutableTree K V).valueAtPath cmp = fun _ => none := by
  funext path
  cases path with
  | nil => rfl
  | cons k path => rfl

theorem valueAtPath_cons (t : FImmutableTree K V) (k : K) (path : List K) :
    t.valueAtPath cmp (k :: path) = (t.childAt cmp k).valueAtPath cmp path := by
  obtain ⟨value, children⟩ := t
  rcases Option.eq_none_or_eq_some (Entries.find cmp k children) with h | ⟨child, h⟩
  · simp [valueAtPath, childAt, FImmutableTree.children, h]
  · simp [valueAtPath, childAt, FImmutableTree.children, h]

theorem below_valueAtPath (k : K) (t : FImmutableTree K V) :
    PathMaps.below [k] (t.valueAtPath cmp) = (t.childAt cmp k).valueAtPath cmp := by
  funext path
  exact valueAtPath_cons t k path

@[simp] theorem subtreeAtPath_nil (t : FImmutableTree K V) : t.subtreeAtPath cmp [] = t := by
  cases t
  rfl

theorem subtreeAtPath_empty (path : List K) :
    (empty : FImmutableTree K V).subtreeAtPath cmp path = empty := by
  cases path <;> rfl

theorem subtreeAtPath_cons (t : FImmutableTree K V) (k : K) (path : List K) :
    t.subtreeAtPath cmp (k :: path) = (t.childAt cmp k).subtreeAtPath cmp path := by
  obtain ⟨value, children⟩ := t
  rcases Option.eq_none_or_eq_some (Entries.find cmp k children) with h | ⟨child, h⟩
  · simp [subtreeAtPath, childAt, FImmutableTree.children, h, subtreeAtPath_empty]
  · simp [subtreeAtPath, childAt, FImmutableTree.children, h]

theorem valueAtPath_subtreeAtPath (t : FImmutableTree K V) (path : List K) :
    (t.subtreeAtPath cmp path).valueAtPath cmp = PathMaps.below path (t.valueAtPath cmp) := by
  induction path generalizing t with
  | nil => simp
  | cons k path ih =>
    rw [subtreeAtPath_cons, ih, ← below_valueAtPath, ← PathMaps.below_append]
    rfl

@[simp] theorem valueAtPath_withValue (v : V) (path : List K) :
    (withValue v).valueAtPath cmp path = if path = [] then some v else none := by
  cases path <;> rfl

theorem findRootMost_cons (predicate : V → Bool) (t : FImmutableTree K V) (k : K) (path : List K) :
    t.findRootMostMatchingPath cmp predicate (k :: path) =
      match t.value.filter predicate with
      | some v => some ([], v)
      | none => ((t.childAt cmp k).findRootMostMatchingPath cmp predicate path).map
          (fun pv => (k :: pv.1, pv.2)) := by
  obtain ⟨value, children⟩ := t
  rcases Option.eq_none_or_eq_some (Entries.find cmp k children) with h | ⟨child, h⟩
  · have hempty : (empty : FImmutableTree K V).findRootMostMatchingPath cmp predicate path =
        none := by cases path <;> rfl
    simp only [findRootMostMatchingPath, childAt, FImmutableTree.children, h, Option.getD_none,
      hempty, FImmutableTree.value]
    rfl
  · simp only [findRootMostMatchingPath, childAt, FImmutableTree.children, h, Option.getD_some,
      FImmutableTree.value]

/-- The value that is found is the first one on the way that the predicate holds of. -/
theorem findRootMost_eq_some {predicate : V → Bool} {t : FImmutableTree K V} {path r : List K}
    {v : V} :
    t.findRootMostMatchingPath cmp predicate path = some (r, v) ↔
      r <+: path ∧ t.valueAtPath cmp r = some v ∧ predicate v = true ∧
        PathMaps.Clear (fun q => (t.valueAtPath cmp q).filter predicate) r := by
  induction path generalizing t r with
  | nil =>
    obtain ⟨value, children⟩ := t
    constructor
    · intro h
      obtain ⟨w, hw, heq⟩ := Option.map_eq_some_iff.mp h
      cases heq
      obtain ⟨hv, hp⟩ := Option.filter_eq_some_iff.mp hw
      exact ⟨List.nil_prefix, hv, hp, PathMaps.clear_nil _⟩
    · rintro ⟨hpre, hv, hp, -⟩
      obtain rfl := List.prefix_nil.mp hpre
      have hv' : value = some v := hv
      simp [findRootMostMatchingPath, hv', hp]
  | cons k path ih =>
    rw [findRootMost_cons]
    cases hv : t.value.filter predicate with
    | some w =>
      obtain ⟨hw, hp⟩ := Option.filter_eq_some_iff.mp hv
      constructor
      · intro h
        cases h
        exact ⟨List.nil_prefix, by simpa using hw, hp, PathMaps.clear_nil _⟩
      · rintro ⟨hpre, hr, hpr, hclear⟩
        cases r with
        | nil =>
          rw [valueAtPath_nil, hw] at hr
          cases hr
          rfl
        | cons l r =>
          have hnil := (PathMaps.clear_cons.mp hclear).1
          simp [hw, hp] at hnil
    | none =>
      have hnil : (t.valueAtPath cmp []).filter predicate = none := by simpa using hv
      constructor
      · intro h
        obtain ⟨⟨r', v'⟩, hin, heq⟩ := Option.map_eq_some_iff.mp h
        cases heq
        obtain ⟨hpre, hval, hp, hclear⟩ := ih.mp hin
        refine ⟨List.cons_prefix_cons.mpr ⟨rfl, hpre⟩, ?_, hp, ?_⟩
        · rwa [valueAtPath_cons]
        · refine PathMaps.clear_cons.mpr ⟨hnil, ?_⟩
          rw [← below_valueAtPath] at hclear
          exact hclear
      · rintro ⟨hpre, hval, hp, hclear⟩
        cases r with
        | nil =>
          rw [hval] at hnil
          simp [hp] at hnil
        | cons l r =>
          obtain ⟨rfl, hpre'⟩ := List.cons_prefix_cons.mp hpre
          rw [valueAtPath_cons] at hval
          have hrest := (PathMaps.clear_cons.mp hclear).2
          have hin := ih.mpr ⟨hpre', hval, hp, by
            rw [← below_valueAtPath]
            exact hrest⟩
          simp [hin]

/-- The value nearest to the root is the one without values above it. -/
theorem findRootMostValueAndPath_eq_some {t : FImmutableTree K V} {path r : List K} {v : V} :
    t.findRootMostValueAndPath cmp path = some (r, v) ↔
      r <+: path ∧ t.valueAtPath cmp r = some v ∧ PathMaps.Clear (t.valueAtPath cmp) r := by
  have hfilter : (fun q => (t.valueAtPath cmp q).filter (fun _ => true)) =
      t.valueAtPath cmp := by
    funext q
    cases t.valueAtPath cmp q <;> rfl
  rw [findRootMostValueAndPath, findRootMost_eq_some, hfilter]
  simp

/-- Maps that stand at the places of the values, put over each other. -/
theorem rootMost_valueAtPath {A : Type} (m : V → List K → A) (t : FImmutableTree K V)
    (path : List K) :
    PathMaps.rootMost (fun q => (t.valueAtPath cmp q).map m) path =
      (t.findRootMostValueAndPath cmp path).map (fun pv => m pv.2 (path.drop pv.1.length)) := by
  unfold findRootMostValueAndPath
  induction path generalizing t with
  | nil =>
    obtain ⟨value, children⟩ := t
    cases value <;> rfl
  | cons k path ih =>
    rw [findRootMost_cons]
    cases hv : t.value with
    | some v =>
      have hroot : (t.valueAtPath cmp []).map m = some (m v) := by simp [hv]
      rw [PathMaps.rootMost_of_root hroot]
      rfl
    | none =>
      have hnil : (t.valueAtPath cmp []).map m = none := by simp [hv]
      have hbelow : PathMaps.below [k] (fun q => (t.valueAtPath cmp q).map m) =
          fun q => ((t.childAt cmp k).valueAtPath cmp q).map m := by
        funext q
        simp [PathMaps.below, valueAtPath_cons]
      rw [PathMaps.rootMost_cons hnil, hbelow, ih]
      simp [Function.comp_def]

/-! ## Soundness -/

theorem sound_empty : (empty : FImmutableTree K V).Sound cmp :=
  .node none .nil (by simp) (by simp)

theorem sound_withValue (v : V) : (withValue v : FImmutableTree K V).Sound cmp :=
  .node (some v) .nil (by simp) (by simp)

theorem mem_of_find {k : K} {t : FImmutableTree K V} {entries : List (K × FImmutableTree K V)}
    (h : Entries.find cmp k entries = some t) : ∃ e ∈ entries, e.2 = t := by
  unfold Entries.find at h
  obtain ⟨e, he, rfl⟩ := Option.map_eq_some_iff.mp h
  exact ⟨e, List.mem_of_find?_eq_some he, rfl⟩

theorem Sound.childAt {t : FImmutableTree K V} (h : t.Sound cmp) (k : K) :
    (t.childAt cmp k).Sound cmp := by
  cases h with
  | @node value entries sorted sound nonempty =>
    unfold FImmutableTree.childAt
    rcases Option.eq_none_or_eq_some (Entries.find cmp k entries) with hfind | ⟨child, hfind⟩
    · simpa [FImmutableTree.children, hfind] using sound_empty
    · obtain ⟨e, he, rfl⟩ := mem_of_find hfind
      simpa [FImmutableTree.children, hfind] using sound e he

theorem Sound.subtreeAtPath {t : FImmutableTree K V} (h : t.Sound cmp) (path : List K) :
    (t.subtreeAtPath cmp path).Sound cmp := by
  induction path generalizing t with
  | nil => simpa using h
  | cons k path ih =>
    rw [subtreeAtPath_cons]
    exact ih (h.childAt k)

theorem Sound.of_mem_children {t : FImmutableTree K V} (h : t.Sound cmp)
    {e : K × FImmutableTree K V} (he : e ∈ t.children) : e.2.Sound cmp := by
  cases h with
  | node value sorted sound nonempty => exact sound e he

theorem Sound.sorted_children {t : FImmutableTree K V} (h : t.Sound cmp) :
    Entries.Sorted cmp t.children := by
  cases h with
  | node value sorted sound nonempty => exact sorted

theorem Sound.isEmpty_of_mem_children {t : FImmutableTree K V} (h : t.Sound cmp)
    {e : K × FImmutableTree K V} (he : e ∈ t.children) : e.2.isEmpty = false := by
  cases h with
  | node value sorted sound nonempty => exact nonempty e he

theorem Sound.childAt_of_mem_children [LawfulEqCmp cmp] {t : FImmutableTree K V}
    (h : t.Sound cmp) {e : K × FImmutableTree K V} (he : e ∈ t.children) :
    t.childAt cmp e.1 = e.2 := by
  rw [FImmutableTree.childAt, (Entries.find_eq_some_iff h.sorted_children).mpr he]
  rfl

theorem childAt_of_not_mem [LawfulEqCmp cmp] {t : FImmutableTree K V} {k : K}
    (h : k ∉ t.children.map Prod.fst) : t.childAt cmp k = empty := by
  rw [FImmutableTree.childAt, Entries.find_eq_none.mpr]
  · rfl
  · intro e he heq
    exact h (LawfulEqCmp.compare_eq_iff_eq.mp heq ▸ List.mem_map_of_mem he)

/-- A child holds what the tree holds below its key. -/
theorem Sound.valueAtPath_of_mem_children [LawfulEqCmp cmp]
    {t : FImmutableTree K V} (h : t.Sound cmp) {e : K × FImmutableTree K V}
    (he : e ∈ t.children) : e.2.valueAtPath cmp = PathMaps.below [e.1] (t.valueAtPath cmp) := by
  rw [below_valueAtPath, h.childAt_of_mem_children he]

/-- A sound tree is empty only when it holds no value. -/
theorem Sound.isEmpty_iff [ReflCmp cmp] {t : FImmutableTree K V} (h : t.Sound cmp) :
    t.isEmpty = true ↔ t.valueAtPath cmp = fun _ => none := by
  constructor
  · intro hempty
    rw [FImmutableTree.isEmpty_iff.mp hempty, valueAtPath_empty]
  · intro hnone
    induction h with
    | @node value entries sorted sound nonempty ih =>
      cases entries with
      | nil =>
        have hvalue : value = none := congrFun hnone []
        simp [isEmpty, FImmutableTree.value, FImmutableTree.children, hvalue]
      | cons e entries =>
        have hchild : (FImmutableTree.node value (e :: entries)).childAt cmp e.1 = e.2 := by
          have hself : cmp e.1 e.1 = .eq := ReflCmp.compare_self
          simp [FImmutableTree.childAt, FImmutableTree.children, Entries.find_cons, hself]
        have hbelow : e.2.valueAtPath cmp = fun _ => none := by
          funext path
          rw [← hchild, ← valueAtPath_cons, hnone]
        have hempty := ih e (by simp) hbelow
        rw [nonempty e (by simp)] at hempty
        cases hempty

/-- What all updates do at one child: another child in its place, or none when that is empty. -/
def withChild (cmp : K → K → Ordering) (t : FImmutableTree K V) (k : K)
    (child : FImmutableTree K V) : FImmutableTree K V :=
  if child.isEmpty then .node t.value (Entries.erase cmp k t.children)
  else .node t.value (Entries.put cmp (fun k _ => k) k child t.children)

theorem withChild_value (t : FImmutableTree K V) (k : K) (child : FImmutableTree K V) :
    (t.withChild cmp k child).value = t.value := by
  unfold withChild
  split <;> rfl

section Updates

variable [TransCmp cmp]

theorem Sound.withChild {t child : FImmutableTree K V} (h : t.Sound cmp) (hc : child.Sound cmp)
    (k : K) : (t.withChild cmp k child).Sound cmp := by
  cases h with
  | @node value entries sorted sound nonempty =>
    unfold FImmutableTree.withChild
    split
    · refine .node _ (sorted.erase k) ?_ ?_
      · exact fun e he => sound e (List.mem_of_mem_filter he)
      · exact fun e he => nonempty e (List.mem_of_mem_filter he)
    · rename_i hne
      have hmem : ∀ e ∈ Entries.put cmp (fun k _ => k) k child entries,
          e.2 = child ∨ e ∈ entries := by
        intro e he
        rcases Entries.mem_put he with rfl | ⟨f, -, -, rfl⟩ | h'
        · exact Or.inl rfl
        · exact Or.inl rfl
        · exact Or.inr h'
      refine .node _ (sorted.put Entries.picks_new k child) ?_ ?_
      · intro e he
        rcases hmem e he with heq | he
        · rw [heq]
          exact hc
        · exact sound e he
      · intro e he
        rcases hmem e he with heq | he
        · rw [heq]
          exact Bool.eq_false_iff.mpr hne
        · exact nonempty e he

variable [LawfulEqCmp cmp] [DecidableEq K]

theorem childAt_withChild {t : FImmutableTree K V} (h : t.Sound cmp) (k l : K)
    (child : FImmutableTree K V) :
    (t.withChild cmp k child).childAt cmp l = if l = k then child else t.childAt cmp l := by
  cases h with
  | @node value entries sorted sound nonempty =>
    unfold withChild childAt
    split
    · rename_i hempty
      rw [isEmpty_iff.mp hempty]
      simp only [FImmutableTree.children, Entries.find_erase_self]
      split <;> rfl
    · simp only [FImmutableTree.children,
        Entries.find_put_self Entries.picks_new k l child sorted]
      split <;> rfl

/-- The values after an update at one child. -/
theorem valueAtPath_withChild {t : FImmutableTree K V} (h : t.Sound cmp) (k : K)
    (child : FImmutableTree K V) :
    (t.withChild cmp k child).valueAtPath cmp =
      PathMaps.graft [k] (child.valueAtPath cmp) (t.valueAtPath cmp) := by
  funext path
  cases path with
  | nil =>
    rw [valueAtPath_nil, withChild_value, PathMaps.graft_cons_nil, valueAtPath_nil]
  | cons l path =>
    rw [valueAtPath_cons, childAt_withChild h, PathMaps.graft_cons_cons, PathMaps.graft_nil]
    by_cases hl : l = k
    · rw [if_pos hl, if_pos hl.symm]
    · rw [if_neg hl, if_neg (Ne.symm hl), valueAtPath_cons]

/-! ## The operations -/

omit [TransCmp cmp] [LawfulEqCmp cmp] [DecidableEq K] in
theorem isEmpty_setValue (v : V) (t : FImmutableTree K V) (path : List K) :
    (t.setValue cmp v path).isEmpty = false := by
  obtain ⟨value, entries⟩ := t
  cases path with
  | nil => rfl
  | cons k path =>
    simp only [setValue, isEmpty, FImmutableTree.children, Bool.and_eq_false_iff]
    refine Or.inr ?_
    cases entries with
    | nil => rfl
    | cons e entries =>
      simp only [Entries.put]
      split <;> rfl

omit [TransCmp cmp] [LawfulEqCmp cmp] [DecidableEq K] in
theorem setValue_cons (v : V) (t : FImmutableTree K V) (k : K) (path : List K) :
    t.setValue cmp v (k :: path) = t.withChild cmp k ((t.childAt cmp k).setValue cmp v path) := by
  obtain ⟨value, entries⟩ := t
  unfold withChild
  rw [isEmpty_setValue]
  rfl

omit [TransCmp cmp] [LawfulEqCmp cmp] [DecidableEq K] in
theorem setTree_cons (t s : FImmutableTree K V) (k : K) (path : List K) :
    t.setTree cmp s (k :: path) = t.withChild cmp k ((t.childAt cmp k).setTree cmp s path) := by
  obtain ⟨value, entries⟩ := t
  rfl

omit [LawfulEqCmp cmp] [DecidableEq K] in
theorem Sound.setValue {t : FImmutableTree K V} (h : t.Sound cmp) (v : V) (path : List K) :
    (t.setValue cmp v path).Sound cmp := by
  induction path generalizing t with
  | nil =>
    cases h with
    | node value sorted sound nonempty => exact .node (some v) sorted sound nonempty
  | cons k path ih =>
    rw [setValue_cons]
    exact h.withChild (ih (h.childAt k)) k

theorem valueAtPath_setValue {t : FImmutableTree K V} (h : t.Sound cmp) (v : V)
    (path q : List K) :
    (t.setValue cmp v path).valueAtPath cmp q =
      if q = path then some v else t.valueAtPath cmp q := by
  induction path generalizing t q with
  | nil =>
    obtain ⟨value, entries⟩ := t
    cases q <;> rfl
  | cons k path ih =>
    rw [setValue_cons, valueAtPath_withChild h]
    cases q with
    | nil => simp [PathMaps.graft_cons_nil]
    | cons l q =>
      rw [PathMaps.graft_cons_cons, PathMaps.graft_nil, ih (h.childAt k)]
      by_cases hl : k = l
      · subst hl
        simp [valueAtPath_cons]
      · have hne : ¬ l :: q = k :: path := fun heq => hl (List.cons.inj heq).1.symm
        rw [if_neg hl, if_neg hne]

omit [LawfulEqCmp cmp] [DecidableEq K] in
theorem Sound.setTree {t s : FImmutableTree K V} (h : t.Sound cmp) (hs : s.Sound cmp)
    (path : List K) : (t.setTree cmp s path).Sound cmp := by
  induction path generalizing t with
  | nil =>
    cases t
    exact hs
  | cons k path ih =>
    rw [setTree_cons]
    exact h.withChild (ih (h.childAt k)) k

theorem valueAtPath_setTree {t : FImmutableTree K V} (h : t.Sound cmp) (s : FImmutableTree K V)
    (path : List K) :
    (t.setTree cmp s path).valueAtPath cmp =
      PathMaps.graft path (s.valueAtPath cmp) (t.valueAtPath cmp) := by
  induction path generalizing t with
  | nil =>
    cases t
    rfl
  | cons k path ih =>
    rw [setTree_cons, valueAtPath_withChild h, ih (h.childAt k), ← below_valueAtPath]
    exact (PathMaps.graft_append_left [k] path _ _).symm

omit [TransCmp cmp] [LawfulEqCmp cmp] [DecidableEq K] in
theorem removeValueAtPath_nil (t : FImmutableTree K V) :
    t.removeValueAtPath cmp [] = .node none t.children := by
  obtain ⟨value, entries⟩ := t
  cases entries <;> rfl

omit [TransCmp cmp] [LawfulEqCmp cmp] [DecidableEq K] in
theorem removeValueAtPath_empty (path : List K) :
    (empty : FImmutableTree K V).removeValueAtPath cmp path = empty := by
  cases path <;> rfl

omit [TransCmp cmp] [LawfulEqCmp cmp] [DecidableEq K] in
theorem empty_or_node (value : Option V) (entries : List (K × FImmutableTree K V)) :
    (if (value.isNone && entries.isEmpty) = true then empty else FImmutableTree.node value entries) =
      .node value entries := by
  split
  · rename_i hnone
    rw [Bool.and_eq_true, Option.isNone_iff_eq_none, List.isEmpty_iff] at hnone
    rw [hnone.1, hnone.2]
    rfl
  · rfl

omit [TransCmp cmp] [LawfulEqCmp cmp] [DecidableEq K] in
/-- Where the path leaves the tree nothing changes, and a tree that becomes empty is `empty`. -/
theorem removeValueAtPath_cons (t : FImmutableTree K V) (k : K) (path : List K) :
    t.removeValueAtPath cmp (k :: path) =
      t.withChild cmp k ((t.childAt cmp k).removeValueAtPath cmp path) := by
  obtain ⟨value, entries⟩ := t
  rcases Option.eq_none_or_eq_some (Entries.find cmp k entries) with h | ⟨child, h⟩
  · have hchild : (FImmutableTree.node value entries).childAt cmp k = empty := by
      simp [childAt, FImmutableTree.children, h]
    rw [hchild, removeValueAtPath_empty, withChild, isEmpty_empty, if_pos rfl]
    simp only [removeValueAtPath, h, FImmutableTree.value, FImmutableTree.children]
    rw [Entries.erase_of_ne (Entries.find_eq_none.mp h)]
  · have hchild : (FImmutableTree.node value entries).childAt cmp k = child := by
      simp [childAt, FImmutableTree.children, h]
    rw [hchild]
    simp only [removeValueAtPath, h]
    have hwith : (FImmutableTree.node value entries).withChild cmp k
        (child.removeValueAtPath cmp path) =
        .node value (if (child.removeValueAtPath cmp path).isEmpty then Entries.erase cmp k entries
          else Entries.put cmp (fun k _ => k) k (child.removeValueAtPath cmp path) entries) := by
      unfold withChild
      split <;> rfl
    rw [hwith, empty_or_node]

omit [LawfulEqCmp cmp] [DecidableEq K] in
theorem Sound.removeValueAtPath {t : FImmutableTree K V} (h : t.Sound cmp) (path : List K) :
    (t.removeValueAtPath cmp path).Sound cmp := by
  induction path generalizing t with
  | nil =>
    rw [removeValueAtPath_nil]
    cases h with
    | node value sorted sound nonempty => exact .node none sorted sound nonempty
  | cons k path ih =>
    rw [removeValueAtPath_cons]
    exact h.withChild (ih (h.childAt k)) k

theorem valueAtPath_removeValueAtPath {t : FImmutableTree K V} (h : t.Sound cmp)
    (path q : List K) :
    (t.removeValueAtPath cmp path).valueAtPath cmp q =
      if q = path then none else t.valueAtPath cmp q := by
  induction path generalizing t q with
  | nil =>
    rw [removeValueAtPath_nil]
    obtain ⟨value, entries⟩ := t
    cases q <;> rfl
  | cons k path ih =>
    rw [removeValueAtPath_cons, valueAtPath_withChild h]
    cases q with
    | nil => simp [PathMaps.graft_cons_nil]
    | cons l q =>
      rw [PathMaps.graft_cons_cons, PathMaps.graft_nil, ih (h.childAt k)]
      by_cases hl : k = l
      · subst hl
        simp [valueAtPath_cons]
      · have hne : ¬ l :: q = k :: path := fun heq => hl (List.cons.inj heq).1.symm
        rw [if_neg hl, if_neg hne]

end Updates

/-! ## Passing over the values -/

theorem mem_forEachChild {children : List (K × FImmutableTree K V)} {p : List K} {v : V} :
    (p, v) ∈ forEachChild children ↔
      ∃ e ∈ children, ∃ path, p = e.1 :: path ∧ (path, v) ∈ e.2.forEach := by
  induction children with
  | nil => simp [forEachChild]
  | cons e children ih =>
    obtain ⟨key, child⟩ := e
    rw [forEachChild, List.mem_append, ih]
    constructor
    · rintro (hin | ⟨e, he, hin⟩)
      · obtain ⟨⟨path, w⟩, hin', heq⟩ := List.mem_map.mp hin
        cases heq
        exact ⟨(key, child), by simp, path, rfl, hin'⟩
      · exact ⟨e, List.mem_cons_of_mem _ he, hin⟩
    · rintro ⟨e, he, path, rfl, hin⟩
      rcases List.mem_cons.mp he with rfl | he
      · exact Or.inl (List.mem_map.mpr ⟨(path, v), hin, rfl⟩)
      · exact Or.inr ⟨e, he, path, rfl, hin⟩

/-- Every value is passed over, with its path. -/
theorem Sound.mem_forEach [LawfulEqCmp cmp] {t : FImmutableTree K V} (h : t.Sound cmp) {p : List K}
    {v : V} : (p, v) ∈ t.forEach ↔ t.valueAtPath cmp p = some v := by
  induction h generalizing p with
  | @node value entries sorted sound nonempty ih =>
    rw [forEach, List.mem_append, mem_forEachChild]
    cases p with
    | nil =>
      constructor
      · rintro (⟨e, -, path, heq, -⟩ | hin)
        · cases heq
        · obtain ⟨w, hw, heq⟩ := Option.map_eq_some_iff.mp (Option.mem_toList.mp hin)
          cases heq
          exact hw
      · intro hv
        have hv' : value = some v := hv
        exact Or.inr (by simp [hv'])
    | cons k path =>
      rw [valueAtPath_cons]
      constructor
      · rintro (⟨e, he, path', heq, hin⟩ | hin)
        · cases heq
          have hfind : Entries.find cmp e.1 entries = some e.2 :=
            (Entries.find_eq_some_iff sorted).mpr he
          simpa [FImmutableTree.childAt, FImmutableTree.children, hfind] using (ih e he).mp hin
        · obtain ⟨w, -, heq⟩ := Option.map_eq_some_iff.mp (Option.mem_toList.mp hin)
          cases heq
      · intro hv
        refine Or.inl ?_
        rcases Option.eq_none_or_eq_some (Entries.find cmp k entries) with hfind | ⟨child, hfind⟩
        · simp [FImmutableTree.childAt, FImmutableTree.children, hfind] at hv
        · have hmem := (Entries.find_eq_some_iff sorted).mp hfind
          refine ⟨(k, child), hmem, path, rfl, (ih (k, child) hmem).mpr ?_⟩
          simpa [FImmutableTree.childAt, FImmutableTree.children, hfind] using hv

/-- No value is passed over twice. -/
theorem Sound.nodup_forEach [ReflCmp cmp] {t : FImmutableTree K V} (h : t.Sound cmp) :
    (t.forEach.map Prod.fst).Nodup := by
  induction h with
  | @node value entries sorted sound nonempty ih =>
    have hchildren : (forEachChild entries |>.map Prod.fst).Nodup := by
      clear nonempty
      induction entries with
      | nil => simp [forEachChild]
      | cons e entries ihs =>
        obtain ⟨key, child⟩ := e
        obtain ⟨hhead, htail⟩ := Entries.Sorted.cons_iff.mp sorted
        rw [forEachChild, List.map_append, List.nodup_append]
        refine ⟨?_, ?_, ?_⟩
        · have hmap : (child.forEach.map (fun pv => (key :: pv.1, pv.2))).map Prod.fst =
              (child.forEach.map Prod.fst).map (List.cons key) := by simp
          rw [hmap]
          exact (ih (key, child) (by simp)).map (List.cons_injective)
        · exact ihs htail (fun e he => sound e (List.mem_cons_of_mem _ he))
            (fun e he => ih e (List.mem_cons_of_mem _ he))
        · intro p hp q hq heq
          subst heq
          obtain ⟨⟨p', v⟩, hin, rfl⟩ := List.mem_map.mp hp
          obtain ⟨⟨r, w⟩, -, heq⟩ := List.mem_map.mp hin
          cases heq
          obtain ⟨⟨q', v'⟩, hin', heq'⟩ := List.mem_map.mp hq
          obtain ⟨e, he, path, hcons, -⟩ := mem_forEachChild.mp hin'
          obtain rfl : q' = key :: r := heq'
          obtain ⟨hkey, -⟩ := List.cons.inj hcons
          have hlt := hhead e he
          rw [← hkey, show cmp key key = .eq from ReflCmp.compare_self] at hlt
          cases hlt
    rw [forEach, List.map_append, List.nodup_append]
    refine ⟨hchildren, ?_, ?_⟩
    · cases value <;> simp
    · intro p hp q hq heq
      subst heq
      obtain ⟨⟨p', v⟩, hin, rfl⟩ := List.mem_map.mp hp
      obtain ⟨e, -, path, hcons, -⟩ := mem_forEachChild.mp hin
      obtain ⟨⟨q', v'⟩, hin', heq'⟩ := List.mem_map.mp hq
      obtain ⟨w, -, hnil⟩ := Option.map_eq_some_iff.mp (Option.mem_toList.mp hin')
      cases hnil
      rw [hcons] at heq'
      cases heq'

/-! ## Runs -/

inductive TreeUpdate (K V : Type)
  | setValue (newValue : V) (path : List K)
  | removeValue (path : List K)
  | setTree (newTree : FImmutableTree K V) (path : List K)

/-- One update, where a subtree that is set is sound itself. -/
def update (cmp : K → K → Ordering) (t : FImmutableTree K V) :
    TreeUpdate K V → FImmutableTree K V
  | .setValue newValue path => t.setValue cmp newValue path
  | .removeValue path => t.removeValueAtPath cmp path
  | .setTree newTree path => t.setTree cmp newTree path

/-- What the same update does to a map from paths to values. -/
def written [DecidableEq K] (cmp : K → K → Ordering) (f : List K → Option V) :
    TreeUpdate K V → List K → Option V
  | .setValue newValue path => fun q => if q = path then some newValue else f q
  | .removeValue path => fun q => if q = path then none else f q
  | .setTree newTree path => PathMaps.graft path (newTree.valueAtPath cmp) f

def TreeUpdate.Sound (cmp : K → K → Ordering) : TreeUpdate K V → Prop
  | .setTree newTree _ => newTree.Sound cmp
  | _ => True

section Runs

variable [TransCmp cmp] [LawfulEqCmp cmp] [DecidableEq K]

theorem update_spec {t : FImmutableTree K V} (h : t.Sound cmp) {u : TreeUpdate K V}
    (hu : u.Sound cmp) : (t.update cmp u).Sound cmp ∧
      (t.update cmp u).valueAtPath cmp = written cmp (t.valueAtPath cmp) u := by
  cases u with
  | setValue newValue path =>
    exact ⟨h.setValue newValue path, funext (valueAtPath_setValue h newValue path)⟩
  | removeValue path =>
    exact ⟨h.removeValueAtPath path, funext (valueAtPath_removeValueAtPath h path)⟩
  | setTree newTree path => exact ⟨h.setTree hu path, valueAtPath_setTree h newTree path⟩

theorem run_spec {t : FImmutableTree K V} (h : t.Sound cmp) {us : List (TreeUpdate K V)}
    (hus : ∀ u ∈ us, u.Sound cmp) : (us.foldl (update cmp) t).Sound cmp ∧
      (us.foldl (update cmp) t).valueAtPath cmp =
        us.foldl (written cmp) (t.valueAtPath cmp) := by
  induction us generalizing t with
  | nil => exact ⟨h, rfl⟩
  | cons u us ih =>
    obtain ⟨hsound, hvalues⟩ := update_spec h (hus u (by simp))
    rw [List.foldl_cons, List.foldl_cons, ← hvalues]
    exact ih hsound (fun v hv => hus v (List.mem_cons_of_mem _ hv))

/-- The tree answers every question as the map from paths to values would. -/
structure Holds (cmp : K → K → Ordering) (t : FImmutableTree K V) (f : List K → Option V) :
    Prop where
  valueAtPath : t.valueAtPath cmp = f
  isEmpty : t.isEmpty = true ↔ f = fun _ => none
  subtreeAtPath : ∀ path, (t.subtreeAtPath cmp path).valueAtPath cmp = PathMaps.below path f
  rootMost : ∀ path r v, t.findRootMostValueAndPath cmp path = some (r, v) ↔
    r <+: path ∧ f r = some v ∧ PathMaps.Clear f r
  forEach : ∀ path v, (path, v) ∈ t.forEach ↔ f path = some v
  once : (t.forEach.map Prod.fst).Nodup

end Runs

end FImmutableTree

end HateBlocker
