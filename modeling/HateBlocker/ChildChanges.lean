-- `FIndexedFilter` and `FChildChangeAccumulator`: the updates of a node with the changes of
-- its children that they tell of, and the changes of several updates drawn together into one
-- for each child. Drawn together they are the difference between first and last, and no
-- combination that the source throws on ever comes up.
import HateBlocker.Node

open Std

namespace HateBlocker

variable {K L : Type} {cmp : K → K → Ordering}

/-- An `FChange` of one child, of the types that can be tracked. -/
inductive ChildChange {K : Type} (cmp : K → K → Ordering) (L : Type)
  | childAdded (node : Node cmp L)
  | childRemoved (node : Node cmp L)
  | childChanged (node oldNode : Node cmp L)

namespace ChildChange

/-- The child before the change. -/
def before : ChildChange cmp L → Node cmp L
  | childAdded _ => Node.empty
  | childRemoved node => node
  | childChanged _ oldNode => oldNode

/-- The child after the change. -/
def after : ChildChange cmp L → Node cmp L
  | childAdded node => node
  | childRemoved _ => Node.empty
  | childChanged node _ => node

/-- A child that is there is not empty. -/
def Real : ChildChange cmp L → Prop
  | childAdded node => node.isEmpty = false
  | childRemoved node => node.isEmpty = false
  | childChanged node oldNode => node.isEmpty = false ∧ oldNode.isEmpty = false

end ChildChange

/-! ## The filter -/

namespace FIndexedFilter

section Updates

variable [TransCmp cmp] [LawfulEqCmp cmp] [DecidableEq L]

/-- `updateChildIn:`, the filter of a query without limits: the node, and the changes that it
tracks. That a child is removed where none was would be against an assertion of the source; see
`updateChildIn_cases`. -/
def updateChildIn (node : Node cmp L) (childKey : K) (newChildSnap : Node cmp L)
    (affectedPath : List K) : Node cmp L × List (K × ChildChange cmp L) :=
  let oldChildSnap := node.getImmediateChild childKey
  if oldChildSnap.getChild affectedPath = newChildSnap.getChild affectedPath ∧
      oldChildSnap.isEmpty = newChildSnap.isEmpty then (node, [])
  else
    let tracked :=
      if newChildSnap.isEmpty then
        if node.hasChild childKey then [(childKey, .childRemoved oldChildSnap)] else []
      else if oldChildSnap.isEmpty then [(childKey, .childAdded newChildSnap)]
      else [(childKey, .childChanged newChildSnap oldChildSnap)]
    if node.isLeafNode && newChildSnap.isEmpty then (node, tracked)
    else (node.updateImmediateChild childKey newChildSnap, tracked)

/-- The first enumeration of `updateFullNode:`, at one child of the old node. -/
def trackGone (newSnap : Node cmp L) (child : K × Node cmp L) :
    Option (K × ChildChange cmp L) :=
  if newSnap.hasChild child.1 then none else some (child.1, .childRemoved child.2)

/-- The second enumeration of `updateFullNode:`, at one child of the new node. -/
def trackPresent (oldSnap : Node cmp L) (child : K × Node cmp L) :
    Option (K × ChildChange cmp L) :=
  if oldSnap.hasChild child.1 then
    let oldChildSnap := oldSnap.getImmediateChild child.1
    if oldChildSnap = child.2 then none else some (child.1, .childChanged child.2 oldChildSnap)
  else some (child.1, .childAdded child.2)

def updateFullNode (oldSnap newSnap : Node cmp L) : Node cmp L × List (K × ChildChange cmp L) :=
  (newSnap, oldSnap.children.filterMap (trackGone newSnap) ++
    newSnap.children.filterMap (trackPresent oldSnap))

end Updates

end FIndexedFilter

/-! ## The accumulator -/

namespace FChildChangeAccumulator

variable [DecidableEq K]

/-- `setObject:forKey:` on the map of changes. -/
def setChange (key : K) (change : ChildChange cmp L) :
    List (K × ChildChange cmp L) → List (K × ChildChange cmp L)
  | [] => [(key, change)]
  | old :: changeMap =>
    if key = old.1 then (key, change) :: changeMap else old :: setChange key change changeMap

/-- The map of changes after one more. Nothing where the source throws. -/
def trackChildChange (changeMap : List (K × ChildChange cmp L)) (childKey : K)
    (change : ChildChange cmp L) : Option (List (K × ChildChange cmp L)) :=
  match changeMap.lookup childKey with
  | none => some (setChange childKey change changeMap)
  | some oldChange =>
    match change, oldChange with
    | .childAdded node, .childRemoved oldNode =>
      some (setChange childKey (.childChanged node oldNode) changeMap)
    | .childRemoved _, .childAdded _ => some (changeMap.filter (fun e => e.1 ≠ childKey))
    | .childRemoved _, .childChanged _ oldNode =>
      some (setChange childKey (.childRemoved oldNode) changeMap)
    | .childChanged node _, .childAdded _ =>
      some (setChange childKey (.childAdded node) changeMap)
    | .childChanged node _, .childChanged _ oldNode =>
      some (setChange childKey (.childChanged node oldNode) changeMap)
    | _, _ => none

/-- All changes of a list, tracked one after the other. -/
def trackChanges (changeMap : List (K × ChildChange cmp L)) :
    List (K × ChildChange cmp L) → Option (List (K × ChildChange cmp L))
  | [] => some changeMap
  | e :: tracked => (trackChildChange changeMap e.1 e.2).bind (fun m => trackChanges m tracked)

/-! ## What tracked changes say -/

/-- The changes lead from the first children to the last, one by one. -/
def Leads : (K → Node cmp L) → List (K × ChildChange cmp L) → (K → Node cmp L) → Prop
  | f, [], g => f = g
  | f, e :: tracked, g =>
    e.2.Real ∧ e.2.before = f e.1 ∧ Leads (Function.update f e.1 e.2.after) tracked g

/-- The map has one change at most for each child, and it is the difference. -/
structure Differs (first : K → Node cmp L) (changeMap : List (K × ChildChange cmp L))
    (last : K → Node cmp L) : Prop where
  nodup : (changeMap.map Prod.fst).Nodup
  real : ∀ e ∈ changeMap, e.2.Real
  before : ∀ e ∈ changeMap, e.2.before = first e.1
  after : ∀ e ∈ changeMap, e.2.after = last e.1
  same : ∀ k, k ∉ changeMap.map Prod.fst → first k = last k

theorem Leads.append {f g h : K → Node cmp L} {l r : List (K × ChildChange cmp L)}
    (hl : Leads f l g) (hr : Leads g r h) : Leads f (l ++ r) h := by
  induction l generalizing f with
  | nil =>
    cases hl
    exact hr
  | cons e l ih => exact ⟨hl.1, hl.2.1, ih hl.2.2⟩

/-- Changes of different children can be told in any order. -/
theorem Leads.of_nodup {f g : K → Node cmp L} {tracked : List (K × ChildChange cmp L)}
    (h : Differs f tracked g) : Leads f tracked g := by
  induction tracked generalizing f with
  | nil =>
    funext k
    exact h.same k (by simp)
  | cons e tracked ih =>
    obtain ⟨hne, hnodup⟩ := List.nodup_cons.mp (List.map_cons .. ▸ h.nodup)
    have hother : ∀ k ∈ tracked.map Prod.fst, k ≠ e.1 := by
      rintro k hk rfl
      exact hne hk
    refine ⟨h.real e (by simp), h.before e (by simp), ih ⟨hnodup, ?_, ?_, ?_, ?_⟩⟩
    · exact fun e' he' => h.real e' (List.mem_cons_of_mem _ he')
    · intro e' he'
      rw [Function.update_of_ne (hother e'.1 (List.mem_map_of_mem he'))]
      exact h.before e' (List.mem_cons_of_mem _ he')
    · exact fun e' he' => h.after e' (List.mem_cons_of_mem _ he')
    · intro k hk
      by_cases hkey : k = e.1
      · subst hkey
        rw [Function.update_self]
        exact h.after e (by simp)
      · rw [Function.update_of_ne hkey]
        exact h.same k (by simp [hkey, hk])

theorem mem_setChange {key : K} {change : ChildChange cmp L}
    {changeMap : List (K × ChildChange cmp L)} {e : K × ChildChange cmp L}
    (hnodup : (changeMap.map Prod.fst).Nodup) :
    e ∈ setChange key change changeMap ↔ e = (key, change) ∨ (e ∈ changeMap ∧ e.1 ≠ key) := by
  induction changeMap with
  | nil => simp [setChange]
  | cons old changeMap ih =>
    obtain ⟨hne, hrest⟩ := List.nodup_cons.mp (List.map_cons .. ▸ hnodup)
    rw [setChange]
    by_cases hkey : key = old.1
    · rw [if_pos hkey, List.mem_cons, List.mem_cons]
      constructor
      · rintro (rfl | he)
        · exact Or.inl rfl
        · refine Or.inr ⟨Or.inr he, ?_⟩
          intro heq
          exact hne (List.mem_map.mpr ⟨e, he, heq.trans hkey⟩)
      · rintro (rfl | ⟨rfl | he, hne'⟩)
        · exact Or.inl rfl
        · exact absurd hkey.symm hne'
        · exact Or.inr he
    · rw [if_neg hkey, List.mem_cons, List.mem_cons, ih hrest]
      constructor
      · rintro (rfl | rfl | ⟨he, hne'⟩)
        · exact Or.inr ⟨Or.inl rfl, Ne.symm hkey⟩
        · exact Or.inl rfl
        · exact Or.inr ⟨Or.inr he, hne'⟩
      · rintro (rfl | ⟨rfl | he, hne'⟩)
        · exact Or.inr (Or.inl rfl)
        · exact Or.inl rfl
        · exact Or.inr (Or.inr ⟨he, hne'⟩)

theorem keys_setChange {key : K} {change : ChildChange cmp L}
    (changeMap : List (K × ChildChange cmp L)) :
    (setChange key change changeMap).map Prod.fst =
      if key ∈ changeMap.map Prod.fst then changeMap.map Prod.fst
      else changeMap.map Prod.fst ++ [key] := by
  induction changeMap with
  | nil => simp [setChange]
  | cons old changeMap ih =>
    rw [setChange]
    by_cases hkey : key = old.1
    · simp [hkey]
    · rw [if_neg hkey, List.map_cons, ih, List.map_cons]
      simp only [List.mem_cons, hkey, false_or]
      split <;> rfl

theorem nodup_setChange {key : K} {change : ChildChange cmp L}
    {changeMap : List (K × ChildChange cmp L)} (h : (changeMap.map Prod.fst).Nodup) :
    ((setChange key change changeMap).map Prod.fst).Nodup := by
  rw [keys_setChange]
  split
  · exact h
  · rename_i hkey
    rw [List.nodup_append]
    refine ⟨h, List.nodup_singleton _, ?_⟩
    intro a ha b hb heq
    obtain rfl := List.mem_singleton.mp hb
    exact hkey (heq ▸ ha)

section Tracking

variable {first current : K → Node cmp L} {changeMap : List (K × ChildChange cmp L)} {key : K}

omit [DecidableEq K] in
theorem differs_nil (first : K → Node cmp L) : Differs first [] first :=
  ⟨List.nodup_nil, by simp, by simp, by simp, fun _ _ => rfl⟩

theorem Differs.set (h : Differs first changeMap current) {change : ChildChange cmp L}
    (hreal : change.Real) (hbefore : change.before = first key) :
    Differs first (setChange key change changeMap)
      (Function.update current key change.after) where
  nodup := nodup_setChange h.nodup
  real e he := by
    rcases (mem_setChange h.nodup).mp he with rfl | ⟨he, -⟩
    · exact hreal
    · exact h.real e he
  before e he := by
    rcases (mem_setChange h.nodup).mp he with rfl | ⟨he, -⟩
    · exact hbefore
    · exact h.before e he
  after e he := by
    rcases (mem_setChange h.nodup).mp he with rfl | ⟨he, hne⟩
    · simp
    · rw [Function.update_of_ne hne]
      exact h.after e he
  same k hk := by
    rw [keys_setChange] at hk
    have hk' : k ∉ changeMap.map Prod.fst ∧ k ≠ key := by
      split at hk
      · rename_i hkey
        refine ⟨hk, ?_⟩
        rintro rfl
        exact hk hkey
      · simpa using hk
    rw [Function.update_of_ne hk'.2]
    exact h.same k hk'.1

theorem Differs.remove (h : Differs first changeMap current) {node : Node cmp L}
    (hfirst : first key = node) :
    Differs first (changeMap.filter (fun e => e.1 ≠ key)) (Function.update current key node) where
  nodup := h.nodup.sublist (List.filter_sublist.map Prod.fst)
  real e he := h.real e (List.mem_of_mem_filter he)
  before e he := h.before e (List.mem_of_mem_filter he)
  after e he := by
    obtain ⟨he, hne⟩ := List.mem_filter.mp he
    rw [Function.update_of_ne (by simpa using hne)]
    exact h.after e he
  same k hk := by
    by_cases hkey : k = key
    · subst hkey
      rw [Function.update_self, hfirst]
    · rw [Function.update_of_ne hkey]
      refine h.same k fun hmem => hk ?_
      obtain ⟨e, he, rfl⟩ := List.mem_map.mp hmem
      exact List.mem_map_of_mem (List.mem_filter.mpr ⟨he, by simpa using hkey⟩)

/-- One more change always combines with the one before for the same child. -/
theorem Differs.track (h : Differs first changeMap current) {change : ChildChange cmp L}
    (hreal : change.Real) (hbefore : change.before = current key) :
    ∃ changeMap', trackChildChange changeMap key change = some changeMap' ∧
      Differs first changeMap' (Function.update current key change.after) := by
  unfold trackChildChange
  cases hlookup : changeMap.lookup key with
  | none =>
    have hkey : key ∉ changeMap.map Prod.fst := by
      intro hmem
      obtain ⟨e, he, rfl⟩ := List.mem_map.mp hmem
      have hne := List.lookup_eq_none_iff.mp hlookup e he
      simp at hne
    exact ⟨_, rfl, h.set hreal (hbefore.trans (h.same key hkey).symm)⟩
  | some oldChange =>
    obtain ⟨l, r, hsplit, -⟩ := List.lookup_eq_some_iff.mp hlookup
    have hmem : (key, oldChange) ∈ changeMap := by simp [hsplit]
    have hold : oldChange.Real := h.real _ hmem
    have hfirst : oldChange.before = first key := h.before _ hmem
    have hmeet : change.before = oldChange.after := hbefore.trans (h.after _ hmem).symm
    cases oldChange with
    | childAdded oldNode =>
      cases change with
      | childAdded node =>
        have hempty := congrArg Node.isEmpty hmeet
        simp only [ChildChange.before, ChildChange.after, Node.isEmpty_empty] at hempty
        rw [show oldNode.isEmpty = false from hold] at hempty
        cases hempty
      | childRemoved node => exact ⟨_, rfl, h.remove hfirst.symm⟩
      | childChanged node oldNode' => exact ⟨_, rfl, h.set hreal.1 hfirst⟩
    | childRemoved oldNode =>
      cases change with
      | childAdded node => exact ⟨_, rfl, h.set ⟨hreal, hold⟩ hfirst⟩
      | childRemoved node =>
        have hempty := congrArg Node.isEmpty hmeet
        simp only [ChildChange.before, ChildChange.after, Node.isEmpty_empty] at hempty
        rw [show node.isEmpty = false from hreal] at hempty
        cases hempty
      | childChanged node oldNode' =>
        have hempty := congrArg Node.isEmpty hmeet
        simp only [ChildChange.before, ChildChange.after, Node.isEmpty_empty] at hempty
        rw [hreal.2] at hempty
        cases hempty
    | childChanged oldNode oldOldNode =>
      cases change with
      | childAdded node =>
        have hempty := congrArg Node.isEmpty hmeet
        simp only [ChildChange.before, ChildChange.after, Node.isEmpty_empty] at hempty
        rw [hold.1] at hempty
        cases hempty
      | childRemoved node => exact ⟨_, rfl, h.set hold.2 hfirst⟩
      | childChanged node oldNode' => exact ⟨_, rfl, h.set ⟨hreal.1, hold.2⟩ hfirst⟩

/-- A list of changes is drawn together without an exception. -/
theorem Differs.trackChanges {last : K → Node cmp L} (h : Differs first changeMap current)
    {tracked : List (K × ChildChange cmp L)} (hleads : Leads current tracked last) :
    ∃ changeMap', FChildChangeAccumulator.trackChanges changeMap tracked = some changeMap' ∧
      Differs first changeMap' last := by
  induction tracked generalizing changeMap current with
  | nil =>
    cases hleads
    exact ⟨_, rfl, h⟩
  | cons e tracked ih =>
    obtain ⟨hreal, hbefore, hrest⟩ := hleads
    obtain ⟨changeMap', htrack, hdiffers⟩ := h.track hreal hbefore
    obtain ⟨changeMap'', htracks, hlast⟩ := ih hdiffers hrest
    refine ⟨changeMap'', ?_, hlast⟩
    rw [FChildChangeAccumulator.trackChanges, htrack]
    exact htracks

end Tracking

end FChildChangeAccumulator

/-! ## Updates through the filter -/

namespace FIndexedFilter

open FChildChangeAccumulator

section Laws

variable [DecidableEq K] [TransCmp cmp] [LawfulEqCmp cmp] [DecidableEq L]

omit [DecidableEq K] in
/-- What an update of a child does: nothing where the child is already what it shall be on the
affected path; else it tracks the one change from the old child to the new. -/
theorem updateChildIn_cases (node : Node cmp L) (childKey : K) (newChildSnap : Node cmp L)
    (affectedPath : List K) :
    (updateChildIn node childKey newChildSnap affectedPath = (node, []) ∧
        (node.getImmediateChild childKey).getChild affectedPath =
          newChildSnap.getChild affectedPath ∧
        (node.getImmediateChild childKey).isEmpty = newChildSnap.isEmpty) ∨
      ∃ change, change.Real ∧ change.before = node.getImmediateChild childKey ∧
        change.after = newChildSnap ∧
        updateChildIn node childKey newChildSnap affectedPath =
          (node.updateImmediateChild childKey newChildSnap, [(childKey, change)]) := by
  unfold updateChildIn
  dsimp only
  by_cases hsame : (node.getImmediateChild childKey).getChild affectedPath =
      newChildSnap.getChild affectedPath ∧
      (node.getImmediateChild childKey).isEmpty = newChildSnap.isEmpty
  · rw [if_pos hsame]
    exact Or.inl ⟨rfl, hsame⟩
  · right
    rw [if_neg hsame, Node.hasChild_eq]
    by_cases hnew : newChildSnap.isEmpty = true
    · by_cases hold : (node.getImmediateChild childKey).isEmpty = true
      · rw [Node.isEmpty_iff] at hnew hold
        exact absurd ⟨by rw [hnew, hold], by rw [hnew, hold]⟩ hsame
      · have hleaf : node.isLeafNode = false := by
          rw [Bool.eq_false_iff]
          intro hleaf
          rw [Node.getImmediateChild_of_leaf hleaf] at hold
          exact hold rfl
        refine ⟨.childRemoved (node.getImmediateChild childKey), Bool.eq_false_iff.mpr hold, rfl,
          (Node.isEmpty_iff.mp hnew).symm, ?_⟩
        simp [hleaf, hnew, hold]
    · by_cases hold : (node.getImmediateChild childKey).isEmpty = true
      · refine ⟨.childAdded newChildSnap, Bool.eq_false_iff.mpr hnew,
          (Node.isEmpty_iff.mp hold).symm, rfl, ?_⟩
        simp [hnew, hold]
      · refine ⟨.childChanged newChildSnap (node.getImmediateChild childKey),
          ⟨Bool.eq_false_iff.mpr hnew, Bool.eq_false_iff.mpr hold⟩, rfl, rfl, ?_⟩
        simp [hnew, hold]

theorem leads_updateChildIn (node : Node cmp L) (childKey : K) (newChildSnap : Node cmp L)
    (affectedPath : List K) :
    Leads node.getImmediateChild (updateChildIn node childKey newChildSnap affectedPath).2
      (updateChildIn node childKey newChildSnap affectedPath).1.getImmediateChild := by
  rcases updateChildIn_cases node childKey newChildSnap affectedPath with
    ⟨heq, -⟩ | ⟨change, hreal, hbefore, hafter, heq⟩
  · rw [heq]
    rfl
  · rw [heq]
    refine ⟨hreal, hbefore, ?_⟩
    funext k
    rw [hafter, Node.getImmediateChild_updateImmediateChild, Function.update_apply]

/-- Where the new child differs from the old one on the affected path at most, the update puts it
in the place of the old one. -/
theorem updateChildIn_fst {node newChildSnap : Node cmp L} {childKey : K} {affectedPath : List K}
    (h : ∀ q, ¬ affectedPath <+: q →
      newChildSnap.leaves q = (node.getImmediateChild childKey).leaves q) :
    (updateChildIn node childKey newChildSnap affectedPath).1 =
      node.updateImmediateChild childKey newChildSnap := by
  rcases updateChildIn_cases node childKey newChildSnap affectedPath with
    ⟨heq, hchild, -⟩ | ⟨change, -, -, -, heq⟩
  · have hsame : node.getImmediateChild childKey = newChildSnap := by
      apply Node.eq_of_leaves
      funext q
      by_cases hpre : affectedPath <+: q
      · obtain ⟨r, rfl⟩ := hpre
        have hleaves := congrFun (congrArg Node.leaves hchild) r
        rw [Node.leaves_getChild, Node.leaves_getChild] at hleaves
        exact hleaves
      · exact (h q hpre).symm
    rw [heq, ← hsame, Node.updateImmediateChild_self]
  · rw [heq]

omit [DecidableEq K] [TransCmp cmp] [LawfulEqCmp cmp] [DecidableEq L] in
theorem keys_filterMap_sublist {A : Type} {f : K × A → Option (K × ChildChange cmp L)}
    (hf : ∀ a b, f a = some b → b.1 = a.1) (l : List (K × A)) :
    ((l.filterMap f).map Prod.fst).Sublist (l.map Prod.fst) := by
  induction l with
  | nil => simp
  | cons a l ih =>
    rw [List.filterMap_cons]
    cases hfa : f a with
    | none => exact ih.cons _
    | some b =>
      rw [List.map_cons, List.map_cons, hf a b hfa]
      exact ih.cons_cons _

omit [DecidableEq K] [TransCmp cmp] [LawfulEqCmp cmp] [DecidableEq L] in
theorem trackGone_eq_some {newSnap : Node cmp L} {child : K × Node cmp L}
    {e : K × ChildChange cmp L} :
    trackGone newSnap child = some e ↔
      newSnap.hasChild child.1 = false ∧ e = (child.1, .childRemoved child.2) := by
  unfold trackGone
  split
  · rename_i h
    simp [h]
  · rename_i h
    simp [h, eq_comm]

omit [DecidableEq K] in
theorem trackPresent_eq_some {oldSnap : Node cmp L} {child : K × Node cmp L}
    {e : K × ChildChange cmp L} :
    trackPresent oldSnap child = some e ↔
      (oldSnap.hasChild child.1 = true ∧ oldSnap.getImmediateChild child.1 ≠ child.2 ∧
          e = (child.1, .childChanged child.2 (oldSnap.getImmediateChild child.1))) ∨
        oldSnap.hasChild child.1 = false ∧ e = (child.1, .childAdded child.2) := by
  unfold trackPresent
  split
  · rename_i h
    dsimp only
    split
    · rename_i hsame
      simp [h, hsame]
    · rename_i hne
      simp [h, hne, eq_comm]
  · rename_i h
    simp [h, eq_comm]

omit [DecidableEq K] in
/-- Each tracked change is that of its child, and there is one wherever a child changes. -/
theorem mem_updateFullNode {oldSnap newSnap : Node cmp L} {e : K × ChildChange cmp L} :
    e ∈ (updateFullNode oldSnap newSnap).2 ↔
      oldSnap.getImmediateChild e.1 ≠ newSnap.getImmediateChild e.1 ∧ e.2.Real ∧
        e.2.before = oldSnap.getImmediateChild e.1 ∧
        e.2.after = newSnap.getImmediateChild e.1 := by
  obtain ⟨k, change⟩ := e
  simp only [updateFullNode, List.mem_append, List.mem_filterMap, trackGone_eq_some,
    trackPresent_eq_some, Node.hasChild_eq, Prod.exists, Node.mem_children]
  constructor
  · rintro (⟨_, _, ⟨rfl, hold⟩, hnew, heq⟩ | ⟨_, _, ⟨rfl, hnew⟩, ⟨hold, hne, heq⟩ | ⟨hold, heq⟩⟩)
    · cases heq
      have hempty : newSnap.getImmediateChild k = Node.empty :=
        Node.isEmpty_iff.mp (by simpa using hnew)
      refine ⟨?_, hold, rfl, hempty.symm⟩
      intro hsame
      rw [hsame, hempty] at hold
      cases hold
    · cases heq
      exact ⟨hne, ⟨hnew, by simpa using hold⟩, rfl, rfl⟩
    · cases heq
      have hempty : oldSnap.getImmediateChild k = Node.empty :=
        Node.isEmpty_iff.mp (by simpa using hold)
      refine ⟨?_, hnew, hempty.symm, rfl⟩
      intro hsame
      rw [← hsame, hempty] at hnew
      cases hnew
  · rintro ⟨hne, hreal, hbefore, hafter⟩
    cases change with
    | childAdded node =>
      refine Or.inr ⟨k, _, ⟨hafter.symm, hreal⟩, Or.inr ⟨?_, rfl⟩⟩
      rw [← hbefore]
      rfl
    | childRemoved node =>
      refine Or.inl ⟨k, _, ⟨hbefore.symm, hreal⟩, ?_, rfl⟩
      rw [← hafter]
      rfl
    | childChanged node oldNode =>
      refine Or.inr ⟨k, _, ⟨hafter.symm, hreal.1⟩, Or.inl ⟨?_, ?_, ?_⟩⟩
      · rw [← hbefore, show (ChildChange.childChanged node oldNode).before.isEmpty = false from
          hreal.2]
        rfl
      · rwa [hafter]
      · rw [← hbefore]
        rfl

omit [DecidableEq K] in
theorem nodup_updateFullNode (oldSnap newSnap : Node cmp L) :
    ((updateFullNode oldSnap newSnap).2.map Prod.fst).Nodup := by
  unfold updateFullNode
  rw [List.map_append, List.nodup_append]
  refine ⟨oldSnap.sorted_children.nodup_keys.sublist (keys_filterMap_sublist ?_ _),
    newSnap.sorted_children.nodup_keys.sublist (keys_filterMap_sublist ?_ _), ?_⟩
  · intro a b hab
    rw [(trackGone_eq_some.mp hab).2]
  · intro a b hab
    rcases trackPresent_eq_some.mp hab with ⟨-, -, rfl⟩ | ⟨-, rfl⟩ <;> rfl
  · rintro k hk l hl rfl
    obtain ⟨e, he, rfl⟩ := List.mem_map.mp hk
    obtain ⟨e', he', heq⟩ := List.mem_map.mp hl
    obtain ⟨child, -, htrack⟩ := List.mem_filterMap.mp he
    obtain ⟨child', hchild', htrack'⟩ := List.mem_filterMap.mp he'
    have hkey : child'.1 = child.1 := by
      rw [(trackGone_eq_some.mp htrack).2] at heq
      rcases trackPresent_eq_some.mp htrack' with ⟨-, -, rfl⟩ | ⟨-, rfl⟩ <;> exact heq
    obtain ⟨hsame, hnew⟩ := Node.mem_children.mp hchild'
    have hgone := (trackGone_eq_some.mp htrack).1
    rw [← hkey, Node.hasChild_eq, hsame, hnew] at hgone
    cases hgone

omit [DecidableEq K] in
/-- A full update tracks the difference. -/
theorem differs_updateFullNode (oldSnap newSnap : Node cmp L) :
    Differs oldSnap.getImmediateChild (updateFullNode oldSnap newSnap).2
      newSnap.getImmediateChild where
  nodup := nodup_updateFullNode oldSnap newSnap
  real e he := (mem_updateFullNode.mp he).2.1
  before e he := (mem_updateFullNode.mp he).2.2.1
  after e he := (mem_updateFullNode.mp he).2.2.2
  same k hk := by
    by_contra hne
    have hchange : ∃ change : ChildChange cmp L, change.Real ∧
        change.before = oldSnap.getImmediateChild k ∧
        change.after = newSnap.getImmediateChild k := by
      by_cases hold : (oldSnap.getImmediateChild k).isEmpty = true
      · rw [Node.isEmpty_iff] at hold
        refine ⟨.childAdded (newSnap.getImmediateChild k), ?_, hold.symm, rfl⟩
        rw [hold] at hne
        exact Bool.eq_false_iff.mpr fun h => hne (Node.isEmpty_iff.mp h).symm
      · by_cases hnew : (newSnap.getImmediateChild k).isEmpty = true
        · exact ⟨.childRemoved (oldSnap.getImmediateChild k), Bool.eq_false_iff.mpr hold, rfl,
            (Node.isEmpty_iff.mp hnew).symm⟩
        · exact ⟨.childChanged (newSnap.getImmediateChild k) (oldSnap.getImmediateChild k),
            ⟨Bool.eq_false_iff.mpr hnew, Bool.eq_false_iff.mpr hold⟩, rfl, rfl⟩
    obtain ⟨change, hreal, hbefore, hafter⟩ := hchange
    refine hk (List.mem_map.mpr ⟨(k, change), mem_updateFullNode.mpr ?_, rfl⟩)
    exact ⟨hne, hreal, hbefore, hafter⟩

theorem leads_updateFullNode (oldSnap newSnap : Node cmp L) :
    Leads oldSnap.getImmediateChild (updateFullNode oldSnap newSnap).2
      newSnap.getImmediateChild :=
  .of_nodup (differs_updateFullNode oldSnap newSnap)

end Laws

end FIndexedFilter

/-! ## Any updates -/

/-- What a view processor asks of its filter. -/
inductive FilterUpdate {K : Type} (cmp : K → K → Ordering) (L : Type)
  | updateChildIn (childKey : K) (newChildSnap : Node cmp L) (affectedPath : List K)
  | updateFullNode (newSnap : Node cmp L)

namespace FilterUpdate

section Updates

variable [TransCmp cmp] [LawfulEqCmp cmp] [DecidableEq L]

def apply (node : Node cmp L) : FilterUpdate cmp L → Node cmp L × List (K × ChildChange cmp L)
  | updateChildIn childKey newChildSnap affectedPath =>
    FIndexedFilter.updateChildIn node childKey newChildSnap affectedPath
  | updateFullNode newSnap => FIndexedFilter.updateFullNode node newSnap

variable [DecidableEq K]

open FChildChangeAccumulator

end Updates

end FilterUpdate

end HateBlocker
