-- `FCompoundWrite`: several writes at once, as a tree of nodes. What counts at a path is
-- the write nearest to the root, so a write is an overlay over the data below it; adding
-- a write overwrites the overlay, and applying it puts the overlay over a node.
import HateBlocker.Node
import HateBlocker.ImmutableTree

open Std PathMaps

namespace HateBlocker

/-- `relativePathFrom:to:`. The source raises where the inner path is not within the outer one,
which no caller asks for. -/
def FPath.relativePathFrom {K : Type} [DecidableEq K] (outer inner : List K) : List K :=
  (after outer inner).getD []

variable {K L : Type} {cmp scmp : K → K → Ordering}

/-- The nodes are in the order of `cmp`, the tree of writes in the order of `scmp`, the
`stringComparator`. A write there is always a leaf of the tree. -/
structure FCompoundWrite (cmp scmp : K → K → Ordering) (L : Type) where
  writeTree : FImmutableTree K (Node cmp L)
  sound : writeTree.Sound scmp
  alone : Alone (writeTree.valueAtPath scmp)

namespace FCompoundWrite

def emptyWrite : FCompoundWrite cmp scmp L where
  writeTree := .empty
  sound := FImmutableTree.sound_empty
  alone := by
    rw [FImmutableTree.valueAtPath_empty]
    exact alone_none

/-- A write at the root. -/
def rootWriteOf (node : Node cmp L) : FCompoundWrite cmp scmp L where
  writeTree := .withValue node
  sound := FImmutableTree.sound_withValue node
  alone := alone_root (by simp)

def isEmpty (w : FCompoundWrite cmp scmp L) : Bool := w.writeTree.isEmpty

def rootWrite (w : FCompoundWrite cmp scmp L) : Option (Node cmp L) := w.writeTree.value

/-- The children that are written as a whole, with their names. -/
def completeChildren (w : FCompoundWrite cmp scmp L) : List (K × Node cmp L) :=
  match w.writeTree.value with
  | some node => node.children
  | none => w.writeTree.children.filterMap
      (fun child => child.2.value.map (fun node => (child.1, node)))

/-- The writes in the order of `enumerateWrites:`. -/
def writes (w : FCompoundWrite cmp scmp L) : List (List K × Node cmp L) := w.writeTree.forEach

/-- What a node puts over the data. -/
def shade (node : Node cmp L) (path : List K) : Option (Option L) := some (node.leaves path)

/-- What a tree of writes puts over the data: at each path nothing, or what stands there. -/
def overlayOf (scmp : K → K → Ordering) (t : FImmutableTree K (Node cmp L)) :
    List K → Option (Option L) :=
  rootMost (fun path => (t.valueAtPath scmp path).map Node.leaves)

section Operations

variable [DecidableEq K] [TransCmp cmp] [TransCmp scmp] [LawfulEqCmp scmp]

/-- Another value where there was one. -/
def withValueAt (w : FCompoundWrite cmp scmp L) (value : Node cmp L) (path : List K)
    (h : w.writeTree.valueAtPath scmp path ≠ none) : FCompoundWrite cmp scmp L where
  writeTree := w.writeTree.setValue scmp value path
  sound := w.sound.setValue value path
  alone := by
    have hsame : ∀ q, (w.writeTree.setValue scmp value path).valueAtPath scmp q = none ↔
        w.writeTree.valueAtPath scmp q = none := by
      intro q
      rw [FImmutableTree.valueAtPath_setValue w.sound]
      split
      · rename_i heq
        subst heq
        simp [h]
      · rfl
    intro q hq r k s heq
    rw [hsame]
    exact w.alone q (fun hnone => hq ((hsame q).mpr hnone)) r k s heq

/-- Another tree of writes from a path on that no write covers. -/
def withTreeAt (w v : FCompoundWrite cmp scmp L) (path : List K)
    (h : Clear (w.writeTree.valueAtPath scmp) path) : FCompoundWrite cmp scmp L where
  writeTree := w.writeTree.setTree scmp v.writeTree path
  sound := w.sound.setTree v.sound path
  alone := by
    rw [FImmutableTree.valueAtPath_setTree w.sound]
    exact w.alone.graft v.alone h

omit [DecidableEq K] [TransCmp cmp] [TransCmp scmp] [LawfulEqCmp scmp] in
theorem clear_of_find_eq_none {w : FCompoundWrite cmp scmp L} {path : List K}
    (h : w.writeTree.findRootMostValueAndPath scmp path = none) :
    Clear (w.writeTree.valueAtPath scmp) path := by
  have hover : overlayOf scmp w.writeTree path = _ :=
    FImmutableTree.rootMost_valueAtPath Node.leaves w.writeTree path
  rw [h, Option.map_none, overlayOf, rootMost_eq_none, clear_map] at hover
  exact hover.1

def addWrite (w : FCompoundWrite cmp scmp L) (node : Node cmp L) (path : List K) :
    FCompoundWrite cmp scmp L :=
  if path.isEmpty then rootWriteOf node
  else
    match h : w.writeTree.findRootMostValueAndPath scmp path with
    | some (rootMostPath, rootMostValue) =>
      w.withValueAt (rootMostValue.updateChild (FPath.relativePathFrom rootMostPath path) node)
        rootMostPath (by simp [(FImmutableTree.findRootMostValueAndPath_eq_some.mp h).2.1])
    | none => w.withTreeAt (rootWriteOf node) path (clear_of_find_eq_none h)

def addCompoundWrite (w compoundWrite : FCompoundWrite cmp scmp L) (path : List K) :
    FCompoundWrite cmp scmp L :=
  compoundWrite.writes.foldl (fun newWrite pv => newWrite.addWrite pv.2 (path ++ pv.1)) w

/-- A write at a higher place stays as it is. -/
def removeWriteAtPath (w : FCompoundWrite cmp scmp L) (path : List K) :
    FCompoundWrite cmp scmp L :=
  if path.isEmpty then emptyWrite
  else ⟨w.writeTree.setTree scmp .empty path, w.sound.setTree FImmutableTree.sound_empty path, by
    rw [FImmutableTree.valueAtPath_setTree w.sound, FImmutableTree.valueAtPath_empty]
    exact w.alone.graft_none path⟩

def completeNodeAtPath (w : FCompoundWrite cmp scmp L) (path : List K) : Option (Node cmp L) :=
  (w.writeTree.findRootMostValueAndPath scmp path).map fun rootMost =>
    rootMost.2.getChild (FPath.relativePathFrom rootMost.1 path)

def hasCompleteWriteAtPath (w : FCompoundWrite cmp scmp L) (path : List K) : Bool :=
  (w.completeNodeAtPath path).isSome

def childCompoundWriteAtPath (w : FCompoundWrite cmp scmp L) (path : List K) :
    FCompoundWrite cmp scmp L :=
  if path.isEmpty then w
  else
    match w.completeNodeAtPath path with
    | some shadowingNode => rootWriteOf shadowingNode
    | none => ⟨w.writeTree.subtreeAtPath scmp path, w.sound.subtreeAtPath path, by
        rw [FImmutableTree.valueAtPath_subtreeAtPath]
        exact w.alone.below path⟩

/-- The writes below each key. -/
def childCompoundWrites (w : FCompoundWrite cmp scmp L) :
    List (K × FCompoundWrite cmp scmp L) :=
  w.writeTree.children.attach.map fun child =>
    (child.1.1, ⟨child.1.2, w.sound.of_mem_children child.2, by
      rw [w.sound.valueAtPath_of_mem_children child.2]
      exact w.alone.below [child.1.1]⟩)

mutual
def applySubtreeWrite : FImmutableTree K (Node cmp L) → List K → Node cmp L → Node cmp L
  | .node (some value) _, relativePath, node => node.updateChild relativePath value
  | .node none children, relativePath, node => applyChildren children relativePath node

/-- The enumeration of `applySubtreeWrite:`. -/
def applyChildren : List (K × FImmutableTree K (Node cmp L)) → List K → Node cmp L → Node cmp L
  | [], _, node => node
  | (childKey, childTree) :: children, relativePath, node =>
    applyChildren children relativePath
      (applySubtreeWrite childTree (relativePath ++ [childKey]) node)
end

def applyToNode (w : FCompoundWrite cmp scmp L) (node : Node cmp L) : Node cmp L :=
  applySubtreeWrite w.writeTree [] node

end Operations

/-! ## Overlays -/

def overlay (w : FCompoundWrite cmp scmp L) : List K → Option (Option L) :=
  overlayOf scmp w.writeTree

theorem overlayOf_eq_none {t : FImmutableTree K (Node cmp L)} {path : List K} :
    overlayOf scmp t path = none ↔
      Clear (t.valueAtPath scmp) path ∧ t.valueAtPath scmp path = none := by
  rw [overlayOf, rootMost_eq_none, clear_map, Option.map_eq_none_iff]

@[simp] theorem overlayOf_empty :
    overlayOf scmp (.empty : FImmutableTree K (Node cmp L)) = fun _ => none := by
  funext path
  rw [overlayOf_eq_none]
  simp [Clear]

/-- Down to a value without values above it the overlay is its node's. -/
theorem below_overlayOf {t : FImmutableTree K (Node cmp L)} {path : List K} {node : Node cmp L}
    (hclear : Clear (t.valueAtPath scmp) path) (hvalue : t.valueAtPath scmp path = some node) :
    below path (overlayOf scmp t) = shade node := by
  unfold overlayOf
  rw [below_rootMost (clear_map.mpr hclear)]
  apply rootMost_of_root
  simp [below, hvalue]

theorem overlay_emptyWrite : (emptyWrite : FCompoundWrite cmp scmp L).overlay = fun _ => none :=
  overlayOf_empty

theorem overlay_rootWriteOf (node : Node cmp L) :
    (rootWriteOf node : FCompoundWrite cmp scmp L).overlay = shade node := by
  have hvalue : (FImmutableTree.withValue node).valueAtPath scmp [] = some node := rfl
  exact below_overlayOf (clear_nil _) hvalue

theorem isEmpty_iff [ReflCmp scmp] {w : FCompoundWrite cmp scmp L} :
    w.isEmpty = true ↔ w.overlay = fun _ => none := by
  unfold isEmpty
  rw [w.sound.isEmpty_iff]
  constructor
  · intro h
    funext path
    rw [overlay, overlayOf_eq_none, h]
    exact ⟨fun _ _ _ _ => rfl, rfl⟩
  · intro h
    funext path
    exact (overlayOf_eq_none.mp (congrFun h path)).2

section Lookups

variable [DecidableEq K]

theorem relativePathFrom_append (r s : List K) : FPath.relativePathFrom r (r ++ s) = s := by
  simp [FPath.relativePathFrom]

/-- A complete node and what it is part of. -/
theorem completeNodeAtPath_cases (w : FCompoundWrite cmp scmp L) (path : List K) :
    (w.writeTree.findRootMostValueAndPath scmp path = none ∧ w.completeNodeAtPath path = none ∧
      w.overlay path = none) ∨
    ∃ r s node, path = r ++ s ∧
      w.writeTree.findRootMostValueAndPath scmp path = some (r, node) ∧
      w.completeNodeAtPath path = some (node.getChild s) ∧
      Clear (w.writeTree.valueAtPath scmp) r ∧ w.writeTree.valueAtPath scmp r = some node ∧
      below r w.overlay = shade node := by
  have hoverlay : w.overlay path = _ :=
    FImmutableTree.rootMost_valueAtPath Node.leaves w.writeTree path
  cases hfind : w.writeTree.findRootMostValueAndPath scmp path with
  | none =>
    refine Or.inl ⟨rfl, by simp [completeNodeAtPath, hfind], ?_⟩
    rw [hfind] at hoverlay
    exact hoverlay
  | some rootMost =>
    obtain ⟨r, node⟩ := rootMost
    obtain ⟨⟨s, rfl⟩, hvalue, hclear⟩ :=
      FImmutableTree.findRootMostValueAndPath_eq_some.mp hfind
    refine Or.inr ⟨r, s, node, rfl, rfl, ?_, hclear, hvalue, below_overlayOf hclear hvalue⟩
    simp [completeNodeAtPath, hfind, relativePathFrom_append]

theorem completeNodeAtPath_eq_none {w : FCompoundWrite cmp scmp L} {path : List K} :
    w.completeNodeAtPath path = none ↔ w.overlay path = none := by
  rcases w.completeNodeAtPath_cases path with
    ⟨-, hnone, hover⟩ | ⟨r, s, node, rfl, -, hsome, -, -, hbelow⟩
  · simp [hnone, hover]
  · have hover := congrFun hbelow s
    rw [below_apply] at hover
    simp [hsome, hover, shade]

/-- From a path with a complete node on the overlay is that node's. -/
theorem below_overlay {w : FCompoundWrite cmp scmp L} {path : List K} {node : Node cmp L}
    (h : w.completeNodeAtPath path = some node) : below path w.overlay = shade node := by
  rcases w.completeNodeAtPath_cases path with
    ⟨-, hnone, -⟩ | ⟨r, s, root, rfl, -, hsome, -, -, hbelow⟩
  · rw [hnone] at h
    cases h
  · rw [hsome] at h
    cases h
    rw [below_append, hbelow]
    funext q
    simp [below, shade, Node.leaves_getChild]

theorem overlay_childCompoundWriteAtPath (w : FCompoundWrite cmp scmp L) (path : List K) :
    (w.childCompoundWriteAtPath path).overlay = below path w.overlay := by
  unfold childCompoundWriteAtPath
  split
  · rename_i hempty
    rw [List.isEmpty_iff.mp hempty, below_nil]
  · split
    · rename_i node hnode
      rw [overlay_rootWriteOf, below_overlay hnode]
    · rename_i hnone
      have hclear := (overlayOf_eq_none.mp (completeNodeAtPath_eq_none.mp hnone)).1
      unfold overlay overlayOf
      rw [below_rootMost]
      · congr 1
        funext q
        simp [FImmutableTree.valueAtPath_subtreeAtPath, below]
      · exact clear_map.mpr hclear

end Lookups

/-! ## Adding and removing writes -/

section Changes

variable [DecidableEq K] [TransCmp cmp] [LawfulEqCmp cmp] [TransCmp scmp] [LawfulEqCmp scmp]

omit [TransCmp cmp] [LawfulEqCmp cmp] [TransCmp scmp] [LawfulEqCmp scmp] in
/-- A tree that changes from a path on, where no value stands above the path. -/
theorem overlayOf_eq_graft {t t' : FImmutableTree K (Node cmp L)} {path : List K}
    (hclear : Clear (t.valueAtPath scmp) path)
    (hsame : ∀ q, ¬ path <+: q → t'.valueAtPath scmp q = t.valueAtPath scmp q) :
    overlayOf scmp t' = graft path (overlayOf scmp (t'.subtreeAtPath scmp path))
      (overlayOf scmp t) := by
  unfold overlayOf
  rw [rootMost_eq_graft (clear_map.mpr hclear) (fun q hq => by rw [hsame q hq])]
  congr 2
  funext q
  simp [FImmutableTree.valueAtPath_subtreeAtPath, below]

omit [TransCmp cmp] [LawfulEqCmp cmp] [DecidableEq K] [LawfulEqCmp scmp] [TransCmp scmp] in
theorem overlayOf_of_value {t : FImmutableTree K (Node cmp L)} {node : Node cmp L}
    (h : t.value = some node) : overlayOf scmp t = shade node := by
  have hvalue : t.valueAtPath scmp [] = some node := by simpa using h
  exact below_overlayOf (clear_nil _) hvalue

omit [TransCmp cmp] [LawfulEqCmp cmp] in
/-- The overlay of a new value at a path without values above it. -/
theorem overlayOf_setTree {t s : FImmutableTree K (Node cmp L)} (ht : t.Sound scmp)
    {path : List K} (hclear : Clear (t.valueAtPath scmp) path) :
    overlayOf scmp (t.setTree scmp s path) = graft path (overlayOf scmp s) (overlayOf scmp t) := by
  have hvalues := FImmutableTree.valueAtPath_setTree ht s path
  rw [overlayOf_eq_graft hclear (fun q hq => by rw [hvalues, graft_elsewhere _ _ hq])]
  congr 1
  unfold overlayOf
  congr 1
  funext q
  rw [FImmutableTree.valueAtPath_subtreeAtPath, hvalues, below_graft]

omit [TransCmp cmp] [LawfulEqCmp cmp] in
theorem overlayOf_setValue {t : FImmutableTree K (Node cmp L)} (ht : t.Sound scmp)
    {node : Node cmp L} {path : List K} (hclear : Clear (t.valueAtPath scmp) path) :
    overlayOf scmp (t.setValue scmp node path) = graft path (shade node) (overlayOf scmp t) := by
  have hvalues := FImmutableTree.valueAtPath_setValue ht node path
  have hsame : ∀ q, ¬ path <+: q →
      (t.setValue scmp node path).valueAtPath scmp q = t.valueAtPath scmp q := by
    intro q hq
    rw [hvalues, if_neg]
    rintro rfl
    exact hq List.prefix_rfl
  rw [overlayOf_eq_graft hclear hsame]
  congr 1
  apply below_overlayOf (clear_nil _)
  rw [FImmutableTree.valueAtPath_subtreeAtPath]
  simp [below, hvalues]

/-- A write overwrites the overlay from its path on, unless it goes below a plain value that
another write has put there. -/
theorem overlay_addWrite {w : FCompoundWrite cmp scmp L} {node : Node cmp L} {path : List K}
    (h : Clear (fun q => (w.overlay q).join) path ∨ node.isEmpty = true) :
    (w.addWrite node path).overlay = graft path (shade node) w.overlay := by
  unfold addWrite
  split
  · rename_i hempty
    rw [List.isEmpty_iff.mp hempty, overlay_rootWriteOf, graft_nil]
  · split
    · rename_i rootMostPath rootMostValue hfind
      rcases w.completeNodeAtPath_cases path with
        ⟨hnone, -⟩ | ⟨r, s, root, rfl, hsome, -, hclear, -, hbelow⟩
      · rw [hnone] at hfind
        cases hfind
      · obtain ⟨rfl, rfl⟩ := Prod.mk.inj (Option.some.inj (hsome.symm.trans hfind))
        have hroom : Clear root.leaves s ∨ node.isEmpty = true := by
          rcases h with h | h
          · have hleaves : below r (fun q => (w.overlay q).join) = root.leaves := by
              funext q
              have hq := congrFun hbelow q
              rw [below_apply] at hq
              simp [below, hq, shade]
            rw [← hleaves]
            exact Or.inl (clear_append.mp h).2
          · exact Or.inr h
        have hshade : shade (root.updateChild s node) = graft s (shade node) (shade root) := by
          unfold shade
          rw [Node.leaves_updateChild hroom]
          exact map_graft (fun v => some v) s node.leaves root.leaves
        simp only [relativePathFrom_append, withValueAt]
        rw [overlay, overlayOf_setValue w.sound hclear, hshade, ← hbelow, graft_append_left]
        rfl
    · rename_i hnone
      rw [overlay, withTreeAt, overlayOf_setTree w.sound (clear_of_find_eq_none hnone)]
      congr 1
      exact overlayOf_of_value rfl

omit [TransCmp cmp] [LawfulEqCmp cmp] in
/-- Without a write above it a write is taken out of the overlay, and all below it. -/
theorem overlay_removeWriteAtPath {w : FCompoundWrite cmp scmp L} {path : List K}
    (h : Clear w.overlay path) :
    (w.removeWriteAtPath path).overlay = graft path (fun _ => none) w.overlay := by
  unfold removeWriteAtPath
  split
  · rename_i hempty
    rw [List.isEmpty_iff.mp hempty, overlay_emptyWrite, graft_nil]
  · have hclear : Clear (w.writeTree.valueAtPath scmp) path := by
      intro r k s heq
      exact (overlayOf_eq_none.mp (h r k s heq)).2
    rw [overlay, overlayOf_setTree w.sound hclear, overlayOf_empty]
    rfl

/-- The leaves that writes put, each from its path on. -/
def leavesOf (pvs : List (List K × Node cmp L)) : List (List K × (List K → Option L)) :=
  pvs.map (fun pv => (pv.1, pv.2.leaves))

/-- Writes one after the other are one layer each. -/
theorem overlay_addWrites {w : FCompoundWrite cmp scmp L} {pvs : List (List K × Node cmp L)}
    (h : Fits (leavesOf pvs) (fun q => (w.overlay q).join)) :
    (pvs.foldl (fun w pv => w.addWrite pv.2 pv.1) w).overlay =
      layer (pvs.map (fun pv => (pv.1, shade pv.2))) w.overlay := by
  induction pvs generalizing w with
  | nil => rfl
  | cons pv pvs ih =>
    obtain ⟨hclear, hrest⟩ := h
    have hadd : (w.addWrite pv.2 pv.1).overlay = graft pv.1 (shade pv.2) w.overlay :=
      overlay_addWrite (Or.inl hclear)
    rw [List.foldl_cons, ih, hadd]
    · rfl
    · have hjoin := map_graft Option.join pv.1 (shade pv.2) w.overlay
      rw [hadd, hjoin]
      exact hrest

variable (scmp) in
/-- The overlay of collected writes is what they cover. -/
theorem overlay_addWrites_emptyWrite {pvs : List (List K × Node cmp L)}
    (h : Fits (leavesOf pvs) (fun _ => none)) :
    (pvs.foldl (fun w pv => w.addWrite pv.2 pv.1) (emptyWrite : FCompoundWrite cmp scmp L)).overlay =
      cover (leavesOf pvs) := by
  rw [overlay_addWrites, overlay_emptyWrite, cover, leavesOf, List.map_map]
  · rfl
  · rw [overlay_emptyWrite]
    exact h

end Changes

/-! ## The writes of a tree -/

section Writes

variable [LawfulEqCmp scmp]

theorem mem_writes {w : FCompoundWrite cmp scmp L} {path : List K} {node : Node cmp L} :
    (path, node) ∈ w.writes ↔ w.writeTree.valueAtPath scmp path = some node :=
  w.sound.mem_forEach

/-- No write lies on the path of another. -/
theorem pairwise_apart (w : FCompoundWrite cmp scmp L) :
    w.writes.Pairwise (fun pv pw => Apart pv.1 pw.1) := by
  refine List.Pairwise.imp_of_mem ?_ (List.pairwise_map.mp w.sound.nodup_forEach)
  intro pv pw hpv hpw hne
  have hvalue : ∀ p ∈ w.writes, w.writeTree.valueAtPath scmp p.1 ≠ none := by
    intro p hp
    rw [mem_writes.mp hp]
    simp
  exact w.alone.apart (hvalue pv hpv) (hvalue pw hpw) hne

theorem placed_of_mem_writes {w : FCompoundWrite cmp scmp L} {pv : List K × Node cmp L}
    (h : pv ∈ w.writes) : Placed w.overlay pv.1 := by
  have hvalue := mem_writes.mp h
  have hclear := w.alone pv.1 (by simp [hvalue])
  refine ⟨?_, ?_⟩
  · rw [overlay, ne_eq, overlayOf_eq_none, hvalue]
    simp
  · intro r k s heq
    rw [overlay, overlayOf_eq_none]
    refine ⟨fun r' k' s' heq' => ?_, hclear r k s heq⟩
    refine hclear r' k' (s' ++ k :: s) ?_
    rw [heq, heq', List.append_assoc, List.cons_append]

variable [TransCmp scmp] [DecidableEq K]

omit [TransCmp scmp] in
/-- The overlay is what the writes cover. -/
theorem overlay_eq_cover (w : FCompoundWrite cmp scmp L) :
    w.overlay = cover (leavesOf w.writes) := by
  have hapart : (leavesOf w.writes).Pairwise (fun pv pw => Apart pv.1 pw.1) := by
    rw [leavesOf, List.pairwise_map]
    exact w.pairwise_apart
  funext q
  rcases w.completeNodeAtPath_cases q with
    ⟨-, -, hnone⟩ | ⟨r, s, node, rfl, -, -, -, hvalue, hbelow⟩
  · rw [hnone, eq_comm, cover_eq_none]
    intro v hv hpre
    obtain ⟨pv, hpv, rfl⟩ := List.mem_map.mp hv
    obtain ⟨s, rfl⟩ := hpre
    have hpvalue := mem_writes.mp hpv
    have hshade := below_overlayOf (w.alone pv.1 (by simp [hpvalue])) hpvalue
    have hcovered := congrFun hshade s
    rw [below_apply] at hcovered
    rw [overlay, hcovered] at hnone
    cases hnone
  · have hmem : (r, node.leaves) ∈ leavesOf w.writes :=
      List.mem_map_of_mem (f := fun pv => (pv.1, pv.2.leaves)) (mem_writes.mpr hvalue)
    have hq := congrFun hbelow s
    rw [below_apply] at hq
    rw [hq, cover_of_mem hapart hmem]
    rfl

theorem overlay_addCompoundWrite_emptyWrite [TransCmp cmp] [LawfulEqCmp cmp]
    (w : FCompoundWrite cmp scmp L) (path : List K) :
    ((emptyWrite : FCompoundWrite cmp scmp L).addCompoundWrite w path).overlay =
      graft path w.overlay (fun _ => none) := by
  have hmap : leavesOf (w.writes.map (fun pv => (path ++ pv.1, pv.2))) =
      (leavesOf w.writes).map (fun v => (path ++ v.1, v.2)) := by
    simp [leavesOf]
  have hapart : (leavesOf (w.writes.map (fun pv => (path ++ pv.1, pv.2)))).Pairwise
      (fun v v' => Apart v.1 v'.1) := by
    rw [leavesOf, List.map_map, List.pairwise_map]
    refine w.pairwise_apart.imp fun h => ?_
    exact ⟨fun hpre => h.1 ((List.prefix_append_right_inj _).mp hpre),
      fun hpre => h.2 ((List.prefix_append_right_inj _).mp hpre)⟩
  have hadd := overlay_addWrites_emptyWrite scmp
    (fits_of_apart hapart (f := fun _ => none) fun _ _ _ _ _ _ => rfl)
  rw [List.foldl_map, hmap, cover_map_append, ← overlay_eq_cover] at hadd
  exact hadd

/-! ### The writes below each key -/

variable {w : FCompoundWrite cmp scmp L}

omit [DecidableEq K] [TransCmp scmp] in
theorem keys_childCompoundWrites :
    w.childCompoundWrites.map Prod.fst = w.writeTree.children.map Prod.fst := by
  unfold childCompoundWrites
  rw [List.map_map]
  exact List.attach_map_val (f := Prod.fst)

omit [DecidableEq K] [TransCmp scmp] in
theorem nodup_childCompoundWrites : (w.childCompoundWrites.map Prod.fst).Nodup := by
  rw [keys_childCompoundWrites]
  exact w.sound.sorted_children.nodup_keys

omit [DecidableEq K] [TransCmp scmp] in
theorem mem_childCompoundWrites {child : K × FCompoundWrite cmp scmp L}
    (h : child ∈ w.childCompoundWrites) : (child.1, child.2.writeTree) ∈ w.writeTree.children := by
  obtain ⟨e, -, rfl⟩ := List.mem_map.mp h
  exact e.2

omit [DecidableEq K] [TransCmp scmp] in
theorem overlay_of_mem_childCompoundWrites (hroot : w.overlay [] = none)
    {child : K × FCompoundWrite cmp scmp L} (h : child ∈ w.childCompoundWrites) :
    child.2.overlay = below [child.1] w.overlay := by
  have hvalue := (overlayOf_eq_none.mp hroot).2
  have htree := w.sound.valueAtPath_of_mem_children (mem_childCompoundWrites h)
  unfold overlay overlayOf
  rw [below_rootMost (clear_map.mpr (clear_cons.mpr ⟨hvalue, clear_nil _⟩)), htree]
  rfl

omit [DecidableEq K] [TransCmp scmp] in
/-- Every key has something below it. -/
theorem exists_placed_of_mem_childCompoundWrites {child : K × FCompoundWrite cmp scmp L}
    (h : child ∈ w.childCompoundWrites) : ∃ path, Placed child.2.overlay path := by
  have hne := w.sound.isEmpty_of_mem_children (mem_childCompoundWrites h)
  have hvalue : ∃ path, child.2.writeTree.valueAtPath scmp path ≠ none := by
    by_contra hnot
    push Not at hnot
    rw [child.2.sound.isEmpty_iff.mpr (funext hnot)] at hne
    cases hne
  obtain ⟨path, hpath⟩ := hvalue
  obtain ⟨node, hnode⟩ := Option.ne_none_iff_exists'.mp hpath
  exact ⟨path, placed_of_mem_writes (mem_writes.mpr hnode)⟩

omit [DecidableEq K] [TransCmp scmp] in
/-- Below other keys there is nothing. -/
theorem below_overlay_of_not_mem (hroot : w.overlay [] = none) {k : K}
    (hk : k ∉ w.childCompoundWrites.map Prod.fst) : below [k] w.overlay = fun _ => none := by
  have hvalue := (overlayOf_eq_none.mp hroot).2
  have hnone : Entries.find scmp k w.writeTree.children = none := by
    rw [Entries.find_eq_none]
    intro e he heq
    refine hk ?_
    rw [keys_childCompoundWrites, LawfulEqCmp.compare_eq_iff_eq.mp heq]
    exact List.mem_map_of_mem he
  unfold overlay overlayOf
  rw [below_rootMost (clear_map.mpr (clear_cons.mpr ⟨hvalue, clear_nil _⟩))]
  funext q
  rw [rootMost_eq_none]
  have hbelow : below [k] (w.writeTree.valueAtPath scmp) = fun _ => none := by
    rw [FImmutableTree.below_valueAtPath, FImmutableTree.childAt, hnone]
    exact FImmutableTree.valueAtPath_empty
  have hmap : below [k] (fun path => (w.writeTree.valueAtPath scmp path).map Node.leaves) =
      fun _ => none := by
    funext q
    rw [below_apply, show w.writeTree.valueAtPath scmp ([k] ++ q) = none from congrFun hbelow q]
    rfl
  rw [hmap]
  exact ⟨fun _ _ _ _ => rfl, rfl⟩

end Writes

/-! ## Applying writes -/

section Applying

variable [DecidableEq K] [TransCmp cmp] [LawfulEqCmp cmp] [LawfulEqCmp scmp]

/-- The overlay of the children of a tree without a value of its own. -/
def overlayChildren (scmp : K → K → Ordering) (children : List (K × FImmutableTree K (Node cmp L)))
    (f : List K → Option L) : List K → Option L
  | [] => f []
  | k :: q =>
    match Entries.find scmp k children with
    | some child => (overlayOf scmp child q).getD (f (k :: q))
    | none => f (k :: q)

omit [LawfulEqCmp cmp] in
theorem leaves_applyChildren {children : List (K × FImmutableTree K (Node cmp L))}
    (sorted : Entries.Sorted scmp children)
    (ih : ∀ e ∈ children, ∀ (path : List K) (node : Node cmp L),
      (∀ s, Placed (overlayOf scmp e.2) s → Clear node.leaves (path ++ s)) →
      (applySubtreeWrite e.2 path node).leaves =
        graft path (fun s => (overlayOf scmp e.2 s).getD (node.leaves (path ++ s))) node.leaves)
    (path : List K) (node : Node cmp L)
    (h : ∀ e ∈ children, ∀ s, Placed (overlayOf scmp e.2) s →
      Clear node.leaves (path ++ e.1 :: s)) :
    (applyChildren children path node).leaves =
      graft path (overlayChildren scmp children (below path node.leaves)) node.leaves := by
  induction children generalizing node with
  | nil =>
    have hsame : overlayChildren scmp ([] : List (K × FImmutableTree K (Node cmp L)))
        (below path node.leaves) = below path node.leaves := by
      funext q
      cases q <;> rfl
    rw [hsame, graft_below]
    rfl
  | cons e children ihs =>
    obtain ⟨key, child⟩ := e
    obtain ⟨hhead, htail⟩ := Entries.Sorted.cons_iff.mp sorted
    have hfirst := ih (key, child) (by simp) (path ++ [key]) node (fun s hs => by
      rw [List.append_assoc]
      exact h (key, child) (by simp) s hs)
    have hother : ∀ q, ¬ (path ++ [key]) <+: q →
        (applySubtreeWrite child (path ++ [key]) node).leaves q = node.leaves q := by
      intro q hq
      rw [hfirst, graft_elsewhere _ _ hq]
    have hapart : ∀ l s, l ≠ key → ¬ (path ++ [key]) <+: path ++ l :: s := by
      intro l s hl hpre
      rw [List.prefix_append_right_inj] at hpre
      obtain ⟨rfl, -⟩ := List.cons_prefix_cons.mp hpre
      exact hl rfl
    have hne : ∀ f ∈ children, f.1 ≠ key := by
      intro f hf heq
      have hlt := hhead f hf
      rw [heq, show scmp key key = .eq from ReflCmp.compare_self] at hlt
      cases hlt
    have hrest := ihs htail (fun f hf => ih f (List.mem_cons_of_mem _ hf))
      (applySubtreeWrite child (path ++ [key]) node) (by
        intro f hf s hs r k t heq
        rw [hother]
        · exact h f (List.mem_cons_of_mem _ hf) s hs r k t heq
        · intro hpre
          refine hapart f.1 s (hne f hf) (hpre.trans ?_)
          rw [heq]
          exact List.prefix_append ..)
    rw [applyChildren, hrest]
    funext q
    unfold graft
    cases hq : after path q with
    | none =>
      refine hother q fun hpre => ?_
      exact after_eq_none.mp hq ((List.prefix_append ..).trans hpre)
    | some s =>
      obtain rfl := after_eq_some.mp hq
      cases s with
      | nil =>
        simp only [overlayChildren, below, List.append_nil]
        refine hother path fun hpre => ?_
        have hlen := hpre.length_le
        rw [List.length_append, List.length_singleton] at hlen
        omega
      | cons l s =>
        simp only [overlayChildren, Entries.find_cons, LawfulEqCmp.compare_eq_iff_eq]
        by_cases hl : l = key
        · subst hl
          have hnone : Entries.find scmp l children = none := by
            refine Entries.find_eq_none.mpr fun f hf heq => ?_
            exact hne f hf (LawfulEqCmp.compare_eq_iff_eq.mp heq).symm
          have hassoc : path ++ l :: s = (path ++ [l]) ++ s := by simp
          simp only [hnone, ↓reduceIte, below]
          rw [hassoc, hfirst, graft_append]
        · simp only [if_neg hl, below]
          rw [hother (path ++ l :: s) (hapart l s hl)]

theorem leaves_applySubtreeWrite {t : FImmutableTree K (Node cmp L)} (ht : t.Sound scmp)
    (path : List K) (node : Node cmp L)
    (h : ∀ s, Placed (overlayOf scmp t) s → Clear node.leaves (path ++ s)) :
    (applySubtreeWrite t path node).leaves =
      graft path (fun s => (overlayOf scmp t s).getD (node.leaves (path ++ s))) node.leaves := by
  induction ht generalizing path node with
  | @node value children sorted sound nonempty ih =>
    cases value with
    | some value =>
      have hover : overlayOf scmp (.node (some value) children) = shade value :=
        overlayOf_of_value rfl
      have hroot := h [] (by
        rw [hover]
        exact ⟨by simp [shade], clear_nil _⟩)
      rw [List.append_nil] at hroot
      rw [applySubtreeWrite, Node.leaves_updateChild (Or.inl hroot), hover]
      rfl
    | none =>
      have hcons : ∀ k q, overlayOf scmp (.node none children) (k :: q) =
          overlayOf scmp ((FImmutableTree.node none children).childAt scmp k) q := by
        intro k q
        unfold overlayOf
        rw [rootMost_cons rfl]
        congr 1
        funext q
        simp [below, FImmutableTree.valueAtPath_cons]
      have hchild : ∀ e ∈ children, ∀ q, overlayOf scmp (.node none children) (e.1 :: q) =
          overlayOf scmp e.2 q := by
        intro e he q
        have hfind : Entries.find scmp e.1 children = some e.2 :=
          (Entries.find_eq_some_iff sorted).mpr he
        rw [hcons]
        simp [FImmutableTree.childAt, FImmutableTree.children, hfind]
      rw [applySubtreeWrite, leaves_applyChildren sorted ih path node]
      · congr 1
        funext s
        cases s with
        | nil => simp [overlayChildren, below, overlayOf, rootMost, FImmutableTree.value]
        | cons k s =>
          rw [hcons]
          simp only [overlayChildren, FImmutableTree.childAt, FImmutableTree.children, below]
          rcases Option.eq_none_or_eq_some (Entries.find scmp k children) with hfind | ⟨c, hfind⟩
          · simp [hfind]
          · simp [hfind]
      · intro e he s hs
        refine h (e.1 :: s) ⟨?_, ?_⟩
        · rw [hchild e he]
          exact hs.1
        · refine clear_cons.mpr ⟨rfl, ?_⟩
          have hbelow : below [e.1] (overlayOf scmp (.node none children)) =
              overlayOf scmp e.2 := funext (hchild e he)
          rw [hbelow]
          exact hs.2

/-- A node under the writes: what the overlay says, and elsewhere what was there. -/
theorem leaves_applyToNode {w : FCompoundWrite cmp scmp L} {node : Node cmp L}
    (h : ∀ path, Placed w.overlay path → Clear node.leaves path) :
    (w.applyToNode node).leaves = fun q => (w.overlay q).getD (node.leaves q) := by
  unfold applyToNode
  rw [leaves_applySubtreeWrite w.sound [] node h]
  rfl

/-- Updates one after the other. -/
def updateChildren (start : Node cmp L) (pvs : List (List K × Node cmp L)) : Node cmp L :=
  pvs.foldl (fun node pv => node.updateChild pv.1 pv.2) start

omit [LawfulEqCmp scmp] in
theorem leaves_updateChildren {start : Node cmp L} {pvs : List (List K × Node cmp L)}
    (h : Fits (leavesOf pvs) start.leaves) :
    (updateChildren start pvs).leaves = layer (leavesOf pvs) start.leaves := by
  unfold updateChildren
  induction pvs generalizing start with
  | nil => rfl
  | cons pv pvs ih =>
    obtain ⟨hclear, hrest⟩ := h
    have hleaves : (start.updateChild pv.1 pv.2).leaves =
        graft pv.1 pv.2.leaves start.leaves := Node.leaves_updateChild (Or.inl hclear)
    rw [List.foldl_cons, ih, hleaves]
    · rfl
    · rw [hleaves]
      exact hrest

variable [TransCmp scmp]

end Applying

end FCompoundWrite

end HateBlocker
