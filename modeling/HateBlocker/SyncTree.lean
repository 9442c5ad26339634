-- `FSyncTree`: the views of a database and the pending writes. An operation goes down the tree to
-- the views on its path and below it, each of which gets its own part of the operation.
import HateBlocker.EventGenerator

open Std Runs PathMaps

namespace HateBlocker

variable {K L : Type} {cmp scmp : K → K → Ordering}

/-! ## The part of an operation for a child -/

namespace FOperation

def path : FOperation cmp scmp L → List K
  | overwrite _ path _ => path
  | merge _ path _ => path
  | ackUserWrite path _ _ => path
  | listenComplete path => path

/-- `operationForChild:`. On its path an operation is only asked for the child in front, and below an
affected place there is no other one, as the source asserts. -/
def operationForChild [DecidableEq K] (childKey : K) :
    FOperation cmp scmp L → Option (FOperation cmp scmp L)
  | overwrite fromUser [] snap => some (overwrite fromUser [] (snap.getImmediateChild childKey))
  | overwrite fromUser (_ :: path) snap => some (overwrite fromUser path snap)
  | merge fromUser [] children =>
    let childTree := children.childCompoundWriteAtPath [childKey]
    if childTree.isEmpty then none
    else
      match childTree.rootWrite with
      | some snap => some (overwrite fromUser [] snap)
      | none => some (merge fromUser [] childTree)
  | merge fromUser (_ :: path) children => some (merge fromUser path children)
  | ackUserWrite [] affectedTree revert =>
    if affectedTree.value.isSome then some (ackUserWrite [] affectedTree revert)
    else some (ackUserWrite [] (affectedTree.subtreeAtPath scmp [childKey]) revert)
  | ackUserWrite (_ :: path) affectedTree revert => some (ackUserWrite path affectedTree revert)
  | listenComplete [] => some (listenComplete [])
  | listenComplete (_ :: path) => some (listenComplete path)

end FOperation

def FWriteTreeRef.childWriteTreeRef (w : FWriteTreeRef cmp scmp L) (childKey : K) :
    FWriteTreeRef cmp scmp L := ⟨w.path ++ [childKey], w.writeTree⟩

/-! ## The tree -/

/-- The sync point of a place has one view there, that of the default query. `listens` are the
queries that the listen provider listens to. -/
structure FSyncTree {K : Type} (cmp scmp : K → K → Ordering) (L : Type) where
  syncPointTree : FImmutableTree K (FView cmp L)
  pendingWriteTree : FWriteTree cmp scmp L
  listens : List (List K)

namespace FSyncTree

/-- `initWithListenProvider:`. -/
def empty : FSyncTree cmp scmp L := ⟨FImmutableTree.empty, FWriteTree.empty, []⟩

section Operations

variable [DecidableEq K] [TransCmp cmp] [LawfulEqCmp cmp] [TransCmp scmp] [LawfulEqCmp scmp]
  [DecidableEq L]

mutual
/-- Nothing, like all that follows, where a step throws. -/
def applyOperationDescendantsHelper (operation : FOperation cmp scmp L)
    (serverCache : Option (Node cmp L)) (writesCache : FWriteTreeRef cmp scmp L) :
    FImmutableTree K (FView cmp L) →
      Option (FImmutableTree K (FView cmp L) × List (FDataEvent cmp L))
  | .node syncPoint children =>
    let resolvedServerCache :=
      if serverCache.isNone && syncPoint.isSome then
        syncPoint.bind (fun view => view.completeServerCacheFor [])
      else serverCache
    (applyOperationToChildren operation resolvedServerCache writesCache children).bind
      fun (newChildren, events) =>
        match syncPoint with
        | some view =>
          (view.applyOperation operation writesCache resolvedServerCache).map
            fun (newView, viewEvents) => (.node (some newView) newChildren, events ++ viewEvents)
        | none => some (.node none newChildren, events)

/-- The block that is applied to the children. -/
def applyOperationToChildren (operation : FOperation cmp scmp L)
    (resolvedServerCache : Option (Node cmp L)) (writesCache : FWriteTreeRef cmp scmp L) :
    List (K × FImmutableTree K (FView cmp L)) →
      Option (List (K × FImmutableTree K (FView cmp L)) × List (FDataEvent cmp L))
  | [] => some ([], [])
  | (childKey, childTree) :: children =>
    let childServerCache :=
      resolvedServerCache.map (fun cache : Node cmp L => cache.getImmediateChild childKey)
    let applied :=
      match operation.operationForChild childKey with
      | some childOperation =>
        applyOperationDescendantsHelper childOperation childServerCache
          (writesCache.childWriteTreeRef childKey) childTree
      | none => some (childTree, [])
    applied.bind fun (newChildTree, childEvents) =>
      (applyOperationToChildren operation resolvedServerCache writesCache children).map
        fun (newChildren, events) =>
          ((childKey, newChildTree) :: newChildren, childEvents ++ events)
end

/-- Down the path of the operation, which is given first. -/
def applyOperationHelper : List K → FOperation cmp scmp L → Option (Node cmp L) →
    FWriteTreeRef cmp scmp L → FImmutableTree K (FView cmp L) →
      Option (FImmutableTree K (FView cmp L) × List (FDataEvent cmp L))
  | [], operation, serverCache, writesCache, syncPointTree =>
    applyOperationDescendantsHelper operation serverCache writesCache syncPointTree
  | childKey :: path, operation, serverCache, writesCache, .node syncPoint children =>
    let serverCache := serverCache.or (syncPoint.bind (fun view => view.completeServerCacheFor []))
    let applied : Option (List (K × FImmutableTree K (FView cmp L)) × List (FDataEvent cmp L)) :=
      match operation.operationForChild childKey, Entries.find scmp childKey children with
      | some childOperation, some childTree =>
        (applyOperationHelper path childOperation
          (serverCache.map (fun cache : Node cmp L => cache.getImmediateChild childKey))
          (writesCache.childWriteTreeRef childKey) childTree).map
            fun (newChildTree, events) =>
              (Entries.put scmp (fun k _ => k) childKey newChildTree children, events)
      | _, _ => some (children, [])
    applied.bind fun (newChildren, events) =>
      match syncPoint with
      | some view =>
        (view.applyOperation operation writesCache serverCache).map
          fun (newView, viewEvents) => (.node (some newView) newChildren, events ++ viewEvents)
      | none => some (.node none newChildren, events)

def applyOperationToSyncPoints (t : FSyncTree cmp scmp L) (operation : FOperation cmp scmp L) :
    Option (FSyncTree cmp scmp L × List (FDataEvent cmp L)) :=
  (applyOperationHelper operation.path operation none ⟨[], t.pendingWriteTree⟩
    t.syncPointTree).map fun (syncPointTree, events) => ({ t with syncPointTree }, events)

/-! ### Writes of the user -/

def applyUserOverwriteAtPath (t : FSyncTree cmp scmp L) (path : List K) (newData : Node cmp L)
    (writeId : ℤ) (visible : Bool) : Option (FSyncTree cmp scmp L × List (FDataEvent cmp L)) :=
  (t.pendingWriteTree.addOverwriteAtPath path newData writeId visible).bind fun pendingWriteTree =>
    let t := { t with pendingWriteTree }
    if visible then t.applyOperationToSyncPoints (.overwrite true path newData) else some (t, [])

def applyUserMergeAtPath (t : FSyncTree cmp scmp L) (path : List K)
    (changedChildren : FCompoundWrite cmp scmp L) (writeId : ℤ) :
    Option (FSyncTree cmp scmp L × List (FDataEvent cmp L)) :=
  (t.pendingWriteTree.addMergeAtPath path changedChildren writeId).bind fun pendingWriteTree =>
    { t with pendingWriteTree }.applyOperationToSyncPoints (.merge true path changedChildren)

/-- The places that a write affects, below its path. -/
def affectedTree (write : FWriteRecord cmp scmp L) : FImmutableTree K Unit :=
  match write.data with
  | .overwrite _ => FImmutableTree.empty.setValue scmp () []
  | .merge merge => merge.writes.foldl
      (fun affectedTree pv => affectedTree.setValue scmp () pv.1) FImmutableTree.empty

def ackUserWriteWithWriteId (t : FSyncTree cmp scmp L) (writeId : ℤ) (revert : Bool) :
    Option (FSyncTree cmp scmp L × List (FDataEvent cmp L)) :=
  match t.pendingWriteTree.writeForId writeId, t.pendingWriteTree.removeWriteId writeId with
  | some write, some (pendingWriteTree, needToReevaluate) =>
    let t := { t with pendingWriteTree }
    if needToReevaluate then
      t.applyOperationToSyncPoints (.ackUserWrite write.path (affectedTree write) revert)
    else some (t, [])
  | _, _ => none

def removeAllWrites (t : FSyncTree cmp scmp L) :
    Option (FSyncTree cmp scmp L × List (FDataEvent cmp L)) :=
  let (pendingWriteTree, removedWrites) := t.pendingWriteTree.removeAllWrites
  let t := { t with pendingWriteTree }
  if removedWrites.isEmpty then some (t, [])
  else
    let affectedTree := FImmutableTree.empty.setValue scmp () []
    t.applyOperationToSyncPoints (.ackUserWrite [] affectedTree true)

/-! ### Data of the server -/

def applyServerOverwriteAtPath (t : FSyncTree cmp scmp L) (path : List K) (newData : Node cmp L) :
    Option (FSyncTree cmp scmp L × List (FDataEvent cmp L)) :=
  t.applyOperationToSyncPoints (.overwrite false path newData)

def applyServerMergeAtPath (t : FSyncTree cmp scmp L) (path : List K)
    (changedChildren : FCompoundWrite cmp scmp L) :
    Option (FSyncTree cmp scmp L × List (FDataEvent cmp L)) :=
  t.applyOperationToSyncPoints (.merge false path changedChildren)

def applyListenCompleteAtPath (t : FSyncTree cmp scmp L) (path : List K) :
    Option (FSyncTree cmp scmp L × List (FDataEvent cmp L)) :=
  t.applyOperationToSyncPoints (.listenComplete path)

/-! ### Registrations -/

variable (scmp) in
/-- The first complete data of the server on the way to the path, and what stands there. -/
def serverCacheOnPath : FImmutableTree K (FView cmp L) → List K → Option (Node cmp L)
  | .node syncPoint _, [] => syncPoint.bind (fun view => view.completeServerCacheFor [])
  | .node syncPoint children, front :: path =>
    (syncPoint.bind (fun view => view.completeServerCacheFor (front :: path))).or
      (match Entries.find scmp front children with
      | some child => serverCacheOnPath child path
      | none => none)

/-- `serverCacheForQuery:` at a path, without a cache on the disk. -/
def serverCacheForQuery (t : FSyncTree cmp scmp L) (path : List K) : FCacheNode cmp L :=
  match serverCacheOnPath scmp t.syncPointTree path with
  | some serverCacheNode => ⟨serverCacheNode, true⟩
  | none =>
    let subtree := t.syncPointTree.subtreeAtPath scmp path
    ⟨subtree.children.foldl (fun serverCacheNode child =>
      match child.2.value.bind (fun view => view.completeServerCacheFor []) with
      | some completeCache => serverCacheNode.updateImmediateChild child.1 completeCache
      | none => serverCacheNode) Node.empty, false⟩

/-- `addEventRegistration:forExistingViewForQuery:` of a sync point. -/
def addEventRegistrationForExistingView (eventRegistration : FEventRegistration)
    (view : FView cmp L) : Option (FView cmp L × List (FDataEvent cmp L)) :=
  let view := view.addEventRegistration eventRegistration
  (view.initialEvents eventRegistration).map (fun events => (view, events))

/-- `addEventRegistration:forNonExistingViewForQuery:writesCache:serverCache:` of a sync point. -/
def addEventRegistrationForNonExistingView (eventRegistration : FEventRegistration)
    (path : List K) (writesCache : FWriteTreeRef cmp scmp L) (serverCache : FCacheNode cmp L) :
    Option (FView cmp L × List (FDataEvent cmp L)) :=
  let completeServerCache := if serverCache.isFullyInitialized then some serverCache.node else none
  let eventCacheNode :=
    match writesCache.calculateCompleteEventCache completeServerCache with
    | some eventCache => ⟨eventCache, true⟩
    | none => ⟨writesCache.calculateCompleteEventChildren serverCache.node, false⟩
  addEventRegistrationForExistingView eventRegistration
    (FView.initWithQuery path ⟨eventCacheNode, serverCache⟩)

variable (scmp) in
/-- Whether there is a complete view on the way to the path or at it. -/
def hasCompleteViewOnPath (tree : FImmutableTree K (FView cmp L)) (path : List K) : Bool :=
  (tree.findRootMostValueAndPath scmp path).isSome

mutual
/-- The topmost views of a subtree. -/
def collectDistinctViewsForSubTree : FImmutableTree K (FView cmp L) → List (FView cmp L)
  | .node (some view) _ => [view]
  | .node none children => collectDistinctViews children

/-- The views of the children. -/
def collectDistinctViews : List (K × FImmutableTree K (FView cmp L)) → List (FView cmp L)
  | [] => []
  | (_, child) :: children => collectDistinctViewsForSubTree child ++ collectDistinctViews children
end

def startListening (t : FSyncTree cmp scmp L) (path : List K) : FSyncTree cmp scmp L :=
  { t with listens := t.listens ++ [path] }

def stopListening (t : FSyncTree cmp scmp L) (path : List K) : FSyncTree cmp scmp L :=
  { t with listens := t.listens.filter (fun listen => listen ≠ path) }

/-- A listen shadows the listens below it. -/
def setupListenerOnQuery (t : FSyncTree cmp scmp L) (path : List K) : FSyncTree cmp scmp L :=
  let subtree := t.syncPointTree.subtreeAtPath scmp path
  let queriesToStop := (collectDistinctViews subtree.children).map FView.path
  queriesToStop.foldl stopListening (t.startListening path)

def addEventRegistration (t : FSyncTree cmp scmp L) (eventRegistration : FEventRegistration)
    (path : List K) : Option (FSyncTree cmp scmp L × List (FDataEvent cmp L)) :=
  let foundAncestorDefaultView := hasCompleteViewOnPath scmp t.syncPointTree path
  match t.syncPointTree.valueAtPath scmp path with
  | some view =>
    (addEventRegistrationForExistingView eventRegistration view).map fun (view, events) =>
      ({ t with syncPointTree := t.syncPointTree.setValue scmp view path }, events)
  | none =>
    (addEventRegistrationForNonExistingView eventRegistration path ⟨path, t.pendingWriteTree⟩
      (t.serverCacheForQuery path)).map fun (view, events) =>
        let t := { t with syncPointTree := t.syncPointTree.setValue scmp view path }
        (if foundAncestorDefaultView then t else t.setupListenerOnQuery path, events)

/-- What is left of the registrations, all of which go where none is given. -/
def remainingRegistrations (eventRegistration : Option FEventRegistration)
    (eventRegistrations : List FEventRegistration) : List FEventRegistration :=
  match eventRegistration with
  | some eventRegistration =>
    eventRegistrations.filter (fun existing => !existing.matchesRegistration eventRegistration)
  | none => []

/-- A listen that failed is gone already. The cancel events, which tell of the failure, are left
out. -/
def removeEventRegistration (t : FSyncTree cmp scmp L)
    (eventRegistration : Option FEventRegistration) (path : List K) (cancelError : Bool) :
    FSyncTree cmp scmp L :=
  match t.syncPointTree.valueAtPath scmp path with
  | none => t
  | some view =>
    let eventRegistrations := remainingRegistrations eventRegistration view.eventRegistrations
    if eventRegistrations.isEmpty then
      let t := { t with syncPointTree := t.syncPointTree.removeValueAtPath scmp path }
      if hasCompleteViewOnPath scmp t.syncPointTree path then t
      else
        let newViews := collectDistinctViewsForSubTree (t.syncPointTree.subtreeAtPath scmp path)
        let t := (newViews.map FView.path).foldl startListening t
        if cancelError then t else t.stopListening path
    else
      let view := { view with eventRegistrations }
      { t with syncPointTree := t.syncPointTree.setValue scmp view path }

end Operations

end FSyncTree

/-! ## The affected places of an answered write -/

section Affected

variable [DecidableEq K] [TransCmp scmp] [LawfulEqCmp scmp]

theorem foldl_setValue (pvs : List (List K × Node cmp L)) {tree : FImmutableTree K Unit}
    (h : tree.Sound scmp) :
    (pvs.foldl (fun tree pv => tree.setValue scmp () pv.1) tree).Sound scmp ∧
      ∀ p, (pvs.foldl (fun tree pv => tree.setValue scmp () pv.1) tree).valueAtPath scmp p ≠ none ↔
        p ∈ pvs.map Prod.fst ∨ tree.valueAtPath scmp p ≠ none := by
  induction pvs generalizing tree with
  | nil => exact ⟨h, fun p => by simp⟩
  | cons pv pvs ih =>
    obtain ⟨hsound, hvalues⟩ := ih (h.setValue () pv.1)
    refine ⟨hsound, fun p => ?_⟩
    rw [List.foldl_cons, hvalues, FImmutableTree.valueAtPath_setValue h, List.map_cons,
      List.mem_cons]
    by_cases hp : p = pv.1
    · simp [hp]
    · simp [hp]

theorem sound_affectedTree (w : FWriteRecord cmp scmp L) :
    (FSyncTree.affectedTree w).Sound scmp := by
  unfold FSyncTree.affectedTree
  split
  · exact FImmutableTree.sound_empty.setValue () []
  · exact (foldl_setValue _ FImmutableTree.sound_empty).1

/-- The affected places are the places of the write. -/
theorem valueAtPath_affectedTree (w : FWriteRecord cmp scmp L) (p : List K) :
    (FSyncTree.affectedTree w).valueAtPath scmp p ≠ none ↔
      w.path ++ p ∈ w.writes.map Prod.fst := by
  unfold FSyncTree.affectedTree FWriteRecord.writes
  cases w.data with
  | overwrite overwrite =>
    dsimp only
    rw [FImmutableTree.valueAtPath_setValue FImmutableTree.sound_empty]
    simp
  | merge merge =>
    dsimp only
    rw [(foldl_setValue merge.writes FImmutableTree.sound_empty).2, List.map_map]
    simp

/-- No affected place is below another one, as `operationForChild:` asserts. -/
theorem affectedTree_apart (w : FWriteRecord cmp scmp L) {p q : List K}
    (hp : (FSyncTree.affectedTree w).valueAtPath scmp p ≠ none)
    (hq : (FSyncTree.affectedTree w).valueAtPath scmp q ≠ none) (hpre : p <+: q) : p = q := by
  obtain ⟨pv, hpv, heq⟩ := List.mem_map.mp ((valueAtPath_affectedTree w p).mp hp)
  obtain ⟨qv, hqv, heq'⟩ := List.mem_map.mp ((valueAtPath_affectedTree w q).mp hq)
  by_contra hne
  have hapart : Apart pv.1 qv.1 := by
    refine w.apart_of_mem hpv hqv ?_
    rintro rfl
    exact hne (List.append_cancel_left (heq.symm.trans heq'))
  rw [heq, heq'] at hapart
  exact hapart.1 ((List.prefix_append_right_inj _).mpr hpre)

end Affected

/-! ## Where the parts of an operation go -/

section Routing

variable [DecidableEq K]

/-- The part of the operation that reaches a path. -/
def FOperation.reaching (operation : FOperation cmp scmp L) :
    List K → Option (FOperation cmp scmp L)
  | [] => some operation
  | k :: p =>
    if operation.path = [] ∨ operation.path.head? = some k then
      (operation.operationForChild k).bind (fun childOperation => childOperation.reaching p)
    else none

/-- One place is not below two of the places under another. -/
theorem eq_of_prefixes {A : Type} {q r : List A} {k l : A} (hk : q ++ [k] <+: r)
    (hl : q ++ [l] <+: r) : k = l := by
  obtain ⟨s, rfl⟩ := hk
  obtain ⟨t, ht⟩ := hl
  rw [List.append_assoc, List.append_assoc] at ht
  have hcons := List.append_cancel_left ht
  exact (List.cons.inj hcons).1.symm

theorem FOperation.path_operationForChild {operation childOperation : FOperation cmp scmp L} {k : K}
    (h : operation.operationForChild k = some childOperation) :
    childOperation.path = operation.path.tail := by
  cases operation with
  | overwrite fromUser path snap => cases path <;> cases h <;> rfl
  | merge fromUser path children =>
    cases path with
    | nil =>
      unfold operationForChild at h
      dsimp only at h
      split at h
      · cases h
      · split at h
        · cases h
          rfl
        · cases h
          rfl
    | cons front path =>
      cases h
      rfl
  | ackUserWrite path affectedTree revert =>
    cases path with
    | nil =>
      unfold operationForChild at h
      dsimp only at h
      split at h
      · cases h
        rfl
      · cases h
        rfl
    | cons front path =>
      cases h
      rfl
  | listenComplete path => cases path <;> cases h <;> rfl

variable [TransCmp cmp] [LawfulEqCmp cmp] [TransCmp scmp] [LawfulEqCmp scmp] [DecidableEq L]

/-- A view that has received its part of an operation, or nothing, and its events. -/
structure Follows (operation : Option (FOperation cmp scmp L))
    (writesCache : FWriteTreeRef cmp scmp L) (view newView : FView cmp L)
    (events : List (FDataEvent cmp L)) : Prop where
  path : newView.path = view.path
  eventRegistrations : newView.eventRegistrations = view.eventRegistrations
  viewCache : match operation with
    | some operation => ∃ serverCache, newView.viewCache =
      (FViewProcessor.process view.viewCache operation writesCache serverCache).1
    | none => newView.viewCache = view.viewCache
  tells : Tells view.path view.eventRegistrations view.viewCache newView.viewCache events

/-- What becomes of a place, where there is a view or none. -/
inductive FollowsAt (operation : Option (FOperation cmp scmp L))
    (writesCache : FWriteTreeRef cmp scmp L) :
    Option (FView cmp L) → Option (FView cmp L) → List (FDataEvent cmp L) → Prop
  | view {view newView : FView cmp L} {events : List (FDataEvent cmp L)}
      (path : view.path = writesCache.path)
      (h : Follows operation writesCache view newView events) :
      FollowsAt operation writesCache (some view) (some newView) events
  | bare : FollowsAt operation writesCache none none []

/-- Every view of the tree, whose root is at `q`, has received what reaches it. -/
structure Spreads (q : List K) (writeTree : FWriteTree cmp scmp L)
    (reach : List K → Option (FOperation cmp scmp L))
    (tree newTree : FImmutableTree K (FView cmp L)) (events : List (FDataEvent cmp L)) : Prop where
  sound : newTree.Sound scmp
  isEmpty : newTree.isEmpty = tree.isEmpty
  views : ∀ p, FollowsAt (reach p) ⟨q ++ p, writeTree⟩ (tree.valueAtPath scmp p)
    (newTree.valueAtPath scmp p) (events.filter (fun event => event.path = q ++ p))
  within : ∀ event ∈ events, q <+: event.path

/-- Every view knows where it is. -/
def Located (scmp : K → K → Ordering) (q : List K) (tree : FImmutableTree K (FView cmp L)) : Prop :=
  ∀ p view, tree.valueAtPath scmp p = some view → view.path = q ++ p

omit [DecidableEq K] [TransCmp cmp] [LawfulEqCmp cmp] [TransCmp scmp] [LawfulEqCmp scmp]
  [DecidableEq L] in
theorem Located.childAt {q : List K} {tree : FImmutableTree K (FView cmp L)}
    (h : Located scmp q tree) (k : K) :
    Located scmp (q ++ [k]) (tree.childAt scmp k) := by
  intro p view hp
  rw [← FImmutableTree.valueAtPath_cons] at hp
  rw [h (k :: p) view hp, List.append_assoc]
  rfl

omit [DecidableEq K] [TransCmp cmp] [LawfulEqCmp cmp] [TransCmp scmp] [LawfulEqCmp scmp]
  [DecidableEq L] in
theorem Located.view {q : List K} {view : FView cmp L}
    {children : List (K × FImmutableTree K (FView cmp L))}
    (h : Located scmp q (.node (some view) children)) : view.path = q := by
  rw [h [] view rfl, List.append_nil]

theorem tells_same (path : List K) (registrations : List FEventRegistration)
    (viewCache : FViewCache cmp L) : Tells path registrations viewCache viewCache [] :=
  ⟨fun _ h => absurd h List.not_mem_nil, fun _ _ => rfl, fun _ _ _ _ hshown hcomplete =>
    hshown hcomplete⟩

/-- Where nothing arrives, nothing happens. -/
theorem spreads_none {q : List K} {writeTree : FWriteTree cmp scmp L}
    {reach : List K → Option (FOperation cmp scmp L)} {tree : FImmutableTree K (FView cmp L)}
    (h : tree.Sound scmp) (hlocated : Located scmp q tree)
    (hreach : ∀ p, tree.valueAtPath scmp p ≠ none → reach p = none) :
    Spreads q writeTree reach tree tree [] := by
  refine ⟨h, rfl, fun p => ?_, fun _ hevent => absurd hevent List.not_mem_nil⟩
  rcases Option.eq_none_or_eq_some (tree.valueAtPath scmp p) with hp | ⟨view, hp⟩
  · rw [hp]
    exact .bare
  · have hnone := hreach p (by simp [hp])
    rw [hp]
    refine .view (hlocated p view hp) ⟨rfl, rfl, ?_, tells_same _ _ _⟩
    rw [hnone]

theorem FollowsAt.path_events {operation : Option (FOperation cmp scmp L)}
    {writesCache : FWriteTreeRef cmp scmp L} {value newValue : Option (FView cmp L)}
    {events : List (FDataEvent cmp L)} (h : FollowsAt operation writesCache value newValue events) :
    ∀ event ∈ events, event.path = writesCache.path := by
  cases h with
  | view path h => exact fun event hevent => (h.tells.path event hevent).trans path
  | bare => exact fun event hevent => absurd hevent List.not_mem_nil

theorem FollowsAt.isNone {operation : Option (FOperation cmp scmp L)}
    {writesCache : FWriteTreeRef cmp scmp L} {value newValue : Option (FView cmp L)}
    {events : List (FDataEvent cmp L)} (h : FollowsAt operation writesCache value newValue events) :
    newValue.isNone = value.isNone := by
  cases h <;> rfl

/-- A node of the tree, put together from its children and its view. -/
theorem Spreads.node {q : List K} {writeTree : FWriteTree cmp scmp L}
    {reach : List K → Option (FOperation cmp scmp L)} {value newValue : Option (FView cmp L)}
    {children newChildren : List (K × FImmutableTree K (FView cmp L))}
    {childEvents viewEvents : List (FDataEvent cmp L)}
    (hsound : (FImmutableTree.node value children).Sound scmp)
    (hkeys : newChildren.map Prod.fst = children.map Prod.fst)
    (hchildren : ∀ k, Spreads (q ++ [k]) writeTree (fun p => reach (k :: p))
      ((FImmutableTree.node value children).childAt scmp k)
      ((FImmutableTree.node newValue newChildren).childAt scmp k)
      (childEvents.filter (fun event => (q ++ [k]).isPrefixOf event.path)))
    (hwithin : ∀ event ∈ childEvents, ∃ k, q ++ [k] <+: event.path)
    (hview : FollowsAt (reach []) ⟨q, writeTree⟩ value newValue viewEvents) :
    Spreads q writeTree reach (.node value children) (.node newValue newChildren)
      (childEvents ++ viewEvents) := by
  have hsorted : Entries.Sorted scmp newChildren := by
    have hold : (children.map Prod.fst).Pairwise (fun k l => scmp k l = .lt) :=
      List.pairwise_map.mpr hsound.sorted_children
    rw [← hkeys] at hold
    exact List.pairwise_map.mp hold
  have hviewEvents := hview.path_events
  refine ⟨?_, ?_, ?_, ?_⟩
  · have hnew : ∀ e ∈ newChildren, e.2.Sound scmp ∧ e.2.isEmpty = false := by
      intro e he
      have hchild : (FImmutableTree.node newValue newChildren).childAt scmp e.1 = e.2 := by
        rw [FImmutableTree.childAt, FImmutableTree.children,
          (Entries.find_eq_some_iff hsorted).mpr he]
        rfl
      have hmem : e.1 ∈ children.map Prod.fst := hkeys ▸ List.mem_map_of_mem he
      obtain ⟨old, hold, hkey⟩ := List.mem_map.mp hmem
      have holdChild := hsound.childAt_of_mem_children hold
      have hspread := hchildren e.1
      rw [hchild, ← hkey, holdChild] at hspread
      exact ⟨hspread.sound, hspread.isEmpty.trans (hsound.isEmpty_of_mem_children hold)⟩
    exact .node newValue hsorted (fun e he => (hnew e he).1) (fun e he => (hnew e he).2)
  · have hnil : newChildren.isEmpty = children.isEmpty := by
      rw [← List.isEmpty_map (f := Prod.fst), hkeys, List.isEmpty_map]
    unfold FImmutableTree.isEmpty FImmutableTree.value FImmutableTree.children
    rw [hview.isNone, hnil]
  · intro p
    rw [List.filter_append]
    cases p with
    | nil =>
      have hchild : childEvents.filter (fun event => event.path = q ++ []) = [] := by
        rw [List.filter_eq_nil_iff]
        intro event hevent
        obtain ⟨k, r, hr⟩ := hwithin event hevent
        simp [← hr]
      have hself : viewEvents.filter (fun event => event.path = q ++ []) = viewEvents := by
        rw [List.filter_eq_self]
        intro event hevent
        simp [hviewEvents event hevent]
      rw [hchild, hself, List.nil_append, List.append_nil]
      exact hview
    | cons k r =>
      have hself : viewEvents.filter (fun event => event.path = q ++ k :: r) = [] := by
        rw [List.filter_eq_nil_iff]
        intro event hevent
        simp [hviewEvents event hevent]
      have hchild : (childEvents.filter (fun event => (q ++ [k]).isPrefixOf event.path)).filter
          (fun event => event.path = (q ++ [k]) ++ r) =
          childEvents.filter (fun event => event.path = q ++ k :: r) := by
        rw [List.filter_filter]
        apply List.filter_congr
        intro event _
        by_cases heq : event.path = q ++ k :: r
        · simp [heq]
        · simp [heq]
      rw [hself, List.append_nil, ← hchild, FImmutableTree.valueAtPath_cons,
        FImmutableTree.valueAtPath_cons]
      have hfollows := (hchildren k).views r
      simpa using hfollows
  · intro event hevent
    rcases List.mem_append.mp hevent with hchild | hself
    · obtain ⟨k, hk⟩ := hwithin event hchild
      exact (List.prefix_append q [k]).trans hk
    · rw [hviewEvents event hself]

/-- A view and its part of the operation. -/
theorem exists_follows (q : List K) (writeTree : FWriteTree cmp scmp L) (view : FView cmp L)
    (operation : FOperation cmp scmp L) (serverCache : Option (Node cmp L)) :
    ∃ newView events, view.applyOperation operation ⟨q, writeTree⟩ serverCache =
        some (newView, events) ∧
      Follows (some operation) ⟨q, writeTree⟩ view newView events := by
  obtain ⟨events, happly, htells⟩ :=
    view.applyOperation_tells operation ⟨q, writeTree⟩ serverCache
  exact ⟨_, events, happly, rfl, rfl, ⟨serverCache, rfl⟩, htells⟩

/-- The block passes over the children one after the other. -/
theorem applyOperationToChildren_eq {operation : FOperation cmp scmp L}
    {cache : Option (Node cmp L)} {w : FWriteTreeRef cmp scmp L}
    {children : List (K × FImmutableTree K (FView cmp L))}
    {result : K × FImmutableTree K (FView cmp L) →
      FImmutableTree K (FView cmp L) × List (FDataEvent cmp L)}
    (h : ∀ child ∈ children,
      (match operation.operationForChild child.1 with
        | some childOperation => FSyncTree.applyOperationDescendantsHelper childOperation
            (cache.map (fun cache : Node cmp L => cache.getImmediateChild child.1))
            (w.childWriteTreeRef child.1) child.2
        | none => some (child.2, [])) = some (result child)) :
    FSyncTree.applyOperationToChildren operation cache w children =
      some (children.map (fun child => (child.1, (result child).1)),
        children.flatMap (fun child => (result child).2)) := by
  induction children with
  | nil => rfl
  | cons child children ih =>
    obtain ⟨key, tree⟩ := child
    have hfirst := h (key, tree) (by simp)
    unfold FSyncTree.applyOperationToChildren
    dsimp only at hfirst ⊢
    rw [hfirst, Option.bind_some, ih fun child hchild => h child (List.mem_cons_of_mem _ hchild)]
    rfl

omit [TransCmp cmp] [LawfulEqCmp cmp] [TransCmp scmp] [LawfulEqCmp scmp] [DecidableEq L] in
/-- The events of one child, among those of all of them. -/
theorem filter_flatMap_below {q : List K} {A : Type} {children : List (K × A)}
    {events : K × A → List (FDataEvent cmp L)} (hnodup : (children.map Prod.fst).Nodup)
    (hwithin : ∀ child ∈ children, ∀ event ∈ events child, q ++ [child.1] <+: event.path) (k : K) :
    (children.flatMap events).filter (fun event => (q ++ [k]).isPrefixOf event.path) =
      (children.filter (fun child => child.1 = k)).flatMap events := by
  induction children with
  | nil => rfl
  | cons child children ih =>
    rw [List.flatMap_cons, List.filter_append, ih (List.nodup_cons.mp hnodup).2 fun child hchild =>
      hwithin child (List.mem_cons_of_mem _ hchild)]
    by_cases hk : child.1 = k
    · have hself : (events child).filter (fun event => (q ++ [k]).isPrefixOf event.path) =
          events child := by
        rw [List.filter_eq_self]
        intro event hevent
        rw [List.isPrefixOf_iff_prefix, ← hk]
        exact hwithin child (by simp) event hevent
      rw [hself, List.filter_cons_of_pos (by simpa using hk), List.flatMap_cons]
    · have hnone : (events child).filter (fun event => (q ++ [k]).isPrefixOf event.path) = [] := by
        rw [List.filter_eq_nil_iff]
        intro event hevent hprefix
        exact hk (eq_of_prefixes (hwithin child (by simp) event hevent)
          (List.isPrefixOf_iff_prefix.mp hprefix))
      rw [hnone, List.nil_append, List.filter_cons_of_neg (by simpa using hk)]

omit [TransCmp cmp] [LawfulEqCmp cmp] [TransCmp scmp] [LawfulEqCmp scmp] [DecidableEq L] in
theorem filter_key {A : Type} {children : List (K × A)} (h : (children.map Prod.fst).Nodup)
    {child : K × A} (hchild : child ∈ children) :
    children.filter (fun c => c.1 = child.1) = [child] := by
  induction children with
  | nil => cases hchild
  | cons first children ih =>
    obtain ⟨hnew, hrest⟩ := List.nodup_cons.mp h
    rcases List.mem_cons.mp hchild with rfl | hin
    · have hnone : children.filter (fun c => c.1 = child.1) = [] := by
        rw [List.filter_eq_nil_iff]
        intro c hc heq
        exact hnew (List.mem_map.mpr ⟨c, hc, by simpa using heq⟩)
      rw [List.filter_cons_of_pos (by simp), hnone]
    · have hne : first.1 ≠ child.1 := by
        intro heq
        exact hnew (heq ▸ List.mem_map_of_mem hin)
      rw [List.filter_cons_of_neg (by simpa using hne), ih hrest hin]

theorem spreads_empty (q : List K) (writeTree : FWriteTree cmp scmp L)
    (reach : List K → Option (FOperation cmp scmp L)) :
    Spreads q writeTree reach FImmutableTree.empty FImmutableTree.empty [] := by
  refine spreads_none FImmutableTree.sound_empty ?_ ?_
  · intro p view hp
    simp at hp
  · intro p hp
    simp at hp

/-- The child under a key, whether there is one or not. -/
theorem spreads_child {q : List K} {writeTree : FWriteTree cmp scmp L}
    {reach : List K → Option (FOperation cmp scmp L)} {value newValue : Option (FView cmp L)}
    {children : List (K × FImmutableTree K (FView cmp L))}
    {result : K × FImmutableTree K (FView cmp L) →
      FImmutableTree K (FView cmp L) × List (FDataEvent cmp L)}
    (hsound : (FImmutableTree.node value children).Sound scmp)
    (h : ∀ child ∈ children, Spreads (q ++ [child.1]) writeTree (fun p => reach (child.1 :: p))
      child.2 (result child).1 (result child).2) (k : K) :
    Spreads (q ++ [k]) writeTree (fun p => reach (k :: p))
      ((FImmutableTree.node value children).childAt scmp k)
      ((FImmutableTree.node newValue (children.map (fun child =>
        (child.1, (result child).1)))).childAt scmp k)
      ((children.filter (fun child => child.1 = k)).flatMap (fun child => (result child).2)) := by
  have hkeys : (children.map (fun child => (child.1, (result child).1))).map Prod.fst =
      children.map Prod.fst := by
    rw [List.map_map]
    rfl
  by_cases hk : k ∈ children.map Prod.fst
  · obtain ⟨child, hchild, rfl⟩ := List.mem_map.mp hk
    have hold := hsound.childAt_of_mem_children hchild
    have hnew : (FImmutableTree.node newValue (children.map (fun child =>
        (child.1, (result child).1)))).childAt scmp child.1 = (result child).1 := by
      have hsorted : Entries.Sorted scmp (children.map (fun child =>
          (child.1, (result child).1))) := List.pairwise_map.mpr hsound.sorted_children
      have hmem : (child.1, (result child).1) ∈ children.map (fun child =>
          (child.1, (result child).1)) := List.mem_map_of_mem hchild
      rw [FImmutableTree.childAt, FImmutableTree.children,
        (Entries.find_eq_some_iff hsorted).mpr hmem]
      rfl
    have hnodup : (children.map Prod.fst).Nodup := hsound.sorted_children.nodup_keys
    rw [hold, hnew, filter_key hnodup hchild, List.flatMap_cons,
      List.flatMap_nil, List.append_nil]
    exact h child hchild
  · have hnone : children.filter (fun child => child.1 = k) = [] := by
      rw [List.filter_eq_nil_iff]
      intro child hchild heq
      exact hk (List.mem_map.mpr ⟨child, hchild, by simpa using heq⟩)
    rw [FImmutableTree.childAt_of_not_mem hk, hnone, FImmutableTree.childAt_of_not_mem
      (by rwa [FImmutableTree.children, hkeys])]
    exact spreads_empty _ _ _

/-- An operation at the root of a subtree reaches all of its views. -/
theorem spreads_descendants {q : List K} {writeTree : FWriteTree cmp scmp L}
    {operation : FOperation cmp scmp L} (hroot : operation.path = [])
    {tree : FImmutableTree K (FView cmp L)} (hsound : tree.Sound scmp)
    (hlocated : Located scmp q tree) (serverCache : Option (Node cmp L)) :
    ∃ newTree events, FSyncTree.applyOperationDescendantsHelper operation serverCache
        ⟨q, writeTree⟩ tree = some (newTree, events) ∧
      Spreads q writeTree operation.reaching tree newTree events := by
  induction hsound generalizing q operation serverCache with
  | @node value children sorted sound nonempty ih =>
    have hsound : (FImmutableTree.node value children).Sound scmp :=
      .node value sorted sound nonempty
    generalize hcache : (if serverCache.isNone && value.isSome then
      value.bind (fun view => view.completeServerCacheFor []) else serverCache) = cache
    have hlocatedChild : ∀ child ∈ children, Located scmp (q ++ [child.1]) child.2 := by
      intro child hchild
      rw [← hsound.childAt_of_mem_children hchild]
      exact hlocated.childAt child.1
    have hresult : ∀ child ∈ children, ∃ result,
        (match operation.operationForChild child.1 with
          | some childOperation => FSyncTree.applyOperationDescendantsHelper childOperation
              (cache.map (fun cache : Node cmp L => cache.getImmediateChild child.1))
              (FWriteTreeRef.childWriteTreeRef ⟨q, writeTree⟩ child.1) child.2
          | none => some (child.2, [])) = some result ∧
        Spreads (q ++ [child.1]) writeTree (fun p => operation.reaching (child.1 :: p)) child.2
          result.1 result.2 := by
      intro child hchild
      have hreaching : ∀ p, operation.reaching (child.1 :: p) =
          (operation.operationForChild child.1).bind (fun o => o.reaching p) := by
        intro p
        rw [FOperation.reaching, if_pos (Or.inl hroot)]
      cases hop : operation.operationForChild child.1 with
      | none =>
        refine ⟨(child.2, []), rfl, spreads_none (sound child hchild) (hlocatedChild child hchild)
          fun p _ => ?_⟩
        rw [hreaching, hop]
        rfl
      | some childOperation =>
        have hpath : childOperation.path = [] := by
          rw [FOperation.path_operationForChild hop, hroot]
          rfl
        obtain ⟨newTree, events, happly, hspreads⟩ := ih child hchild hpath
          (hlocatedChild child hchild)
          (cache.map (fun cache : Node cmp L => cache.getImmediateChild child.1))
        refine ⟨(newTree, events), happly, ?_⟩
        have hreach : (fun p => operation.reaching (child.1 :: p)) = childOperation.reaching := by
          funext p
          rw [hreaching, hop]
          rfl
        rw [hreach]
        exact hspreads
    have : Nonempty (FImmutableTree K (FView cmp L) × List (FDataEvent cmp L)) :=
      ⟨(FImmutableTree.empty, [])⟩
    choose! result happly hspreads using hresult
    have hchildEvents : ∀ child ∈ children, ∀ event ∈ (result child).2,
        q ++ [child.1] <+: event.path := fun child hchild => (hspreads child hchild).within
    have hnode : ∀ (newValue : Option (FView cmp L)) (viewEvents : List (FDataEvent cmp L)),
        FollowsAt (operation.reaching []) ⟨q, writeTree⟩ value newValue viewEvents →
        Spreads q writeTree operation.reaching (.node value children)
          (.node newValue (children.map (fun child => (child.1, (result child).1))))
          (children.flatMap (fun child => (result child).2) ++ viewEvents) := by
      intro newValue viewEvents hview
      refine Spreads.node hsound ?_ ?_ ?_ hview
      · rw [List.map_map]
        rfl
      · intro k
        rw [filter_flatMap_below sorted.nodup_keys hchildEvents k]
        exact spreads_child hsound hspreads k
      · intro event hevent
        obtain ⟨child, hchild, hin⟩ := List.mem_flatMap.mp hevent
        exact ⟨child.1, hchildEvents child hchild event hin⟩
    unfold FSyncTree.applyOperationDescendantsHelper
    simp only [hcache, applyOperationToChildren_eq happly, Option.bind_some]
    cases value with
    | none => exact ⟨_, _, rfl, by simpa using hnode none [] .bare⟩
    | some view =>
      obtain ⟨newView, events, hviewApply, hfollows⟩ :=
        exists_follows q writeTree view operation cache
      refine ⟨_, _, ?_, hnode (some newView) events (.view hlocated.view hfollows)⟩
      dsimp only
      rw [hviewApply]
      rfl

/-- An operation goes down its path, and from there to all of the views below. -/
theorem spreads_helper {q : List K} {writeTree : FWriteTree cmp scmp L} (path : List K)
    {operation : FOperation cmp scmp L} (hpath : operation.path = path)
    {tree : FImmutableTree K (FView cmp L)} (hsound : tree.Sound scmp)
    (hlocated : Located scmp q tree) (serverCache : Option (Node cmp L)) :
    ∃ newTree events, FSyncTree.applyOperationHelper path operation serverCache
        ⟨q, writeTree⟩ tree = some (newTree, events) ∧
      Spreads q writeTree operation.reaching tree newTree events := by
  induction path generalizing q operation tree serverCache with
  | nil =>
    unfold FSyncTree.applyOperationHelper
    exact spreads_descendants hpath hsound hlocated serverCache
  | cons k path ih =>
    obtain ⟨value, children⟩ := tree
    have haside : ∀ l p, l ≠ k → operation.reaching (l :: p) = none := by
      intro l p hl
      rw [FOperation.reaching, if_neg]
      rw [hpath]
      simp [Ne.symm hl]
    have hahead : ∀ p, operation.reaching (k :: p) =
        (operation.operationForChild k).bind (fun o => o.reaching p) := by
      intro p
      rw [FOperation.reaching, if_pos (Or.inr (by rw [hpath]; rfl))]
    have hbeside : ∀ l, (∀ p, operation.reaching (l :: p) = none) →
        Spreads (q ++ [l]) writeTree (fun p => operation.reaching (l :: p))
          ((FImmutableTree.node value children).childAt scmp l)
          ((FImmutableTree.node value children).childAt scmp l) [] :=
      fun l hl => spreads_none (hsound.childAt l) (hlocated.childAt l) fun p _ => hl p
    -- The child in front receives its part, the others are left alone.
    obtain ⟨newChildren, events, happlied, hkeys, hchildren, hwithin⟩ :
        ∃ newChildren events,
          (match operation.operationForChild k, Entries.find scmp k children with
          | some childOperation, some childTree =>
            (FSyncTree.applyOperationHelper path childOperation
              ((serverCache.or (value.bind (fun view => view.completeServerCacheFor []))).map
                (fun cache : Node cmp L => cache.getImmediateChild k))
              (FWriteTreeRef.childWriteTreeRef ⟨q, writeTree⟩ k) childTree).map
                fun (newChildTree, events) =>
                  (Entries.put scmp (fun k _ => k) k newChildTree children, events)
          | _, _ => some (children, [])) = some (newChildren, events) ∧
        newChildren.map Prod.fst = children.map Prod.fst ∧
        (∀ l newValue, Spreads (q ++ [l]) writeTree (fun p => operation.reaching (l :: p))
          ((FImmutableTree.node value children).childAt scmp l)
          ((FImmutableTree.node newValue newChildren).childAt scmp l)
          (events.filter (fun event => (q ++ [l]).isPrefixOf event.path))) ∧
        ∀ event ∈ events, ∃ l, q ++ [l] <+: event.path := by
      cases hop : operation.operationForChild k with
      | none =>
        refine ⟨children, [], rfl, rfl, fun l _ => ?_, fun _ h => absurd h List.not_mem_nil⟩
        refine hbeside l fun p => ?_
        by_cases hl : l = k
        · rw [hl, hahead, hop]
          rfl
        · exact haside l p hl
      | some childOperation =>
        cases hfind : Entries.find scmp k children with
        | none =>
          refine ⟨children, [], rfl, rfl, fun l _ => ?_, fun _ h => absurd h List.not_mem_nil⟩
          by_cases hl : l = k
          · have hempty : (FImmutableTree.node value children).childAt scmp l =
                FImmutableTree.empty := by
              rw [FImmutableTree.childAt, FImmutableTree.children, hl, hfind]
              rfl
            have hempty' (newValue : Option (FView cmp L)) :
                (FImmutableTree.node newValue children).childAt scmp l =
                FImmutableTree.empty := hempty
            rw [hempty, hempty']
            exact spreads_empty _ _ _
          · exact hbeside l fun p => haside l p hl
        | some childTree =>
          have hchild : (FImmutableTree.node value children).childAt scmp k = childTree := by
            rw [FImmutableTree.childAt, FImmutableTree.children, hfind]
            rfl
          have hchildPath : childOperation.path = path := by
            rw [FOperation.path_operationForChild hop, hpath]
            rfl
          obtain ⟨newTree, events, happly, hspreads⟩ := ih hchildPath
            (hchild ▸ hsound.childAt k) (hchild ▸ hlocated.childAt k)
            ((serverCache.or (value.bind (fun view => view.completeServerCacheFor []))).map
              (fun cache : Node cmp L => cache.getImmediateChild k))
          refine ⟨Entries.put scmp (fun k _ => k) k newTree children, events, ?_,
            Entries.keys_put _ hsound.sorted_children hfind, fun l newValue => ?_,
            fun event hevent => ⟨k, hspreads.within event hevent⟩⟩
          · unfold FWriteTreeRef.childWriteTreeRef
            dsimp only
            rw [happly]
            rfl
          · have hput : (FImmutableTree.node newValue
                (Entries.put scmp (fun k _ => k) k newTree children)).childAt scmp l =
                if l = k then newTree else (FImmutableTree.node value children).childAt scmp l := by
              have hentries : Entries.Sorted scmp children := hsound.sorted_children
              have hfound := Entries.find_put_self Entries.picks_new k l newTree hentries
              unfold FImmutableTree.childAt FImmutableTree.children
              dsimp only
              rw [hfound]
              split
              · rfl
              · rfl
            rw [hput]
            by_cases hl : l = k
            · subst hl
              have hall : events.filter (fun event => (q ++ [l]).isPrefixOf event.path) =
                  events := by
                rw [List.filter_eq_self]
                intro event hevent
                exact List.isPrefixOf_iff_prefix.mpr (hspreads.within event hevent)
              have hreach : (fun p => operation.reaching (l :: p)) = childOperation.reaching := by
                funext p
                rw [hahead, hop]
                rfl
              rw [if_pos rfl, hall, hchild, hreach]
              exact hspreads
            · have hnone : events.filter (fun event => (q ++ [l]).isPrefixOf event.path) = [] := by
                rw [List.filter_eq_nil_iff]
                intro event hevent hprefix
                exact hl (eq_of_prefixes (List.isPrefixOf_iff_prefix.mp hprefix)
                  (hspreads.within event hevent))
              rw [if_neg hl, hnone]
              exact hbeside l fun p => haside l p hl
    have hnode : ∀ (newValue : Option (FView cmp L)) (viewEvents : List (FDataEvent cmp L)),
        FollowsAt (operation.reaching []) ⟨q, writeTree⟩ value newValue viewEvents →
        Spreads q writeTree operation.reaching (.node value children)
          (.node newValue newChildren) (events ++ viewEvents) :=
      fun newValue _ hview =>
        Spreads.node hsound hkeys (fun l => hchildren l newValue) hwithin hview
    unfold FSyncTree.applyOperationHelper
    dsimp only
    rw [happlied, Option.bind_some]
    cases value with
    | none => exact ⟨_, _, rfl, by simpa using hnode none [] .bare⟩
    | some view =>
      obtain ⟨newView, viewEvents, hviewApply, hfollows⟩ := exists_follows q writeTree view
        operation (serverCache.or (view.completeServerCacheFor []))
      refine ⟨_, _, ?_, hnode (some newView) viewEvents (.view hlocated.view hfollows)⟩
      dsimp only
      rw [Option.bind_some, hviewApply]
      rfl

/-- An operation never throws on its way, and every view receives its part. -/
theorem applyOperationToSyncPoints_spreads {t : FSyncTree cmp scmp L}
    (hsound : t.syncPointTree.Sound scmp) (hlocated : Located scmp [] t.syncPointTree)
    (operation : FOperation cmp scmp L) :
    ∃ newTree events, t.applyOperationToSyncPoints operation =
        some ({ t with syncPointTree := newTree }, events) ∧
      Spreads [] t.pendingWriteTree operation.reaching t.syncPointTree newTree events := by
  obtain ⟨newTree, events, happly, hspreads⟩ :=
    spreads_helper operation.path rfl hsound hlocated none
  refine ⟨newTree, events, ?_, hspreads⟩
  unfold FSyncTree.applyOperationToSyncPoints
  rw [happly]
  rfl

end Routing

end HateBlocker
