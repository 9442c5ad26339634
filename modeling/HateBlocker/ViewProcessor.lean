-- `FViewProcessor` for a query that loads all data: what an operation of the user or of the
-- server makes of the two caches of a view, and the changes of the children that it tracks.
-- Whatever the operation is, the changes lead from the old event cache to the new one.
import HateBlocker.WriteTree
import HateBlocker.ChildChanges

open Std PathMaps

namespace HateBlocker

variable {K L : Type} {cmp scmp : K → K → Ordering}

/-! ## Caches -/

/-- `FCacheNode`. The cache of a query that loads all data is never filtered. -/
structure FCacheNode {K : Type} (cmp : K → K → Ordering) (L : Type) where
  node : Node cmp L
  isFullyInitialized : Bool

namespace FCacheNode

def isCompleteForChild (c : FCacheNode cmp L) (childKey : K) : Bool :=
  c.isFullyInitialized || c.node.hasChild childKey

def isCompleteForPath (c : FCacheNode cmp L) : List K → Bool
  | [] => c.isFullyInitialized
  | childKey :: _ => c.isCompleteForChild childKey

end FCacheNode

structure FViewCache {K : Type} (cmp : K → K → Ordering) (L : Type) where
  cachedEventSnap : FCacheNode cmp L
  cachedServerSnap : FCacheNode cmp L

namespace FViewCache

def updateEventSnap (v : FViewCache cmp L) (eventSnap : Node cmp L) (complete : Bool) :
    FViewCache cmp L := { v with cachedEventSnap := ⟨eventSnap, complete⟩ }

def updateServerSnap (v : FViewCache cmp L) (serverSnap : Node cmp L) (complete : Bool) :
    FViewCache cmp L := { v with cachedServerSnap := ⟨serverSnap, complete⟩ }

def completeEventSnap (v : FViewCache cmp L) : Option (Node cmp L) :=
  if v.cachedEventSnap.isFullyInitialized then some v.cachedEventSnap.node else none

def completeServerSnap (v : FViewCache cmp L) : Option (Node cmp L) :=
  if v.cachedServerSnap.isFullyInitialized then some v.cachedServerSnap.node else none

@[simp] theorem updateEventSnap_server (v : FViewCache cmp L) (n : Node cmp L) (complete : Bool) :
    (v.updateEventSnap n complete).cachedServerSnap = v.cachedServerSnap := rfl

@[simp] theorem updateEventSnap_event (v : FViewCache cmp L) (n : Node cmp L) (complete : Bool) :
    (v.updateEventSnap n complete).cachedEventSnap = ⟨n, complete⟩ := rfl

@[simp] theorem updateServerSnap_server (v : FViewCache cmp L) (n : Node cmp L)
    (complete : Bool) : (v.updateServerSnap n complete).cachedServerSnap = ⟨n, complete⟩ := rfl

@[simp] theorem updateServerSnap_event (v : FViewCache cmp L) (n : Node cmp L) (complete : Bool) :
    (v.updateServerSnap n complete).cachedEventSnap = v.cachedEventSnap := rfl

end FViewCache

/-! ## Operations -/

/-- `FOperation`s without a query; `fromUser` says which of the two sources it is. -/
inductive FOperation {K : Type} (cmp scmp : K → K → Ordering) (L : Type)
  | overwrite (fromUser : Bool) (path : List K) (snap : Node cmp L)
  | merge (fromUser : Bool) (path : List K) (children : FCompoundWrite cmp scmp L)
  | ackUserWrite (path : List K) (affectedTree : FImmutableTree K Unit) (revert : Bool)
  | listenComplete (path : List K)

/-- The writes of a tree, seen from the path of a view. -/
structure FWriteTreeRef {K : Type} (cmp scmp : K → K → Ordering) (L : Type) where
  path : List K
  writeTree : FWriteTree cmp scmp L

namespace FWriteTreeRef

section Operations

variable [DecidableEq K]

def shadowingWriteAtPath (w : FWriteTreeRef cmp scmp L) (path : List K) : Option (Node cmp L) :=
  w.writeTree.shadowingWriteAtPath (w.path ++ path)

variable [TransCmp cmp] [TransCmp scmp] [LawfulEqCmp scmp]

def calculateCompleteEventCache (w : FWriteTreeRef cmp scmp L)
    (completeServerCache : Option (Node cmp L)) : Option (Node cmp L) :=
  w.writeTree.calculateCompleteEventCacheAtPath w.path completeServerCache none false

def calculateCompleteEventChildren (w : FWriteTreeRef cmp scmp L)
    (completeServerChildren : Node cmp L) : Node cmp L :=
  w.writeTree.calculateCompleteEventChildrenAtPath w.path completeServerChildren

def calculateEventCacheAfterServerOverwrite (w : FWriteTreeRef cmp scmp L) (childPath : List K)
    (existingServerSnap : Node cmp L) : Option (Node cmp L) :=
  w.writeTree.calculateEventCacheAfterServerOverwriteAtPath w.path childPath existingServerSnap

/-- `calculateCompleteChild:cache:`, with `calculateCompleteChildAtPath:childKey:cache:` of the
write tree. -/
def calculateCompleteChild (w : FWriteTreeRef cmp scmp L) (childKey : K)
    (existingServerCache : FCacheNode cmp L) : Option (Node cmp L) :=
  let path := w.path ++ [childKey]
  match w.writeTree.visibleWrites.completeNodeAtPath path with
  | some shadowingNode => some shadowingNode
  | none =>
    if existingServerCache.isCompleteForChild childKey then
      let childMerge := w.writeTree.visibleWrites.childCompoundWriteAtPath path
      some (childMerge.applyToNode (existingServerCache.node.getImmediateChild childKey))
    else none

/-- `completeChild:` of a source that uses the writes, the event cache and the data of the
server. -/
def completeChild (w : FWriteTreeRef cmp scmp L) (viewCache : FViewCache cmp L)
    (optCompleteServerCache : Option (Node cmp L)) (childKey : K) : Option (Node cmp L) :=
  let node := viewCache.cachedEventSnap
  if node.isCompleteForChild childKey then some (node.node.getImmediateChild childKey)
  else
    let serverNode :=
      match optCompleteServerCache with
      | some cache => ⟨cache, true⟩
      | none => viewCache.cachedServerSnap
    w.calculateCompleteChild childKey serverNode

end Operations

end FWriteTreeRef

/-- `FChange`: of a child, or of the value as a whole. -/
inductive FChange {K : Type} (cmp : K → K → Ordering) (L : Type)
  | child (childKey : K) (change : ChildChange cmp L)
  | value (node : Node cmp L)

namespace FViewProcessor

open FIndexedFilter FChildChangeAccumulator

/-- The caches after an operation, and the changes that it tracks. -/
abbrev Processed {K : Type} (cmp : K → K → Ordering) (L : Type) : Type :=
  FViewCache cmp L × List (K × ChildChange cmp L)

/-- `maybeAddValueFromOldViewCache:newViewCache:changes:`. -/
def maybeAddValue [TransCmp cmp] [LawfulEqCmp cmp] [DecidableEq L]
    (oldViewCache newViewCache : FViewCache cmp L) (changes : List (FChange cmp L)) :
    List (FChange cmp L) :=
  let eventSnap := newViewCache.cachedEventSnap
  if eventSnap.isFullyInitialized then
    let isLeafOrEmpty := eventSnap.node.isLeafNode || eventSnap.node.isEmpty
    if !changes.isEmpty || !oldViewCache.cachedEventSnap.isFullyInitialized ||
        (isLeafOrEmpty && oldViewCache.completeEventSnap ≠ some eventSnap.node) then
      changes ++ [.value eventSnap.node]
    else changes
  else changes

section Operations

variable [DecidableEq K] [TransCmp cmp] [LawfulEqCmp cmp] [TransCmp scmp] [LawfulEqCmp scmp]
  [DecidableEq L]

/-- What an event of the server makes of a child of the event cache: the child with the update that
the writes leave of it, or the child as the writes and the server complete it. -/
def newEventChild (viewCache : FViewCache cmp L) (childKey : K) (childChangePath : List K)
    (writesCache : FWriteTreeRef cmp scmp L) : Option (Node cmp L) :=
  let oldEventSnap := viewCache.cachedEventSnap
  if oldEventSnap.isCompleteForChild childKey then
    match writesCache.calculateEventCacheAfterServerOverwrite (childKey :: childChangePath)
        viewCache.cachedServerSnap.node with
    | some eventChildUpdate =>
      some ((oldEventSnap.node.getImmediateChild childKey).updateChild childChangePath
        eventChildUpdate)
    | none => some (oldEventSnap.node.getImmediateChild childKey)
  else writesCache.calculateCompleteChild childKey viewCache.cachedServerSnap

/-- At an empty path the cache of the server is complete, as an assertion of the source demands:
both callers see to it. Then the event cache exists. -/
def generateEventCacheAfterServerEvent (viewCache : FViewCache cmp L) (changePath : List K)
    (writesCache : FWriteTreeRef cmp scmp L) : Processed cmp L :=
  let oldEventSnap := viewCache.cachedEventSnap
  if (writesCache.shadowingWriteAtPath changePath).isSome then (viewCache, [])
  else
    let (newEventCache, tracked) :=
      match changePath with
      | [] =>
        let nodeWithLocalWrites :=
          (writesCache.calculateCompleteEventCache viewCache.completeServerSnap).getD Node.empty
        updateFullNode oldEventSnap.node nodeWithLocalWrites
      | childKey :: childChangePath =>
        match newEventChild viewCache childKey childChangePath writesCache with
        | some newEventChild =>
          updateChildIn oldEventSnap.node childKey newEventChild childChangePath
        | none => (oldEventSnap.node, [])
    (viewCache.updateEventSnap newEventCache
      (oldEventSnap.isFullyInitialized || changePath.isEmpty), tracked)

def applyServerOverwriteTo (oldViewCache : FViewCache cmp L) (changePath : List K)
    (changedSnap : Node cmp L) (writesCache : FWriteTreeRef cmp scmp L) : Processed cmp L :=
  let oldServerSnap := oldViewCache.cachedServerSnap
  let generate (newServerCache : Node cmp L) : Processed cmp L :=
    let newViewCache := oldViewCache.updateServerSnap newServerCache
      (oldServerSnap.isFullyInitialized || changePath.isEmpty)
    generateEventCacheAfterServerEvent newViewCache changePath writesCache
  match changePath with
  | [] => generate (updateFullNode oldServerSnap.node changedSnap).1
  | childKey :: childChangePath =>
    if !oldServerSnap.isCompleteForPath changePath && !childChangePath.isEmpty then
      -- an update that is meant for another listener
      (oldViewCache, [])
    else
      let childNode := oldServerSnap.node.getImmediateChild childKey
      let newChildNode := childNode.updateChild childChangePath changedSnap
      generate (updateChildIn oldServerSnap.node childKey newChildNode childChangePath).1

/-- The child that an overwrite of the user puts. -/
def newUserChild (oldViewCache : FViewCache cmp L) (childKey : K) (childChangePath : List K)
    (changedSnap : Node cmp L) (writesCache : FWriteTreeRef cmp scmp L)
    (optCompleteCache : Option (Node cmp L)) : Node cmp L :=
  if childChangePath.isEmpty then changedSnap
  else
    match writesCache.completeChild oldViewCache optCompleteCache childKey with
    | some childNode => childNode.updateChild childChangePath changedSnap
    | none => Node.empty

def applyUserOverwriteTo (oldViewCache : FViewCache cmp L) (changePath : List K)
    (changedSnap : Node cmp L) (writesCache : FWriteTreeRef cmp scmp L)
    (optCompleteCache : Option (Node cmp L)) : Processed cmp L :=
  let oldEventSnap := oldViewCache.cachedEventSnap
  match changePath with
  | [] =>
    let (newEventCache, tracked) := updateFullNode oldEventSnap.node changedSnap
    (oldViewCache.updateEventSnap newEventCache true, tracked)
  | childKey :: childChangePath =>
    let oldChild := oldEventSnap.node.getImmediateChild childKey
    let newChild :=
      newUserChild oldViewCache childKey childChangePath changedSnap writesCache optCompleteCache
    if oldChild = newChild then (oldViewCache, [])
    else
      let (newEventSnap, tracked) :=
        updateChildIn oldEventSnap.node childKey newChild childChangePath
      (oldViewCache.updateEventSnap newEventSnap oldEventSnap.isFullyInitialized, tracked)

/-- `cache:hasChild:`, at the front of a path. -/
def cacheHasChild (viewCache : FViewCache cmp L) : List K → Bool
  | [] => viewCache.cachedEventSnap.isFullyInitialized
  | childKey :: _ => viewCache.cachedEventSnap.isCompleteForChild childKey

/-- The children in view are written first. -/
def applyUserMergeTo (viewCache : FViewCache cmp L) (path : List K)
    (changedChildren : FCompoundWrite cmp scmp L) (writesCache : FWriteTreeRef cmp scmp L)
    (serverCache : Option (Node cmp L)) : Processed cmp L :=
  let (inView, others) := changedChildren.writes.partition
    (fun pv => cacheHasChild viewCache (path ++ pv.1))
  (inView ++ others).foldl (fun cur pv =>
    let (curViewCache, tracked) :=
      applyUserOverwriteTo cur.1 (path ++ pv.1) pv.2 writesCache serverCache
    (curViewCache, cur.2 ++ tracked)) (viewCache, [])

/-- The merge as the view sees it. -/
def actualMerge (path : List K) (changedChildren : FCompoundWrite cmp scmp L) :
    FCompoundWrite cmp scmp L :=
  if path.isEmpty then changedChildren
  else FCompoundWrite.emptyWrite.addCompoundWrite changedChildren path

/-- The children that the server knows are merged first. -/
def applyServerMergeTo (viewCache : FViewCache cmp L) (path : List K)
    (changedChildren : FCompoundWrite cmp scmp L) (writesCache : FWriteTreeRef cmp scmp L) :
    Processed cmp L :=
  let serverSnap := viewCache.cachedServerSnap
  if serverSnap.node.isEmpty && !serverSnap.isFullyInitialized then (viewCache, [])
  else
    let (known, others) := (actualMerge path changedChildren).childCompoundWrites.partition
      (fun child => serverSnap.node.hasChild child.1)
    let isUnknownDeepMerge (child : K × FCompoundWrite cmp scmp L) : Bool :=
      !serverSnap.isCompleteForChild child.1 && child.2.rootWrite.isNone
    (known ++ others.filter (fun child => !isUnknownDeepMerge child)).foldl (fun cur child =>
      let newChild := child.2.applyToNode (serverSnap.node.getImmediateChild child.1)
      let (curViewCache, tracked) := applyServerOverwriteTo cur.1 [child.1] newChild writesCache
      (curViewCache, cur.2 ++ tracked)) (viewCache, [])

/-- The data of the server on the affected paths is applied again, now that the write does not
shadow it. -/
def ackUserWriteOn (viewCache : FViewCache cmp L) (ackPath : List K)
    (affectedTree : FImmutableTree K Unit) (writesCache : FWriteTreeRef cmp scmp L) :
    Processed cmp L :=
  if (writesCache.shadowingWriteAtPath ackPath).isSome then (viewCache, [])
  else
    let serverCache := viewCache.cachedServerSnap
    if affectedTree.value.isSome then
      if serverCache.isCompleteForPath ackPath then
        applyServerOverwriteTo viewCache ackPath (serverCache.node.getChild ackPath) writesCache
      else if ackPath.isEmpty then
        let changedChildren := serverCache.node.children.foldl
          (fun changedChildren child => changedChildren.addWrite child.2 [child.1])
          FCompoundWrite.emptyWrite
        applyServerMergeTo viewCache ackPath changedChildren writesCache
      else (viewCache, [])
    else
      let changedChildren := affectedTree.forEach.foldl (fun changedChildren affected =>
        let serverCachePath := ackPath ++ affected.1
        if serverCache.isCompleteForPath serverCachePath then
          changedChildren.addWrite (serverCache.node.getChild serverCachePath) affected.1
        else changedChildren) FCompoundWrite.emptyWrite
      applyServerMergeTo viewCache ackPath changedChildren writesCache

/-- The child that a reverted write leaves: as the writes and the server complete it, or gone. -/
def revertChild (viewCache : FViewCache cmp L) (childKey : K) (affectedPath : List K)
    (writesCache : FWriteTreeRef cmp scmp L) : Node cmp L × List (K × ChildChange cmp L) :=
  let oldEventCache := viewCache.cachedEventSnap.node
  let serverSnap := viewCache.cachedServerSnap
  let newChild := (writesCache.calculateCompleteChild childKey serverSnap).or
    (if serverSnap.isCompleteForChild childKey then
      some (oldEventCache.getImmediateChild childKey) else none)
  match newChild with
  | some newChild => updateChildIn oldEventCache childKey newChild affectedPath
  | none =>
    if oldEventCache.hasChild childKey then
      updateChildIn oldEventCache childKey Node.empty affectedPath
    else (oldEventCache, [])

def revertUserWriteOn (viewCache : FViewCache cmp L) (path : List K)
    (writesCache : FWriteTreeRef cmp scmp L) : Processed cmp L :=
  if (writesCache.shadowingWriteAtPath path).isSome then (viewCache, [])
  else
    let oldEventCache := viewCache.cachedEventSnap.node
    let serverSnap := viewCache.cachedServerSnap
    let (newEventCache, tracked) :=
      match path with
      | [] =>
        let newNode :=
          if serverSnap.isFullyInitialized then
            (writesCache.calculateCompleteEventCache viewCache.completeServerSnap).getD Node.empty
          else writesCache.calculateCompleteEventChildren serverSnap.node
        updateFullNode oldEventCache newNode
      | childKey :: affectedPath =>
        let (newEventCache, tracked) := revertChild viewCache childKey affectedPath writesCache
        if newEventCache.isEmpty && serverSnap.isFullyInitialized then
          -- the old event may have been a leaf
          let complete :=
            (writesCache.calculateCompleteEventCache viewCache.completeServerSnap).getD Node.empty
          if complete.isLeafNode then
            let (newEventCache, tracked') := updateFullNode newEventCache complete
            (newEventCache, tracked ++ tracked')
          else (newEventCache, tracked)
        else (newEventCache, tracked)
    let complete := serverSnap.isFullyInitialized || (writesCache.shadowingWriteAtPath []).isSome
    (viewCache.updateEventSnap newEventCache complete, tracked)

def listenCompleteOldCache (viewCache : FViewCache cmp L) (path : List K)
    (writesCache : FWriteTreeRef cmp scmp L) : Processed cmp L :=
  let oldServerNode := viewCache.cachedServerSnap
  let newViewCache := viewCache.updateServerSnap oldServerNode.node
    (oldServerNode.isFullyInitialized || path.isEmpty)
  generateEventCacheAfterServerEvent newViewCache path writesCache

/-- What `applyOperationOn:` does for each kind of operation. -/
def process (oldViewCache : FViewCache cmp L) (operation : FOperation cmp scmp L)
    (writesCache : FWriteTreeRef cmp scmp L) (optCompleteCache : Option (Node cmp L)) :
    Processed cmp L :=
  match operation with
  | .overwrite true path snap =>
    applyUserOverwriteTo oldViewCache path snap writesCache optCompleteCache
  | .overwrite false path snap => applyServerOverwriteTo oldViewCache path snap writesCache
  | .merge true path children =>
    applyUserMergeTo oldViewCache path children writesCache optCompleteCache
  | .merge false path children => applyServerMergeTo oldViewCache path children writesCache
  | .ackUserWrite path affectedTree false =>
    ackUserWriteOn oldViewCache path affectedTree writesCache
  | .ackUserWrite path _ true => revertUserWriteOn oldViewCache path writesCache
  | .listenComplete path => listenCompleteOldCache oldViewCache path writesCache

/-- Nothing where the accumulator throws. -/
def applyOperationOn (oldViewCache : FViewCache cmp L) (operation : FOperation cmp scmp L)
    (writesCache : FWriteTreeRef cmp scmp L) (optCompleteCache : Option (Node cmp L)) :
    Option (FViewCache cmp L × List (FChange cmp L)) :=
  let (newViewCache, tracked) := process oldViewCache operation writesCache optCompleteCache
  (trackChanges [] tracked).map fun changes =>
    (newViewCache, maybeAddValue oldViewCache newViewCache
      (changes.map (fun e => .child e.1 e.2)))

end Operations

/-! ## The changes of an operation -/

section Changes

variable [DecidableEq K] [TransCmp cmp] [LawfulEqCmp cmp] [TransCmp scmp] [LawfulEqCmp scmp]
  [DecidableEq L]

/-- The tracked changes lead from the children of the old event cache to those of the new one. -/
def Told (old : FViewCache cmp L) (r : Processed cmp L) : Prop :=
  Leads old.cachedEventSnap.node.getImmediateChild r.2
    r.1.cachedEventSnap.node.getImmediateChild

omit [LawfulEqCmp cmp] [DecidableEq L] [TransCmp cmp] in
theorem told_same (v : FViewCache cmp L) : Told v (v, []) := rfl

omit [TransCmp cmp] [LawfulEqCmp cmp] [DecidableEq L] in
/-- Steps that tell of their changes tell of them all, one after the other. -/
theorem told_foldl {A : Type} {f : FViewCache cmp L → A → Processed cmp L}
    (hf : ∀ v a, Told v (f v a)) (l : List A) (cur : Processed cmp L) {old : FViewCache cmp L}
    (h : Told old cur) :
    Told old (l.foldl (fun cur a => ((f cur.1 a).1, cur.2 ++ (f cur.1 a).2)) cur) := by
  induction l generalizing cur with
  | nil => exact h
  | cons a l ih => exact ih _ (h.append (hf cur.1 a))

theorem told_generate (viewCache : FViewCache cmp L) (changePath : List K)
    (writesCache : FWriteTreeRef cmp scmp L) :
    Told viewCache (generateEventCacheAfterServerEvent viewCache changePath writesCache) := by
  unfold generateEventCacheAfterServerEvent
  split
  · exact told_same viewCache
  · unfold Told
    cases changePath with
    | nil => exact leads_updateFullNode _ _
    | cons childKey childChangePath =>
      dsimp only
      split
      · exact leads_updateChildIn _ _ _ _
      · rfl

/-- A new server cache alone changes no child of the event cache. -/
theorem told_generate_updateServerSnap (viewCache : FViewCache cmp L) (serverSnap : Node cmp L)
    (complete : Bool) (changePath : List K) (writesCache : FWriteTreeRef cmp scmp L) :
    Told viewCache (generateEventCacheAfterServerEvent
      (viewCache.updateServerSnap serverSnap complete) changePath writesCache) :=
  told_generate (viewCache.updateServerSnap serverSnap complete) changePath writesCache

theorem told_applyServerOverwriteTo (viewCache : FViewCache cmp L) (changePath : List K)
    (changedSnap : Node cmp L) (writesCache : FWriteTreeRef cmp scmp L) :
    Told viewCache (applyServerOverwriteTo viewCache changePath changedSnap writesCache) := by
  unfold applyServerOverwriteTo
  cases changePath with
  | nil => exact told_generate_updateServerSnap viewCache _ _ _ writesCache
  | cons childKey childChangePath =>
    dsimp only
    split
    · exact told_same viewCache
    · exact told_generate_updateServerSnap viewCache _ _ _ writesCache

omit [TransCmp scmp] [LawfulEqCmp scmp] in
theorem told_applyUserOverwriteTo (viewCache : FViewCache cmp L) (changePath : List K)
    (changedSnap : Node cmp L) (writesCache : FWriteTreeRef cmp scmp L)
    (optCompleteCache : Option (Node cmp L)) :
    Told viewCache
      (applyUserOverwriteTo viewCache changePath changedSnap writesCache optCompleteCache) := by
  unfold applyUserOverwriteTo
  cases changePath with
  | nil => exact leads_updateFullNode _ _
  | cons childKey childChangePath =>
    dsimp only
    split
    · exact told_same viewCache
    · exact leads_updateChildIn _ _ _ _

theorem told_applyServerMergeTo (viewCache : FViewCache cmp L) (path : List K)
    (changedChildren : FCompoundWrite cmp scmp L) (writesCache : FWriteTreeRef cmp scmp L) :
    Told viewCache (applyServerMergeTo viewCache path changedChildren writesCache) := by
  unfold applyServerMergeTo
  dsimp only
  split
  · exact told_same viewCache
  · exact told_foldl (f := fun v (child : K × FCompoundWrite cmp scmp L) =>
      applyServerOverwriteTo v [child.1] (child.2.applyToNode
        (viewCache.cachedServerSnap.node.getImmediateChild child.1)) writesCache)
      (fun v child => told_applyServerOverwriteTo v _ _ _) _ _ (told_same viewCache)

theorem told_ackUserWriteOn (viewCache : FViewCache cmp L) (ackPath : List K)
    (affectedTree : FImmutableTree K Unit) (writesCache : FWriteTreeRef cmp scmp L) :
    Told viewCache (ackUserWriteOn viewCache ackPath affectedTree writesCache) := by
  unfold ackUserWriteOn
  split
  · exact told_same viewCache
  · dsimp only
    split
    · split
      · exact told_applyServerOverwriteTo _ _ _ _
      · split
        · exact told_applyServerMergeTo _ _ _ _
        · exact told_same viewCache
    · exact told_applyServerMergeTo _ _ _ _

omit [TransCmp scmp] [LawfulEqCmp scmp] in
theorem leads_revertChild (viewCache : FViewCache cmp L) (childKey : K) (affectedPath : List K)
    (writesCache : FWriteTreeRef cmp scmp L) :
    Leads viewCache.cachedEventSnap.node.getImmediateChild
      (revertChild viewCache childKey affectedPath writesCache).2
      (revertChild viewCache childKey affectedPath writesCache).1.getImmediateChild := by
  unfold revertChild
  dsimp only
  split
  · exact leads_updateChildIn _ _ _ _
  · split
    · exact leads_updateChildIn _ _ _ _
    · rfl

theorem told_revertUserWriteOn (viewCache : FViewCache cmp L) (path : List K)
    (writesCache : FWriteTreeRef cmp scmp L) :
    Told viewCache (revertUserWriteOn viewCache path writesCache) := by
  unfold revertUserWriteOn
  split
  · exact told_same viewCache
  · unfold Told
    cases path with
    | nil => exact leads_updateFullNode _ _
    | cons childKey affectedPath =>
      have hleads := leads_revertChild viewCache childKey affectedPath writesCache
      dsimp only
      split
      · split
        · exact hleads.append (leads_updateFullNode _ _)
        · exact hleads
      · exact hleads

theorem told_process (viewCache : FViewCache cmp L) (operation : FOperation cmp scmp L)
    (writesCache : FWriteTreeRef cmp scmp L) (optCompleteCache : Option (Node cmp L)) :
    Told viewCache (process viewCache operation writesCache optCompleteCache) := by
  cases operation with
  | overwrite fromUser path snap =>
    cases fromUser with
    | true => exact told_applyUserOverwriteTo _ _ _ _ _
    | false => exact told_applyServerOverwriteTo _ _ _ _
  | merge fromUser path children =>
    cases fromUser with
    | true =>
      exact told_foldl (f := fun v (pv : List K × Node cmp L) =>
        applyUserOverwriteTo v (path ++ pv.1) pv.2 writesCache optCompleteCache)
        (fun v pv => told_applyUserOverwriteTo v _ _ _ _) _ _ (told_same viewCache)
    | false => exact told_applyServerMergeTo _ _ _ _
  | ackUserWrite path affectedTree revert =>
    cases revert with
    | true => exact told_revertUserWriteOn _ _ _
    | false => exact told_ackUserWriteOn _ _ _ _
  | listenComplete path => exact told_generate_updateServerSnap viewCache _ _ _ writesCache

omit [DecidableEq K] in
/-- A change of the value is added to the changes of children, and where the complete value is
another one, or a first one. -/
theorem maybeAddValue_eq {old new : FViewCache cmp L} {changeMap : List (K × ChildChange cmp L)}
    (h : Differs old.cachedEventSnap.node.getImmediateChild changeMap
      new.cachedEventSnap.node.getImmediateChild) :
    maybeAddValue old new (changeMap.map (fun e => .child e.1 e.2)) =
      changeMap.map (fun e => .child e.1 e.2) ++
        (if new.completeEventSnap = none ∨
            (changeMap = [] ∧ new.completeEventSnap = old.completeEventSnap) then []
          else [.value new.cachedEventSnap.node]) := by
  obtain ⟨⟨oldNode, oldComplete⟩, oldServer⟩ := old
  obtain ⟨⟨newNode, newComplete⟩, newServer⟩ := new
  unfold maybeAddValue FViewCache.completeEventSnap
  cases newComplete with
  | false => simp
  | true =>
    cases oldComplete with
    | false => simp
    | true =>
      cases changeMap with
      | cons e changeMap => simp
      | nil =>
        have hchildren : oldNode.getImmediateChild = newNode.getImmediateChild := by
          funext k
          exact h.same k (by simp)
        by_cases hsame : oldNode = newNode
        · simp [hsame]
        · -- a node with children would be the old one
          have hplain : newNode.isLeafNode = true ∨ newNode.isEmpty = true := by
            by_contra hnot
            push Not at hnot
            exact hsame (Node.eq_of_children hchildren (Bool.eq_false_iff.mpr hnot.1)
              (Bool.eq_false_iff.mpr hnot.2))
          simp [hsame, Ne.symm hsame, hplain]

/-- Whatever the operation is, its changes are drawn together without an exception: at most one
for each child, from its old value to its new one, and one of the whole value unless the view is
incomplete or nothing has changed. -/
theorem changes_of_operation (old : FViewCache cmp L) (operation : FOperation cmp scmp L)
    (writesCache : FWriteTreeRef cmp scmp L) (optCompleteCache : Option (Node cmp L)) :
    ∃ changeMap, applyOperationOn old operation writesCache optCompleteCache =
        some ((process old operation writesCache optCompleteCache).1,
          changeMap.map (fun e => .child e.1 e.2) ++
            (if (process old operation writesCache optCompleteCache).1.completeEventSnap = none ∨
                (changeMap = [] ∧ (process old operation writesCache
                  optCompleteCache).1.completeEventSnap = old.completeEventSnap) then []
              else [.value (process old operation writesCache
                optCompleteCache).1.cachedEventSnap.node])) ∧
      Differs old.cachedEventSnap.node.getImmediateChild changeMap
        (process old operation writesCache
          optCompleteCache).1.cachedEventSnap.node.getImmediateChild := by
  have htold := told_process old operation writesCache optCompleteCache
  obtain ⟨changeMap, htracks, hdiffers⟩ := (differs_nil _).trackChanges htold
  refine ⟨changeMap, ?_, hdiffers⟩
  unfold applyOperationOn
  simp only [htracks, Option.map_some, maybeAddValue_eq hdiffers]

end Changes

end FViewProcessor

end HateBlocker
