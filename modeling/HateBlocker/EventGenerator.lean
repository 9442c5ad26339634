-- `FEventGenerator` and `FView`: the changes of a view become the events of its listeners. A
-- listener that puts each child behind the one that its event names holds the children of the
-- event cache, in their order.
import HateBlocker.TreeBuilder
import HateBlocker.ViewCaches
import HateBlocker.Runs
import Mathlib.Data.List.Infix

open Std Runs

namespace HateBlocker

variable {K L : Type} {cmp scmp : K → K → Ordering}

/-! ## Registrations and events -/

inductive FIRDataEventType
  | childAdded
  | childRemoved
  | childChanged
  | childMoved
  | value
  deriving DecidableEq

/-- `FChildEventRegistration` has callbacks for some types of events. -/
inductive FEventRegistration
  | child (handle : ℕ) (callbacks : List FIRDataEventType)
  | value (handle : ℕ)
  deriving DecidableEq, Inhabited

/-- The path of the snapshot's reference, and its node, are all there is to the snapshot. -/
structure FDataEvent {K : Type} (cmp : K → K → Ordering) (L : Type) where
  eventType : FIRDataEventType
  eventRegistration : FEventRegistration
  ref : List K
  node : Node cmp L
  prevName : Option K

/-- The path of the view: a child's snapshot is one below. -/
def FDataEvent.path (event : FDataEvent cmp L) : List K :=
  if event.eventType = .value then event.ref else event.ref.dropLast

namespace ChildChange

def type : ChildChange cmp L → FIRDataEventType
  | childAdded _ => .childAdded
  | childRemoved _ => .childRemoved
  | childChanged _ _ => .childChanged

/-- The node of the change: what is there now, or was until now. -/
def node : ChildChange cmp L → Node cmp L
  | childAdded node => node
  | childRemoved node => node
  | childChanged node _ => node

end ChildChange

namespace FChange

def type : FChange cmp L → FIRDataEventType
  | child _ change => change.type
  | value _ => .value

def childKey : FChange cmp L → Option K
  | child key _ => some key
  | value _ => none

def node : FChange cmp L → Node cmp L
  | child _ change => change.node
  | value node => node

end FChange

namespace FEventRegistration

def responseTo (eventType : FIRDataEventType) : FEventRegistration → Bool
  | child _ callbacks => callbacks.contains eventType
  | value _ => eventType = .value

def handle : FEventRegistration → ℕ
  | child handle _ => handle
  | value handle => handle

/-- The handle that stands for all of them. -/
def NSNotFound : ℕ := 2 ^ 63 - 1

/-- `matches:`. -/
def matchesRegistration (existing other : FEventRegistration) : Bool :=
  existing.handle = NSNotFound || other.handle = NSNotFound || existing.handle = other.handle

/-- `createEventFrom:query:`, for the query at a path. -/
def createEventFrom (change : FChange cmp L) (prevKey : Option K) (path : List K) :
    FEventRegistration → FDataEvent cmp L
  | child handle callbacks =>
    ⟨change.type, child handle callbacks, path ++ change.childKey.toList, change.node, prevKey⟩
  | value handle => ⟨.value, value handle, path, change.node, none⟩

@[simp] theorem eventRegistration_createEventFrom (change : FChange cmp L) (prevKey : Option K)
    (path : List K) (r : FEventRegistration) :
    (r.createEventFrom change prevKey path).eventRegistration = r := by
  cases r <;> rfl

end FEventRegistration

/-! ## Generating events -/

namespace FEventGenerator

/-- `predecessorForChildKey:childNode:index:`, where no child has a priority: the dictionary of the
children throws on a key that it does not have. -/
def predecessorForChildKey (eventCache : Node cmp L) (childKey : K) : Option (Option K) :=
  if eventCache.isLeafNode then some none
  else if (Entries.find cmp childKey eventCache.children).isSome then
    some ((Entries.below cmp childKey eventCache.children).getLast?.map Prod.fst)
  else none

def comparator : FChange cmp L → FChange cmp L → Bool
  | .child one _, .child two _ => (cmp one two).isLE
  | _, _ => true

/-- The changes of a type in the order of their keys. Comparing a change without a key throws. -/
def sortedChanges (eventType : FIRDataEventType) (changes : List (FChange cmp L)) :
    Option (List (FChange cmp L)) :=
  let filteredChanges := changes.filter (fun change => change.type = eventType)
  if 2 ≤ filteredChanges.length && filteredChanges.any (fun change => change.childKey.isNone) then
    none
  else some (filteredChanges.mergeSort comparator)

def generateEventForChange (path : List K) (eventCache : Node cmp L) (change : FChange cmp L)
    (registration : FEventRegistration) : Option (FDataEvent cmp L) :=
  match change.type, change.childKey with
  | .childAdded, some childKey | .childChanged, some childKey | .childMoved, some childKey =>
    (predecessorForChildKey eventCache childKey).map
      (fun prevChildKey => registration.createEventFrom change prevChildKey path)
  | _, _ => some (registration.createEventFrom change none path)

def generateEventsForType (path : List K) (eventCache : Node cmp L)
    (registrations : List FEventRegistration) (changes : List (FChange cmp L))
    (eventType : FIRDataEventType) : Option (List (FDataEvent cmp L)) :=
  (sortedChanges eventType changes).bind fun filteredChanges =>
    (filteredChanges.flatMap fun change =>
      (registrations.filter (fun registration => registration.responseTo eventType)).map
        (fun registration => (change, registration))).mapM
      (fun cr => generateEventForChange path eventCache cr.1 cr.2)

/-- Nothing where a step throws. Without priorities no child moves. -/
def generateEventsForChanges (path : List K) (changes : List (FChange cmp L))
    (eventCache : Node cmp L) (registrations : List FEventRegistration) :
    Option (List (FDataEvent cmp L)) :=
  let generate := generateEventsForType path eventCache registrations
  let moves : List (FChange cmp L) := []
  (generate changes .childRemoved).bind fun removed =>
  (generate changes .childAdded).bind fun added =>
  (generate moves .childMoved).bind fun moved =>
  (generate changes .childChanged).bind fun changed =>
  (generate changes .value).map fun value =>
    removed ++ added ++ moved ++ changed ++ value

end FEventGenerator

/-! ## Views -/

/-- A view of the default query at a path. -/
structure FView {K : Type} (cmp : K → K → Ordering) (L : Type) where
  path : List K
  viewCache : FViewCache cmp L
  eventRegistrations : List FEventRegistration

namespace FView

def initWithQuery [TransCmp cmp] [LawfulEqCmp cmp] [DecidableEq L] (path : List K)
    (initialViewCache : FViewCache cmp L) : FView cmp L :=
  let initialServerCache := initialViewCache.cachedServerSnap
  let initialEventCache := initialViewCache.cachedEventSnap
  let serverSnap := (FIndexedFilter.updateFullNode Node.empty initialServerCache.node).1
  let eventSnap := (FIndexedFilter.updateFullNode Node.empty initialEventCache.node).1
  { path
    viewCache := ⟨⟨eventSnap, initialEventCache.isFullyInitialized⟩,
      ⟨serverSnap, initialServerCache.isFullyInitialized⟩⟩
    eventRegistrations := [] }

/-- The default query loads all data. -/
def completeServerCacheFor (view : FView cmp L) (path : List K) : Option (Node cmp L) :=
  view.viewCache.completeServerSnap.map (fun cache => cache.getChild path)

def addEventRegistration (view : FView cmp L) (eventRegistration : FEventRegistration) :
    FView cmp L :=
  { view with eventRegistrations := view.eventRegistrations ++ [eventRegistration] }

def applyOperation [DecidableEq K] [TransCmp cmp] [LawfulEqCmp cmp] [TransCmp scmp]
    [LawfulEqCmp scmp] [DecidableEq L] (view : FView cmp L) (operation : FOperation cmp scmp L)
    (writesCache : FWriteTreeRef cmp scmp L) (optCompleteServerCache : Option (Node cmp L)) :
    Option (FView cmp L × List (FDataEvent cmp L)) :=
  (FViewProcessor.applyOperationOn view.viewCache operation writesCache
    optCompleteServerCache).bind fun (viewCache, changes) =>
      -- Once the data of the server are complete, they stay so.
      if viewCache.cachedServerSnap.isFullyInitialized ||
          !view.viewCache.cachedServerSnap.isFullyInitialized then
        (FEventGenerator.generateEventsForChanges view.path changes viewCache.cachedEventSnap.node
          view.eventRegistrations).map fun events => ({ view with viewCache }, events)
      else none

/-- The children of the event cache as added ones, and its value when it is complete. -/
def initialChanges (view : FView cmp L) : List (FChange cmp L) :=
  let eventSnap := view.viewCache.cachedEventSnap
  eventSnap.node.children.map (fun child => .child child.1 (.childAdded child.2)) ++
    (if eventSnap.isFullyInitialized then [.value eventSnap.node] else [])

def initialEvents (view : FView cmp L) (registration : FEventRegistration) :
    Option (List (FDataEvent cmp L)) :=
  FEventGenerator.generateEventsForChanges view.path view.initialChanges
    view.viewCache.cachedEventSnap.node [registration]

end FView

/-! ## A listener that keeps the children -/

namespace FDataEvent

/-- The children with the event, each new one behind the one that the event names. Nothing where the
event does not fit: a child is added while it is absent, and changed or removed while it is
present; a removal carries the last value. -/
def hear [DecidableEq K] [TransCmp cmp] [LawfulEqCmp cmp] [DecidableEq L]
    (shown : List (K × Node cmp L)) (event : FDataEvent cmp L) : Option (List (K × Node cmp L)) :=
  match event.eventType, event.ref.getLast? with
  | .childAdded, some key =>
    if key ∈ shown.map Prod.fst then none
    else Entries.insertAfter event.prevName (key, event.node) shown
  | .childChanged, some key =>
    if key ∈ shown.map Prod.fst then
      Entries.insertAfter event.prevName (key, event.node) (Entries.erase cmp key shown)
    else none
  | .childRemoved, some key =>
    if (key, event.node) ∈ shown then some (Entries.erase cmp key shown) else none
  | _, _ => some shown

end FDataEvent

/-- The last value that a listener has heard. -/
def FDataEvent.hearValue (shown : Option (Node cmp L)) (event : FDataEvent cmp L) :
    Option (Node cmp L) :=
  if event.eventType = .value then some event.node else shown

/-- The children in order, with their nodes. -/
structure Holds (shown : List (K × Node cmp L)) (f : K → Node cmp L) : Prop where
  sorted : Entries.Sorted cmp shown
  mem : ∀ k m, (k, m) ∈ shown ↔ f k = m ∧ m.isEmpty = false

section Listening

variable [TransCmp cmp] [LawfulEqCmp cmp] {shown : List (K × Node cmp L)} {f g : K → Node cmp L}

theorem holds_children (n : Node cmp L) : Holds n.children n.getImmediateChild :=
  ⟨n.sorted_children, fun _ _ => Node.mem_children⟩

omit [LawfulEqCmp cmp] in
/-- The order leaves a listener no choice. -/
theorem Holds.eq {other : List (K × Node cmp L)} (h : Holds shown f) (ho : Holds other f) :
    shown = other := by
  refine h.sorted.eq_of_perm ho.sorted ?_
  rw [List.perm_ext_iff_of_nodup h.sorted.nodup ho.sorted.nodup]
  rintro ⟨k, m⟩
  rw [h.mem, ho.mem]

omit [TransCmp cmp] [LawfulEqCmp cmp] in
theorem Holds.mem_keys (h : Holds shown f) {k : K} :
    k ∈ shown.map Prod.fst ↔ (f k).isEmpty = false := by
  rw [List.mem_map]
  constructor
  · rintro ⟨⟨l, m⟩, hm, rfl⟩
    obtain ⟨rfl, hne⟩ := (h.mem l m).mp hm
    exact hne
  · intro hne
    exact ⟨(k, f k), (h.mem k (f k)).mpr ⟨rfl, hne⟩, rfl⟩

variable [DecidableEq K]

theorem Holds.put (h : Holds shown f) (k : K) {m : Node cmp L} (hm : m.isEmpty = false) :
    Holds (Entries.put cmp (fun k _ => k) k m shown) (Function.update f k m) := by
  refine ⟨h.sorted.put Entries.picks_new k m, fun l n => ?_⟩
  rw [← Entries.find_eq_some_iff (h.sorted.put Entries.picks_new k m),
    Entries.find_put_self Entries.picks_new k l m h.sorted]
  by_cases hl : l = k
  · subst hl
    rw [if_pos rfl, Function.update_self, Option.some.injEq]
    exact ⟨fun heq => ⟨heq, heq ▸ hm⟩, fun hn => hn.1⟩
  · rw [if_neg hl, Function.update_of_ne hl, Entries.find_eq_some_iff h.sorted, h.mem]

theorem Holds.erase (h : Holds shown f) (k : K) :
    Holds (Entries.erase cmp k shown) (Function.update f k Node.empty) := by
  refine ⟨h.sorted.erase k, fun l n => ?_⟩
  rw [← Entries.find_eq_some_iff (h.sorted.erase k), Entries.find_erase_self]
  by_cases hl : l = k
  · subst hl
    rw [if_pos rfl, Function.update_self]
    constructor
    · intro hnone
      cases hnone
    · rintro ⟨rfl, hne⟩
      cases hne
  · rw [if_neg hl, Function.update_of_ne hl, Entries.find_eq_some_iff h.sorted, h.mem]

variable [DecidableEq L]

/-- An event that tells of the change, and of the key before its child. -/
theorem Holds.hear (h : Holds shown f) {k : K} {change : ChildChange cmp L} (hreal : change.Real)
    (hbefore : change.before = f k) {event : FDataEvent cmp L}
    (htype : event.eventType = change.type) (hkey : event.ref.getLast? = some k)
    (hnode : event.node = change.node)
    (hprev : change.type ≠ .childRemoved →
      event.prevName = (Entries.below cmp k shown).getLast?.map Prod.fst) :
    ∃ shown', FDataEvent.hear shown event = some shown' ∧
      Holds shown' (Function.update f k change.after) := by
  cases change with
  | childAdded node =>
    have hk : k ∉ shown.map Prod.fst := by
      rw [h.mem_keys, ← hbefore]
      simp [ChildChange.before]
    refine ⟨_, ?_, h.put k hreal⟩
    unfold FDataEvent.hear
    rw [htype, hkey]
    simp only [ChildChange.type, if_neg hk, hprev (by simp [ChildChange.type]), hnode]
    exact Entries.insertAfter_eq_put _ _ h.sorted hk
  | childChanged node oldNode =>
    have hk : k ∈ shown.map Prod.fst := by
      rw [h.mem_keys, ← hbefore]
      exact hreal.2
    have herased := h.erase k
    have hkerased : k ∉ (Entries.erase cmp k shown).map Prod.fst := by
      rw [herased.mem_keys, Function.update_self]
      simp
    have hbelow : (Entries.below cmp k shown).map Prod.fst =
        (Entries.below cmp k (Entries.erase cmp k shown)).map Prod.fst := by
      refine Entries.keys_below_congr h.sorted herased.sorted fun l hl => ?_
      have hne : l ≠ k := by
        rintro rfl
        rw [show cmp l l = .eq from ReflCmp.compare_self] at hl
        cases hl
      rw [h.mem_keys, herased.mem_keys, Function.update_of_ne hne]
    have hput := herased.put k hreal.1
    rw [Function.update_idem] at hput
    refine ⟨_, ?_, hput⟩
    unfold FDataEvent.hear
    rw [htype, hkey]
    simp only [ChildChange.type, if_pos hk, hprev (by simp [ChildChange.type]), hnode]
    rw [← List.getLast?_map, hbelow, List.getLast?_map]
    exact Entries.insertAfter_eq_put _ _ herased.sorted hkerased
  | childRemoved node =>
    refine ⟨_, ?_, h.erase k⟩
    unfold FDataEvent.hear
    rw [htype, hkey]
    have hmem : (k, node) ∈ shown := (h.mem k node).mpr ⟨hbefore.symm, hreal⟩
    simp only [ChildChange.type, hnode, ChildChange.node, if_pos hmem]

/-- Changes in an order in which each new child finds its place: the key before it does not come or
go any more. -/
def InOrder (cs : List (K × ChildChange cmp L)) : Prop :=
  cs.Pairwise (fun e e' => e.2.type = .childRemoved ∨ e'.2.type = .childChanged ∨
    cmp e'.1 e.1 ≠ .lt)

open FChildChangeAccumulator

omit [TransCmp cmp] [LawfulEqCmp cmp] [DecidableEq L] in
theorem differs_of_first {e : K × ChildChange cmp L} {cs : List (K × ChildChange cmp L)}
    (h : Differs f (e :: cs) g) : Differs (Function.update f e.1 e.2.after) cs g := by
  have hnodup := List.nodup_cons.mp h.nodup
  refine ⟨hnodup.2, fun e' he' => h.real e' (List.mem_cons_of_mem _ he'), fun e' he' => ?_,
    fun e' he' => h.after e' (List.mem_cons_of_mem _ he'), fun k hk => ?_⟩
  · have hne : e'.1 ≠ e.1 := by
      intro heq
      exact hnodup.1 (heq ▸ List.mem_map_of_mem he')
    rw [Function.update_of_ne hne, h.before e' (List.mem_cons_of_mem _ he')]
  · by_cases hke : k = e.1
    · subst hke
      rw [Function.update_self, h.after e (by simp)]
    · rw [Function.update_of_ne hke]
      refine h.same k ?_
      rw [List.map_cons, List.mem_cons]
      rintro (heq | hmem)
      · exact hke heq
      · exact hk hmem

omit [LawfulEqCmp cmp] [DecidableEq K] [DecidableEq L] in
/-- What lies before the first child of the changes neither comes nor goes with them. -/
theorem isEmpty_before {e : K × ChildChange cmp L} {cs : List (K × ChildChange cmp L)}
    (h : Differs f (e :: cs) g) (horder : InOrder (e :: cs)) (htype : e.2.type ≠ .childRemoved)
    {l : K} (hl : cmp l e.1 = .lt) : (f l).isEmpty = (g l).isEmpty := by
  by_cases hmem : l ∈ (e :: cs).map Prod.fst
  · obtain ⟨e', he', rfl⟩ := List.mem_map.mp hmem
    rcases List.mem_cons.mp he' with rfl | hcs
    · rw [show cmp e'.1 e'.1 = .eq from ReflCmp.compare_self] at hl
      cases hl
    · have hreal := h.real e' he'
      rw [← h.before e' he', ← h.after e' he']
      rcases List.rel_of_pairwise_cons horder hcs with hr | hc | hne
      · exact absurd hr htype
      · obtain ⟨k', change⟩ := e'
        cases change with
        | childAdded node => cases hc
        | childRemoved node => cases hc
        | childChanged node oldNode => exact hreal.2.trans hreal.1.symm
      · exact absurd hl hne
  · rw [h.same l hmem]

/-- The events of the changes, in their order, take a listener from the old children to the new
ones. -/
theorem Holds.run_hear {final : List (K × Node cmp L)} (hfinal : Holds final g)
    {cs : List (K × ChildChange cmp L)} (h : Holds shown f) (hdiffers : Differs f cs g)
    (horder : InOrder cs) {event : K × ChildChange cmp L → FDataEvent cmp L}
    (htype : ∀ e ∈ cs, (event e).eventType = e.2.type)
    (hkey : ∀ e ∈ cs, (event e).ref.getLast? = some e.1)
    (hnode : ∀ e ∈ cs, (event e).node = e.2.node)
    (hprev : ∀ e ∈ cs, e.2.type ≠ .childRemoved →
      (event e).prevName = (Entries.below cmp e.1 final).getLast?.map Prod.fst) :
    run FDataEvent.hear shown (cs.map event) = some final := by
  induction cs generalizing shown f with
  | nil =>
    have hsame : f = g := by
      funext k
      exact hdiffers.same k (by simp)
    rw [List.map_nil, run_nil, h.eq (hsame ▸ hfinal)]
  | cons e cs ih =>
    obtain ⟨shown', hhear, hholds⟩ := h.hear (hdiffers.real e (by simp))
      (hdiffers.before e (by simp)) (htype e (by simp)) (hkey e (by simp)) (hnode e (by simp)) (by
        intro hne
        have hbelow : (Entries.below cmp e.1 final).map Prod.fst =
            (Entries.below cmp e.1 shown).map Prod.fst := by
          refine Entries.keys_below_congr hfinal.sorted h.sorted fun l hl => ?_
          rw [hfinal.mem_keys, h.mem_keys, isEmpty_before hdiffers horder hne hl]
        rw [hprev e (by simp) hne, ← List.getLast?_map, hbelow, List.getLast?_map])
    rw [List.map_cons, run, hhear, Option.bind_some]
    exact ih hholds (differs_of_first hdiffers) (List.pairwise_cons.mp horder).2
      (fun e' he' => htype e' (List.mem_cons_of_mem _ he'))
      (fun e' he' => hkey e' (List.mem_cons_of_mem _ he'))
      (fun e' he' => hnode e' (List.mem_cons_of_mem _ he'))
      (fun e' he' => hprev e' (List.mem_cons_of_mem _ he'))

end Listening

/-! ## What the generator makes of the changes of a view -/

namespace FEventGenerator

open FChildChangeAccumulator

/-- The changes of one type, in the order of their keys. -/
def ofType (eventType : FIRDataEventType) (changeMap : List (K × ChildChange cmp L)) :
    List (K × ChildChange cmp L) :=
  TreeSortedDictionary.sortedKeyList cmp (changeMap.filter (fun e => e.2.type = eventType))

/-- The changes in the order in which their events are raised. -/
def raised (changeMap : List (K × ChildChange cmp L)) : List (K × ChildChange cmp L) :=
  ofType .childRemoved changeMap ++ ofType .childAdded changeMap ++ ofType .childChanged changeMap

/-- The event that tells a registration of a change. -/
def eventOf (path : List K) (eventCache : Node cmp L) (e : K × ChildChange cmp L)
    (registration : FEventRegistration) : FDataEvent cmp L :=
  registration.createEventFrom (.child e.1 e.2)
    (if e.2.type = .childRemoved then none
      else (Entries.below cmp e.1 eventCache.children).getLast?.map Prod.fst) path

section Laws

variable {eventType : FIRDataEventType} {changeMap : List (K × ChildChange cmp L)}
  {path : List K} {eventCache : Node cmp L} {registrations : List FEventRegistration}

theorem mem_ofType {e : K × ChildChange cmp L} :
    e ∈ ofType eventType changeMap ↔ e ∈ changeMap ∧ e.2.type = eventType := by
  unfold ofType
  rw [(TreeSortedDictionary.sortedKeyList_perm _).mem_iff, List.mem_filter, decide_eq_true_eq]

theorem raised_perm (changeMap : List (K × ChildChange cmp L)) :
    (raised changeMap).Perm changeMap := by
  have hsplit : ∀ l : List (K × ChildChange cmp L),
      (l.filter (fun e => e.2.type = .childRemoved) ++ l.filter (fun e => e.2.type = .childAdded) ++
        l.filter (fun e => e.2.type = .childChanged)).Perm l := by
    intro l
    induction l with
    | nil => exact .nil
    | cons e l ih =>
      obtain ⟨k, change⟩ := e
      cases change with
      | childRemoved node => simpa [ChildChange.type] using ih
      | childAdded node =>
        refine List.Perm.trans ?_ (ih.cons _)
        simp only [ChildChange.type, List.filter_cons, reduceCtorEq, decide_false, decide_true,
          Bool.false_eq_true, if_false, if_true, List.append_assoc, List.cons_append]
        exact List.perm_middle
      | childChanged node oldNode =>
        refine List.Perm.trans ?_ (ih.cons _)
        simp only [ChildChange.type, List.filter_cons, reduceCtorEq, decide_false, decide_true,
          Bool.false_eq_true, if_false, if_true]
        exact List.perm_middle
  refine List.Perm.trans ?_ (hsplit changeMap)
  exact ((TreeSortedDictionary.sortedKeyList_perm _).append
    (TreeSortedDictionary.sortedKeyList_perm _)).append (TreeSortedDictionary.sortedKeyList_perm _)

/-- Children that come are raised in their order, and before the ones that only change. -/
theorem inOrder_raised [TransCmp cmp] [LawfulEqCmp cmp] (h : (changeMap.map Prod.fst).Nodup) :
    InOrder (raised changeMap) := by
  have hsorted : Entries.Sorted cmp (ofType .childAdded changeMap) := by
    refine TreeSortedDictionary.sorted_sortedKeyList (List.Pairwise.filter _ ?_)
    refine (List.pairwise_map.mp h).imp fun hne heq => hne ?_
    exact LawfulEqCmp.compare_eq_iff_eq.mp heq
  refine List.pairwise_append.mpr ⟨List.pairwise_append.mpr ⟨?_, ?_, ?_⟩, ?_, ?_⟩
  · exact List.pairwise_of_forall_mem_list fun e he e' _ => Or.inl (mem_ofType.mp he).2
  · refine hsorted.imp fun hlt => Or.inr (Or.inr ?_)
    rw [OrientedCmp.gt_of_lt hlt]
    simp
  · intro e he e' _
    exact Or.inl (mem_ofType.mp he).2
  · exact List.pairwise_of_forall_mem_list fun e _ e' he' => Or.inr (Or.inl (mem_ofType.mp he').2)
  · intro e _ e' he'
    exact Or.inr (Or.inl (mem_ofType.mp he').2)

theorem filter_child {n : Node cmp L} {value : List (FChange cmp L)}
    (hvalue : value = [] ∨ value = [.value n]) (heventType : eventType ≠ .value) :
    (changeMap.map (fun e => FChange.child e.1 e.2) ++ value).filter
        (fun change => change.type = eventType) =
      (changeMap.filter (fun e => e.2.type = eventType)).map (fun e => FChange.child e.1 e.2) := by
  have hnone : value.filter (fun change => change.type = eventType) = [] := by
    rcases hvalue with rfl | rfl
    · rfl
    · simp [FChange.type, Ne.symm heventType]
  rw [List.filter_append, hnone, List.append_nil, List.filter_map]
  rfl

/-- No comparison throws: changes of children have keys. -/
theorem sortedChanges_child {n : Node cmp L} {value : List (FChange cmp L)}
    (hvalue : value = [] ∨ value = [.value n]) (heventType : eventType ≠ .value) :
    sortedChanges eventType (changeMap.map (fun e => FChange.child e.1 e.2) ++ value) =
      some ((ofType eventType changeMap).map (fun e => FChange.child e.1 e.2)) := by
  have hkeys : ∀ l : List (K × ChildChange cmp L),
      (l.map (fun e => FChange.child e.1 e.2)).any (fun change => change.childKey.isNone) =
        false := by
    intro l
    rw [List.any_map, List.any_eq_false]
    intro e _
    simp [FChange.childKey]
  unfold sortedChanges
  dsimp only
  rw [filter_child hvalue heventType, hkeys, Bool.and_false]
  simp only [Bool.false_eq_true, if_false, Option.some.injEq, ofType,
    TreeSortedDictionary.sortedKeyList]
  exact (List.map_mergeSort (f := fun e : K × ChildChange cmp L => FChange.child e.1 e.2)
    (s := comparator) fun _ _ _ _ => rfl).symm

theorem sortedChanges_value {n : Node cmp L} {value : List (FChange cmp L)}
    (hvalue : value = [] ∨ value = [.value n]) :
    sortedChanges .value (changeMap.map (fun e => FChange.child e.1 e.2) ++ value) =
      some value := by
  have hnone : (changeMap.map (fun e => FChange.child e.1 e.2)).filter
      (fun change => change.type = .value) = [] := by
    rw [List.filter_eq_nil_iff]
    intro change hchange
    obtain ⟨⟨k, c⟩, -, rfl⟩ := List.mem_map.mp hchange
    cases c <;> simp [FChange.type, ChildChange.type]
  unfold sortedChanges
  dsimp only
  rw [List.filter_append, hnone, List.nil_append]
  rcases hvalue with rfl | rfl
  · simp
  · simp [FChange.type]

theorem mapM_eq_some {A B : Type} {f : A → Option B} {g : A → B} {l : List A}
    (h : ∀ a ∈ l, f a = some (g a)) : l.mapM f = some (l.map g) := by
  induction l with
  | nil => rfl
  | cons a l ih =>
    rw [List.mapM_cons, h a (by simp), ih fun b hb => h b (List.mem_cons_of_mem _ hb)]
    rfl

variable [TransCmp cmp] [LawfulEqCmp cmp]

/-- A child that is there has a place. -/
theorem predecessorForChildKey_eq {k : K} (h : (eventCache.getImmediateChild k).isEmpty = false) :
    predecessorForChildKey eventCache k =
      some ((Entries.below cmp k eventCache.children).getLast?.map Prod.fst) := by
  unfold predecessorForChildKey
  split
  · rename_i hleaf
    rw [Node.getImmediateChild_of_leaf hleaf] at h
    cases h
  · rw [if_pos]
    rw [Entries.find_isSome]
    exact ⟨(k, eventCache.getImmediateChild k), Node.mem_children.mpr ⟨rfl, h⟩,
      ReflCmp.compare_self⟩

theorem generateEventForChange_child {e : K × ChildChange cmp L} (hreal : e.2.Real)
    (hafter : e.2.after = eventCache.getImmediateChild e.1) (registration : FEventRegistration) :
    generateEventForChange path eventCache (.child e.1 e.2) registration =
      some (eventOf path eventCache e registration) := by
  obtain ⟨k, change⟩ := e
  cases change with
  | childRemoved node => rfl
  | childAdded node =>
    simp only [ChildChange.after] at hafter
    simp [generateEventForChange, FChange.type, ChildChange.type, FChange.childKey,
      predecessorForChildKey_eq (hafter ▸ hreal), eventOf]
  | childChanged node oldNode =>
    simp only [ChildChange.after] at hafter
    simp [generateEventForChange, FChange.type, ChildChange.type, FChange.childKey,
      predecessorForChildKey_eq (hafter ▸ hreal.1), eventOf]

/-- For each change of the type, an event for each registration that responds to it. -/
theorem generateEventsForType_child {n : Node cmp L} {value : List (FChange cmp L)}
    (hvalue : value = [] ∨ value = [.value n]) (heventType : eventType ≠ .value)
    (hreal : ∀ e ∈ changeMap, e.2.Real)
    (hafter : ∀ e ∈ changeMap, e.2.after = eventCache.getImmediateChild e.1) :
    generateEventsForType path eventCache registrations
        (changeMap.map (fun e => FChange.child e.1 e.2) ++ value) eventType =
      some ((ofType eventType changeMap).flatMap fun e =>
        (registrations.filter (fun r => r.responseTo eventType)).map
          (eventOf path eventCache e)) := by
  unfold generateEventsForType
  rw [sortedChanges_child hvalue heventType, Option.bind_some]
  rw [mapM_eq_some (g := fun cr : FChange cmp L × FEventRegistration =>
    (generateEventForChange path eventCache cr.1 cr.2).getD
      (cr.2.createEventFrom cr.1 none path))]
  · rw [List.flatMap_map, List.map_flatMap]
    congr 1
    refine List.flatMap_congr fun e he => ?_
    have hmem := (mem_ofType.mp he).1
    rw [List.map_map]
    refine List.map_congr_left fun r _ => ?_
    simp [generateEventForChange_child (hreal e hmem) (hafter e hmem)]
  · intro cr hcr
    simp only [List.mem_flatMap, List.mem_map] at hcr
    obtain ⟨change, ⟨e, he, rfl⟩, r, -, rfl⟩ := hcr
    have hmem := (mem_ofType.mp he).1
    rw [generateEventForChange_child (hreal e hmem) (hafter e hmem)]
    rfl

omit [TransCmp cmp] [LawfulEqCmp cmp] in
theorem generateEventsForType_value {n : Node cmp L} {value : List (FChange cmp L)}
    (hvalue : value = [] ∨ value = [.value n]) :
    generateEventsForType path eventCache registrations
        (changeMap.map (fun e => FChange.child e.1 e.2) ++ value) .value =
      some (value.flatMap fun change =>
        (registrations.filter (fun r => r.responseTo .value)).map
          (fun r => r.createEventFrom change none path)) := by
  unfold generateEventsForType
  rw [sortedChanges_value hvalue, Option.bind_some,
    mapM_eq_some (g := fun cr : FChange cmp L × FEventRegistration =>
      cr.2.createEventFrom cr.1 none path)]
  · rw [List.map_flatMap]
    simp [Function.comp_def]
  · intro cr hcr
    simp only [List.mem_flatMap, List.mem_map] at hcr
    obtain ⟨change, hchange, r, -, rfl⟩ := hcr
    rcases hvalue with rfl | rfl
    · cases hchange
    · obtain rfl := List.mem_singleton.mp hchange
      rfl

/-- The events for the changes of children. -/
def childEvents (path : List K) (eventCache : Node cmp L) (registrations : List FEventRegistration)
    (changeMap : List (K × ChildChange cmp L)) : List (FDataEvent cmp L) :=
  (raised changeMap).flatMap fun e =>
    (registrations.filter (fun r => r.responseTo e.2.type)).map (eventOf path eventCache e)

/-- The events for a change of the value. -/
def valueEvents (path : List K) (registrations : List FEventRegistration)
    (value : List (FChange cmp L)) : List (FDataEvent cmp L) :=
  value.flatMap fun change =>
    (registrations.filter (fun r => r.responseTo .value)).map
      (fun r => r.createEventFrom change none path)

/-- No step throws when the changes lead to the event cache. -/
theorem generateEventsForChanges_eq {n : Node cmp L} {value : List (FChange cmp L)}
    (hvalue : value = [] ∨ value = [.value n]) (hreal : ∀ e ∈ changeMap, e.2.Real)
    (hafter : ∀ e ∈ changeMap, e.2.after = eventCache.getImmediateChild e.1) :
    generateEventsForChanges path (changeMap.map (fun e => FChange.child e.1 e.2) ++ value)
        eventCache registrations =
      some (childEvents path eventCache registrations changeMap ++
        valueEvents path registrations value) := by
  have htype : ∀ eventType, ((ofType eventType changeMap).flatMap fun e =>
      (registrations.filter (fun r => r.responseTo eventType)).map (eventOf path eventCache e)) =
      (ofType eventType changeMap).flatMap fun e =>
        (registrations.filter (fun r => r.responseTo e.2.type)).map
          (eventOf path eventCache e) := by
    intro eventType
    refine List.flatMap_congr fun e he => ?_
    rw [(mem_ofType.mp he).2]
  have hmoves : generateEventsForType path eventCache registrations ([] : List (FChange cmp L))
      .childMoved = some [] := by
    simp [generateEventsForType, sortedChanges]
  unfold generateEventsForChanges
  dsimp only
  rw [generateEventsForType_child hvalue (by simp) hreal hafter,
    generateEventsForType_child hvalue (by simp) hreal hafter,
    generateEventsForType_child hvalue (by simp) hreal hafter,
    generateEventsForType_value hvalue, hmoves, htype, htype, htype]
  simp [childEvents, raised, valueEvents]

omit [TransCmp cmp] [LawfulEqCmp cmp] in
/-- Of the events of all registrations a listener sees its own. -/
theorem filter_childEvents {listening : FEventRegistration → Bool}
    {registration : K × ChildChange cmp L → FEventRegistration}
    (h : ∀ e ∈ changeMap, (registrations.filter (fun r => r.responseTo e.2.type)).filter listening =
      [registration e]) :
    (childEvents path eventCache registrations changeMap).filter
        (fun event => listening event.eventRegistration) =
      (raised changeMap).map (fun e => eventOf path eventCache e (registration e)) := by
  unfold childEvents
  rw [List.filter_flatMap, List.map_eq_flatMap]
  refine List.flatMap_congr fun e he => ?_
  rw [List.filter_map, Function.comp_def]
  simp only [eventOf, FEventRegistration.eventRegistration_createEventFrom]
  rw [h e ((raised_perm changeMap).mem_iff.mp he)]
  rfl

end Laws

end FEventGenerator

/-! ## Listeners of a view -/

/-- Exactly one of the registrations that the listener listens through responds to each type of
event of children. -/
def Hears (listening : FEventRegistration → Bool) (registrations : List FEventRegistration) :
    Prop :=
  ∀ eventType, eventType = .childAdded ∨ eventType = .childRemoved ∨ eventType = .childChanged →
    ∃ r, (registrations.filter (fun r => r.responseTo eventType)).filter listening = [r]

/-- Events of a view that take its listeners from one state of its caches to another: a listener of
the children has the new ones, and a listener of values the complete new value. -/
structure Tells [DecidableEq K] [TransCmp cmp] [LawfulEqCmp cmp] [DecidableEq L] (path : List K)
    (registrations : List FEventRegistration) (old new : FViewCache cmp L)
    (events : List (FDataEvent cmp L)) : Prop where
  path : ∀ event ∈ events, event.path = path
  children : ∀ listening, Hears listening registrations →
    run FDataEvent.hear old.cachedEventSnap.node.children
        (events.filter (fun event => listening event.eventRegistration)) =
      some new.cachedEventSnap.node.children
  value : ∀ r ∈ registrations, r.responseTo .value = true → ∀ shown,
    (old.completeEventSnap ≠ none → shown = old.completeEventSnap) →
    new.completeEventSnap ≠ none →
    (events.filter (fun event => event.eventRegistration = r)).foldl FDataEvent.hearValue shown =
      new.completeEventSnap

namespace FView

open FEventGenerator FChildChangeAccumulator

section Laws

variable [DecidableEq K] [TransCmp cmp] [LawfulEqCmp cmp] [TransCmp scmp] [LawfulEqCmp scmp]
  [DecidableEq L] {path : List K} {registrations : List FEventRegistration}

variable (path registrations) in
/-- Events of the value do not touch the children. -/
theorem run_hear_valueEvents (shown : List (K × Node cmp L)) {n : Node cmp L}
    {value : List (FChange cmp L)} (hvalue : value = [] ∨ value = [.value n])
    (listening : FEventRegistration → Bool) :
    run FDataEvent.hear shown ((valueEvents path registrations value).filter
      (fun event => listening event.eventRegistration)) = some shown := by
  have htypes : ∀ event ∈ (valueEvents path registrations value).filter
      (fun event => listening event.eventRegistration), event.eventType = .value := by
    intro event hevent
    have hmem := List.mem_of_mem_filter hevent
    simp only [valueEvents, List.mem_flatMap, List.mem_map] at hmem
    obtain ⟨change, hchange, r, -, rfl⟩ := hmem
    rcases hvalue with rfl | rfl
    · cases hchange
    · obtain rfl := List.mem_singleton.mp hchange
      cases r <;> rfl
  generalize (valueEvents path registrations value).filter _ = events at htypes
  induction events with
  | nil => rfl
  | cons event events ih =>
    have hhear : FDataEvent.hear shown event = some shown := by
      unfold FDataEvent.hear
      rw [htypes event (by simp)]
    rw [run, hhear, Option.bind_some]
    exact ih fun event' h => htypes event' (List.mem_cons_of_mem _ h)

variable (path registrations) in
/-- The events of changes between two nodes, heard through one registration for each change. -/
theorem run_hear_events {old new n : Node cmp L} {changeMap : List (K × ChildChange cmp L)}
    (hdiffers : Differs old.getImmediateChild changeMap new.getImmediateChild)
    {value : List (FChange cmp L)} (hvalue : value = [] ∨ value = [.value n])
    (listening : FEventRegistration → Bool) (h : ∀ e ∈ changeMap, ∃ r,
      (registrations.filter (fun r => r.responseTo e.2.type)).filter listening = [r]) :
    run FDataEvent.hear old.children
        ((childEvents path new registrations changeMap ++
          valueEvents path registrations value).filter
            (fun event => listening event.eventRegistration)) = some new.children := by
  choose! registration hregistration using h
  have hraised := raised_perm changeMap
  have horder := inOrder_raised hdiffers.nodup
  have hdiffers' : Differs old.getImmediateChild (raised changeMap) new.getImmediateChild := by
    refine ⟨(hraised.map Prod.fst).nodup_iff.mpr hdiffers.nodup,
      fun e he => hdiffers.real e (hraised.mem_iff.mp he),
      fun e he => hdiffers.before e (hraised.mem_iff.mp he),
      fun e he => hdiffers.after e (hraised.mem_iff.mp he), fun k hk => hdiffers.same k ?_⟩
    rwa [(hraised.map Prod.fst).mem_iff] at hk
  have hevent : ∀ e ∈ raised changeMap, ∃ handle callbacks,
      registration e = .child handle callbacks := by
    intro e he
    have hmem : registration e ∈
        (registrations.filter (fun r => r.responseTo e.2.type)).filter listening := by
      rw [hregistration e (hraised.mem_iff.mp he)]
      exact List.mem_singleton.mpr rfl
    have hr := (List.mem_filter.mp (List.mem_of_mem_filter hmem)).2
    cases hreg : registration e with
    | child handle callbacks => exact ⟨handle, callbacks, rfl⟩
    | value handle =>
      rw [hreg] at hr
      obtain ⟨k, change⟩ := e
      cases change <;> simp [FEventRegistration.responseTo, ChildChange.type] at hr
  rw [List.filter_append, filter_childEvents hregistration, run_append,
    (holds_children new).run_hear (holds_children old) hdiffers' horder, Option.bind_some]
  · exact run_hear_valueEvents path registrations _ hvalue listening
  · intro e he
    obtain ⟨handle, callbacks, hreg⟩ := hevent e he
    simp [eventOf, hreg, FEventRegistration.createEventFrom, FChange.type]
  · intro e he
    obtain ⟨handle, callbacks, hreg⟩ := hevent e he
    simp [eventOf, hreg, FEventRegistration.createEventFrom, FChange.childKey]
  · intro e he
    obtain ⟨handle, callbacks, hreg⟩ := hevent e he
    simp [eventOf, hreg, FEventRegistration.createEventFrom, FChange.node]
  · intro e he hne
    obtain ⟨handle, callbacks, hreg⟩ := hevent e he
    simp [eventOf, hreg, FEventRegistration.createEventFrom, hne]

omit [DecidableEq K] [TransCmp cmp] [LawfulEqCmp cmp] [DecidableEq L] in
theorem eventType_childEvents {changeMap : List (K × ChildChange cmp L)} {n : Node cmp L}
    {event : FDataEvent cmp L} (h : event ∈ childEvents path n registrations changeMap) :
    event.eventType ≠ .value := by
  simp only [childEvents, List.mem_flatMap, List.mem_map, List.mem_filter] at h
  obtain ⟨⟨k, change⟩, -, r, ⟨-, hresponds⟩, rfl⟩ := h
  cases r with
  | child handle callbacks =>
    cases change <;> simp [eventOf, FEventRegistration.createEventFrom, FChange.type,
      ChildChange.type]
  | value handle =>
    cases change <;> simp [FEventRegistration.responseTo, ChildChange.type] at hresponds

variable (path) in
omit [DecidableEq K] [TransCmp cmp] [LawfulEqCmp cmp] [DecidableEq L] in
/-- A registration for values hears of a change of the value, and of nothing else. -/
theorem foldl_hearValue (changeMap : List (K × ChildChange cmp L)) (n : Node cmp L)
    {m : Node cmp L} {value : List (FChange cmp L)} (hvalue : value = [] ∨ value = [.value m])
    {r : FEventRegistration} (hmem : r ∈ registrations) (hresponds : r.responseTo .value = true)
    (shown : Option (Node cmp L)) :
    ((childEvents path n registrations changeMap ++
        valueEvents path registrations value).filter (fun event => event.eventRegistration = r)
      ).foldl FDataEvent.hearValue shown = if value = [] then shown else some m := by
  have hchild : ∀ (events : List (FDataEvent cmp L)) (s : Option (Node cmp L)),
      (∀ event ∈ events, event.eventType ≠ .value) → events.foldl FDataEvent.hearValue s = s := by
    intro events
    induction events with
    | nil => exact fun s _ => rfl
    | cons event events ih =>
      intro s h
      rw [List.foldl_cons, FDataEvent.hearValue, if_neg (h event (by simp))]
      exact ih s fun event' h' => h event' (List.mem_cons_of_mem _ h')
  have hlast : ∀ (rs : List FEventRegistration) (s : Option (Node cmp L)), rs ≠ [] →
      (rs.map (fun r => r.createEventFrom (.value m) none path)).foldl FDataEvent.hearValue s =
        some m := by
    intro rs
    induction rs with
    | nil => exact fun s h => absurd rfl h
    | cons r rs ih =>
      intro s _
      have hfirst : FDataEvent.hearValue s (r.createEventFrom (.value m) none path) = some m := by
        cases r <;> rfl
      rw [List.map_cons, List.foldl_cons, hfirst]
      by_cases hrs : rs = []
      · rw [hrs]
        rfl
      · exact ih (some m) hrs
  rw [List.filter_append, List.foldl_append, hchild _ shown fun event h =>
    eventType_childEvents (List.mem_of_mem_filter h)]
  rcases hvalue with rfl | rfl
  · rfl
  · simp only [valueEvents, List.flatMap_cons, List.flatMap_nil, List.append_nil, List.filter_map,
      Function.comp_def, FEventRegistration.eventRegistration_createEventFrom,
      List.cons_ne_nil, if_false]
    refine hlast _ shown (List.ne_nil_of_mem (a := r) ?_)
    simp [hmem, hresponds]

omit [DecidableEq K] [TransCmp cmp] [LawfulEqCmp cmp] [DecidableEq L] in
theorem path_events {changeMap : List (K × ChildChange cmp L)} {n m : Node cmp L}
    {value : List (FChange cmp L)} (hvalue : value = [] ∨ value = [.value m])
    {event : FDataEvent cmp L} (h : event ∈ childEvents path n registrations changeMap ++
      valueEvents path registrations value) : event.path = path := by
  rcases List.mem_append.mp h with hchild | hval
  · have htype := eventType_childEvents hchild
    simp only [childEvents, List.mem_flatMap, List.mem_map] at hchild
    obtain ⟨e, -, r, -, rfl⟩ := hchild
    unfold FDataEvent.path
    rw [if_neg htype]
    cases r with
    | child handle callbacks =>
      simp [eventOf, FEventRegistration.createEventFrom, FChange.childKey]
    | value handle => exact absurd rfl htype
  · simp only [valueEvents, List.mem_flatMap, List.mem_map] at hval
    obtain ⟨change, hchange, r, -, rfl⟩ := hval
    rcases hvalue with rfl | rfl
    · cases hchange
    · obtain rfl := List.mem_singleton.mp hchange
      cases r with
      | child handle callbacks =>
        simp [FDataEvent.path, FEventRegistration.createEventFrom, FChange.childKey, FChange.type]
      | value handle => rfl

/-- What a view makes of an operation: the processed caches, the events of the changed children,
and those of the value unless the view is incomplete or nothing has changed. -/
theorem applyOperation_eq (view : FView cmp L) (operation : FOperation cmp scmp L)
    (writesCache : FWriteTreeRef cmp scmp L) (serverCache : Option (Node cmp L)) :
    ∃ changeMap value, view.applyOperation operation writesCache serverCache =
        some ({ view with viewCache :=
            (FViewProcessor.process view.viewCache operation writesCache serverCache).1 },
          childEvents view.path (FViewProcessor.process view.viewCache operation writesCache
              serverCache).1.cachedEventSnap.node view.eventRegistrations changeMap ++
            valueEvents view.path view.eventRegistrations value) ∧
      Differs view.viewCache.cachedEventSnap.node.getImmediateChild changeMap
        (FViewProcessor.process view.viewCache operation writesCache
          serverCache).1.cachedEventSnap.node.getImmediateChild ∧
      value = (if (FViewProcessor.process view.viewCache operation writesCache
            serverCache).1.completeEventSnap = none ∨
          (changeMap = [] ∧ (FViewProcessor.process view.viewCache operation writesCache
            serverCache).1.completeEventSnap = view.viewCache.completeEventSnap) then []
        else [.value (FViewProcessor.process view.viewCache operation writesCache
          serverCache).1.cachedEventSnap.node]) := by
  obtain ⟨changeMap, hchanges, hdiffers⟩ :=
    FViewProcessor.changes_of_operation view.viewCache operation writesCache serverCache
  refine ⟨changeMap, _, ?_, hdiffers, rfl⟩
  have hstays : ((FViewProcessor.process view.viewCache operation writesCache
      serverCache).1.cachedServerSnap.isFullyInitialized ||
      !view.viewCache.cachedServerSnap.isFullyInitialized) = true := by
    cases hold : view.viewCache.cachedServerSnap.isFullyInitialized with
    | true =>
      rw [FViewProcessor.complete_process operation writesCache serverCache hold, Bool.true_or]
    | false => rw [Bool.not_false, Bool.or_true]
  unfold applyOperation
  rw [hchanges, Option.bind_some]
  dsimp only
  rw [if_pos hstays, generateEventsForChanges_eq (n := (FViewProcessor.process view.viewCache operation
    writesCache serverCache).1.cachedEventSnap.node) ?_ hdiffers.real hdiffers.after]
  · rfl
  · split
    · exact Or.inl rfl
    · exact Or.inr rfl

theorem tells_events {old new : FViewCache cmp L} {changeMap : List (K × ChildChange cmp L)}
    (hdiffers : Differs old.cachedEventSnap.node.getImmediateChild changeMap
      new.cachedEventSnap.node.getImmediateChild)
    {value : List (FChange cmp L)} (hvalue : value =
      (if new.completeEventSnap = none ∨
          (changeMap = [] ∧ new.completeEventSnap = old.completeEventSnap) then []
        else [.value new.cachedEventSnap.node])) :
    Tells path registrations old new
      (childEvents path new.cachedEventSnap.node registrations changeMap ++
        valueEvents path registrations value) := by
  have hcases : value = [] ∨ value = [.value new.cachedEventSnap.node] := by
    rw [hvalue]
    split
    · exact Or.inl rfl
    · exact Or.inr rfl
  refine ⟨fun event h => path_events hcases h, ?_, ?_⟩
  · intro listening hhears
    refine run_hear_events path registrations hdiffers hcases listening fun e _ =>
      hhears e.2.type ?_
    obtain ⟨k, change⟩ := e
    cases change <;> simp [ChildChange.type]
  · intro r hr hresponds shown hshown hcomplete
    rw [foldl_hearValue path changeMap _ hcases hr hresponds, hvalue]
    by_cases hsame : changeMap = [] ∧ new.completeEventSnap = old.completeEventSnap
    · rw [if_pos (Or.inr hsame), if_pos rfl, hsame.2]
      exact hshown (hsame.2 ▸ hcomplete)
    · rw [if_neg (by simp [hcomplete, hsame])]
      unfold FViewCache.completeEventSnap at hcomplete ⊢
      split at hcomplete
      · rename_i hinit
        rw [if_pos hinit]
      · exact absurd rfl hcomplete

/-- An operation never throws, and its events tell the listeners of the processed caches. -/
theorem applyOperation_tells (view : FView cmp L) (operation : FOperation cmp scmp L)
    (writesCache : FWriteTreeRef cmp scmp L) (serverCache : Option (Node cmp L)) :
    ∃ events, view.applyOperation operation writesCache serverCache =
        some ({ view with viewCache :=
          (FViewProcessor.process view.viewCache operation writesCache serverCache).1 }, events) ∧
      Tells view.path view.eventRegistrations view.viewCache
        (FViewProcessor.process view.viewCache operation writesCache serverCache).1 events := by
  obtain ⟨changeMap, value, happly, hdiffers, hvalue⟩ :=
    view.applyOperation_eq operation writesCache serverCache
  exact ⟨_, happly, tells_events hdiffers hvalue⟩

omit [DecidableEq K] [DecidableEq L] in
/-- The children of a node differ from no children by what is added. -/
theorem differs_added (n : Node cmp L) :
    Differs (Node.empty : Node cmp L).getImmediateChild
      (n.children.map (fun child => (child.1, .childAdded child.2))) n.getImmediateChild := by
  refine ⟨?_, ?_, ?_, ?_, ?_⟩
  · rw [List.map_map]
    exact n.sorted_children.nodup_keys
  · intro e he
    obtain ⟨child, hchild, rfl⟩ := List.mem_map.mp he
    exact (Node.mem_children.mp hchild).2
  · intro e he
    obtain ⟨child, hchild, rfl⟩ := List.mem_map.mp he
    rfl
  · intro e he
    obtain ⟨child, hchild, rfl⟩ := List.mem_map.mp he
    exact (Node.mem_children.mp hchild).1.symm
  · intro k hk
    cases hempty : (n.getImmediateChild k).isEmpty with
    | true => exact (Node.isEmpty_iff.mp hempty).symm
    | false =>
      refine absurd ?_ hk
      rw [List.map_map]
      exact List.mem_map.mpr ⟨_, Node.mem_children.mpr ⟨rfl, hempty⟩, rfl⟩

/-- What a new registration is told: the children of the event cache, when it responds to added
ones, and the complete value, when it responds to values. -/
structure TellsFirst (path : List K) (r : FEventRegistration) (new : FViewCache cmp L)
    (events : List (FDataEvent cmp L)) : Prop where
  path : ∀ event ∈ events, event.path = path
  registration : ∀ event ∈ events, event.eventRegistration = r
  children : r.responseTo .childAdded = true →
    run FDataEvent.hear [] events = some new.cachedEventSnap.node.children
  others : r.responseTo .childAdded = false → ∀ shown, run FDataEvent.hear shown events = some shown
  value : r.responseTo .value = true → new.completeEventSnap ≠ none → ∀ shown,
    events.foldl FDataEvent.hearValue shown = new.completeEventSnap

theorem initialEvents_tells (view : FView cmp L) (r : FEventRegistration) :
    ∃ events, view.initialEvents r = some events ∧
      TellsFirst view.path r view.viewCache events := by
  let n := view.viewCache.cachedEventSnap.node
  let changeMap : List (K × ChildChange cmp L) :=
    n.children.map (fun child => (child.1, .childAdded child.2))
  let value : List (FChange cmp L) :=
    if view.viewCache.cachedEventSnap.isFullyInitialized then [.value n] else []
  have hdiffers := differs_added n
  have hvalue : value = [] ∨ value = [.value n] := by
    unfold value
    split
    · exact Or.inr rfl
    · exact Or.inl rfl
  have hchanges : view.initialChanges =
      changeMap.map (fun e => FChange.child e.1 e.2) ++ value := by
    simp [initialChanges, changeMap, value, n]
  have hall : ∀ events : List (FDataEvent cmp L),
      events.filter (fun event => (fun _ => true) event.eventRegistration) = events := by
    intro events
    exact List.filter_eq_self.mpr fun _ _ => rfl
  have hregistration : ∀ event ∈ childEvents view.path n [r] changeMap ++
      valueEvents view.path [r] value, event.eventRegistration = r := by
    intro event hevent
    simp only [childEvents, valueEvents, List.mem_append, List.mem_flatMap, List.mem_map,
      List.mem_filter, List.mem_singleton] at hevent
    rcases hevent with ⟨e, -, r', ⟨rfl, -⟩, rfl⟩ | ⟨change, -, r', ⟨rfl, -⟩, rfl⟩
    · exact FEventRegistration.eventRegistration_createEventFrom _ _ _ r'
    · exact FEventRegistration.eventRegistration_createEventFrom _ _ _ r'
  refine ⟨childEvents view.path n [r] changeMap ++ valueEvents view.path [r] value, ?_, ?_⟩
  · unfold initialEvents
    rw [hchanges, generateEventsForChanges_eq hvalue hdiffers.real hdiffers.after]
  · refine ⟨fun event h => path_events hvalue h, hregistration, ?_, ?_, ?_⟩
    · intro hadded
      have hrun := run_hear_events view.path [r] hdiffers hvalue (fun _ => true) (by
        intro e he
        obtain ⟨child, -, rfl⟩ := List.mem_map.mp he
        exact ⟨r, by simp [ChildChange.type, hadded]⟩)
      rwa [hall] at hrun
    · intro hadded shown
      have hnone : childEvents view.path n [r] changeMap = [] := by
        rw [childEvents, List.flatMap_eq_nil_iff]
        intro e he
        obtain ⟨child, -, rfl⟩ := List.mem_map.mp ((raised_perm changeMap).mem_iff.mp he)
        simp [ChildChange.type, hadded]
      have hrun := run_hear_valueEvents view.path [r] shown hvalue (fun _ => true)
      rwa [hall, ← List.nil_append (valueEvents view.path [r] value), ← hnone] at hrun
    · intro hresponds hcomplete shown
      have hlast := foldl_hearValue view.path changeMap n hvalue (List.mem_singleton.mpr rfl)
        hresponds shown
      rw [List.filter_eq_self.mpr fun event h => decide_eq_true (hregistration event h)] at hlast
      have hinit : view.viewCache.cachedEventSnap.isFullyInitialized = true := by
        by_contra hinit
        exact hcomplete (if_neg hinit)
      have hone : value = [.value n] := if_pos hinit
      rw [hlast, hone, if_neg (List.cons_ne_nil _ _), FViewCache.completeEventSnap, if_pos hinit]

end Laws

end FView

end HateBlocker
