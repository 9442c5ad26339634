-- Runs of the sync tree: writes, acknowledgements, data of the server and registrations in any
-- order. Only a write id that is out of order throws, and whoever listens holds what its view
-- shows.
import HateBlocker.SyncTree

open Std Runs

namespace HateBlocker

variable {K L : Type} {cmp scmp : K → K → Ordering}

/-! ## The machine -/

inductive SyncEvent {K : Type} (cmp scmp : K → K → Ordering) (L : Type)
  | userOverwrite (path : List K) (newData : Node cmp L) (writeId : ℤ) (visible : Bool)
  | userMerge (path : List K) (changedChildren : FCompoundWrite cmp scmp L) (writeId : ℤ)
  | ackUserWrite (writeId : ℤ) (revert : Bool)
  | removeAllWrites
  | serverOverwrite (path : List K) (newData : Node cmp L)
  | serverMerge (path : List K) (changedChildren : FCompoundWrite cmp scmp L)
  | listenComplete (path : List K)
  | addEventRegistration (eventRegistration : FEventRegistration) (path : List K)
  | removeEventRegistration (eventRegistration : Option FEventRegistration) (path : List K)
      (cancelError : Bool)

/-- The tree, and the events that it has raised so far. -/
structure SyncSession {K : Type} (cmp scmp : K → K → Ordering) (L : Type) where
  tree : FSyncTree cmp scmp L
  raised : List (FDataEvent cmp L)

namespace FSyncTree

section Machine

variable [DecidableEq K] [TransCmp cmp] [LawfulEqCmp cmp] [TransCmp scmp] [LawfulEqCmp scmp]
  [DecidableEq L]

def receive (t : FSyncTree cmp scmp L) :
    SyncEvent cmp scmp L → Option (FSyncTree cmp scmp L × List (FDataEvent cmp L))
  | .userOverwrite path newData writeId visible =>
    t.applyUserOverwriteAtPath path newData writeId visible
  | .userMerge path changedChildren writeId => t.applyUserMergeAtPath path changedChildren writeId
  | .ackUserWrite writeId revert => t.ackUserWriteWithWriteId writeId revert
  | .removeAllWrites => t.removeAllWrites
  | .serverOverwrite path newData => t.applyServerOverwriteAtPath path newData
  | .serverMerge path changedChildren => t.applyServerMergeAtPath path changedChildren
  | .listenComplete path => t.applyListenCompleteAtPath path
  | .addEventRegistration eventRegistration path => t.addEventRegistration eventRegistration path
  | .removeEventRegistration eventRegistration path cancelError =>
    some (t.removeEventRegistration eventRegistration path cancelError, [])

def step (s : SyncSession cmp scmp L) (e : SyncEvent cmp scmp L) :
    Option (SyncSession cmp scmp L) :=
  (s.tree.receive e).map fun (tree, events) => ⟨tree, s.raised ++ events⟩

/-- No events yet. -/
def start (t : FSyncTree cmp scmp L) : SyncSession cmp scmp L := ⟨t, []⟩

end Machine

/-- The children of each node are in order, and every view knows where it is. -/
structure Well (t : FSyncTree cmp scmp L) : Prop where
  sound : t.syncPointTree.Sound scmp
  located : Located scmp [] t.syncPointTree

/-- Write ids that go back, and answers to a write that is not pending. -/
def OutOfOrder (t : FSyncTree cmp scmp L) : SyncEvent cmp scmp L → Prop
  | .userOverwrite _ _ writeId _ | .userMerge _ _ writeId =>
    writeId ≤ t.pendingWriteTree.lastWriteId
  | .ackUserWrite writeId _ => ∀ w ∈ t.pendingWriteTree.allWrites, w.writeId ≠ writeId
  | _ => False

/-! ## What a step does to a view -/

@[simp] theorem syncPointTree_startListening (t : FSyncTree cmp scmp L) (path : List K) :
    (t.startListening path).syncPointTree = t.syncPointTree := rfl

@[simp] theorem foldl_startListening (t : FSyncTree cmp scmp L) (paths : List (List K)) :
    (paths.foldl startListening t).syncPointTree = t.syncPointTree := by
  induction paths generalizing t with
  | nil => rfl
  | cons path paths ih => rw [List.foldl_cons, ih, syncPointTree_startListening]

section Steps

variable [DecidableEq K]

@[simp] theorem syncPointTree_stopListening (t : FSyncTree cmp scmp L) (path : List K) :
    (t.stopListening path).syncPointTree = t.syncPointTree := rfl

@[simp] theorem foldl_stopListening (t : FSyncTree cmp scmp L) (paths : List (List K)) :
    (paths.foldl stopListening t).syncPointTree = t.syncPointTree := by
  induction paths generalizing t with
  | nil => rfl
  | cons path paths ih => rw [List.foldl_cons, ih, syncPointTree_stopListening]

@[simp] theorem syncPointTree_setupListenerOnQuery (t : FSyncTree cmp scmp L) (path : List K) :
    (t.setupListenerOnQuery path).syncPointTree = t.syncPointTree := by
  unfold setupListenerOnQuery
  rw [foldl_stopListening, syncPointTree_startListening]

variable [TransCmp scmp] [LawfulEqCmp scmp]

theorem Well.setValue {t u : FSyncTree cmp scmp L} (h : t.Well) (view : FView cmp L)
    (hu : u.syncPointTree = t.syncPointTree.setValue scmp view view.path) : u.Well := by
  refine ⟨hu ▸ h.sound.setValue view view.path, fun p v hp => ?_⟩
  rw [hu, FImmutableTree.valueAtPath_setValue h.sound] at hp
  split at hp
  · rename_i heq
    cases hp
    exact heq.symm
  · exact h.located p v hp

theorem Well.removeValueAtPath {t u : FSyncTree cmp scmp L} (h : t.Well) {path : List K}
    (hu : u.syncPointTree = t.syncPointTree.removeValueAtPath scmp path) : u.Well := by
  refine ⟨hu ▸ h.sound.removeValueAtPath path, fun p v hp => ?_⟩
  rw [hu, FImmutableTree.valueAtPath_removeValueAtPath h.sound] at hp
  split at hp
  · cases hp
  · exact h.located p v hp

variable [TransCmp cmp] [LawfulEqCmp cmp] [DecidableEq L]

/-- A step that applies an operation, or only changes the writes. -/
inductive Operates (t : FSyncTree cmp scmp L) :
    Option (FSyncTree cmp scmp L × List (FDataEvent cmp L)) → Prop
  | quiet (u : FSyncTree cmp scmp L) (h : u.syncPointTree = t.syncPointTree) :
      Operates t (some (u, []))
  | spreads (u : FSyncTree cmp scmp L) (events : List (FDataEvent cmp L))
      (operation : FOperation cmp scmp L)
      (h : Spreads [] u.pendingWriteTree operation.reaching t.syncPointTree u.syncPointTree
        events) : Operates t (some (u, events))

theorem operates_applyOperationToSyncPoints {t u : FSyncTree cmp scmp L} (h : t.Well)
    (hu : u.syncPointTree = t.syncPointTree) (operation : FOperation cmp scmp L) :
    Operates t (u.applyOperationToSyncPoints operation) := by
  obtain ⟨newTree, events, happly, hspreads⟩ :=
    applyOperationToSyncPoints_spreads (hu ▸ h.sound) (hu ▸ h.located) operation
  rw [happly]
  refine .spreads _ events operation ?_
  rw [← hu]
  exact hspreads

/-- A place after the step: its view is as it was, but for the caches, which its events tell of. -/
theorem Operates.view {t u : FSyncTree cmp scmp L} {events : List (FDataEvent cmp L)}
    (h : Operates t (some (u, events))) (hwell : t.Well) :
    u.Well ∧ ∀ p view, t.syncPointTree.valueAtPath scmp p = some view → ∃ newView,
      u.syncPointTree.valueAtPath scmp p = some newView ∧
      newView.eventRegistrations = view.eventRegistrations ∧
      Tells p view.eventRegistrations view.viewCache newView.viewCache
        (events.filter (fun event => event.path = p)) := by
  cases h with
  | quiet _ hsame =>
    refine ⟨⟨hsame ▸ hwell.sound, hsame ▸ hwell.located⟩, fun p view hview => ?_⟩
    exact ⟨view, by rw [hsame, hview], rfl, tells_same _ _ _⟩
  | spreads _ _ operation hspreads =>
    constructor
    · refine ⟨hspreads.sound, fun p view hview => ?_⟩
      have hfollows := hspreads.views p
      rw [hview] at hfollows
      generalize hold : t.syncPointTree.valueAtPath scmp p = old at hfollows
      cases hfollows with
      | view path hf => rw [hf.path, path]
    · intro p view hview
      have hfollows := hspreads.views p
      rw [hview] at hfollows
      generalize hnew : u.syncPointTree.valueAtPath scmp p = new at hfollows
      generalize hevents : events.filter (fun event => event.path = [] ++ p) = heard at hfollows
      cases hfollows with
      | @view _ newView _ path hf =>
        refine ⟨newView, rfl, hf.eventRegistrations, ?_⟩
        have hpath : view.path = p := path
        rw [List.nil_append] at hevents
        rw [hevents, ← hpath]
        exact hf.tells

theorem operates_receive {t : FSyncTree cmp scmp L} (h : t.Well) {e : SyncEvent cmp scmp L}
    (hfits : ¬ t.OutOfOrder e) (hadd : ∀ r path, e ≠ .addEventRegistration r path)
    (hremove : ∀ r path c, e ≠ .removeEventRegistration r path c) :
    Operates t (t.receive e) := by
  cases e with
  | userOverwrite path newData writeId visible =>
    have hid : t.pendingWriteTree.lastWriteId < writeId := by
      unfold OutOfOrder at hfits
      omega
    unfold receive applyUserOverwriteAtPath FWriteTree.addOverwriteAtPath
    dsimp only
    rw [if_pos hid, Option.bind_some]
    cases visible with
    | true =>
      rw [if_pos rfl]
      exact operates_applyOperationToSyncPoints h (by rfl) _
    | false =>
      rw [if_neg Bool.false_ne_true]
      exact .quiet _ rfl
  | userMerge path changedChildren writeId =>
    have hid : t.pendingWriteTree.lastWriteId < writeId := by
      unfold OutOfOrder at hfits
      omega
    unfold receive applyUserMergeAtPath FWriteTree.addMergeAtPath
    dsimp only
    rw [if_pos hid, Option.bind_some]
    exact operates_applyOperationToSyncPoints h (by rfl) _
  | ackUserWrite writeId revert =>
    have hmem : ∃ w ∈ t.pendingWriteTree.allWrites, w.writeId = writeId := by
      by_contra hnone
      exact hfits fun w hw hid => hnone ⟨w, hw, hid⟩
    obtain ⟨pendingWriteTree, needToReevaluate, hremoved⟩ := FWriteTree.removeWriteId_of_mem hmem
    obtain ⟨write, hwrite⟩ : ∃ write, t.pendingWriteTree.writeForId writeId = some write := by
      obtain ⟨w, hw, hid⟩ := hmem
      rw [← Option.isSome_iff_exists, FWriteTree.writeForId, List.find?_isSome]
      exact ⟨w, hw, by simpa using hid⟩
    unfold receive ackUserWriteWithWriteId
    dsimp only
    rw [hwrite, hremoved]
    dsimp only
    split
    · exact operates_applyOperationToSyncPoints h (by rfl) _
    · exact .quiet _ rfl
  | removeAllWrites =>
    unfold receive removeAllWrites FWriteTree.removeAllWrites
    dsimp only
    split
    · exact .quiet _ rfl
    · exact operates_applyOperationToSyncPoints h (by rfl) _
  | serverOverwrite path newData => exact operates_applyOperationToSyncPoints h (by rfl) _
  | serverMerge path changedChildren => exact operates_applyOperationToSyncPoints h (by rfl) _
  | listenComplete path => exact operates_applyOperationToSyncPoints h (by rfl) _
  | addEventRegistration r path => exact absurd rfl (hadd r path)
  | removeEventRegistration r path c => exact absurd rfl (hremove r path c)

/-- A new registration is the last one of its view, which may be a new one, and is told of it. -/
theorem addEventRegistration_eq {t : FSyncTree cmp scmp L} (h : t.Well) (r : FEventRegistration)
    (path : List K) :
    ∃ u view events, t.addEventRegistration r path = some (u, events) ∧
      u.syncPointTree = t.syncPointTree.setValue scmp view view.path ∧ view.path = path ∧
      view.eventRegistrations =
        ((t.syncPointTree.valueAtPath scmp path).map FView.eventRegistrations).getD [] ++ [r] ∧
      (∀ old, t.syncPointTree.valueAtPath scmp path = some old →
        view.viewCache = old.viewCache) ∧
      FView.TellsFirst path r view.viewCache events := by
  rcases hview : t.syncPointTree.valueAtPath scmp path with _ | old
  · obtain ⟨view, hpath, hregistrations, hadded⟩ : ∃ view : FView cmp L, view.path = path ∧
        view.eventRegistrations = [] ∧
        addEventRegistrationForNonExistingView r path ⟨path, t.pendingWriteTree⟩
          (t.serverCacheForQuery path) = addEventRegistrationForExistingView r view :=
      ⟨_, rfl, rfl, rfl⟩
    obtain ⟨events, hevents, htells⟩ := (view.addEventRegistration r).initialEvents_tells r
    have hpath' : (view.addEventRegistration r).path = path := hpath
    obtain ⟨u, hadd, hu⟩ : ∃ u, t.addEventRegistration r path = some (u, events) ∧
        u.syncPointTree = t.syncPointTree.setValue scmp (view.addEventRegistration r) path := by
      unfold addEventRegistration
      dsimp only
      rw [hview]
      dsimp only
      rw [hadded, addEventRegistrationForExistingView, hevents]
      refine ⟨_, rfl, ?_⟩
      split
      · rfl
      · rw [syncPointTree_setupListenerOnQuery]
    refine ⟨u, view.addEventRegistration r, events, hadd, by rw [hu, hpath'], hpath', ?_, ?_,
      hpath' ▸ htells⟩
    · unfold FView.addEventRegistration
      dsimp only
      rw [hregistrations]
      rfl
    · intro old hold
      cases hold
  · obtain ⟨events, hevents, htells⟩ := (old.addEventRegistration r).initialEvents_tells r
    have hpath : (old.addEventRegistration r).path = path := h.located path old hview
    obtain ⟨u, hadd, hu⟩ : ∃ u, t.addEventRegistration r path = some (u, events) ∧
        u.syncPointTree = t.syncPointTree.setValue scmp (old.addEventRegistration r) path := by
      unfold addEventRegistration
      dsimp only
      rw [hview]
      dsimp only
      rw [addEventRegistrationForExistingView, hevents]
      exact ⟨_, rfl, rfl⟩
    refine ⟨u, old.addEventRegistration r, events, hadd, by rw [hu, hpath], hpath, rfl, ?_,
      hpath ▸ htells⟩
    intro old' hold'
    cases hold'
    rfl

omit [TransCmp cmp] [LawfulEqCmp cmp] [DecidableEq L] in
/-- A removal leaves the views of other places alone, and a view with the registrations that
are left, if any. -/
theorem removeEventRegistration_eq {t : FSyncTree cmp scmp L} (h : t.Well)
    (r : Option FEventRegistration) (path : List K) (cancelError : Bool) :
    (t.removeEventRegistration r path cancelError).Well ∧
      (∀ p, p ≠ path →
        (t.removeEventRegistration r path cancelError).syncPointTree.valueAtPath scmp p =
          t.syncPointTree.valueAtPath scmp p) ∧
      ∀ view, t.syncPointTree.valueAtPath scmp path = some view →
        remainingRegistrations r view.eventRegistrations ≠ [] →
        (t.removeEventRegistration r path cancelError).syncPointTree.valueAtPath scmp path =
          some ⟨view.path, view.viewCache,
            remainingRegistrations r view.eventRegistrations⟩ := by
  unfold removeEventRegistration
  rcases hview : t.syncPointTree.valueAtPath scmp path with _ | view
  · exact ⟨h, fun p _ => rfl, fun view hv => by cases hv⟩
  · dsimp only
    by_cases hempty : (remainingRegistrations r view.eventRegistrations).isEmpty = true
    · rw [if_pos hempty]
      have hremoved : ∀ u : FSyncTree cmp scmp L,
          u.syncPointTree = t.syncPointTree.removeValueAtPath scmp path → u.Well ∧
            (∀ p, p ≠ path → u.syncPointTree.valueAtPath scmp p =
              t.syncPointTree.valueAtPath scmp p) ∧
            ∀ view', some view = some view' →
              remainingRegistrations r view'.eventRegistrations ≠ [] →
              u.syncPointTree.valueAtPath scmp path = some ⟨view'.path, view'.viewCache,
                remainingRegistrations r view'.eventRegistrations⟩ := by
        intro u hu
        refine ⟨h.removeValueAtPath hu, fun p hp => ?_, ?_⟩
        · rw [hu, FImmutableTree.valueAtPath_removeValueAtPath h.sound, if_neg hp]
        · rintro view' hv hne
          cases hv
          exact absurd (List.isEmpty_iff.mp hempty) hne
      apply hremoved
      split
      · rfl
      · split
        · rw [foldl_startListening]
        · rw [syncPointTree_stopListening, foldl_startListening]
    · rw [if_neg hempty]
      obtain rfl : path = view.path := (h.located path view hview).symm
      refine ⟨h.setValue ⟨view.path, view.viewCache,
        remainingRegistrations r view.eventRegistrations⟩ rfl, fun p hp => ?_, ?_⟩
      · rw [FImmutableTree.valueAtPath_setValue h.sound, if_neg hp]
      · rintro view' hv -
        cases hv
        rw [FImmutableTree.valueAtPath_setValue h.sound, if_pos rfl]

/-! ## Nothing else throws -/

theorem receive_eq_none {t : FSyncTree cmp scmp L} (h : t.Well) (e : SyncEvent cmp scmp L) :
    t.receive e = none ↔ t.OutOfOrder e := by
  constructor
  · intro hnone
    by_contra hfits
    cases e with
    | addEventRegistration r path =>
      obtain ⟨u, view, events, hadd, -⟩ := addEventRegistration_eq h r path
      unfold receive at hnone
      dsimp only at hnone
      rw [hadd] at hnone
      cases hnone
    | removeEventRegistration r path c => cases hnone
    | _ =>
      have hoperates := operates_receive h hfits (by simp) (by simp)
      rw [hnone] at hoperates
      cases hoperates
  · intro hout
    cases e with
    | userOverwrite path newData writeId visible =>
      unfold receive applyUserOverwriteAtPath FWriteTree.addOverwriteAtPath
      dsimp only
      rw [if_neg (by unfold OutOfOrder at hout; omega)]
      rfl
    | userMerge path changedChildren writeId =>
      unfold receive applyUserMergeAtPath FWriteTree.addMergeAtPath
      dsimp only
      rw [if_neg (by unfold OutOfOrder at hout; omega)]
      rfl
    | ackUserWrite writeId revert =>
      have hfind : t.pendingWriteTree.writeForId writeId = none := by
        rw [FWriteTree.writeForId, List.find?_eq_none]
        intro w hw
        simpa using hout w hw
      unfold receive ackUserWriteWithWriteId
      dsimp only
      rw [hfind]
    | _ => cases hout

theorem Well.receive {t u : FSyncTree cmp scmp L} (h : t.Well) {e : SyncEvent cmp scmp L}
    {events : List (FDataEvent cmp L)} (hu : t.receive e = some (u, events)) : u.Well := by
  have hfits : ¬ t.OutOfOrder e := by
    rw [← receive_eq_none h, hu]
    simp
  cases e with
  | addEventRegistration r path =>
    obtain ⟨t', view, events', hadd, htree, -⟩ := addEventRegistration_eq h r path
    unfold FSyncTree.receive at hu
    dsimp only at hu
    rw [hadd] at hu
    cases hu
    exact h.setValue view htree
  | removeEventRegistration r path cancelError =>
    cases hu
    exact (removeEventRegistration_eq h r path cancelError).1
  | _ =>
    have hoperates := operates_receive h hfits (by simp) (by simp)
    rw [hu] at hoperates
    exact (hoperates.view h).1

end Steps

/-! ## Whoever listens -/

section Listeners

variable [DecidableEq K]

/-- The events that a registration at a path hears. -/
def heardBy (r : FEventRegistration) (path : List K) (events : List (FDataEvent cmp L)) :
    List (FDataEvent cmp L) :=
  (events.filter (fun event => event.path = path)).filter
    (fun event => event.eventRegistration = r)

theorem heardBy_append (r : FEventRegistration) (path : List K)
    (events others : List (FDataEvent cmp L)) :
    heardBy r path (events ++ others) = heardBy r path events ++ heardBy r path others := by
  unfold heardBy
  rw [List.filter_append, List.filter_append]

theorem heardBy_eq_nil {r : FEventRegistration} {path : List K}
    {events : List (FDataEvent cmp L)}
    (h : ∀ event ∈ events, event.path ≠ path ∨ event.eventRegistration ≠ r) :
    heardBy r path events = [] := by
  unfold heardBy
  rw [List.filter_filter, List.filter_eq_nil_iff]
  intro event hevent
  rcases h event hevent with hne | hne
  · simp [hne]
  · simp [hne]

/-- The step neither registers the same registration again nor removes it. -/
def Keeps (r : FEventRegistration) (path : List K) : SyncEvent cmp scmp L → Prop
  | .addEventRegistration r' path' => path' = path → r' ≠ r
  | .removeEventRegistration other path' _ =>
    path' = path → ∃ o, other = some o ∧ r.matchesRegistration o = false
  | _ => True

variable [TransCmp cmp] [LawfulEqCmp cmp] [DecidableEq L]

/-- A listener that puts each new child behind the one that its event names has the children of the
event cache, in their order, and a listener of values has the complete value. -/
structure Informed (r : FEventRegistration) (viewCache : FViewCache cmp L)
    (heard : List (FDataEvent cmp L)) : Prop where
  children : r.responseTo .childAdded = true → r.responseTo .childRemoved = true →
    r.responseTo .childChanged = true →
      run FDataEvent.hear [] heard = some viewCache.cachedEventSnap.node.children
  value : r.responseTo .value = true → viewCache.completeEventSnap ≠ none →
    heard.foldl FDataEvent.hearValue none = viewCache.completeEventSnap

theorem Informed.tells {r : FEventRegistration} {registrations : List FEventRegistration}
    {path : List K} {old new : FViewCache cmp L} {heard events : List (FDataEvent cmp L)}
    (h : Informed r old heard) (honce : registrations.filter (fun x => x = r) = [r])
    (htells : Tells path registrations old new events) :
    Informed r new (heard ++ events.filter (fun event => event.eventRegistration = r)) := by
  constructor
  · intro hadded hremoved hchanged
    have hhears : Hears (fun x => decide (x = r)) registrations := by
      intro eventType htype
      refine ⟨r, ?_⟩
      rw [List.filter_comm, honce]
      rcases htype with rfl | rfl | rfl
      · simp [hadded]
      · simp [hremoved]
      · simp [hchanged]
    rw [run_append, h.children hadded hremoved hchanged, Option.bind_some]
    exact htells.children _ hhears
  · intro hvalue hcomplete
    have hmem : r ∈ registrations := List.mem_of_mem_filter (honce ▸ List.mem_singleton_self r)
    rw [List.foldl_append]
    exact htells.value r hmem hvalue _ (fun hold => h.value hvalue hold) hcomplete

variable [TransCmp scmp] [LawfulEqCmp scmp]

/-- The registration is at its path once, and has what the view there shows. -/
structure Listening (r : FEventRegistration) (path : List K) (s : SyncSession cmp scmp L) :
    Prop where
  well : s.tree.Well
  view : ∃ view, s.tree.syncPointTree.valueAtPath scmp path = some view ∧
    view.eventRegistrations.filter (fun x => x = r) = [r] ∧
    Informed r view.viewCache (heardBy r path s.raised)

theorem Listening.step {r : FEventRegistration} {path : List K} {s u : SyncSession cmp scmp L}
    {e : SyncEvent cmp scmp L} (h : Listening r path s) (hkeeps : Keeps r path e)
    (hu : FSyncTree.step s e = some u) : Listening r path u := by
  obtain ⟨⟨tree, events⟩, hreceive, rfl⟩ := Option.map_eq_some_iff.mp hu
  obtain ⟨view, hview, honce, hinformed⟩ := h.view
  have hwell := h.well.receive hreceive
  refine ⟨hwell, ?_⟩
  have hfits : ¬ s.tree.OutOfOrder e := by
    rw [← receive_eq_none h.well, hreceive]
    simp
  dsimp only
  rw [heardBy_append]
  cases e with
  | addEventRegistration r' path' =>
    obtain ⟨tree', newView, events', hadd, htree, hpath, hregistrations, hsame, htells⟩ :=
      addEventRegistration_eq h.well r' path'
    unfold receive at hreceive
    dsimp only at hreceive
    rw [hadd] at hreceive
    cases hreceive
    by_cases hat : path' = path
    · subst hat
      have hnone : heardBy r path' events = [] := heardBy_eq_nil fun event hevent => by
        rw [htells.registration event hevent]
        exact Or.inr (hkeeps rfl)
      refine ⟨newView, ?_, ?_, ?_⟩
      · rw [htree, FImmutableTree.valueAtPath_setValue h.well.sound, hpath, if_pos rfl]
      · rw [hregistrations, hview, Option.map_some, Option.getD_some, List.filter_append, honce]
        simp [hkeeps rfl]
      · rw [hnone, List.append_nil, hsame view hview]
        exact hinformed
    · have hnone : heardBy r path events = [] := heardBy_eq_nil fun event hevent => by
        rw [htells.path event hevent]
        exact Or.inl hat
      refine ⟨view, ?_, honce, ?_⟩
      · rw [htree, FImmutableTree.valueAtPath_setValue h.well.sound, hpath,
          if_neg (Ne.symm hat), hview]
      · rw [hnone, List.append_nil]
        exact hinformed
  | removeEventRegistration other path' cancelError =>
    obtain ⟨-, haside, hleft⟩ := removeEventRegistration_eq h.well other path' cancelError
    cases hreceive
    rw [show heardBy r path ([] : List (FDataEvent cmp L)) = [] from rfl, List.append_nil]
    by_cases hat : path' = path
    · subst hat
      obtain ⟨o, rfl, hmatches⟩ := hkeeps rfl
      have hremaining : (remainingRegistrations (some o) view.eventRegistrations).filter
          (fun x => x = r) = [r] := by
        unfold remainingRegistrations
        dsimp only
        rw [List.filter_comm, honce]
        simp [hmatches]
      have hne : remainingRegistrations (some o) view.eventRegistrations ≠ [] := by
        intro hnil
        rw [hnil] at hremaining
        cases hremaining
      exact ⟨_, hleft view hview hne, hremaining, hinformed⟩
    · exact ⟨view, by rw [haside path (Ne.symm hat), hview], honce, hinformed⟩
  | _ =>
    have hoperates := operates_receive h.well hfits (by simp) (by simp)
    rw [hreceive] at hoperates
    obtain ⟨newView, hnew, hregistrations, htells⟩ := (hoperates.view h.well).2 path view hview
    exact ⟨newView, hnew, hregistrations ▸ honce, hinformed.tells honce htells⟩

end Listeners

/-! ## Runs -/

section Runs

variable [DecidableEq K] [TransCmp cmp] [LawfulEqCmp cmp] [TransCmp scmp] [LawfulEqCmp scmp]
  [DecidableEq L]

end Runs

end FSyncTree

end HateBlocker
