-- What the caches of the views show: at every place the data that the server has told, under the
-- writes that are pending, and so do the listeners.
import HateBlocker.SyncRuns
import HateBlocker.OperationEffects

open Std Runs PathMaps

namespace HateBlocker

variable {K L : Type} {cmp scmp : K → K → Ordering}

/-! ## What all views show -/

open FCompoundWrite (leavesOf updateChildren)
open FWriteTree (pending)

namespace FSyncTree

section Replication

variable [DecidableEq K] [TransCmp cmp] [LawfulEqCmp cmp] [TransCmp scmp] [LawfulEqCmp scmp]
  [DecidableEq L]

/-- What an event puts into the data of the server. -/
def serverWrites : SyncEvent cmp scmp L → List (List K × Node cmp L)
  | .serverOverwrite path newData => [(path, newData)]
  | .serverMerge path changedChildren =>
    changedChildren.writes.map (fun pv => (path ++ pv.1, pv.2))
  | _ => []

/-- The tree, and the data that the server has told of. -/
structure Replica {K : Type} (cmp scmp : K → K → Ordering) (L : Type) where
  tree : FSyncTree cmp scmp L
  told : Node cmp L

def replicate (s : Replica cmp scmp L) (e : SyncEvent cmp scmp L) : Option (Replica cmp scmp L) :=
  (s.tree.receive e).map fun result => ⟨result.1, updateChildren s.told (serverWrites e)⟩

/-- No pending write goes below a plain value of the data that it goes over. -/
def Settled (s : Replica cmp scmp L) : Prop :=
  Fits (leavesOf (pending s.tree.pendingWriteTree.allWrites)) s.told.leaves

/-- What the server and the application keep to: data do not go below plain values, a merge names
children, answers to writes that overlap come in the order of the writes, and a listen completes
once its data are there. -/
def InOrder (s : Replica cmp scmp L) : SyncEvent cmp scmp L → Prop
  | .serverOverwrite path _ => Clear s.told.leaves path
  | .serverMerge path changedChildren => changedChildren.rootWrite = none ∧
      Fits (leavesOf (changedChildren.writes.map (fun pv => (path ++ pv.1, pv.2)))) s.told.leaves
  | .ackUserWrite writeId _ => ∀ earlier w later,
      s.tree.pendingWriteTree.allWrites = earlier ++ w :: later → w.writeId = writeId →
      (∀ r ∈ earlier, r.writeId ≠ writeId) → FWriteTree.Removable earlier w later ∧
        (w.visible = true → Clear s.told.leaves w.path ∧
          ∀ pv ∈ w.writes, ∀ pe ∈ pending earlier, Apart pe.1 pv.1)
  | .listenComplete path => Clear s.told.leaves path ∧ ∀ p view, path <+: p →
      s.tree.syncPointTree.valueAtPath scmp p = some view →
        view.viewCache.cachedServerSnap.isFullyInitialized = true
  | _ => True

/-- Every view shows what the server has told, under the pending writes. -/
structure Replicates (s : Replica cmp scmp L) : Prop where
  well : s.tree.Well
  covers : s.tree.pendingWriteTree.Covers
  views : ∀ p view, s.tree.syncPointTree.valueAtPath scmp p = some view →
    FViewProcessor.Shows view.viewCache
      (below p s.tree.pendingWriteTree.visibleWrites.overlay) (below p s.told.leaves)

omit [TransCmp cmp] [LawfulEqCmp cmp] [TransCmp scmp] [LawfulEqCmp scmp] [DecidableEq L] in
theorem downward_overlay {w : FWriteTree cmp scmp L} (h : w.Covers) (p : List K) :
    Downward (below p w.visibleWrites.overlay) := by
  rw [h]
  exact (downward_cover _).below p

omit [TransCmp cmp] [LawfulEqCmp cmp] [TransCmp scmp] [LawfulEqCmp scmp] [DecidableEq L] in
/-- At no place do the pending writes go below a plain value. -/
theorem Settled.clear_below {s : Replica cmp scmp L} (h : Settled s)
    (hcovers : s.tree.pendingWriteTree.Covers) {p q : List K}
    (hq : Placed (below p s.tree.pendingWriteTree.visibleWrites.overlay) q) :
    Clear (below p s.told.leaves) q := by
  rw [hcovers] at hq
  exact clear_below_of_placed h hq

/-- An operation on its way to all views. -/
theorem Replicates.of_spreads {s u : Replica cmp scmp L} {operation : FOperation cmp scmp L}
    {events : List (FDataEvent cmp L)} (hwell : u.tree.Well)
    (hspreads : Spreads [] u.tree.pendingWriteTree operation.reaching s.tree.syncPointTree
      u.tree.syncPointTree events) (hcovers : u.tree.pendingWriteTree.Covers)
    (hviews : ∀ p view, s.tree.syncPointTree.valueAtPath scmp p = some view →
      (operation.reaching p = none → FViewProcessor.Shows view.viewCache
        (below p u.tree.pendingWriteTree.visibleWrites.overlay) (below p u.told.leaves)) ∧
      ∀ o serverCache, operation.reaching p = some o → FViewProcessor.Shows
        (FViewProcessor.process view.viewCache o ⟨p, u.tree.pendingWriteTree⟩ serverCache).1
        (below p u.tree.pendingWriteTree.visibleWrites.overlay) (below p u.told.leaves)) :
    Replicates u := by
  refine ⟨hwell, hcovers, fun p newView hnew => ?_⟩
  have hfollows := hspreads.views p
  rw [hnew, List.nil_append] at hfollows
  generalize hold : s.tree.syncPointTree.valueAtPath scmp p = old at hfollows
  generalize events.filter (fun event => event.path = p) = heard at hfollows
  cases hfollows with
  | view path hf =>
    obtain ⟨hnone, hsome⟩ := hviews p _ hold
    have hcache := hf.viewCache
    cases hreach : operation.reaching p with
    | none =>
      rw [hreach] at hcache
      dsimp only at hcache
      rw [hcache]
      exact hnone hreach
    | some o =>
      rw [hreach] at hcache
      obtain ⟨serverCache, hprocess⟩ := hcache
      rw [hprocess]
      exact hsome o serverCache hreach

/-! ### One kind of event after the other -/

omit [TransCmp cmp] [LawfulEqCmp cmp] [TransCmp scmp] [LawfulEqCmp scmp] [DecidableEq L] in
theorem effect_overwrite (b : Bool) (path : List K) (snap : Node cmp L) :
    (FOperation.overwrite b path snap : FOperation cmp scmp L).effect =
      cover (leavesOf [(path, snap)]) := rfl

omit [TransCmp cmp] [LawfulEqCmp cmp] [TransCmp scmp] [DecidableEq L] in
theorem effect_merge (b : Bool) (path : List K) (children : FCompoundWrite cmp scmp L) :
    (FOperation.merge b path children).effect =
      cover (leavesOf (children.writes.map (fun pv => (path ++ pv.1, pv.2)))) := by
  have hcover := cover_map_append path (leavesOf children.writes)
  rw [← FCompoundWrite.overlay_eq_cover, leavesOf, List.map_map] at hcover
  rw [leavesOf, List.map_map]
  exact hcover.symm

theorem spreads_of_apply {t t' u : FSyncTree cmp scmp L} (h : t.Well)
    (ht' : t'.syncPointTree = t.syncPointTree) {operation : FOperation cmp scmp L}
    {events : List (FDataEvent cmp L)}
    (hu : t'.applyOperationToSyncPoints operation = some (u, events)) :
    u.pendingWriteTree = t'.pendingWriteTree ∧
      Spreads [] u.pendingWriteTree operation.reaching t.syncPointTree u.syncPointTree events := by
  obtain ⟨newTree, events', happly, hspreads⟩ :=
    applyOperationToSyncPoints_spreads (ht' ▸ h.sound) (ht' ▸ h.located) operation
  rw [happly] at hu
  cases hu
  exact ⟨rfl, ht' ▸ hspreads⟩

variable {s u : Replica cmp scmp L}

omit [TransCmp cmp] [LawfulEqCmp cmp] [TransCmp scmp] [LawfulEqCmp scmp] [DecidableEq L] in
/-- Where neither the views nor the overlay change, nothing does. -/
theorem Replicates.quiet (h : Replicates s) (hwell : u.tree.Well)
    (hviews : ∀ p view, u.tree.syncPointTree.valueAtPath scmp p = some view → ∃ old,
      s.tree.syncPointTree.valueAtPath scmp p = some old ∧ view.viewCache = old.viewCache)
    (hcovers : u.tree.pendingWriteTree.Covers)
    (hoverlay : u.tree.pendingWriteTree.visibleWrites.overlay =
      s.tree.pendingWriteTree.visibleWrites.overlay) (htold : u.told = s.told) :
    Replicates u := by
  refine ⟨hwell, hcovers, fun p view hview => ?_⟩
  obtain ⟨old, hold, hsame⟩ := hviews p view hview
  rw [hsame, hoverlay, htold]
  exact h.views p old hold

/-- Data of the server go under the pending writes. -/
theorem Replicates.server (h : Replicates s) (hwell : u.tree.Well) (hsettled : Settled u)
    {operation : FOperation cmp scmp L} (hwrite : operation.IsWrite false)
    (hrootless : operation.Rootless) {pvs : List (List K × Node cmp L)}
    (heffect : operation.effect = cover (leavesOf pvs)) (hfits : Fits (leavesOf pvs) s.told.leaves)
    (hsame : u.tree.pendingWriteTree = s.tree.pendingWriteTree)
    (htold : u.told = updateChildren s.told pvs) {events : List (FDataEvent cmp L)}
    (hspreads : Spreads [] u.tree.pendingWriteTree operation.reaching s.tree.syncPointTree
      u.tree.syncPointTree events) : Replicates u := by
  have hcovers : u.tree.pendingWriteTree.Covers := hsame ▸ h.covers
  have hleaves : u.told.leaves = shown operation.effect s.told.leaves := by
    rw [htold, FCompoundWrite.leaves_updateChildren hfits, layer_eq_shown, heffect]
  refine .of_spreads hwell hspreads hcovers fun p view hview => ?_
  have hshows := h.views p view hview
  rw [← hsame] at hshows
  obtain ⟨hnone, hsome⟩ := FOperation.effect_reaching hwrite p
  rw [hleaves, below_shown]
  constructor
  · intro hreach
    rw [hnone hreach]
    exact hshows
  · intro o serverCache hreach
    obtain ⟨howrite, horootless, hoeffect⟩ := hsome o hreach
    have hreceive := hshows.receiveServer (w := ⟨p, u.tree.pendingWriteTree⟩) howrite
      (horootless hrootless) (downward_overlay hcovers p) (fun _ q hq => ?_) (fun q hq => ?_)
      serverCache
    · rw [hoeffect] at hreceive
      exact hreceive
    · rw [hoeffect, heffect] at hq
      exact clear_below_of_placed hfits hq
    · rw [hoeffect, ← below_shown, ← hleaves]
      exact hsettled.clear_below hcovers hq

/-- A visible write goes over those that are pending. -/
theorem Replicates.user (h : Replicates s) (hwell : u.tree.Well) (hsettled : Settled u)
    {operation : FOperation cmp scmp L} (hwrite : operation.IsWrite true)
    {pvs : List (List K × Node cmp L)} (heffect : operation.effect = cover (leavesOf pvs))
    (hpending : pending u.tree.pendingWriteTree.allWrites =
      pending s.tree.pendingWriteTree.allWrites ++ pvs)
    (hcovers : u.tree.pendingWriteTree.Covers) (htold : u.told = s.told)
    {events : List (FDataEvent cmp L)}
    (hspreads : Spreads [] u.tree.pendingWriteTree operation.reaching s.tree.syncPointTree
      u.tree.syncPointTree events) : Replicates u := by
  have hoverlay : u.tree.pendingWriteTree.visibleWrites.overlay =
      upon operation.effect s.tree.pendingWriteTree.visibleWrites.overlay := by
    rw [hcovers, hpending, heffect, h.covers, leavesOf, List.map_append]
    funext q
    exact cover_append _ _ q
  have hfits : Fits (leavesOf pvs)
      (shown s.tree.pendingWriteTree.visibleWrites.overlay s.told.leaves) := by
    have hall := hsettled
    unfold Settled at hall
    rw [hpending, htold, leavesOf, List.map_append] at hall
    rw [h.covers, ← layer_eq_shown]
    exact (fits_append.mp hall).2
  refine .of_spreads hwell hspreads hcovers fun p view hview => ?_
  have hshows := h.views p view hview
  obtain ⟨hnone, hsome⟩ := FOperation.effect_reaching hwrite p
  have hbelow : below p (upon operation.effect
      s.tree.pendingWriteTree.visibleWrites.overlay) = upon
        (below p operation.effect) (below p s.tree.pendingWriteTree.visibleWrites.overlay) := rfl
  rw [hoverlay, htold, hbelow]
  constructor
  · intro hreach
    rw [hnone hreach]
    exact hshows
  · intro o serverCache hreach
    obtain ⟨howrite, -, hoeffect⟩ := hsome o hreach
    have hreceive := hshows.receiveUser (w := ⟨p, u.tree.pendingWriteTree⟩) howrite
      (fun _ q hq => ?_) serverCache
    · rw [hoeffect] at hreceive
      exact hreceive
    · rw [hoeffect, heffect] at hq
      rw [← below_shown]
      exact clear_below_of_placed hfits hq

omit [TransCmp cmp] [LawfulEqCmp cmp] [TransCmp scmp] [LawfulEqCmp scmp] [DecidableEq L] in
/-- The overlay without a write that no earlier one meets. -/
theorem overlay_without {earlier later : List (FWriteRecord cmp scmp L)}
    {w : FWriteRecord cmp scmp L} (hv : w.visible = true)
    (hapart : ∀ pv ∈ w.writes, ∀ pe ∈ pending earlier, Apart pe.1 pv.1) (q : List K) :
    (cover (leavesOf (pending (earlier ++ later))) q ≠ none →
      cover (leavesOf (pending (earlier ++ w :: later))) q =
        cover (leavesOf (pending (earlier ++ later))) q) ∧
    ((∀ pv ∈ w.writes, ¬ pv.1 <+: q) →
      cover (leavesOf (pending (earlier ++ w :: later))) q =
        cover (leavesOf (pending (earlier ++ later))) q) := by
  have hwith : cover (leavesOf (pending (earlier ++ w :: later))) q =
      ((cover (leavesOf (pending later)) q).or (cover (leavesOf w.writes) q)).or
        (cover (leavesOf (pending earlier)) q) := by
    rw [FWriteTree.pending_append, FWriteTree.pending_cons, if_pos hv,
      FWriteTree.leavesOf_append, FWriteTree.leavesOf_append, cover_append, cover_append]
  have hwithout : cover (leavesOf (pending (earlier ++ later))) q =
      (cover (leavesOf (pending later)) q).or (cover (leavesOf (pending earlier)) q) := by
    rw [FWriteTree.pending_append, FWriteTree.leavesOf_append, cover_append]
  rw [hwith, hwithout]
  constructor
  · intro hne
    cases hlater : cover (leavesOf (pending later)) q with
    | some a => rfl
    | none =>
      rw [hlater, Option.none_or] at hne
      have hw : cover (leavesOf w.writes) q = none := by
        rw [FWriteTree.cover_leavesOf_eq_none]
        intro pv hpv hpre
        refine hne (FWriteTree.cover_leavesOf_eq_none.mpr fun pe hpe hpre' => ?_)
        rcases List.prefix_or_prefix_of_prefix hpre hpre' with hle | hle
        · exact (hapart pv hpv pe hpe).2 hle
        · exact (hapart pv hpv pe hpe).1 hle
      rw [hw]
      rfl
  · intro hout
    rw [FWriteTree.cover_leavesOf_eq_none.mpr hout, Option.or_none]

omit [TransCmp cmp] [LawfulEqCmp cmp] [DecidableEq L] in
theorem alone_affectedTree (w : FWriteRecord cmp scmp L) :
    Alone ((affectedTree w).valueAtPath scmp) := by
  intro p hp r k t hsplit
  by_contra hr
  have heq := affectedTree_apart w hr hp (hsplit ▸ List.prefix_append r (k :: t))
  have hlength := congrArg List.length (heq.trans hsplit)
  simp at hlength

omit [TransCmp cmp] [LawfulEqCmp cmp] [DecidableEq L] in
/-- An answer affects what the write put. -/
theorem affects_affectedTree {w : FWriteRecord cmp scmp L} {a : List K} :
    Affects scmp w.path (affectedTree w) a ↔ a ∈ w.writes.map Prod.fst := by
  constructor
  · rintro ⟨b, hb, rfl⟩
    exact (valueAtPath_affectedTree w b).mp hb
  · intro ha
    obtain ⟨pv, hpv, rfl⟩ := List.mem_map.mp ha
    obtain ⟨b, hb⟩ := FWriteRecord.path_prefix_of_mem hpv
    exact ⟨b, (valueAtPath_affectedTree w b).mpr (hb ▸ ha), hb⟩

omit [TransCmp cmp] [LawfulEqCmp cmp] [DecidableEq L] in
/-- A pending write that no earlier one meets does not go below a value that was told. -/
theorem Settled.clear_write (h : Settled s) {earlier later : List (FWriteRecord cmp scmp L)}
    {w : FWriteRecord cmp scmp L} (hall : s.tree.pendingWriteTree.allWrites = earlier ++ w :: later)
    (hv : w.visible = true) (hapart : ∀ pv ∈ w.writes, ∀ pe ∈ pending earlier, Apart pe.1 pv.1) :
    ∀ pv ∈ w.writes, Clear s.told.leaves pv.1 := by
  unfold Settled at h
  rw [hall, FWriteTree.pending_append, FWriteTree.pending_cons, if_pos hv,
    FWriteTree.leavesOf_append, FWriteTree.leavesOf_append] at h
  have hmiddle := (fits_append.mp (fits_append.mp h).2).1
  have hpairs : (leavesOf w.writes).Pairwise (fun w v => Apart w.1 v.1) := by
    unfold leavesOf
    rw [List.pairwise_map]
    exact w.pairwise_apart
  intro pv hpv r k t hsplit
  have hclear := clear_of_fits_apart hmiddle hpairs _ (List.mem_map_of_mem hpv) r k t hsplit
  rw [layer_of_not_covered] at hclear
  · exact hclear
  · intro v hv' hpre
    obtain ⟨pe, hpe, rfl⟩ := List.mem_map.mp hv'
    refine (hapart pv hpv pe hpe).1 (hpre.trans ?_)
    exact hsplit ▸ List.prefix_append r (k :: t)

/-- An answered write goes: what it hid comes into view, and that is what was told. -/
theorem Replicates.answer (h : Replicates s) (hwell : u.tree.Well) (hs : Settled s)
    (hsettled : Settled u) {earlier later : List (FWriteRecord cmp scmp L)}
    {w : FWriteRecord cmp scmp L} {revert : Bool}
    (hall : s.tree.pendingWriteTree.allWrites = earlier ++ w :: later)
    (hall' : u.tree.pendingWriteTree.allWrites = earlier ++ later) (hv : w.visible = true)
    (hclear : Clear s.told.leaves w.path)
    (hapart : ∀ pv ∈ w.writes, ∀ pe ∈ pending earlier, Apart pe.1 pv.1)
    (hcovers : u.tree.pendingWriteTree.Covers) (htold : u.told = s.told)
    {events : List (FDataEvent cmp L)}
    (hspreads : Spreads [] u.tree.pendingWriteTree
      (FOperation.ackUserWrite w.path (affectedTree w) revert : FOperation cmp scmp L).reaching
      s.tree.syncPointTree u.tree.syncPointTree events) : Replicates u := by
  refine .of_spreads hwell hspreads hcovers fun p view hview => ?_
  have hshows := h.views p view hview
  obtain ⟨hnone, hsome⟩ :=
    answers_reaching L cmp revert (sound_affectedTree w) (alone_affectedTree w) p
  -- beside the write the overlay stays as it was
  have houtside : ∀ q, (∀ a, Affects scmp w.path (affectedTree w) a → ¬ a <+: p ++ q) →
      below p s.tree.pendingWriteTree.visibleWrites.overlay q =
        below p u.tree.pendingWriteTree.visibleWrites.overlay q := by
    intro q hq
    rw [h.covers, hcovers, hall, hall']
    refine (overlay_without hv hapart (p ++ q)).2 fun pv hpv => ?_
    exact hq pv.1 (affects_affectedTree.mpr (List.mem_map_of_mem hpv))
  rw [htold]
  constructor
  · intro hreach
    have hsame : below p u.tree.pendingWriteTree.visibleWrites.overlay =
        below p s.tree.pendingWriteTree.visibleWrites.overlay := by
      funext q
      exact (houtside q (hnone hreach q)).symm
    rw [hsame]
    exact hshows
  · intro o serverCache hreach
    obtain ⟨path', tree', rfl, hanswers⟩ := hsome o hreach
    refine hshows.receiveAnswer (w := ⟨p, u.tree.pendingWriteTree⟩) hanswers.sound
      (downward_overlay hcovers p) (fun q hq => ?_) (fun q hq => ?_) (fun a ha => ?_) ?_
      (fun q hq => ?_) serverCache
    · have hcovered : below p u.tree.pendingWriteTree.visibleWrites.overlay q ≠ none := hq
      rw [hcovers, hall'] at hcovered
      change below p s.tree.pendingWriteTree.visibleWrites.overlay q =
        below p u.tree.pendingWriteTree.visibleWrites.overlay q
      rw [h.covers, hcovers, hall, hall']
      exact (overlay_without hv hapart (p ++ q)).1 hcovered
    · refine houtside q fun a ha hpre => ?_
      obtain ⟨a', ha', hpre'⟩ := hanswers.reaches q ⟨a, ha, hpre⟩
      exact hq a' ha' hpre'
    · rcases hanswers.comes a ha with rfl | hin
      · exact clear_nil _
      · obtain ⟨pv, hpv, heq⟩ := List.mem_map.mp (affects_affectedTree.mp hin)
        exact (clear_append.mp (heq ▸ hs.clear_write hall hv hapart pv hpv)).2
    · rcases hanswers.path with rfl | heq
      · exact clear_nil _
      · exact (clear_append.mp (heq.symm ▸ hclear)).2
    · rw [← htold]
      exact hsettled.clear_below hcovers hq

omit [TransCmp cmp] [LawfulEqCmp cmp] [TransCmp scmp] [LawfulEqCmp scmp] [DecidableEq L] in
theorem reaching_listenComplete (path p : List K) (o : FOperation cmp scmp L)
    (h : (FOperation.listenComplete path : FOperation cmp scmp L).reaching p = some o) :
    ∃ path', o = .listenComplete path' ∧ (path' = [] ∧ path <+: p ∨ p ++ path' = path) := by
  induction p generalizing path with
  | nil =>
    cases h
    exact ⟨path, rfl, Or.inr rfl⟩
  | cons k p ih =>
    rw [FOperation.reaching] at h
    split at h
    · rename_i hpath
      cases path with
      | nil =>
        obtain ⟨path', rfl, hcase⟩ := ih [] h
        refine ⟨path', rfl, Or.inl ⟨?_, List.nil_prefix⟩⟩
        rcases hcase with ⟨hnil, -⟩ | heq
        · exact hnil
        · exact (List.append_eq_nil_iff.mp heq).2
      | cons front path =>
        obtain rfl : front = k := by simpa [FOperation.path] using hpath
        obtain ⟨path', rfl, hcase⟩ := ih path h
        refine ⟨path', rfl, ?_⟩
        rcases hcase with ⟨hnil, hpre⟩ | heq
        · exact Or.inl ⟨hnil, List.cons_prefix_cons.mpr ⟨rfl, hpre⟩⟩
        · exact Or.inr (by rw [List.cons_append, heq])
    · cases h

theorem Replicates.listenComplete (h : Replicates s) (hwell : u.tree.Well) (hs : Settled s)
    {path : List K} (hclear : Clear s.told.leaves path)
    (hknown : ∀ p view, path <+: p → s.tree.syncPointTree.valueAtPath scmp p = some view →
      view.viewCache.cachedServerSnap.isFullyInitialized = true)
    (hsame : u.tree.pendingWriteTree = s.tree.pendingWriteTree) (htold : u.told = s.told)
    {events : List (FDataEvent cmp L)}
    (hspreads : Spreads [] u.tree.pendingWriteTree
      (FOperation.listenComplete path : FOperation cmp scmp L).reaching s.tree.syncPointTree
      u.tree.syncPointTree events) : Replicates u := by
  have hcovers : u.tree.pendingWriteTree.Covers := hsame ▸ h.covers
  refine .of_spreads hwell hspreads hcovers fun p view hview => ?_
  have hshows := h.views p view hview
  rw [← hsame] at hshows
  rw [htold]
  refine ⟨fun _ => hshows, fun o serverCache hreach => ?_⟩
  obtain ⟨path', rfl, hcase⟩ := reaching_listenComplete path p o hreach
  have hcomplete : path' = [] → view.viewCache.cachedServerSnap.isFullyInitialized = true := by
    rintro rfl
    refine hknown p view ?_ hview
    rcases hcase with ⟨-, hpre⟩ | heq
    · exact hpre
    · rw [← heq, List.append_nil]
  refine hshows.listenComplete (w := ⟨p, u.tree.pendingWriteTree⟩) (downward_overlay hcovers p)
    (fun hnil => hshows.server (hcomplete hnil)) (fun _ => ?_) (fun _ q hq => ?_)
  · rcases hcase with ⟨rfl, -⟩ | heq
    · exact clear_nil _
    · exact (clear_append.mp (heq.symm ▸ hclear)).2
  · have hplaced : Placed (below p u.tree.pendingWriteTree.visibleWrites.overlay) q := hq
    rw [hsame] at hplaced
    exact hs.clear_below h.covers hplaced

/-! ### Registrations -/

/-- The caches of a new view. -/
def newViewCache (writesCache : FWriteTreeRef cmp scmp L) (serverCache : FCacheNode cmp L) :
    FViewCache cmp L :=
  ⟨match writesCache.calculateCompleteEventCache
      (if serverCache.isFullyInitialized then some serverCache.node else none) with
    | some eventCache => ⟨eventCache, true⟩
    | none => ⟨writesCache.calculateCompleteEventChildren serverCache.node, false⟩, serverCache⟩

omit [DecidableEq L] in
theorem shows_newViewCache {w : FWriteTreeRef cmp scmp L} {serverCache : FCacheNode cmp L}
    {f : List K → Option L}
    (hserver : serverCache.isFullyInitialized = true → serverCache.node.leaves = f)
    (hplaced : ∀ q, Placed w.overlay q → Clear f q) :
    FViewProcessor.Shows (newViewCache w serverCache) w.overlay f := by
  cases hinit : serverCache.isFullyInitialized with
  | true =>
    have hleaves := hserver hinit
    have hclear : ∀ q, Placed w.overlay q → Clear serverCache.node.leaves q := by
      rw [hleaves]
      exact hplaced
    obtain ⟨m, hm, hmleaves⟩ := w.calculateCompleteEventCache_some hclear
    refine ⟨fun _ => hleaves, fun _ => ?_⟩
    unfold newViewCache
    rw [hinit, if_pos rfl, hm, ← hleaves]
    exact ⟨rfl, hmleaves⟩
  | false =>
    by_cases hnone : w.overlay [] = none
    · exact FViewProcessor.shows_of_unknown hinit hnone
    · refine ⟨fun h => ?_, fun _ => ?_⟩
      · have hfalse : serverCache.isFullyInitialized = true := h
        rw [hinit] at hfalse
        cases hfalse
      · obtain ⟨m, hm⟩ := Option.isSome_iff_exists.mp
          (FWriteTreeRef.isSome_shadowingWriteAtPath.mpr hnone)
        have hcache : w.calculateCompleteEventCache none = some m := by
          rw [FWriteTreeRef.calculateCompleteEventCache_none, hm]
        have hoverlay : w.overlay = FCompoundWrite.shade m := by
          have hbelow := FCompoundWrite.below_overlay hm
          rw [List.append_nil] at hbelow
          exact hbelow
        unfold newViewCache
        rw [hinit, if_neg Bool.false_ne_true, hcache, hoverlay]
        exact ⟨rfl, rfl⟩

omit [DecidableEq K] [TransCmp cmp] [LawfulEqCmp cmp] [TransCmp scmp] [LawfulEqCmp scmp]
  [DecidableEq L] in
theorem leaves_completeServerCacheFor {view : FView cmp L} {f : List K → Option L}
    (h : view.viewCache.cachedServerSnap.isFullyInitialized = true →
      view.viewCache.cachedServerSnap.node.leaves = f) {path : List K} {node : Node cmp L}
    (hnode : view.completeServerCacheFor path = some node) : node.leaves = below path f := by
  obtain ⟨m, hm, rfl⟩ := Option.map_eq_some_iff.mp hnode
  unfold FViewCache.completeServerSnap at hm
  split at hm
  · rename_i hinit
    cases hm
    rw [Node.leaves_getChild, h hinit]
  · cases hm

omit [DecidableEq K] [TransCmp cmp] [LawfulEqCmp cmp] [TransCmp scmp] [LawfulEqCmp scmp]
  [DecidableEq L] in
theorem leaves_serverCacheOnPath {tree : FImmutableTree K (FView cmp L)} {f : List K → Option L}
    (h : ∀ p view, tree.valueAtPath scmp p = some view →
      view.viewCache.cachedServerSnap.isFullyInitialized = true →
        view.viewCache.cachedServerSnap.node.leaves = below p f)
    {path : List K} {node : Node cmp L} (hnode : serverCacheOnPath scmp tree path = some node) :
    node.leaves = below path f := by
  induction path generalizing tree f with
  | nil =>
    obtain ⟨value, children⟩ := tree
    obtain ⟨view, rfl, hcache⟩ := Option.bind_eq_some_iff.mp hnode
    exact leaves_completeServerCacheFor (h [] view (FImmutableTree.valueAtPath_nil _)) hcache
  | cons k path ih =>
    obtain ⟨value, children⟩ := tree
    unfold serverCacheOnPath at hnode
    rcases Option.or_eq_some_iff.mp hnode with hfirst | ⟨-, hrest⟩
    · obtain ⟨view, rfl, hcache⟩ := Option.bind_eq_some_iff.mp hfirst
      exact leaves_completeServerCacheFor (h [] view (FImmutableTree.valueAtPath_nil _)) hcache
    · cases hfind : Entries.find scmp k children with
      | none =>
        rw [hfind] at hrest
        cases hrest
      | some child =>
        rw [hfind] at hrest
        have hchild : (FImmutableTree.node value children).childAt scmp k = child := by
          rw [FImmutableTree.childAt, FImmutableTree.children, hfind]
          rfl
        have hbelow : ∀ p view, child.valueAtPath scmp p = some view →
            view.viewCache.cachedServerSnap.isFullyInitialized = true →
              view.viewCache.cachedServerSnap.node.leaves = below p (below [k] f) := by
          intro p view hp hinit
          rw [← below_append]
          refine h (k :: p) view ?_ hinit
          rw [FImmutableTree.valueAtPath_cons, hchild, hp]
        rw [ih hbelow hrest, ← below_append]
        rfl

omit [DecidableEq K] [LawfulEqCmp cmp] [TransCmp scmp] [LawfulEqCmp scmp] [DecidableEq L] in
theorem leaves_serverCacheForQuery {t : FSyncTree cmp scmp L} {f : List K → Option L}
    (h : ∀ p view, t.syncPointTree.valueAtPath scmp p = some view →
      view.viewCache.cachedServerSnap.isFullyInitialized = true →
        view.viewCache.cachedServerSnap.node.leaves = below p f) (path : List K)
    (hinit : (t.serverCacheForQuery path).isFullyInitialized = true) :
    (t.serverCacheForQuery path).node.leaves = below path f := by
  unfold serverCacheForQuery at hinit ⊢
  split
  · rename_i node hnode
    exact leaves_serverCacheOnPath h hnode
  · rename_i hnone
    rw [hnone] at hinit
    cases hinit

omit [DecidableEq K] [TransCmp cmp] [LawfulEqCmp cmp] [TransCmp scmp] [LawfulEqCmp scmp]
  [DecidableEq L] in
@[simp] theorem pendingWriteTree_foldl_startListening (t : FSyncTree cmp scmp L)
    (paths : List (List K)) :
    (paths.foldl startListening t).pendingWriteTree = t.pendingWriteTree := by
  induction paths generalizing t with
  | nil => rfl
  | cons path paths ih =>
    rw [List.foldl_cons, ih]
    rfl

omit [TransCmp cmp] [LawfulEqCmp cmp] [TransCmp scmp] [LawfulEqCmp scmp] [DecidableEq L] in
@[simp] theorem pendingWriteTree_foldl_stopListening (t : FSyncTree cmp scmp L)
    (paths : List (List K)) :
    (paths.foldl stopListening t).pendingWriteTree = t.pendingWriteTree := by
  induction paths generalizing t with
  | nil => rfl
  | cons path paths ih =>
    rw [List.foldl_cons, ih]
    rfl

omit [TransCmp cmp] [LawfulEqCmp cmp] [TransCmp scmp] [LawfulEqCmp scmp] [DecidableEq L] in
@[simp] theorem pendingWriteTree_setupListenerOnQuery (t : FSyncTree cmp scmp L)
    (path : List K) : (t.setupListenerOnQuery path).pendingWriteTree = t.pendingWriteTree := by
  unfold setupListenerOnQuery
  rw [pendingWriteTree_foldl_stopListening]
  rfl

/-- A registration leaves the writes alone, and a view that it makes starts with its caches. -/
theorem caches_addEventRegistration {t u : FSyncTree cmp scmp L} (h : t.Well)
    {r : FEventRegistration} {path : List K} {events : List (FDataEvent cmp L)}
    (hu : t.addEventRegistration r path = some (u, events)) :
    u.pendingWriteTree = t.pendingWriteTree ∧
      ∀ p view, u.syncPointTree.valueAtPath scmp p = some view →
        (∃ old, t.syncPointTree.valueAtPath scmp p = some old ∧ view.viewCache = old.viewCache) ∨
        (p = path ∧ view.viewCache =
          newViewCache ⟨path, t.pendingWriteTree⟩ (t.serverCacheForQuery path)) := by
  unfold addEventRegistration at hu
  dsimp only at hu
  split at hu
  · rename_i old hold
    obtain ⟨⟨view, events'⟩, hadded, heq⟩ := Option.map_eq_some_iff.mp hu
    cases heq
    obtain ⟨_, -, heq⟩ := Option.map_eq_some_iff.mp hadded
    cases heq
    refine ⟨rfl, fun p view hp => Or.inl ?_⟩
    rw [FImmutableTree.valueAtPath_setValue h.sound] at hp
    split at hp
    · rename_i hpath
      cases hp
      exact ⟨old, hpath ▸ hold, rfl⟩
    · exact ⟨view, hp, rfl⟩
  · obtain ⟨⟨new, events'⟩, hadded, heq⟩ := Option.map_eq_some_iff.mp hu
    obtain ⟨_, -, hnew⟩ := Option.map_eq_some_iff.mp hadded
    cases hnew
    have htree : u.syncPointTree = t.syncPointTree.setValue scmp
        ((FView.initWithQuery path (newViewCache ⟨path, t.pendingWriteTree⟩
          (t.serverCacheForQuery path))).addEventRegistration r) path ∧
        u.pendingWriteTree = t.pendingWriteTree := by
      obtain rfl := (Prod.mk.inj heq).1
      split
      · exact ⟨rfl, rfl⟩
      · exact ⟨syncPointTree_setupListenerOnQuery _ _, pendingWriteTree_setupListenerOnQuery _ _⟩
    refine ⟨htree.2, fun p view hp => ?_⟩
    rw [htree.1, FImmutableTree.valueAtPath_setValue h.sound] at hp
    split at hp
    · rename_i hpath
      cases hp
      exact Or.inr ⟨hpath, rfl⟩
    · exact Or.inl ⟨view, hp, rfl⟩

omit [TransCmp cmp] [LawfulEqCmp cmp] [DecidableEq L] in
theorem caches_removeEventRegistration {t : FSyncTree cmp scmp L} (h : t.Well)
    (r : Option FEventRegistration) (path : List K) (cancelError : Bool) :
    (t.removeEventRegistration r path cancelError).pendingWriteTree = t.pendingWriteTree ∧
      ∀ p view, (t.removeEventRegistration r path cancelError).syncPointTree.valueAtPath scmp p =
        some view → ∃ old, t.syncPointTree.valueAtPath scmp p = some old ∧
          view.viewCache = old.viewCache := by
  unfold removeEventRegistration
  split
  · exact ⟨rfl, fun p view hp => ⟨view, hp, rfl⟩⟩
  · rename_i old hold
    dsimp only
    by_cases hempty : (remainingRegistrations r old.eventRegistrations).isEmpty = true
    · rw [if_pos hempty]
      have hremoved : ∀ u : FSyncTree cmp scmp L,
          u.syncPointTree = t.syncPointTree.removeValueAtPath scmp path →
          u.pendingWriteTree = t.pendingWriteTree → u.pendingWriteTree = t.pendingWriteTree ∧
            ∀ p view, u.syncPointTree.valueAtPath scmp p = some view →
              ∃ old, t.syncPointTree.valueAtPath scmp p = some old ∧
                view.viewCache = old.viewCache := by
        intro u hu hw
        refine ⟨hw, fun p view hp => ?_⟩
        rw [hu, FImmutableTree.valueAtPath_removeValueAtPath h.sound] at hp
        split at hp
        · cases hp
        · exact ⟨view, hp, rfl⟩
      apply hremoved
      · split
        · rfl
        · split
          · rw [foldl_startListening]
          · rw [syncPointTree_stopListening, foldl_startListening]
      · split
        · rfl
        · split
          · rw [pendingWriteTree_foldl_startListening]
          · exact pendingWriteTree_foldl_startListening _ _
    · rw [if_neg hempty]
      refine ⟨rfl, fun p view hp => ?_⟩
      rw [FImmutableTree.valueAtPath_setValue h.sound] at hp
      split at hp
      · rename_i hpath
        cases hp
        exact ⟨old, hpath ▸ hold, rfl⟩
      · exact ⟨view, hp, rfl⟩

/-! ### Every event -/

omit [TransCmp cmp] [LawfulEqCmp cmp] [TransCmp scmp] [LawfulEqCmp scmp] [DecidableEq L] in
/-- New writes do not go below those that are pending. -/
theorem Settled.fits_new (h : Settled u) {records : List (FWriteRecord cmp scmp L)}
    {pvs : List (List K × Node cmp L)}
    (hpending : pending u.tree.pendingWriteTree.allWrites = pending records ++ pvs) :
    Fits (leavesOf pvs) (layer (leavesOf (pending records)) (fun _ => none)) := by
  have hall : Fits (leavesOf (pending u.tree.pendingWriteTree.allWrites)) (fun _ => none) :=
    Fits.of_le h fun _ => Or.inl rfl
  rw [hpending, FWriteTree.leavesOf_append] at hall
  exact (fits_append.mp hall).2

theorem Replicates.userOverwrite (h : Replicates s) (hsettled : Settled u) {path : List K}
    {newData : Node cmp L} {writeId : ℤ} {visible : Bool}
    (hu : replicate s (.userOverwrite path newData writeId visible) = some u) :
    Replicates u := by
  obtain ⟨⟨tree, events⟩, hreceive, rfl⟩ := Option.map_eq_some_iff.mp hu
  have hwell := h.well.receive hreceive
  obtain ⟨writes, hadd, happly⟩ := Option.bind_eq_some_iff.mp hreceive
  have hpending : pending writes.allWrites = pending s.tree.pendingWriteTree.allWrites ++
      (if visible then [(path, newData)] else []) := by
    unfold FWriteTree.addOverwriteAtPath at hadd
    split at hadd
    · cases hadd
      exact FWriteTree.pending_append_singleton ..
    · cases hadd
  cases visible with
  | true =>
    dsimp only at happly
    rw [if_pos rfl] at happly hpending
    obtain ⟨hsame, hspreads⟩ := spreads_of_apply h.well (by rfl) happly
    have hpending' : pending tree.pendingWriteTree.allWrites =
        pending s.tree.pendingWriteTree.allWrites ++ [(path, newData)] := by
      rw [hsame]
      exact hpending
    have hcovers : writes.Covers :=
      h.covers.addOverwriteAtPath hadd fun _ => (hsettled.fits_new hpending').1
    have hcovers' : tree.pendingWriteTree.Covers := by
      rw [hsame]
      exact hcovers
    exact h.user hwell hsettled (by rfl)
      (effect_overwrite true path newData) hpending' hcovers' rfl hspreads
  | false =>
    have hcovers := h.covers.addOverwriteAtPath hadd fun h => by cases h
    cases happly
    refine h.quiet hwell (fun p view hp => ⟨view, hp, rfl⟩) hcovers ?_ rfl
    unfold FWriteTree.addOverwriteAtPath at hadd
    split at hadd
    · cases hadd
      rfl
    · cases hadd

theorem Replicates.userMerge (h : Replicates s) (hsettled : Settled u) {path : List K}
    {changedChildren : FCompoundWrite cmp scmp L} {writeId : ℤ}
    (hu : replicate s (.userMerge path changedChildren writeId) = some u) : Replicates u := by
  obtain ⟨⟨tree, events⟩, hreceive, rfl⟩ := Option.map_eq_some_iff.mp hu
  have hwell := h.well.receive hreceive
  obtain ⟨writes, hadd, happly⟩ := Option.bind_eq_some_iff.mp hreceive
  obtain ⟨hsame, hspreads⟩ := spreads_of_apply h.well (by rfl) happly
  have hpending : pending tree.pendingWriteTree.allWrites =
      pending s.tree.pendingWriteTree.allWrites ++
        changedChildren.writes.map (fun pv => (path ++ pv.1, pv.2)) := by
    rw [hsame]
    unfold FWriteTree.addMergeAtPath at hadd
    split at hadd
    · cases hadd
      exact FWriteTree.pending_append_singleton ..
    · cases hadd
  have hcovers : writes.Covers := h.covers.addMergeAtPath hadd (hsettled.fits_new hpending)
  have hcovers' : tree.pendingWriteTree.Covers := by
    rw [hsame]
    exact hcovers
  exact h.user hwell hsettled (by rfl)
    (effect_merge true path changedChildren) hpending hcovers' rfl hspreads

theorem Replicates.serverEvent (h : Replicates s) (hsettled : Settled u)
    (e : SyncEvent cmp scmp L) (operation : FOperation cmp scmp L)
    (hoperation : s.tree.receive e = s.tree.applyOperationToSyncPoints operation)
    (hwrite : operation.IsWrite false) (hrootless : operation.Rootless)
    (heffect : operation.effect = cover (leavesOf (serverWrites e)))
    (hfits : Fits (leavesOf (serverWrites e)) s.told.leaves)
    (hu : replicate s e = some u) : Replicates u := by
  obtain ⟨⟨tree, events⟩, hreceive, rfl⟩ := Option.map_eq_some_iff.mp hu
  have hwell := h.well.receive hreceive
  rw [hoperation] at hreceive
  obtain ⟨hsame, hspreads⟩ := spreads_of_apply h.well (by rfl) hreceive
  exact h.server hwell hsettled hwrite hrootless heffect hfits hsame rfl hspreads

theorem Replicates.listenCompleteEvent (h : Replicates s) (hs : Settled s) {path : List K}
    (hok : InOrder s (.listenComplete path))
    (hu : replicate s (.listenComplete path) = some u) : Replicates u := by
  obtain ⟨⟨tree, events⟩, hreceive, rfl⟩ := Option.map_eq_some_iff.mp hu
  have hwell := h.well.receive hreceive
  obtain ⟨hsame, hspreads⟩ := spreads_of_apply h.well (by rfl) hreceive
  exact h.listenComplete hwell hs hok.1 hok.2 hsame rfl hspreads

theorem Replicates.ackUserWrite (h : Replicates s) (hs : Settled s) (hsettled : Settled u)
    {writeId : ℤ} {revert : Bool} (hok : InOrder s (.ackUserWrite writeId revert))
    (hu : replicate s (.ackUserWrite writeId revert) = some u) : Replicates u := by
  obtain ⟨⟨tree, events⟩, hreceive, rfl⟩ := Option.map_eq_some_iff.mp hu
  have hwell := h.well.receive hreceive
  unfold receive ackUserWriteWithWriteId at hreceive
  dsimp only at hreceive
  split at hreceive
  · rename_i write writes needToReevaluate hwrite hremove
    obtain ⟨earlier, w, later, hall, hid, hfirst, hall', hcase⟩ :=
      FWriteTree.removeWriteId_cases hremove
    obtain rfl : write = w := by
      rw [FWriteTree.writeForId, hall, List.find?_append,
        List.find?_eq_none.mpr (fun r hr => by simpa using hfirst r hr), Option.none_or,
        List.find?_cons_of_pos (by simpa using hid)] at hwrite
      exact (Option.some.inj hwrite).symm
    have hcovers : writes.Covers := h.covers.removeWriteId hremove fun earlier w later h₁ h₂ h₃ =>
      (hok earlier w later h₁ h₂ h₃).1
    obtain ⟨-, hvisible⟩ := hok earlier write later hall hid hfirst
    cases needToReevaluate with
    | true =>
      rw [if_pos rfl] at hreceive
      obtain ⟨hsame, hspreads⟩ := spreads_of_apply h.well (by rfl) hreceive
      have hv : write.visible = true := by
        rcases hcase with ⟨hfalse, -⟩ | ⟨-, hv, -⟩ | ⟨-, hv, -⟩
        · cases hfalse
        · exact hv
        · exact hv
      have hsame' : tree.pendingWriteTree = writes := hsame
      exact h.answer hwell hs hsettled hall (hsame' ▸ hall') hv (hvisible hv).1 (hvisible hv).2
        (hsame' ▸ hcovers) rfl hspreads
    | false =>
      rw [if_neg Bool.false_ne_true] at hreceive
      cases hreceive
      refine h.quiet hwell (fun p view hp => ⟨view, hp, rfl⟩) hcovers ?_ rfl
      rcases hcase with ⟨-, -, hsame⟩ | ⟨htrue, -⟩ | ⟨htrue, -⟩
      · exact congrArg FCompoundWrite.overlay hsame
      · cases htrue
      · cases htrue
  · cases hreceive

theorem Replicates.removeAllWrites (h : Replicates s)
    (hu : replicate s .removeAllWrites = some u) : Replicates u := by
  obtain ⟨⟨tree, events⟩, hreceive, rfl⟩ := Option.map_eq_some_iff.mp hu
  have hwell := h.well.receive hreceive
  unfold receive FSyncTree.removeAllWrites FWriteTree.removeAllWrites at hreceive
  dsimp only at hreceive
  split at hreceive
  · rename_i hnone
    cases hreceive
    refine h.quiet hwell (fun p view hp => ⟨view, hp, rfl⟩) FWriteTree.covers_empty ?_ rfl
    rw [h.covers, List.isEmpty_iff.mp hnone]
    exact FCompoundWrite.overlay_emptyWrite
  · obtain ⟨hsame, hspreads⟩ := spreads_of_apply h.well (by rfl) hreceive
    have hcovers : tree.pendingWriteTree.Covers := by
      rw [hsame]
      exact FWriteTree.covers_empty
    have hnone : tree.pendingWriteTree.visibleWrites.overlay = fun _ => none := by
      rw [hsame]
      exact FCompoundWrite.overlay_emptyWrite
    have hvalue : ∀ q, (FImmutableTree.empty.setValue scmp () []).valueAtPath scmp q ≠ none ↔
        q = [] := by
      intro q
      rw [FImmutableTree.valueAtPath_setValue FImmutableTree.sound_empty]
      split <;> simp_all
    have haffects : ∀ a, Affects scmp [] (FImmutableTree.empty.setValue scmp () []) a ↔
        a = [] := by
      intro a
      unfold Affects
      simp only [hvalue, List.nil_append, exists_eq_left]
      exact eq_comm
    have halone : Alone ((FImmutableTree.empty.setValue scmp () []).valueAtPath scmp) := by
      intro q hq
      rw [(hvalue q).mp hq]
      exact clear_nil _
    obtain hreaching := fun p => answers_reaching L cmp true
      (FImmutableTree.sound_empty.setValue () []) halone p
    refine .of_spreads hwell hspreads hcovers fun p view hview => ?_
    have hshows := h.views p view hview
    have hbelow : below p tree.pendingWriteTree.visibleWrites.overlay = fun _ => none := by
      rw [hnone]
      rfl
    obtain ⟨hmiss, hsome⟩ := hreaching p
    constructor
    · intro hreach
      exact absurd List.nil_prefix (hmiss hreach [] [] ((haffects []).mpr rfl))
    · intro o serverCache hreach
      obtain ⟨path', tree', rfl, hanswers⟩ := hsome o hreach
      refine hshows.receiveAnswer (w := ⟨p, tree.pendingWriteTree⟩) hanswers.sound ?_
        (fun q hq => ?_) (fun q hq => ?_) (fun a ha => ?_) ?_ (fun q hq => ?_) serverCache
      · intro q r hq
        exact absurd (congrFun hbelow q) hq
      · exact absurd (congrFun hbelow q) hq
      · obtain ⟨a, ha, hpre⟩ := hanswers.reaches q ⟨[], (haffects []).mpr rfl, List.nil_prefix⟩
        exact absurd hpre (hq a ha)
      · rcases hanswers.comes a ha with rfl | hin
        · exact clear_nil _
        · rw [(List.append_eq_nil_iff.mp ((haffects _).mp hin)).2]
          exact clear_nil _
      · rcases hanswers.path with rfl | heq
        · exact clear_nil _
        · rw [(List.append_eq_nil_iff.mp heq).2]
          exact clear_nil _
      · exact absurd (congrFun hbelow q) hq.1

theorem Replicates.addEventRegistration (h : Replicates s) (hs : Settled s)
    {r : FEventRegistration} {path : List K}
    (hu : replicate s (.addEventRegistration r path) = some u) : Replicates u := by
  obtain ⟨⟨tree, events⟩, hreceive, rfl⟩ := Option.map_eq_some_iff.mp hu
  have hwell := h.well.receive hreceive
  obtain ⟨hsame, hviews⟩ := caches_addEventRegistration h.well hreceive
  have hsame' : tree.pendingWriteTree = s.tree.pendingWriteTree := hsame
  have hcovers : tree.pendingWriteTree.Covers := hsame' ▸ h.covers
  refine ⟨hwell, hcovers, fun p view hview => ?_⟩
  dsimp only
  rw [hsame']
  rcases hviews p view hview with ⟨old, hold, hcache⟩ | ⟨rfl, hcache⟩
  · rw [hcache]
    exact h.views p old hold
  · rw [hcache]
    refine shows_newViewCache (fun hinit => ?_) fun q hq => ?_
    · refine leaves_serverCacheForQuery (fun p view hp hinit => ?_) p hinit
      exact (h.views p view hp).server hinit
    · exact hs.clear_below h.covers hq

theorem Replicates.removeEventRegistration (h : Replicates s) {r : Option FEventRegistration}
    {path : List K} {cancelError : Bool}
    (hu : replicate s (.removeEventRegistration r path cancelError) = some u) :
    Replicates u := by
  cases hu
  obtain ⟨hsame, hviews⟩ := caches_removeEventRegistration h.well r path cancelError
  refine h.quiet (removeEventRegistration_eq h.well r path cancelError).1 hviews ?_ ?_ rfl
  · exact hsame ▸ h.covers
  · exact congrArg (fun w => w.visibleWrites.overlay) hsame

theorem Replicates.step (h : Replicates s) (hs : Settled s) (hsettled : Settled u)
    {e : SyncEvent cmp scmp L} (hok : InOrder s e) (hu : replicate s e = some u) :
    Replicates u := by
  cases e with
  | userOverwrite path newData writeId visible => exact h.userOverwrite hsettled hu
  | userMerge path changedChildren writeId => exact h.userMerge hsettled hu
  | ackUserWrite writeId revert => exact h.ackUserWrite hs hsettled hok hu
  | removeAllWrites => exact h.removeAllWrites hu
  | serverOverwrite path newData =>
    exact h.serverEvent hsettled (.serverOverwrite path newData) (.overwrite false path newData)
      rfl rfl trivial (effect_overwrite false path newData) ⟨hok, trivial⟩ hu
  | serverMerge path changedChildren =>
    refine h.serverEvent hsettled (.serverMerge path changedChildren)
      (.merge false path changedChildren) rfl rfl ?_ (effect_merge false path changedChildren)
      hok.2 hu
    refine FCompoundWrite.overlayOf_eq_none.mpr ⟨clear_nil _, ?_⟩
    rw [FImmutableTree.valueAtPath_nil]
    exact hok.1
  | listenComplete path => exact h.listenCompleteEvent hs hok hu
  | addEventRegistration r path => exact h.addEventRegistration hs hu
  | removeEventRegistration r path cancelError => exact h.removeEventRegistration hu

/-! ## Runs -/

omit [TransCmp scmp] [LawfulEqCmp scmp] [DecidableEq L] in
theorem Replicates.view (h : Replicates s) (hs : Settled s) {p : List K} {view : FView cmp L}
    (hview : s.tree.syncPointTree.valueAtPath scmp p = some view) :
    (view.viewCache.completeServerSnap ≠ none →
      view.viewCache.completeServerSnap = some (s.told.getChild p)) ∧
    (view.viewCache.completeServerSnap ≠ none ∨
        (∃ pv ∈ pending s.tree.pendingWriteTree.allWrites, pv.1 <+: p) →
      view.viewCache.completeEventSnap = some ((updateChildren s.told
        (pending s.tree.pendingWriteTree.allWrites)).getChild p)) := by
  have hshows := h.views p view hview
  have hinit : view.viewCache.completeServerSnap ≠ none →
      view.viewCache.cachedServerSnap.isFullyInitialized = true := by
    unfold FViewCache.completeServerSnap
    split <;> simp_all
  constructor
  · intro hcomplete
    unfold FViewCache.completeServerSnap
    rw [if_pos (hinit hcomplete)]
    refine congrArg some (Node.eq_of_leaves ?_)
    rw [hshows.server (hinit hcomplete), Node.leaves_getChild]
  · intro hcase
    have hshown : view.viewCache.cachedServerSnap.isFullyInitialized = true ∨
        below p s.tree.pendingWriteTree.visibleWrites.overlay [] ≠ none := by
      refine hcase.imp hinit ?_
      rintro ⟨pv, hpv, hpre⟩ hnone
      rw [h.covers, below_apply, List.append_nil] at hnone
      exact FWriteTree.cover_leavesOf_eq_none.mp hnone pv hpv hpre
    obtain ⟨hcomplete, hleaves⟩ := hshows.event hshown
    unfold FViewCache.completeEventSnap
    rw [if_pos hcomplete]
    refine congrArg some (Node.eq_of_leaves ?_)
    rw [hleaves, Node.leaves_getChild, FCompoundWrite.leaves_updateChildren
      hs, layer_eq_shown, below_shown, h.covers]

end Replication

end FSyncTree

end HateBlocker
