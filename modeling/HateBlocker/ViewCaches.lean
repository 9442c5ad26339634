-- What the caches of a view hold: the server's data in one, and in the other the same data
-- under what the pending writes cover. Each operation of the view processor keeps them so,
-- and an answer of the server to a write lets the data below it through again.
import HateBlocker.ViewProcessor
import HateBlocker.PendingWrites

open Std PathMaps

namespace HateBlocker

open FCompoundWrite (shade leavesOf)

variable {K L : Type} {cmp scmp : K → K → Ordering}

/-! ## Writes, seen from a view -/

namespace FWriteTreeRef

/-- What the visible writes cover, from the path of the view on. -/
def overlay (w : FWriteTreeRef cmp scmp L) : List K → Option (Option L) :=
  below w.path w.writeTree.visibleWrites.overlay

section Laws

variable [DecidableEq K] {w : FWriteTreeRef cmp scmp L}

theorem shadowingWriteAtPath_eq_none {path : List K} :
    w.shadowingWriteAtPath path = none ↔ w.overlay path = none :=
  FWriteTree.shadowingWriteAtPath_eq_none

theorem isSome_shadowingWriteAtPath {path : List K} :
    (w.shadowingWriteAtPath path).isSome = true ↔ w.overlay path ≠ none := by
  rw [Option.isSome_iff_ne_none, ne_eq, shadowingWriteAtPath_eq_none]

variable [TransCmp cmp] [LawfulEqCmp cmp] [TransCmp scmp] [LawfulEqCmp scmp]

/-- No placed write goes below a value of the data. -/
theorem calculateCompleteEventCache_some {node : Node cmp L}
    (h : ∀ q, Placed w.overlay q → Clear node.leaves q) :
    ∃ m, w.calculateCompleteEventCache (some node) = some m ∧
      m.leaves = shown w.overlay node.leaves :=
  FWriteTree.calculateCompleteEventCacheAtPath_some h

omit [LawfulEqCmp cmp] in
theorem calculateCompleteEventCache_none :
    w.calculateCompleteEventCache none = w.shadowingWriteAtPath [] := by
  unfold calculateCompleteEventCache shadowingWriteAtPath
  rw [FWriteTree.calculateCompleteEventCacheAtPath_none, List.append_nil]

omit [DecidableEq K] [TransCmp cmp] [LawfulEqCmp cmp] [TransCmp scmp] [LawfulEqCmp scmp] in
theorem below_overlay (path : List K) :
    below path w.overlay = below (w.path ++ path) w.writeTree.visibleWrites.overlay :=
  (below_append w.path path _).symm

omit [TransCmp scmp] in
theorem calculateEventCacheAfterServerOverwrite_some {path : List K} {node : Node cmp L}
    (hnone : w.overlay path = none)
    (h : ∀ q, Placed (below path w.overlay) q → Clear (below path node.leaves) q) :
    ∃ m, w.calculateEventCacheAfterServerOverwrite path node = some m ∧
      m.leaves = below path (shown w.overlay node.leaves) := by
  rw [below_overlay] at h
  have hplaced : ∀ q, Placed (below (w.path ++ path) w.writeTree.visibleWrites.overlay) q →
      Clear (node.getChild path).leaves q := by
    rwa [Node.leaves_getChild]
  obtain ⟨m, hm, hleaves⟩ :=
    FWriteTree.calculateEventCacheAfterServerOverwriteAtPath_some hnone hplaced
  refine ⟨m, hm, ?_⟩
  rw [hleaves]
  funext q
  simp [below, shown, overlay]

omit [TransCmp scmp] in
/-- The child of complete data. -/
theorem calculateCompleteChild_some {k : K} {cache : FCacheNode cmp L}
    (hcomplete : cache.isFullyInitialized = true)
    (h : ∀ q, Placed (below [k] w.overlay) q → Clear (below [k] cache.node.leaves) q) :
    ∃ m, w.calculateCompleteChild k cache = some m ∧
      m.leaves = below [k] (shown w.overlay cache.node.leaves) := by
  unfold calculateCompleteChild
  dsimp only
  cases hfind : w.writeTree.visibleWrites.completeNodeAtPath (w.path ++ [k]) with
  | some shadowingNode =>
    refine ⟨shadowingNode, rfl, ?_⟩
    have hshade := FCompoundWrite.below_overlay hfind
    rw [← below_overlay] at hshade
    rw [below_shown, hshade]
    rfl
  | none =>
    have hcache : cache.isCompleteForChild k = true := by
      simp [FCacheNode.isCompleteForChild, hcomplete]
    dsimp only
    rw [if_pos hcache]
    refine ⟨_, rfl, ?_⟩
    rw [below_overlay] at h
    rw [FWriteTree.leaves_childWrites (by rwa [Node.leaves_getImmediateChild]),
      Node.leaves_getImmediateChild]
    funext q
    simp [below, shown, overlay]

end Laws

end FWriteTreeRef

namespace FViewProcessor

open FIndexedFilter

section Caches

variable [DecidableEq K] [TransCmp cmp] [LawfulEqCmp cmp] [TransCmp scmp] [LawfulEqCmp scmp]
  [DecidableEq L]

omit [TransCmp scmp] [LawfulEqCmp scmp] in
/-- A child that is updated on the affected path only. -/
theorem updateChildIn_updateChild {node m : Node cmp L} {childKey : K} {path : List K}
    (h : Clear node.leaves (childKey :: path)) :
    (updateChildIn node childKey ((node.getImmediateChild childKey).updateChild path m) path).1 =
      node.updateChild (childKey :: path) m := by
  rw [updateChildIn_fst, Node.updateChild_cons]
  intro q hq
  rw [Node.leaves_updateChild, graft_elsewhere _ _ hq]
  left
  rw [Node.leaves_getImmediateChild]
  exact (clear_cons.mp h).2

/-! ## The event cache after an event of the server -/

@[simp] theorem generate_server (v : FViewCache cmp L) (path : List K)
    (w : FWriteTreeRef cmp scmp L) :
    (generateEventCacheAfterServerEvent v path w).1.cachedServerSnap = v.cachedServerSnap := by
  unfold generateEventCacheAfterServerEvent
  split
  · rfl
  · cases path <;> rfl

theorem generate_of_shadowed {v : FViewCache cmp L} {path : List K}
    {w : FWriteTreeRef cmp scmp L} (h : w.overlay path ≠ none) :
    generateEventCacheAfterServerEvent v path w = (v, []) := by
  unfold generateEventCacheAfterServerEvent
  rw [if_pos (FWriteTreeRef.isSome_shadowingWriteAtPath.mpr h)]

/-- From the path on the event cache becomes the data under the writes. -/
theorem generate_event {v : FViewCache cmp L} {path : List K} {w : FWriteTreeRef cmp scmp L}
    (hcomplete : path = [] → v.cachedServerSnap.isFullyInitialized = true)
    (hevent : path ≠ [] → v.cachedEventSnap.isFullyInitialized = true)
    (hnone : w.overlay path = none) (hclear : Clear v.cachedEventSnap.node.leaves path)
    (hplaced : ∀ q, Placed (below path w.overlay) q →
      Clear (below path v.cachedServerSnap.node.leaves) q) :
    (generateEventCacheAfterServerEvent v path w).1.cachedEventSnap.isFullyInitialized = true ∧
      (generateEventCacheAfterServerEvent v path w).1.cachedEventSnap.node.leaves =
        graft path (below path (shown w.overlay v.cachedServerSnap.node.leaves))
          v.cachedEventSnap.node.leaves := by
  have hshadow : (w.shadowingWriteAtPath path).isSome = false := by
    rw [FWriteTreeRef.shadowingWriteAtPath_eq_none.mpr hnone]
    rfl
  unfold generateEventCacheAfterServerEvent
  rw [hshadow]
  cases path with
  | nil =>
    obtain ⟨m, hm, hleaves⟩ :=
      FWriteTreeRef.calculateCompleteEventCache_some (w := w) hplaced
    have hsnap : v.completeServerSnap = some v.cachedServerSnap.node := by
      simp [FViewCache.completeServerSnap, hcomplete rfl]
    refine ⟨by simp, ?_⟩
    simp only [Bool.false_eq_true, if_false, updateFullNode, FViewCache.updateEventSnap_event,
      hsnap, hm, Option.getD_some]
    rw [hleaves, graft_nil]
    rfl
  | cons childKey childPath =>
    have hinit := hevent (by simp)
    obtain ⟨m, hm, hleaves⟩ :=
      FWriteTreeRef.calculateEventCacheAfterServerOverwrite_some hnone hplaced
    have hchild : newEventChild v childKey childPath w =
        some ((v.cachedEventSnap.node.getImmediateChild childKey).updateChild childPath m) := by
      simp [newEventChild, FCacheNode.isCompleteForChild, hinit, hm]
    refine ⟨by simp [hinit], ?_⟩
    simp only [Bool.false_eq_true, if_false, FViewCache.updateEventSnap_event, hchild]
    rw [updateChildIn_updateChild hclear, Node.leaves_updateChild (Or.inl hclear), hleaves]

/-! ## Overwrites by the server -/

/-- Whether the server's data are complete after an overwrite. -/
theorem init_applyServerOverwriteTo (v : FViewCache cmp L) (path : List K) (snap : Node cmp L)
    (w : FWriteTreeRef cmp scmp L) :
    (applyServerOverwriteTo v path snap w).1.cachedServerSnap.isFullyInitialized =
      (v.cachedServerSnap.isFullyInitialized || path.isEmpty) := by
  unfold applyServerOverwriteTo
  cases path with
  | nil => simp
  | cons childKey childPath =>
    dsimp only
    split
    · simp
    · simp

/-- An overwrite that is meant for this view changes the data and then the event cache. -/
theorem applyServerOverwriteTo_eq {v : FViewCache cmp L} {path : List K} {snap : Node cmp L}
    {w : FWriteTreeRef cmp scmp L}
    (hserver : v.cachedServerSnap.isFullyInitialized = true ∨ path = [])
    (hclear : Clear v.cachedServerSnap.node.leaves path) :
    applyServerOverwriteTo v path snap w = generateEventCacheAfterServerEvent
      (v.updateServerSnap (v.cachedServerSnap.node.updateChild path snap) true) path w := by
  unfold applyServerOverwriteTo
  cases path with
  | nil => simp [updateFullNode]
  | cons childKey childPath =>
    have hinit : v.cachedServerSnap.isFullyInitialized = true := by simpa using hserver
    simp [FCacheNode.isCompleteForPath, FCacheNode.isCompleteForChild, hinit,
      updateChildIn_updateChild hclear]

/-- Both caches are complete, with these data. -/
structure Complete (v : FViewCache cmp L) (f e : List K → Option L) : Prop where
  server_init : v.cachedServerSnap.isFullyInitialized = true
  server_leaves : v.cachedServerSnap.node.leaves = f
  event_init : v.cachedEventSnap.isFullyInitialized = true
  event_leaves : v.cachedEventSnap.node.leaves = e

/-- The event cache follows the data from the path on, and is elsewhere as it was. -/
theorem Complete.serverOverwrite {v : FViewCache cmp L} {f e : List K → Option L}
    (h : Complete v f e) {path : List K} (snap : Node cmp L) {w : FWriteTreeRef cmp scmp L}
    (hdown : Downward w.overlay) (hclear : Clear f path)
    (hevent : w.overlay path = none → Clear e path)
    (hplaced : w.overlay path = none → ∀ q, Placed (below path w.overlay) q →
      Clear snap.leaves q)
    (hshadow : w.overlay path ≠ none → below path e = below path (shown w.overlay f)) :
    Complete (applyServerOverwriteTo v path snap w).1 (graft path snap.leaves f)
      (graft path (below path (shown w.overlay (graft path snap.leaves f))) e) := by
  obtain ⟨hsinit, rfl, heinit, rfl⟩ := h
  rw [applyServerOverwriteTo_eq (Or.inl hsinit) hclear]
  have hleaves : (v.cachedServerSnap.node.updateChild path snap).leaves =
      graft path snap.leaves v.cachedServerSnap.node.leaves :=
    Node.leaves_updateChild (Or.inl hclear)
  by_cases hnone : w.overlay path = none
  · obtain ⟨hinit, hgenerate⟩ := generate_event (w := w)
      (v := v.updateServerSnap (v.cachedServerSnap.node.updateChild path snap) true)
      (fun _ => rfl) (fun _ => heinit) hnone (hevent hnone) (by
        rw [FViewCache.updateServerSnap_server, hleaves, below_graft]
        exact hplaced hnone)
    rw [FViewCache.updateServerSnap_server, hleaves] at hgenerate
    exact ⟨by simp, by simpa using hleaves, hinit, hgenerate⟩
  · rw [generate_of_shadowed hnone]
    refine ⟨rfl, hleaves, heinit, ?_⟩
    rw [below_shown_of_covered hdown hnone _ v.cachedServerSnap.node.leaves, ← hshadow hnone,
      FViewCache.updateServerSnap_event, graft_below]

/-- Children that are overwritten one after the other: the event cache follows all of them. -/
theorem Complete.serverChildren {w : FWriteTreeRef cmp scmp L} (hdown : Downward w.overlay)
    {children : List (K × Node cmp L)} (hnodup : (children.map Prod.fst).Nodup)
    (hplaced : ∀ c ∈ children, w.overlay [c.1] = none → ∀ q, Placed (below [c.1] w.overlay) q →
      Clear c.2.leaves q)
    {cur : Processed cmp L} {f e : List K → Option L} (h : Complete cur.1 f e)
    (hroot : children ≠ [] → f [] = none)
    (hothers : ∀ q, (∀ c ∈ children, ¬ [c.1] <+: q) → e q = shown w.overlay f q)
    (hshadow : ∀ c ∈ children, w.overlay [c.1] ≠ none →
      below [c.1] e = below [c.1] (shown w.overlay f)) :
    Complete (children.foldl (fun cur c =>
        ((applyServerOverwriteTo cur.1 [c.1] c.2 w).1,
          cur.2 ++ (applyServerOverwriteTo cur.1 [c.1] c.2 w).2)) cur).1
      (layer (children.map (fun c => ([c.1], c.2.leaves))) f)
      (shown w.overlay (layer (children.map (fun c => ([c.1], c.2.leaves))) f)) := by
  induction children generalizing cur f e with
  | nil =>
    have he : e = shown w.overlay f := by
      funext q
      exact hothers q (by simp)
    subst he
    exact h
  | cons c children ih =>
    obtain ⟨hne, hrest⟩ := List.nodup_cons.mp (List.map_cons .. ▸ hnodup)
    have hapart : ∀ c' ∈ children, Apart [c.1] [c'.1] := by
      intro c' hc'
      exact apart_singleton.mpr fun heq => hne (heq ▸ List.mem_map_of_mem hc')
    have hfroot : f [] = none := hroot (by simp)
    have hclear : Clear f [c.1] := clear_cons.mpr ⟨hfroot, clear_nil _⟩
    have hevent : w.overlay [c.1] = none → Clear e [c.1] := by
      intro hnone
      refine clear_cons.mpr ⟨?_, clear_nil _⟩
      rw [hothers [] (by simp), shown, hdown.none_above (p := []) hnone]
      exact hfroot
    have hstep := h.serverOverwrite c.2 hdown hclear hevent (hplaced c (by simp))
      (hshadow c (by simp))
    rw [List.foldl_cons, List.map_cons, layer_cons]
    refine ih hrest (fun c' hc' => hplaced c' (List.mem_cons_of_mem _ hc')) hstep ?_ ?_ ?_
    · intro _
      rw [graft_elsewhere _ _ (by simp)]
      exact hfroot
    · intro q hq
      by_cases hc : [c.1] <+: q
      · obtain ⟨r, rfl⟩ := hc
        rw [graft_append, below_apply]
      · have hall : ∀ c' ∈ c :: children, ¬ [c'.1] <+: q := by
          intro c' hc'
          rcases List.mem_cons.mp hc' with rfl | hc'
          · exact hc
          · exact hq c' hc'
        rw [graft_elsewhere _ _ hc, hothers q hall]
        unfold shown
        rw [graft_elsewhere _ _ hc]
    · intro c' hc' hcovered
      rw [below_graft_of_apart (hapart c' hc'), hshadow c' (List.mem_cons_of_mem _ hc') hcovered]
      exact below_shown_of_covered hdown hcovered _ _

/-! ## Caches that show the data under the writes -/

/-- Where the server's data are complete they are `f`; where they are, or the overlay covers
everything, the event cache shows them under the overlay. -/
structure Shows (v : FViewCache cmp L) (o : List K → Option (Option L))
    (f : List K → Option L) : Prop where
  server : v.cachedServerSnap.isFullyInitialized = true → v.cachedServerSnap.node.leaves = f
  event : v.cachedServerSnap.isFullyInitialized = true ∨ o [] ≠ none →
    v.cachedEventSnap.isFullyInitialized = true ∧ v.cachedEventSnap.node.leaves = shown o f

variable {v : FViewCache cmp L} {o : List K → Option (Option L)} {f : List K → Option L}
  {path : List K} {snap : Node cmp L} {w : FWriteTreeRef cmp scmp L}

omit [DecidableEq K] [TransCmp cmp] [LawfulEqCmp cmp] [DecidableEq L] in
theorem Shows.complete (h : Shows v o f) (hinit : v.cachedServerSnap.isFullyInitialized = true) :
    Complete v f (shown o f) :=
  ⟨hinit, h.server hinit, (h.event (Or.inl hinit)).1, (h.event (Or.inl hinit)).2⟩

omit [DecidableEq K] [TransCmp cmp] [LawfulEqCmp cmp] [DecidableEq L] in
theorem Complete.shows (h : Complete v f (shown o f)) : Shows v o f :=
  ⟨fun _ => h.server_leaves, fun _ => ⟨h.event_init, h.event_leaves⟩⟩

omit [DecidableEq K] [TransCmp cmp] [LawfulEqCmp cmp] [DecidableEq L] in
/-- Without the server's data and without a write over everything there is nothing to show. -/
theorem shows_of_unknown (hinit : v.cachedServerSnap.isFullyInitialized = false)
    (hroot : o [] = none) : Shows v o f := by
  constructor
  · intro h
    rw [hinit] at h
    cases h
  · rintro (h | h)
    · rw [hinit] at h
      cases h
    · exact absurd hroot h

omit [DecidableEq K] [TransCmp cmp] [LawfulEqCmp cmp] [DecidableEq L] in
/-- Under a write over everything only the event cache counts. -/
theorem Shows.of_covered (h : Shows v o f) (hdown : Downward o) (hroot : o [] ≠ none)
    {v' : FViewCache cmp L} (hinit : v'.cachedServerSnap.isFullyInitialized = false)
    (hevent : v'.cachedEventSnap = v.cachedEventSnap) (g : List K → Option L) :
    Shows v' o g := by
  constructor
  · intro h'
    rw [hinit] at h'
    cases h'
  · intro _
    rw [hevent, shown_eq_of_covered (hdown.root hroot) g f]
    exact h.event (Or.inr hroot)

/-! ### Writes of the user -/

omit [TransCmp scmp] [LawfulEqCmp scmp] in
@[simp] theorem applyUserOverwriteTo_server (optCompleteCache : Option (Node cmp L)) :
    (applyUserOverwriteTo v path snap w optCompleteCache).1.cachedServerSnap =
      v.cachedServerSnap := by
  unfold applyUserOverwriteTo
  cases path with
  | nil => rfl
  | cons childKey childPath =>
    dsimp only
    split <;> rfl

omit [TransCmp scmp] [LawfulEqCmp scmp] in
/-- In a complete event cache the write is put in its place. -/
theorem applyUserOverwriteTo_event (hinit : v.cachedEventSnap.isFullyInitialized = true)
    (hclear : Clear v.cachedEventSnap.node.leaves path)
    (optCompleteCache : Option (Node cmp L)) :
    (applyUserOverwriteTo v path snap w optCompleteCache).1.cachedEventSnap =
      ⟨v.cachedEventSnap.node.updateChild path snap, true⟩ := by
  unfold applyUserOverwriteTo
  cases path with
  | nil => simp [updateFullNode]
  | cons childKey childPath =>
    have hchild : newUserChild v childKey childPath snap w optCompleteCache =
        (v.cachedEventSnap.node.getImmediateChild childKey).updateChild childPath snap := by
      cases childPath with
      | nil => simp [newUserChild]
      | cons k r =>
        simp [newUserChild, FWriteTreeRef.completeChild, FCacheNode.isCompleteForChild, hinit]
    dsimp only
    rw [hchild]
    split
    · rename_i hsame
      rw [Node.updateChild_cons, ← hsame, Node.updateImmediateChild_self, ← hinit]
    · rw [updateChildIn_updateChild hclear, hinit]
      rfl

omit [TransCmp scmp] [LawfulEqCmp scmp] in
theorem Shows.userOverwrite (h : Shows v o f)
    (hclear : v.cachedServerSnap.isFullyInitialized = true ∨ o [] ≠ none →
      Clear (shown o f) path) (optCompleteCache : Option (Node cmp L)) :
    Shows (applyUserOverwriteTo v path snap w optCompleteCache).1
      (graft path (shade snap) o) f := by
  constructor
  · rw [applyUserOverwriteTo_server]
    exact h.server
  · rw [applyUserOverwriteTo_server]
    intro hcomplete
    have hgoal : shown (graft path (shade snap) o) f = graft path snap.leaves (shown o f) :=
      shown_graft path snap.leaves o f
    rw [hgoal]
    by_cases hshown : v.cachedServerSnap.isFullyInitialized = true ∨ o [] ≠ none
    · obtain ⟨hinit, hleaves⟩ := h.event hshown
      have hclear' : Clear v.cachedEventSnap.node.leaves path := by
        rw [hleaves]
        exact hclear hshown
      rw [applyUserOverwriteTo_event hinit hclear', Node.leaves_updateChild (Or.inl hclear'),
        hleaves]
      exact ⟨rfl, rfl⟩
    · cases path with
      | nil => exact ⟨rfl, rfl⟩
      | cons childKey childPath =>
        rw [graft_cons_nil] at hcomplete
        exact absurd hcomplete hshown

omit [TransCmp scmp] [LawfulEqCmp scmp] in
/-- Writes at places that are apart, one after the other. -/
theorem Shows.userOverwrites {pvs : List (List K × Node cmp L)}
    (hapart : pvs.Pairwise (fun pv pw => Apart pv.1 pw.1)) {cur : Processed cmp L}
    (h : Shows cur.1 o f)
    (hclear : cur.1.cachedServerSnap.isFullyInitialized = true ∨ o [] ≠ none →
      ∀ pv ∈ pvs, Clear (shown o f) pv.1) (optCompleteCache : Option (Node cmp L)) :
    Shows (pvs.foldl (fun cur pv =>
        ((applyUserOverwriteTo cur.1 pv.1 pv.2 w optCompleteCache).1,
          cur.2 ++ (applyUserOverwriteTo cur.1 pv.1 pv.2 w optCompleteCache).2)) cur).1
      (layer (pvs.map (fun pv => (pv.1, shade pv.2))) o) f := by
  induction pvs generalizing cur o with
  | nil => exact h
  | cons pv pvs ih =>
    obtain ⟨hfirst, hrest⟩ := List.pairwise_cons.mp hapart
    rw [List.foldl_cons, List.map_cons, layer_cons]
    refine ih hrest (h.userOverwrite (fun hshown => hclear hshown pv (by simp)) _) ?_
    intro hshown pw hpw
    have hpw' := hfirst pw hpw
    have hnotroot : ¬ pv.1 <+: [] := fun hpre => hpw'.1 (hpre.trans List.nil_prefix)
    rw [applyUserOverwriteTo_server, graft_elsewhere _ _ hnotroot] at hshown
    have hgoal : shown (graft pv.1 (shade pv.2) o) f = graft pv.1 pv.2.leaves (shown o f) :=
      shown_graft pv.1 pv.2.leaves o f
    rw [hgoal, clear_graft_of_apart hpw']
    exact hclear hshown pw (List.mem_cons_of_mem _ hpw)

theorem Shows.userMerge (h : Shows v o f) {changed : FCompoundWrite cmp scmp L}
    (hclear : v.cachedServerSnap.isFullyInitialized = true ∨ o [] ≠ none →
      ∀ pv ∈ changed.writes, Clear (shown o f) (path ++ pv.1))
    (serverCache : Option (Node cmp L)) :
    Shows (applyUserMergeTo v path changed w serverCache).1
      (layer (changed.writes.map (fun pv => (path ++ pv.1, shade pv.2))) o) f := by
  unfold applyUserMergeTo
  rw [List.partition_eq_filter_filter]
  dsimp only
  generalize hlist : changed.writes.filter (fun pv => cacheHasChild v (path ++ pv.1)) ++
    changed.writes.filter (not ∘ fun pv => cacheHasChild v (path ++ pv.1)) = list
  have hperm : list.Perm changed.writes := by
    rw [← hlist]
    exact List.filter_append_perm _ _
  have hapart : (changed.writes.map (fun pv => (path ++ pv.1, pv.2))).Pairwise
      (fun pv pw => Apart pv.1 pw.1) :=
    (FWriteRecord.withMerge path changed 0).pairwise_apart
  have hperm' := hperm.map (fun pv : List K × Node cmp L => (path ++ pv.1, pv.2))
  have hsymm : ∀ {pv pw : List K × Node cmp L}, Apart pv.1 pw.1 → Apart pw.1 pv.1 :=
    fun h => h.symm
  have hstart : Shows ((v, []) : Processed cmp L).1 o f := h
  have hshows := hstart.userOverwrites (w := w) ((hperm'.pairwise_iff hsymm).mpr hapart) (by
    intro hshown pv hpv
    obtain ⟨pv', hpv', rfl⟩ := List.mem_map.mp hpv
    exact hclear hshown pv' (hperm.mem_iff.mp hpv')) serverCache
  rw [List.foldl_map, List.map_map] at hshows
  rw [layer_perm ((hperm.map _).symm) ?_]
  · exact hshows
  · rw [List.pairwise_map] at hapart ⊢
    exact hapart

/-! ### Data of the server -/

/-- Under a write that covers the path the event cache stays as it is. -/
theorem applyServerOverwriteTo_event (h : w.overlay path ≠ none) :
    (applyServerOverwriteTo v path snap w).1.cachedEventSnap = v.cachedEventSnap := by
  unfold applyServerOverwriteTo
  cases path with
  | nil => simp [generate_of_shadowed h]
  | cons childKey childPath =>
    dsimp only
    split
    · rfl
    · rw [generate_of_shadowed h]
      rfl

variable (snap) in
theorem Shows.serverOverwrite (h : Shows v w.overlay f) (hdown : Downward w.overlay)
    (hclear : v.cachedServerSnap.isFullyInitialized = true → Clear f path)
    (hplaced : v.cachedServerSnap.isFullyInitialized = true ∨ path = [] →
      ∀ q, Placed w.overlay q → Clear (graft path snap.leaves f) q) :
    Shows (applyServerOverwriteTo v path snap w).1 w.overlay (graft path snap.leaves f) := by
  by_cases hinit : v.cachedServerSnap.isFullyInitialized = true
  · have hcomplete := (h.complete hinit).serverOverwrite snap hdown (hclear hinit)
      (fun hnone => clear_shown hdown hnone (hclear hinit)) (by
        intro hnone q hq
        have hlaid := (clear_append.mp (hplaced (Or.inl hinit) _ (hdown.placed hnone hq))).2
        rwa [below_graft] at hlaid)
      (fun _ => rfl)
    rw [graft_of_agree] at hcomplete
    · exact hcomplete.shows
    · intro q hq
      unfold shown
      rw [graft_elsewhere _ _ hq]
  · by_cases hpath : path = []
    · subst hpath
      rw [applyServerOverwriteTo_eq (Or.inr rfl) (clear_nil _), Node.updateChild_nil, graft_nil]
      by_cases hnone : w.overlay [] = none
      · obtain ⟨heinit, hleaves⟩ := generate_event (v := v.updateServerSnap snap true)
          (fun _ => rfl) (fun hne => absurd rfl hne) hnone (clear_nil _)
          (hplaced (Or.inr rfl))
        exact ⟨by simp, fun _ => ⟨heinit, hleaves⟩⟩
      · rw [generate_of_shadowed hnone]
        refine ⟨fun _ => rfl, fun _ => ?_⟩
        rw [shown_eq_of_covered (hdown.root hnone) snap.leaves f]
        exact h.event (Or.inr hnone)
    · have hinit' : (applyServerOverwriteTo v path snap w).1.cachedServerSnap.isFullyInitialized =
          false := by
        rw [init_applyServerOverwriteTo, Bool.eq_false_iff.mpr hinit]
        simpa using hpath
      by_cases hnone : w.overlay [] = none
      · exact shows_of_unknown hinit' hnone
      · exact h.of_covered hdown hnone hinit'
          (applyServerOverwriteTo_event (hdown.root hnone path)) _

/-! ### Merges by the server -/

section Merges

variable {changed : FCompoundWrite cmp scmp L}

omit [DecidableEq L] in
theorem overlay_actualMerge :
    (actualMerge path changed).overlay = graft path changed.overlay (fun _ => none) := by
  unfold actualMerge
  split
  · rename_i hempty
    rw [List.isEmpty_iff.mp hempty, graft_nil]
  · exact changed.overlay_addCompoundWrite_emptyWrite path

/-- A child of the server's data under what is merged into it. -/
def mergedChild (v : FViewCache cmp L) (child : K × FCompoundWrite cmp scmp L) : K × Node cmp L :=
  (child.1, child.2.applyToNode (v.cachedServerSnap.node.getImmediateChild child.1))

variable (path w changed) in
/-- In complete data all the children are merged, in some order. -/
theorem applyServerMergeTo_eq (hinit : v.cachedServerSnap.isFullyInitialized = true) :
    ∃ children : List (K × FCompoundWrite cmp scmp L),
      children.Perm (actualMerge path changed).childCompoundWrites ∧
      applyServerMergeTo v path changed w = (children.map (mergedChild v)).foldl
        (fun cur c => ((applyServerOverwriteTo cur.1 [c.1] c.2 w).1,
          cur.2 ++ (applyServerOverwriteTo cur.1 [c.1] c.2 w).2)) (v, []) := by
  let known := fun child : K × FCompoundWrite cmp scmp L =>
    v.cachedServerSnap.node.hasChild child.1
  refine ⟨(actualMerge path changed).childCompoundWrites.filter known ++
    (actualMerge path changed).childCompoundWrites.filter (not ∘ known),
    List.filter_append_perm _ _, ?_⟩
  have hall : ∀ l : List (K × FCompoundWrite cmp scmp L), l.filter (fun child =>
      !(!v.cachedServerSnap.isCompleteForChild child.1 && child.2.rootWrite.isNone)) = l := by
    intro l
    rw [List.filter_eq_self]
    intro child _
    simp [FCacheNode.isCompleteForChild, hinit]
  unfold applyServerMergeTo
  simp only [List.partition_eq_filter_filter, hinit, Bool.not_true, Bool.and_false,
    Bool.false_eq_true, if_false, hall, List.foldl_map]
  rfl

omit [DecidableEq L] [TransCmp scmp] in
/-- A merged child is what the merge leaves of the data below its key. -/
theorem leaves_mergedChild {m : FCompoundWrite cmp scmp L} (hroot : m.overlay [] = none)
    (hfits : ∀ q, Placed m.overlay q → Clear v.cachedServerSnap.node.leaves q)
    {child : K × FCompoundWrite cmp scmp L} (hchild : child ∈ m.childCompoundWrites) :
    (mergedChild v child).2.leaves =
      below [child.1] (shown m.overlay v.cachedServerSnap.node.leaves) := by
  have hoverlay := m.overlay_of_mem_childCompoundWrites hroot hchild
  unfold mergedChild
  rw [FCompoundWrite.leaves_applyToNode]
  · rw [hoverlay, Node.leaves_getImmediateChild]
    rfl
  · intro q hq
    rw [hoverlay] at hq
    rw [Node.leaves_getImmediateChild]
    exact (clear_cons.mp (hfits (child.1 :: q) ⟨hq.1, clear_cons.mpr ⟨hroot, hq.2⟩⟩)).2

omit [DecidableEq L] [TransCmp scmp] in
/-- All merged children together are the data under the merge. -/
theorem layer_mergedChildren {m : FCompoundWrite cmp scmp L} (hroot : m.overlay [] = none)
    (hfits : ∀ q, Placed m.overlay q → Clear v.cachedServerSnap.node.leaves q)
    {children : List (K × FCompoundWrite cmp scmp L)}
    (hperm : children.Perm m.childCompoundWrites) :
    layer ((children.map (mergedChild v)).map (fun c => ([c.1], c.2.leaves)))
        v.cachedServerSnap.node.leaves =
      shown m.overlay v.cachedServerSnap.node.leaves := by
  have hnodup : (children.map Prod.fst).Nodup :=
    (hperm.map Prod.fst).nodup_iff.mpr m.nodup_childCompoundWrites
  have hapart : ((children.map (mergedChild v)).map (fun c => ([c.1], c.2.leaves))).Pairwise
      (fun w v => Apart w.1 v.1) := by
    have hkeys := pairwise_apart_keys hnodup
    rw [List.pairwise_map] at hkeys
    rw [List.map_map, List.pairwise_map]
    exact hkeys
  have hothers : ∀ q, (∀ child ∈ children, ¬ [child.1] <+: q) →
      layer ((children.map (mergedChild v)).map (fun c => ([c.1], c.2.leaves)))
        v.cachedServerSnap.node.leaves q = v.cachedServerSnap.node.leaves q := by
    intro q hq
    apply layer_of_not_covered
    intro c hc
    obtain ⟨c', hc', rfl⟩ := List.mem_map.mp hc
    obtain ⟨child, hchild, rfl⟩ := List.mem_map.mp hc'
    exact hq child hchild
  funext q
  cases q with
  | nil => rw [hothers [] (by simp), shown, hroot, Option.getD_none]
  | cons k q =>
    by_cases hk : k ∈ m.childCompoundWrites.map Prod.fst
    · obtain ⟨child, hchild, rfl⟩ := List.mem_map.mp hk
      have hmem := List.mem_map_of_mem (f := fun c : K × Node cmp L => ([c.1], c.2.leaves))
        (List.mem_map_of_mem (f := mergedChild v) (hperm.mem_iff.mpr hchild))
      have hbelow := below_layer_of_mem hapart hmem v.cachedServerSnap.node.leaves
      rw [leaves_mergedChild hroot hfits hchild] at hbelow
      exact congrFun hbelow q
    · have hnone := congrFun (m.below_overlay_of_not_mem hroot hk) q
      rw [below_apply, List.singleton_append] at hnone
      rw [hothers, shown, hnone, Option.getD_none]
      intro child hchild hpre
      obtain ⟨heq, -⟩ := List.cons_prefix_cons.mp hpre
      exact hk (heq ▸ List.mem_map_of_mem (hperm.mem_iff.mp hchild))

variable (path changed) in
/-- A merge into complete data, with an event cache that shows them where nothing is merged. -/
theorem Complete.serverMerge {e : List K → Option L} (h : Complete v f e)
    (hdown : Downward w.overlay) (hroot : (actualMerge path changed).overlay [] = none)
    (hfits : ∀ q, Placed (actualMerge path changed).overlay q → Clear f q)
    (hplaced : ∀ q, Placed w.overlay q → Clear (shown (actualMerge path changed).overlay f) q)
    (hothers : ∀ q, (actualMerge path changed).overlay q = none → e q = shown w.overlay f q)
    (hshadow : ∀ k, w.overlay [k] ≠ none → below [k] e = below [k] (shown w.overlay f)) :
    Complete (applyServerMergeTo v path changed w).1 (shown (actualMerge path changed).overlay f)
      (shown w.overlay (shown (actualMerge path changed).overlay f)) := by
  obtain ⟨children, hperm, heq⟩ := applyServerMergeTo_eq path w changed h.server_init
  obtain rfl := h.server_leaves
  have hnodup : ((children.map (mergedChild v)).map Prod.fst).Nodup := by
    rw [List.map_map]
    exact (hperm.map Prod.fst).nodup_iff.mpr
      (actualMerge path changed).nodup_childCompoundWrites
  rw [heq, ← layer_mergedChildren hroot hfits hperm]
  refine Complete.serverChildren hdown hnodup ?_ h ?_ ?_ ?_
  · intro c hc hnone q hq
    obtain ⟨child, hchild, rfl⟩ := List.mem_map.mp hc
    rw [leaves_mergedChild hroot hfits (hperm.mem_iff.mp hchild)]
    exact (clear_append.mp (hplaced _ (hdown.placed hnone hq))).2
  · intro hne
    obtain ⟨child, hchild⟩ := List.exists_mem_of_ne_nil children (by simpa using hne)
    have hmem := hperm.mem_iff.mp hchild
    obtain ⟨q, hq⟩ := FCompoundWrite.exists_placed_of_mem_childCompoundWrites hmem
    rw [FCompoundWrite.overlay_of_mem_childCompoundWrites hroot hmem] at hq
    exact (clear_cons.mp (hfits (child.1 :: q) ⟨hq.1, clear_cons.mpr ⟨hroot, hq.2⟩⟩)).1
  · intro q hq
    apply hothers
    cases q with
    | nil => exact hroot
    | cons k q =>
      have hk : k ∉ (actualMerge path changed).childCompoundWrites.map Prod.fst := by
        intro hk
        obtain ⟨child, hchild, rfl⟩ := List.mem_map.mp hk
        exact hq _ (List.mem_map_of_mem (hperm.mem_iff.mpr hchild)) (by simp [mergedChild])
      exact congrFun (FCompoundWrite.below_overlay_of_not_mem hroot hk) q
  · intro c _ hcovered
    exact hshadow c.1 hcovered

variable (v path w changed) in
/-- What is merged into incomplete data does not complete them, and under a write over everything
the event cache stays as it is. -/
theorem applyServerMergeTo_unknown :
    (applyServerMergeTo v path changed w).1.cachedServerSnap.isFullyInitialized =
        v.cachedServerSnap.isFullyInitialized ∧
      ((∀ q, w.overlay q ≠ none) →
        (applyServerMergeTo v path changed w).1.cachedEventSnap = v.cachedEventSnap) := by
  have hfold : ∀ (l : List (K × FCompoundWrite cmp scmp L)) (cur : Processed cmp L),
      (l.foldl (fun cur child =>
          ((applyServerOverwriteTo cur.1 [child.1] (mergedChild v child).2 w).1, cur.2 ++
            (applyServerOverwriteTo cur.1 [child.1] (mergedChild v child).2 w).2)) cur
        ).1.cachedServerSnap.isFullyInitialized = cur.1.cachedServerSnap.isFullyInitialized ∧
      ((∀ q, w.overlay q ≠ none) → (l.foldl (fun cur child =>
          ((applyServerOverwriteTo cur.1 [child.1] (mergedChild v child).2 w).1, cur.2 ++
            (applyServerOverwriteTo cur.1 [child.1] (mergedChild v child).2 w).2)) cur
        ).1.cachedEventSnap = cur.1.cachedEventSnap) := by
    intro l
    induction l with
    | nil => exact fun cur => ⟨rfl, fun _ => rfl⟩
    | cons child l ih =>
      intro cur
      obtain ⟨hinit, hevent⟩ := ih ((applyServerOverwriteTo cur.1 [child.1]
        (mergedChild v child).2 w).1, cur.2 ++ (applyServerOverwriteTo cur.1 [child.1]
          (mergedChild v child).2 w).2)
      rw [init_applyServerOverwriteTo] at hinit
      refine ⟨by simpa using hinit, fun hcovered => ?_⟩
      rw [List.foldl_cons, hevent hcovered, applyServerOverwriteTo_event (hcovered _)]
  unfold applyServerMergeTo
  dsimp only
  split
  · exact ⟨rfl, fun _ => rfl⟩
  · exact hfold _ _

theorem Shows.serverMerge (h : Shows v w.overlay f) (hdown : Downward w.overlay)
    (hroot : (actualMerge path changed).overlay [] = none)
    (hfits : v.cachedServerSnap.isFullyInitialized = true →
      ∀ q, Placed (actualMerge path changed).overlay q → Clear f q)
    (hplaced : v.cachedServerSnap.isFullyInitialized = true → ∀ q, Placed w.overlay q →
      Clear (shown (actualMerge path changed).overlay f) q) :
    Shows (applyServerMergeTo v path changed w).1 w.overlay
      (shown (actualMerge path changed).overlay f) := by
  by_cases hinit : v.cachedServerSnap.isFullyInitialized = true
  · exact ((h.complete hinit).serverMerge path changed hdown hroot (hfits hinit) (hplaced hinit)
      (fun _ _ => rfl) (fun _ _ => rfl)).shows
  · obtain ⟨hinit', hevent⟩ := applyServerMergeTo_unknown v path w changed
    rw [Bool.eq_false_iff.mpr hinit] at hinit'
    by_cases hnone : w.overlay [] = none
    · exact shows_of_unknown hinit' hnone
    · exact h.of_covered hdown hnone hinit' (hevent (hdown.root hnone)) _

end Merges

/-! ### Answers to writes -/

omit [DecidableEq K] [TransCmp cmp] [LawfulEqCmp cmp] [DecidableEq L] in
theorem Shows.congr {o' : List K → Option (Option L)} (h : Shows v o f)
    (hroot : o' [] ≠ none → o [] ≠ none) (hsame : shown o f = shown o' f) : Shows v o' f where
  server := h.server
  event hshown := by
    rw [← hsame]
    exact h.event (hshown.imp_right hroot)

section Answers

variable {tree : FImmutableTree K Unit}

theorem init_ackUserWriteOn :
    (ackUserWriteOn v path tree w).1.cachedServerSnap.isFullyInitialized =
      v.cachedServerSnap.isFullyInitialized := by
  unfold ackUserWriteOn
  split
  · rfl
  · dsimp only
    split
    · split
      · rename_i hcomplete
        rw [init_applyServerOverwriteTo]
        cases path with
        | nil =>
          rw [show v.cachedServerSnap.isFullyInitialized = true from hcomplete]
          rfl
        | cons k r => simp
      · split
        · exact (applyServerMergeTo_unknown v _ w _).1
        · rfl
    · exact (applyServerMergeTo_unknown v _ w _).1

variable (scmp path tree) in
omit [DecidableEq L] in
/-- An acknowledgement merges the server's own data, where the write was. -/
theorem overlay_ackMerge (hinit : v.cachedServerSnap.isFullyInitialized = true)
    (hclear : ∀ a ∈ tree.forEach, Clear v.cachedServerSnap.node.leaves (path ++ a.1)) :
    (actualMerge path (tree.forEach.foldl (fun changedChildren affected =>
      if v.cachedServerSnap.isCompleteForPath (path ++ affected.1) then
        changedChildren.addWrite (v.cachedServerSnap.node.getChild (path ++ affected.1)) affected.1
      else changedChildren) (FCompoundWrite.emptyWrite : FCompoundWrite cmp scmp L))).overlay =
      cover ((tree.forEach.map (fun a => path ++ a.1)).map
        (fun p => (p, below p v.cachedServerSnap.node.leaves))) := by
  have hall : ∀ p, v.cachedServerSnap.isCompleteForPath p = true := by
    intro p
    cases p with
    | nil => exact hinit
    | cons k r => simp [FCacheNode.isCompleteForPath, FCacheNode.isCompleteForChild, hinit]
  have hfits : Fits ((tree.forEach.map Prod.fst).map
      (fun p => (p, below p (below path v.cachedServerSnap.node.leaves)))) (fun _ => none) := by
    refine fits_of_parts (fun _ => Or.inl rfl) fun p hp => ?_
    obtain ⟨a, ha, rfl⟩ := List.mem_map.mp hp
    exact (clear_append.mp (hclear a ha)).2
  have hwrites : leavesOf (tree.forEach.map (fun a =>
      (a.1, v.cachedServerSnap.node.getChild (path ++ a.1)))) =
      (tree.forEach.map Prod.fst).map
        (fun p => (p, below p (below path v.cachedServerSnap.node.leaves))) := by
    simp [FCompoundWrite.leavesOf, Node.leaves_getChild, below_append]
  have hadd := FCompoundWrite.overlay_addWrites_emptyWrite scmp (hwrites ▸ hfits)
  rw [List.foldl_map, hwrites] at hadd
  simp only [hall, if_true]
  rw [overlay_actualMerge, hadd, ← cover_map_append]
  congr 1
  simp [below_append]

/-- The answered write was one overwrite. -/
theorem Complete.ackOverwrite (h : Complete v f (shown o f)) (hdown : Downward w.overlay)
    (hcovered : w.overlay path = none) (hagree : ∀ q, ¬ path <+: q → o q = w.overlay q)
    (hclear : Clear f path) (hplaced : ∀ q, Placed w.overlay q → Clear f q) :
    Complete (applyServerOverwriteTo v path (v.cachedServerSnap.node.getChild path) w).1 f
      (shown w.overlay f) := by
  have heclear : Clear (shown o f) path := by
    rintro r k s rfl
    have hr : ¬ (r ++ k :: s) <+: r := by
      intro hpre
      have hlen := hpre.length_le
      rw [List.length_append, List.length_cons] at hlen
      omega
    rw [shown, hagree r hr]
    exact clear_shown hdown hcovered hclear r k s rfl
  have hserver := h.serverOverwrite (v.cachedServerSnap.node.getChild path) hdown hclear
    (fun _ => heclear) (by
      intro _ q hq
      rw [Node.leaves_getChild, h.server_leaves]
      exact (clear_append.mp (hplaced _ (hdown.placed hcovered hq))).2)
    (fun hne => absurd hcovered hne)
  rw [Node.leaves_getChild, h.server_leaves, graft_below, graft_of_agree] at hserver
  · exact hserver
  · intro q hq
    rw [shown, shown, hagree q hq]

/-- The answered write was a merge: the server's own data are merged where it wrote. -/
theorem Complete.ackMerge {ps : List (List K)} {changed : FCompoundWrite cmp scmp L}
    (h : Complete v f (shown o f)) (hdown : Downward w.overlay)
    (hmerge : (actualMerge path changed).overlay = cover (ps.map (fun p => (p, below p f))))
    (hroot : [] ∉ ps) (hle : ∀ q, w.overlay q ≠ none → o q = w.overlay q)
    (hagree : ∀ q, (∀ p ∈ ps, ¬ p <+: q) → o q = w.overlay q)
    (hclear : ∀ p ∈ ps, Clear f p) (hplaced : ∀ q, Placed w.overlay q → Clear f q) :
    Complete (applyServerMergeTo v path changed w).1 f (shown w.overlay f) := by
  have hfits : Fits (ps.map (fun p => (p, below p f))) f :=
    fits_of_parts (fun _ => Or.inr rfl) hclear
  have hsame : shown (actualMerge path changed).overlay f = f := by
    rw [hmerge]
    exact shown_cover_parts f ps
  have hserver := h.serverMerge path changed hdown (by
      rw [hmerge, cover_eq_none]
      intro w hw hpre
      obtain ⟨p, hp, rfl⟩ := List.mem_map.mp hw
      exact hroot (List.prefix_nil.mp hpre ▸ hp))
    (by
      rw [hmerge]
      exact fun q hq => hfits.clear_of_placed hq)
    (by
      rw [hsame]
      exact hplaced)
    (by
      intro q hq
      rw [hmerge, cover_eq_none] at hq
      rw [shown, shown, hagree q fun p hp => hq _ (List.mem_map_of_mem hp)])
    (by
      intro k hk
      funext q
      rw [below_apply, below_apply, shown, shown, hle _ (hdown [k] q hk)])
  rwa [hsame] at hserver

/-- Where the write is out of the overlay the server's data are shown again. -/
theorem Shows.ackUserWrite (h : Shows v o f) (hdown : Downward w.overlay)
    (htree : tree.Sound scmp) (hle : ∀ q, w.overlay q ≠ none → o q = w.overlay q)
    (hagree : ∀ q, (∀ a ∈ tree.forEach, ¬ path ++ a.1 <+: q) → o q = w.overlay q)
    (hclear : v.cachedServerSnap.isFullyInitialized = true →
      ∀ a ∈ tree.forEach, Clear f (path ++ a.1))
    (hplaced : v.cachedServerSnap.isFullyInitialized = true → ∀ q, Placed w.overlay q →
      Clear f q) :
    Shows (ackUserWriteOn v path tree w).1 w.overlay f := by
  have hagree' : ∀ q, ¬ path <+: q → o q = w.overlay q := by
    intro q hq
    exact hagree q fun a _ hpre => hq ((List.prefix_append ..).trans hpre)
  by_cases hcovered : w.overlay path = none
  swap
  · -- a remaining write covers all that the answered one did
    have heq : ackUserWriteOn v path tree w = (v, []) := by
      unfold ackUserWriteOn
      rw [if_pos (FWriteTreeRef.isSome_shadowingWriteAtPath.mpr hcovered)]
    rw [heq]
    refine h.congr (fun hroot => ?_) (shown_eq_of_lifted hdown hle hagree' hcovered f)
    rwa [hle [] hroot]
  by_cases hinit : v.cachedServerSnap.isFullyInitialized = true
  swap
  · refine shows_of_unknown ?_ (hdown.none_above (p := []) hcovered)
    rw [init_ackUserWriteOn]
    exact Bool.eq_false_iff.mpr hinit
  have hcomplete := h.complete hinit
  have hclear' := hclear hinit
  have hshadow : (w.shadowingWriteAtPath path).isSome = false := by
    rw [FWriteTreeRef.shadowingWriteAtPath_eq_none.mpr hcovered]
    rfl
  unfold ackUserWriteOn
  rw [hshadow]
  simp only [Bool.false_eq_true, if_false]
  split
  · rename_i hvalue
    have hmem : ([], ()) ∈ tree.forEach := by
      rw [htree.mem_forEach, FImmutableTree.valueAtPath_nil]
      exact Option.eq_some_of_isSome hvalue
    have hpath : Clear f path := by simpa using hclear' _ hmem
    have hfull : v.cachedServerSnap.isCompleteForPath path = true := by
      cases path with
      | nil => exact hinit
      | cons k r => simp [FCacheNode.isCompleteForPath, FCacheNode.isCompleteForChild, hinit]
    rw [if_pos hfull]
    exact (hcomplete.ackOverwrite hdown hcovered hagree' hpath (hplaced hinit)).shows
  · rename_i hvalue
    have hmerge := overlay_ackMerge scmp path tree hinit (by
      rw [h.server hinit]
      exact hclear')
    rw [h.server hinit] at hmerge
    refine (hcomplete.ackMerge hdown hmerge ?_ hle ?_ ?_ (hplaced hinit)).shows
    · intro hnil
      obtain ⟨⟨r, u⟩, ha, hr⟩ := List.mem_map.mp hnil
      obtain ⟨rfl, rfl⟩ := List.append_eq_nil_iff.mp hr
      have hroot := htree.mem_forEach.mp ha
      rw [FImmutableTree.valueAtPath_nil] at hroot
      rw [hroot] at hvalue
      exact hvalue rfl
    · intro q hq
      exact hagree q fun a ha => hq _ (List.mem_map_of_mem ha)
    · intro p hp
      obtain ⟨a, ha, rfl⟩ := List.mem_map.mp hp
      exact hclear' a ha

@[simp] theorem revertUserWriteOn_server :
    (revertUserWriteOn v path w).1.cachedServerSnap = v.cachedServerSnap := by
  unfold revertUserWriteOn
  split
  · rfl
  · cases path <;> rfl

omit [TransCmp scmp] in
/-- A child that is calculated again, where nothing but the affected path can have changed. -/
theorem leaves_revertChild {childKey : K} {affectedPath : List K} (h : Complete v f (shown o f))
    (hagree : ∀ q, ¬ (childKey :: affectedPath) <+: q → o q = w.overlay q)
    (hdown : Downward w.overlay) (hnone : w.overlay (childKey :: affectedPath) = none)
    (hclear : Clear f (childKey :: affectedPath))
    (hplaced : ∀ q, Placed w.overlay q → Clear f q) :
    (revertChild v childKey affectedPath w).1.leaves = shown w.overlay f := by
  obtain ⟨hsinit, rfl, heinit, hleaves⟩ := h
  have hroot : w.overlay [] = none := hdown.none_above (p := []) hnone
  obtain ⟨m, hm, hmleaves⟩ := FWriteTreeRef.calculateCompleteChild_some (w := w)
    (k := childKey) hsinit (by
      intro q hq
      refine (clear_append.mp (hplaced ([childKey] ++ q) ⟨hq.1, ?_⟩)).2
      exact clear_cons.mpr ⟨hroot, hq.2⟩)
  have hchild : ∀ q, ¬ affectedPath <+: q →
      m.leaves q = (v.cachedEventSnap.node.getImmediateChild childKey).leaves q := by
    intro q hq
    rw [hmleaves, Node.leaves_getImmediateChild, hleaves, below_apply, below_apply, shown, shown,
      hagree]
    intro hpre
    exact hq (List.cons_prefix_cons.mp hpre).2
  have heclear : Clear v.cachedEventSnap.node.leaves [childKey] := by
    refine clear_cons.mpr ⟨?_, clear_nil _⟩
    rw [hleaves, shown, hagree [] (by simp), hroot]
    exact (clear_cons.mp hclear).1
  have hupdate := Node.leaves_updateChild (m := m) (Or.inl heclear)
  rw [Node.updateChild_cons, Node.updateChild_nil, hmleaves, hleaves, graft_of_agree] at hupdate
  · unfold revertChild
    simp only [hm, Option.some_or]
    rw [updateChildIn_fst hchild, hupdate]
  · intro q hq
    rw [shown, shown, hagree]
    intro hpre
    exact hq (List.IsPrefix.trans (List.prefix_append [childKey] affectedPath) hpre)

/-- A reverted write gives way to what is under it. -/
theorem Shows.revertUserWrite (h : Shows v o f) (hdown : Downward w.overlay)
    (hle : ∀ q, w.overlay q ≠ none → o q = w.overlay q)
    (hagree : ∀ q, ¬ path <+: q → o q = w.overlay q)
    (hclear : v.cachedServerSnap.isFullyInitialized = true → Clear f path)
    (hplaced : v.cachedServerSnap.isFullyInitialized = true → ∀ q, Placed w.overlay q →
      Clear f q) :
    Shows (revertUserWriteOn v path w).1 w.overlay f := by
  by_cases hcovered : w.overlay path = none
  swap
  · have heq : revertUserWriteOn v path w = (v, []) := by
      unfold revertUserWriteOn
      rw [if_pos (FWriteTreeRef.isSome_shadowingWriteAtPath.mpr hcovered)]
    rw [heq]
    refine h.congr (fun hroot => ?_) (shown_eq_of_lifted hdown hle hagree hcovered f)
    rwa [hle [] hroot]
  by_cases hinit : v.cachedServerSnap.isFullyInitialized = true
  swap
  · refine shows_of_unknown ?_ (hdown.none_above (p := []) hcovered)
    rw [revertUserWriteOn_server]
    exact Bool.eq_false_iff.mpr hinit
  have hshadow : (w.shadowingWriteAtPath path).isSome = false := by
    rw [FWriteTreeRef.shadowingWriteAtPath_eq_none.mpr hcovered]
    rfl
  have hsnap : v.completeServerSnap = some v.cachedServerSnap.node := by
    simp [FViewCache.completeServerSnap, hinit]
  obtain ⟨m, hm, hleaves⟩ := FWriteTreeRef.calculateCompleteEventCache_some (w := w) (by
    intro q hq
    rw [h.server hinit]
    exact hplaced hinit q hq)
  rw [h.server hinit] at hleaves
  refine ⟨fun _ => by simpa using h.server hinit, fun _ => ?_⟩
  unfold revertUserWriteOn
  rw [hshadow]
  cases path with
  | nil => simp [hinit, hsnap, hm, updateFullNode, hleaves]
  | cons childKey affectedPath =>
    have hchild := leaves_revertChild (h.complete hinit) hagree hdown hcovered (hclear hinit)
      (hplaced hinit)
    have hsame : (revertChild v childKey affectedPath w).1 = m :=
      Node.eq_of_leaves (hchild.trans hleaves.symm)
    have hplain : m.isEmpty = true → m.isLeafNode = false := by
      intro hempty
      rw [Node.isEmpty_iff.mp hempty]
      rfl
    simp only [Bool.false_eq_true, if_false, hinit, hsnap, hm, Option.getD_some, hsame,
      Bool.and_true, Bool.true_or, FViewCache.updateEventSnap_event]
    split
    · rename_i hempty
      rw [if_neg (by simp [hplain hempty])]
      exact ⟨trivial, hleaves⟩
    · exact ⟨trivial, hleaves⟩

end Answers

/-- A listen that is complete overwrites the server's data with themselves. -/
theorem Shows.listenComplete (h : Shows v w.overlay f) (hdown : Downward w.overlay)
    (hknown : path = [] → v.cachedServerSnap.node.leaves = f)
    (hclear : v.cachedServerSnap.isFullyInitialized = true → Clear f path)
    (hplaced : v.cachedServerSnap.isFullyInitialized = true ∨ path = [] →
      ∀ q, Placed w.overlay q → Clear f q) :
    Shows (listenCompleteOldCache v path w).1 w.overlay f := by
  by_cases hserver : v.cachedServerSnap.isFullyInitialized = true ∨ path = []
  · have hf : v.cachedServerSnap.node.leaves = f := hserver.elim h.server hknown
    have hpath : Clear v.cachedServerSnap.node.leaves path := by
      rcases hserver with hinit | rfl
      · rw [hf]
        exact hclear hinit
      · exact clear_nil _
    have hself : v.cachedServerSnap.node.updateChild path (v.cachedServerSnap.node.getChild path) =
        v.cachedServerSnap.node := by
      apply Node.eq_of_leaves
      rw [Node.leaves_updateChild (Or.inl hpath), Node.leaves_getChild, graft_below]
    have hsame : graft path (v.cachedServerSnap.node.getChild path).leaves f = f := by
      rw [Node.leaves_getChild, hf, graft_below]
    have hinit : (v.cachedServerSnap.isFullyInitialized || path.isEmpty) = true := by
      simpa using hserver
    have hshows := h.serverOverwrite (v.cachedServerSnap.node.getChild path) hdown hclear
      (by rwa [hsame])
    rw [applyServerOverwriteTo_eq hserver hpath, hself, hsame] at hshows
    unfold listenCompleteOldCache
    dsimp only
    rw [hinit]
    exact hshows
  · push Not at hserver
    have hinit := Bool.eq_false_iff.mpr hserver.1
    have hinit' : (listenCompleteOldCache v path w).1.cachedServerSnap.isFullyInitialized =
        false := by
      simp [listenCompleteOldCache, hinit, hserver.2]
    by_cases hnone : w.overlay [] = none
    · exact shows_of_unknown hinit' hnone
    · refine h.of_covered hdown hnone hinit' ?_ f
      unfold listenCompleteOldCache
      rw [generate_of_shadowed (hdown.root hnone path)]
      rfl

/-! ### A complete view stays complete -/

omit [DecidableEq K] [TransCmp cmp] [LawfulEqCmp cmp] [DecidableEq L] in
theorem complete_foldl {A : Type} (step : FViewCache cmp L → A → Processed cmp L)
    (hstep : ∀ u a, u.cachedServerSnap.isFullyInitialized = true →
      (step u a).1.cachedServerSnap.isFullyInitialized = true) (items : List A)
    (cur : Processed cmp L) (hcur : cur.1.cachedServerSnap.isFullyInitialized = true) :
    (items.foldl (fun cur a => ((step cur.1 a).1, cur.2 ++ (step cur.1 a).2)) cur
      ).1.cachedServerSnap.isFullyInitialized = true := by
  induction items generalizing cur with
  | nil => exact hcur
  | cons a items ih => exact ih _ (hstep cur.1 a hcur)

theorem complete_applyServerOverwriteTo (path : List K) (snap : Node cmp L)
    (w : FWriteTreeRef cmp scmp L) (h : v.cachedServerSnap.isFullyInitialized = true) :
    (applyServerOverwriteTo v path snap w).1.cachedServerSnap.isFullyInitialized = true := by
  rw [init_applyServerOverwriteTo, h]
  rfl

theorem complete_applyServerMergeTo (path : List K) (changed : FCompoundWrite cmp scmp L)
    (w : FWriteTreeRef cmp scmp L) (h : v.cachedServerSnap.isFullyInitialized = true) :
    (applyServerMergeTo v path changed w).1.cachedServerSnap.isFullyInitialized = true := by
  unfold applyServerMergeTo
  dsimp only
  split
  · exact h
  · exact complete_foldl (fun u (child : K × FCompoundWrite cmp scmp L) =>
      applyServerOverwriteTo u [child.1]
        (child.2.applyToNode (v.cachedServerSnap.node.getImmediateChild child.1)) w)
      (fun u child hu => complete_applyServerOverwriteTo _ _ w hu) _ _ h

/-- Once the data of the server are complete, no operation makes them incomplete again. -/
theorem complete_process (operation : FOperation cmp scmp L) (w : FWriteTreeRef cmp scmp L)
    (optCompleteCache : Option (Node cmp L))
    (h : v.cachedServerSnap.isFullyInitialized = true) :
    (process v operation w optCompleteCache).1.cachedServerSnap.isFullyInitialized = true := by
  cases operation with
  | overwrite fromUser path snap =>
    cases fromUser with
    | true =>
      unfold process
      dsimp only
      rw [applyUserOverwriteTo_server, h]
    | false => exact complete_applyServerOverwriteTo path snap w h
  | merge fromUser path children =>
    cases fromUser with
    | true =>
      exact complete_foldl (fun u (pv : List K × Node cmp L) =>
        applyUserOverwriteTo u (path ++ pv.1) pv.2 w optCompleteCache)
        (fun u pv hu => by rw [applyUserOverwriteTo_server, hu]) _ _ h
    | false => exact complete_applyServerMergeTo path children w h
  | ackUserWrite path affectedTree revert =>
    cases revert with
    | true =>
      unfold process
      dsimp only
      rw [revertUserWriteOn_server, h]
    | false =>
      unfold process
      dsimp only
      rw [init_ackUserWriteOn, h]
  | listenComplete path =>
    unfold process listenCompleteOldCache
    dsimp only
    rw [generate_server, FViewCache.updateServerSnap, h]
    rfl

end Caches

end FViewProcessor

end HateBlocker
