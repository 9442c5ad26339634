-- What the pending writes come to: the visible writes cover what they put one after the
-- other in every run whose removals find their write shadowed, apart from the others, or
-- have the tree built again. From this the event caches follow, and what is left in view
-- by removals that do not.
import HateBlocker.WriteTree
import HateBlocker.Runs

open Std PathMaps Runs

namespace HateBlocker

open FCompoundWrite (shade leavesOf)

variable {K L : Type} {cmp scmp : K → K → Ordering}

namespace FWriteTree

/-! ## What the visible writes cover -/

section Covering

variable [DecidableEq K] [TransCmp cmp] [LawfulEqCmp cmp] [TransCmp scmp] [LawfulEqCmp scmp]

/-- The visible writes cover what the pending ones put, one after the other. -/
def Covers (t : FWriteTree cmp scmp L) : Prop :=
  t.visibleWrites.overlay = cover (leavesOf (pending t.allWrites))

omit [TransCmp cmp] [LawfulEqCmp cmp] [TransCmp scmp] [LawfulEqCmp scmp] in
theorem covers_empty : (empty : FWriteTree cmp scmp L).Covers :=
  FCompoundWrite.overlay_emptyWrite

omit [DecidableEq K] [TransCmp cmp] [LawfulEqCmp cmp] [TransCmp scmp] [LawfulEqCmp scmp] in
theorem leavesOf_append (l r : List (List K × Node cmp L)) :
    leavesOf (l ++ r) = leavesOf l ++ leavesOf r := List.map_append ..

omit [TransCmp cmp] [LawfulEqCmp cmp] [TransCmp scmp] [LawfulEqCmp scmp] in
theorem cover_leavesOf_eq_none {pvs : List (List K × Node cmp L)} {q : List K} :
    cover (leavesOf pvs) q = none ↔ ∀ pv ∈ pvs, ¬ pv.1 <+: q := by
  rw [cover_eq_none, leavesOf, List.forall_mem_map]

/-- More writes on top of a tree that covers the pending ones. -/
theorem overlay_addWrites_of_covers {t : FWriteTree cmp scmp L} (h : t.Covers)
    {pvs : List (List K × Node cmp L)}
    (hfits : Fits (leavesOf pvs) (layer (leavesOf (pending t.allWrites)) (fun _ => none))) :
    (pvs.foldl (fun w pv => w.addWrite pv.2 pv.1) t.visibleWrites).overlay =
      cover (leavesOf (pending t.allWrites ++ pvs)) := by
  have hjoin : (fun q => (t.visibleWrites.overlay q).join) =
      layer (leavesOf (pending t.allWrites)) (fun _ => none) := by
    funext q
    rw [h, layer_eq_cover]
    cases cover (leavesOf (pending t.allWrites)) q <;> rfl
  rw [FCompoundWrite.overlay_addWrites (by rwa [hjoin]), h, leavesOf_append, ← layer_cover, leavesOf,
    leavesOf, List.map_map]
  rfl

theorem Covers.addOverwriteAtPath {t t' : FWriteTree cmp scmp L} (h : t.Covers) {path : List K}
    {newData : Node cmp L} {writeId : ℤ} {visible : Bool}
    (ht' : t.addOverwriteAtPath path newData writeId visible = some t')
    (hclear : visible = true →
      Clear (layer (leavesOf (pending t.allWrites)) (fun _ => none)) path) : t'.Covers := by
  unfold FWriteTree.addOverwriteAtPath at ht'
  split at ht'
  · cases ht'
    unfold Covers
    simp only [pending_append_singleton]
    cases visible with
    | true =>
      have hfits : Fits (leavesOf [(path, newData)])
          (layer (leavesOf (pending t.allWrites)) (fun _ => none)) := ⟨hclear rfl, trivial⟩
      exact overlay_addWrites_of_covers h hfits
    | false =>
      change t.visibleWrites.overlay = cover (leavesOf (pending t.allWrites ++ []))
      rw [List.append_nil]
      exact h
  · cases ht'

theorem Covers.addMergeAtPath {t t' : FWriteTree cmp scmp L} (h : t.Covers) {path : List K}
    {changedChildren : FCompoundWrite cmp scmp L} {writeId : ℤ}
    (ht' : t.addMergeAtPath path changedChildren writeId = some t')
    (hfits : Fits (leavesOf (FWriteRecord.withMerge path changedChildren writeId).writes)
      (layer (leavesOf (pending t.allWrites)) (fun _ => none))) : t'.Covers := by
  unfold FWriteTree.addMergeAtPath at ht'
  split at ht'
  · cases ht'
    have hadd := overlay_addWrites_of_covers h hfits
    unfold Covers
    simp only [pending_append_singleton]
    rw [← FWriteRecord.foldl_withMerge]
    exact hadd
  · cases ht'

omit [TransCmp cmp] [LawfulEqCmp cmp] [TransCmp scmp] [LawfulEqCmp scmp] in
/-- Writes that later writes cover can go. -/
theorem cover_of_covered {earlier covered later : List (List K × Node cmp L)}
    (h : ∀ pv ∈ covered, ∃ pw ∈ later, pw.1 <+: pv.1) :
    cover (leavesOf (earlier ++ covered ++ later)) = cover (leavesOf (earlier ++ later)) := by
  funext q
  simp only [leavesOf_append, cover_append]
  cases hlater : cover (leavesOf later) q with
  | some value => rfl
  | none =>
    have hcovered : cover (leavesOf covered) q = none := by
      rw [cover_leavesOf_eq_none] at hlater ⊢
      intro pv hpv hpre
      obtain ⟨pw, hpw, hle⟩ := h pv hpv
      exact hlater pw hpw (hle.trans hpre)
    simp [hcovered]

omit [TransCmp cmp] [LawfulEqCmp cmp] [TransCmp scmp] [LawfulEqCmp scmp] in
/-- A write that is hidden, or that a later one shadows, does not count. -/
theorem Covers.of_hidden_or_shadowed {t t' : FWriteTree cmp scmp L} (h : t.Covers)
    {earlier later : List (FWriteRecord cmp scmp L)} {w : FWriteRecord cmp scmp L}
    (hall : t.allWrites = earlier ++ w :: later) (hall' : t'.allWrites = earlier ++ later)
    (hsame : t'.visibleWrites = t.visibleWrites) (hw : w.visible = false ∨ Shadowed w later) :
    t'.Covers := by
  unfold Covers at h ⊢
  rw [hsame, h, hall, hall', pending_append, pending_append, pending_cons, ← List.append_assoc]
  split
  · rename_i hv
    rcases hw with hw | ⟨r, hr, hvr, hcontains⟩
    · rw [hv] at hw
      cases hw
    · apply cover_of_covered
      intro pv hpv
      obtain ⟨pw, hpw, hle⟩ := FWriteRecord.containsPath_iff.mp hcontains
      exact ⟨pw, mem_pending.mpr ⟨r, hr, hvr, hpw⟩,
        hle.trans (FWriteRecord.path_prefix_of_mem hpv)⟩
  · rw [List.append_nil]

omit [LawfulEqCmp cmp] in
theorem layerRecord_root (w : FCompoundWrite cmp scmp L) (record : FWriteRecord cmp scmp L) :
    layerRecord [] w record = record.writes.foldl (fun w pv => w.addWrite pv.2 pv.1) w := by
  have hrel : FPath.relativePathFrom [] record.path = record.path := rfl
  unfold layerRecord FWriteRecord.writes
  cases record.data with
  | overwrite overwrite => simp [hrel]
  | merge merge => simp [hrel, FCompoundWrite.addCompoundWrite, List.foldl_map]

/-- The tree that is built again covers what all records put, the hidden ones too. -/
theorem overlay_layerTreeFromWrites {records : List (FWriteRecord cmp scmp L)}
    (h : Fits (leavesOf (records.flatMap FWriteRecord.writes)) (fun _ => none)) :
    (layerTreeFromWrites records defaultFilter []).overlay =
      cover (leavesOf (records.flatMap FWriteRecord.writes)) := by
  have hall : records.filter defaultFilter = records := List.filter_eq_self.mpr fun _ _ => rfl
  have hadd : ((records.flatMap FWriteRecord.writes).foldl (fun w pv => w.addWrite pv.2 pv.1)
      (FCompoundWrite.emptyWrite : FCompoundWrite cmp scmp L)).overlay = _ :=
    FCompoundWrite.overlay_addWrites_emptyWrite scmp h
  rw [← hadd, layerTreeFromWrites, hall, List.foldl_flatMap]
  congr 2
  funext w record
  exact layerRecord_root w record

omit [TransCmp cmp] [LawfulEqCmp cmp] in
/-- Removals at places without a write above them. -/
theorem overlay_removeWrites {w : FCompoundWrite cmp scmp L} {ps : List (List K)} {q : List K}
    (h : ∀ p ∈ ps, Clear w.overlay p) :
    (ps.foldl (fun w p => w.removeWriteAtPath p) w).overlay q =
      if ∃ p ∈ ps, p <+: q then none else w.overlay q := by
  induction ps generalizing w with
  | nil => simp
  | cons p ps ih =>
    have hremove := FCompoundWrite.overlay_removeWriteAtPath (h p (by simp))
    have hclear : ∀ p' ∈ ps, Clear (w.removeWriteAtPath p).overlay p' := by
      intro p' hp' r k s heq
      rw [hremove]
      by_cases hpre : p <+: r
      · obtain ⟨t, rfl⟩ := hpre
        simp
      · rw [graft_elsewhere _ _ hpre]
        exact h p' (List.mem_cons_of_mem _ hp') r k s heq
    rw [List.foldl_cons, ih hclear, hremove]
    by_cases hq : p <+: q
    · obtain ⟨t, rfl⟩ := hq
      simp
    · rw [graft_elsewhere _ _ hq]
      simp [hq]

omit [TransCmp cmp] [LawfulEqCmp cmp] in
/-- A write that lies apart from all the others is taken out and nothing else. -/
theorem Covers.of_apart {t t' : FWriteTree cmp scmp L} (h : t.Covers)
    {earlier later : List (FWriteRecord cmp scmp L)} {w : FWriteRecord cmp scmp L}
    (hall : t.allWrites = earlier ++ w :: later) (hall' : t'.allWrites = earlier ++ later)
    (hv : w.visible = true)
    (hremove : t'.visibleWrites =
      w.writes.foldl (fun v pv => v.removeWriteAtPath pv.1) t.visibleWrites)
    (hapart : ∀ pv ∈ w.writes, ∀ pw ∈ pending (earlier ++ later), Apart pv.1 pw.1) :
    t'.Covers := by
  unfold Covers at h ⊢
  rw [hall, pending_append, pending_cons, if_pos hv, ← List.append_assoc] at h
  rw [pending_append] at hapart
  have hclear : ∀ p ∈ w.writes.map Prod.fst, Clear t.visibleWrites.overlay p := by
    intro p hp r k s heq
    obtain ⟨pv, hpv, rfl⟩ := List.mem_map.mp hp
    rw [h, cover_leavesOf_eq_none]
    intro pw hpw hpre
    have hle : pw.1 <+: pv.1 := by
      rw [heq]
      exact hpre.trans (List.prefix_append ..)
    rcases List.mem_append.mp hpw with hpw | hlater
    · rcases List.mem_append.mp hpw with hearlier | hown
      · exact (hapart pv hpv pw (List.mem_append_left _ hearlier)).2 hle
      · have hne : pv ≠ pw := by
          rintro rfl
          have hlen := hpre.length_le
          rw [heq, List.length_append, List.length_cons] at hlen
          omega
        exact (w.apart_of_mem hpv hown hne).2 hle
    · exact (hapart pv hpv pw (List.mem_append_right _ hlater)).2 hle
  have hfold : w.writes.foldl (fun v pv => v.removeWriteAtPath pv.1) t.visibleWrites =
      (w.writes.map Prod.fst).foldl (fun v p => v.removeWriteAtPath p) t.visibleWrites := by
    rw [List.foldl_map]
  rw [hremove, hall', pending_append, hfold]
  funext q
  rw [overlay_removeWrites hclear]
  split
  · rename_i hq
    obtain ⟨p, hp, hpre⟩ := hq
    obtain ⟨pv, hpv, rfl⟩ := List.mem_map.mp hp
    symm
    rw [cover_leavesOf_eq_none]
    intro pw hpw hpre'
    have ha := hapart pv hpv pw hpw
    exact (List.prefix_or_prefix_of_prefix hpre hpre').elim ha.1 ha.2
  · rename_i hq
    have hown : cover (leavesOf w.writes) q = none := by
      rw [cover_leavesOf_eq_none]
      exact fun pv hpv hpre => hq ⟨pv.1, List.mem_map_of_mem hpv, hpre⟩
    rw [h]
    simp [leavesOf_append, cover_append, hown]

/-! ## What is calculated for a view -/

omit [TransCmp cmp] [LawfulEqCmp cmp] [TransCmp scmp] [LawfulEqCmp scmp] in
theorem shadowingWriteAtPath_eq_none {t : FWriteTree cmp scmp L} {path : List K} :
    t.shadowingWriteAtPath path = none ↔ t.visibleWrites.overlay path = none :=
  FCompoundWrite.completeNodeAtPath_eq_none

omit [TransCmp scmp] in
/-- Where no write covers the path, what the others do to a node at it. -/
theorem leaves_childWrites {w : FCompoundWrite cmp scmp L} {path : List K} {node : Node cmp L}
    (h : ∀ q, Placed (below path w.overlay) q → Clear node.leaves q) :
    ((w.childCompoundWriteAtPath path).applyToNode node).leaves =
      fun q => (w.overlay (path ++ q)).getD (node.leaves q) := by
  have hbelow := w.overlay_childCompoundWriteAtPath path
  rw [FCompoundWrite.leaves_applyToNode]
  · rw [hbelow]
    rfl
  · rw [hbelow]
    exact h

/-- The event cache is the data of the server under what the visible writes cover. -/
theorem calculateCompleteEventCacheAtPath_some {t : FWriteTree cmp scmp L} {path : List K}
    {node : Node cmp L}
    (h : ∀ q, Placed (below path t.visibleWrites.overlay) q → Clear node.leaves q) :
    ∃ m, t.calculateCompleteEventCacheAtPath path (some node) none false = some m ∧
      m.leaves = fun q => (t.visibleWrites.overlay (path ++ q)).getD (node.leaves q) := by
  have hplain : ((none : Option (List ℤ)).isNone && !false) = true := rfl
  unfold calculateCompleteEventCacheAtPath
  rw [if_pos hplain]
  cases hfind : t.visibleWrites.completeNodeAtPath path with
  | some shadowingNode =>
    refine ⟨shadowingNode, rfl, ?_⟩
    funext q
    have hq := congrFun (FCompoundWrite.below_overlay hfind) q
    rw [below_apply] at hq
    rw [hq]
    rfl
  | none =>
    simp only
    split
    · rename_i hempty
      refine ⟨node, rfl, ?_⟩
      rw [FCompoundWrite.isEmpty_iff, FCompoundWrite.overlay_childCompoundWriteAtPath] at hempty
      funext q
      have hq := congrFun hempty q
      rw [below_apply] at hq
      rw [hq]
      rfl
    · exact ⟨_, rfl, leaves_childWrites h⟩

omit [LawfulEqCmp cmp] in
/-- Without the data of the server there is an event cache only where a write covers the whole
path, and then it is what that write puts. -/
theorem calculateCompleteEventCacheAtPath_none {t : FWriteTree cmp scmp L} {path : List K} :
    t.calculateCompleteEventCacheAtPath path none none false =
      t.shadowingWriteAtPath path := by
  have hplain : ((none : Option (List ℤ)).isNone && !false) = true := rfl
  unfold calculateCompleteEventCacheAtPath shadowingWriteAtPath
  rw [if_pos hplain]
  cases hfind : t.visibleWrites.completeNodeAtPath path with
  | some shadowingNode => rfl
  | none =>
    simp only
    split
    · rfl
    · rw [if_pos]
      have hroot : (t.visibleWrites.childCompoundWriteAtPath path).completeNodeAtPath [] = none := by
        rw [FCompoundWrite.completeNodeAtPath_eq_none,
          FCompoundWrite.overlay_childCompoundWriteAtPath, below_apply, List.append_nil,
          ← FCompoundWrite.completeNodeAtPath_eq_none, hfind]
      simp [FCompoundWrite.hasCompleteWriteAtPath, hroot]

omit [TransCmp scmp] in
/-- After an overwrite by the server below a view: nothing where a write covers the place, and
else the new data under what the writes cover. -/
theorem calculateEventCacheAfterServerOverwriteAtPath_some {t : FWriteTree cmp scmp L}
    {treePath childPath : List K} {node : Node cmp L}
    (hnone : t.visibleWrites.overlay (treePath ++ childPath) = none)
    (h : ∀ q, Placed (below (treePath ++ childPath) t.visibleWrites.overlay) q →
      Clear (node.getChild childPath).leaves q) :
    ∃ m, t.calculateEventCacheAfterServerOverwriteAtPath treePath childPath node = some m ∧
      m.leaves = fun q => (t.visibleWrites.overlay (treePath ++ childPath ++ q)).getD
        (node.leaves (childPath ++ q)) := by
  unfold calculateEventCacheAfterServerOverwriteAtPath
  have hcomplete : t.visibleWrites.hasCompleteWriteAtPath (treePath ++ childPath) = false := by
    simpa [FCompoundWrite.hasCompleteWriteAtPath] using
      FCompoundWrite.completeNodeAtPath_eq_none.mpr hnone
  simp only [hcomplete, Bool.false_eq_true, if_false]
  split
  · rename_i hempty
    refine ⟨_, rfl, ?_⟩
    rw [FCompoundWrite.isEmpty_iff, FCompoundWrite.overlay_childCompoundWriteAtPath] at hempty
    funext q
    have hq := congrFun hempty q
    rw [below_apply] at hq
    rw [hq, Node.leaves_getChild]
    rfl
  · refine ⟨_, rfl, ?_⟩
    rw [leaves_childWrites h, Node.leaves_getChild]
    rfl

/-! ## Runs -/

omit [TransCmp cmp] [LawfulEqCmp cmp] [TransCmp scmp] [LawfulEqCmp scmp] in
/-- A removal that leaves the visible writes in order: the write is hidden or shadowed; or it
overlaps with others, none of them hidden, and those fit without it; or all that it put lies
apart from the others. -/
def Removable (earlier : List (FWriteRecord cmp scmp L)) (w : FWriteRecord cmp scmp L)
    (later : List (FWriteRecord cmp scmp L)) : Prop :=
  w.visible = false ∨ Shadowed w later ∨
    (Overlapping w (earlier ++ later) ∧ (∀ r ∈ earlier ++ later, r.visible = true) ∧
      Fits (leavesOf (pending (earlier ++ later))) (fun _ => none)) ∨
    (¬ Overlapping w (earlier ++ later) ∧
      ∀ pv ∈ w.writes, ∀ pw ∈ pending (earlier ++ later), Apart pv.1 pw.1)

omit [TransCmp cmp] [LawfulEqCmp cmp] [TransCmp scmp] [LawfulEqCmp scmp] [DecidableEq K] in
theorem pending_of_visible {records : List (FWriteRecord cmp scmp L)}
    (h : ∀ r ∈ records, r.visible = true) :
    pending records = records.flatMap FWriteRecord.writes := by
  rw [pending, List.filter_eq_self.mpr h]

theorem Covers.removeWriteId {t t' : FWriteTree cmp scmp L} (h : t.Covers) {writeId : ℤ}
    {visible : Bool} (ht' : t.removeWriteId writeId = some (t', visible))
    (hok : ∀ earlier w later, t.allWrites = earlier ++ w :: later → w.writeId = writeId →
      (∀ r ∈ earlier, r.writeId ≠ writeId) → Removable earlier w later) : t'.Covers := by
  obtain ⟨earlier, w, later, hall, hid, hfirst, hall', hcase⟩ := removeWriteId_cases ht'
  rcases hcase with ⟨-, hw, hsame⟩ | ⟨-, hv, hs, ho, hreset⟩ | ⟨-, hv, hs, ho, hremove⟩
  · exact h.of_hidden_or_shadowed hall hall' hsame hw
  · rcases hok earlier w later hall hid hfirst with hw | hw | ⟨-, hvisible, hfits⟩ | ⟨hno, -⟩
    · rw [hv] at hw
      cases hw
    · exact absurd hw hs
    · unfold Covers
      rw [hreset, hall', pending_of_visible hvisible]
      rw [pending_of_visible hvisible] at hfits
      exact overlay_layerTreeFromWrites hfits
    · exact absurd ho hno
  · rcases hok earlier w later hall hid hfirst with hw | hw | ⟨hyes, -⟩ | ⟨-, hapart⟩
    · rw [hv] at hw
      cases hw
    · exact absurd hw hs
    · exact absurd hyes ho
    · exact h.of_apart hall hall' hv hremove hapart

end Covering

end FWriteTree

/-- What the client does with its writes. -/
inductive WriteEvent {K : Type} (cmp scmp : K → K → Ordering) (L : Type)
  | addOverwrite (path : List K) (newData : Node cmp L) (writeId : ℤ) (visible : Bool)
  | addMerge (path : List K) (changedChildren : FCompoundWrite cmp scmp L) (writeId : ℤ)
  | removeWrite (writeId : ℤ)
  | removeAllWrites

namespace FWriteTree

section Runs

variable [DecidableEq K] [TransCmp cmp] [LawfulEqCmp cmp] [TransCmp scmp] [LawfulEqCmp scmp]

omit [LawfulEqCmp cmp] in
/-- One event. Nothing follows where an assertion of the source fails. -/
def step (t : FWriteTree cmp scmp L) : WriteEvent cmp scmp L → Option (FWriteTree cmp scmp L)
  | .addOverwrite path newData writeId visible =>
    t.addOverwriteAtPath path newData writeId visible
  | .addMerge path changedChildren writeId => t.addMergeAtPath path changedChildren writeId
  | .removeWrite writeId => (t.removeWriteId writeId).map Prod.fst
  | .removeAllWrites => some t.removeAllWrites.1

/-- New writes do not go below plain values of pending ones, and every removal is in order. -/
def InOrder (t : FWriteTree cmp scmp L) : WriteEvent cmp scmp L → Prop
  | .addOverwrite path _ _ visible => visible = true →
      Clear (layer (leavesOf (pending t.allWrites)) (fun _ => none)) path
  | .addMerge path changedChildren writeId =>
      Fits (leavesOf (FWriteRecord.withMerge path changedChildren writeId).writes)
        (layer (leavesOf (pending t.allWrites)) (fun _ => none))
  | .removeWrite writeId => ∀ earlier w later, t.allWrites = earlier ++ w :: later →
      w.writeId = writeId → (∀ r ∈ earlier, r.writeId ≠ writeId) → Removable earlier w later
  | .removeAllWrites => True

theorem Covers.step {t u : FWriteTree cmp scmp L} (h : t.Covers) {e : WriteEvent cmp scmp L}
    (hu : t.step e = some u) (hok : t.InOrder e) : u.Covers := by
  cases e with
  | addOverwrite path newData writeId visible => exact h.addOverwriteAtPath hu hok
  | addMerge path changedChildren writeId => exact h.addMergeAtPath hu hok
  | removeWrite writeId =>
    obtain ⟨⟨t', visible⟩, ht', rfl⟩ := Option.map_eq_some_iff.mp hu
    exact h.removeWriteId ht' hok
  | removeAllWrites =>
    cases hu
    exact covers_empty

end Runs

end FWriteTree

end HateBlocker
