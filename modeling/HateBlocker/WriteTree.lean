-- `FWriteTree`: the writes of the user that the server has not answered yet, and what they
-- make of the data of the server. The visible writes are kept as one compound write, beside
-- the records of all writes; a removal takes its write out of it or has it built again.
import HateBlocker.CompoundWrite

open Std PathMaps

namespace HateBlocker

variable {K L : Type} {cmp scmp : K → K → Ordering}

/-! ## Records -/

/-- What a record writes. -/
inductive WriteData {K : Type} (cmp scmp : K → K → Ordering) (L : Type)
  | overwrite (overwrite : Node cmp L)
  | merge (merge : FCompoundWrite cmp scmp L)

structure FWriteRecord {K : Type} (cmp scmp : K → K → Ordering) (L : Type) where
  writeId : ℤ
  path : List K
  data : WriteData cmp scmp L
  visible : Bool

namespace FWriteRecord

/-- `initWithPath:overwrite:writeId:visible:`. -/
def withOverwrite (path : List K) (overwrite : Node cmp L) (writeId : ℤ) (visible : Bool) :
    FWriteRecord cmp scmp L := ⟨writeId, path, .overwrite overwrite, visible⟩

/-- `initWithPath:merge:writeId:`. A merge is always visible. -/
def withMerge (path : List K) (merge : FCompoundWrite cmp scmp L) (writeId : ℤ) :
    FWriteRecord cmp scmp L := ⟨writeId, path, .merge merge, true⟩

/-- What the record puts where. -/
def writes (record : FWriteRecord cmp scmp L) : List (List K × Node cmp L) :=
  match record.data with
  | .overwrite overwrite => [(record.path, overwrite)]
  | .merge merge => merge.writes.map (fun pv => (record.path ++ pv.1, pv.2))

/-- `record:containsPath:`. -/
def containsPath [DecidableEq K] (record : FWriteRecord cmp scmp L) (path : List K) : Bool :=
  match record.data with
  | .overwrite _ => record.path.isPrefixOf path
  | .merge merge => merge.writes.any (fun pv => (record.path ++ pv.1).isPrefixOf path)

theorem containsPath_iff [DecidableEq K] {record : FWriteRecord cmp scmp L} {path : List K} :
    record.containsPath path = true ↔ ∃ pv ∈ record.writes, pv.1 <+: path := by
  unfold containsPath writes
  cases record.data with
  | overwrite overwrite => simp
  | merge merge =>
    rw [List.any_eq_true]
    constructor
    · rintro ⟨pv, hpv, hpre⟩
      exact ⟨_, List.mem_map_of_mem hpv, List.isPrefixOf_iff_prefix.mp hpre⟩
    · rintro ⟨pv, hpv, hpre⟩
      obtain ⟨pw, hpw, rfl⟩ := List.mem_map.mp hpv
      exact ⟨pw, hpw, List.isPrefixOf_iff_prefix.mpr hpre⟩

/-- Everything a record puts lies on its path. -/
theorem path_prefix_of_mem {record : FWriteRecord cmp scmp L} {pv : List K × Node cmp L}
    (h : pv ∈ record.writes) : record.path <+: pv.1 := by
  unfold writes at h
  split at h
  · obtain rfl := List.mem_singleton.mp h
    exact List.prefix_rfl
  · obtain ⟨pv', -, rfl⟩ := List.mem_map.mp h
    exact List.prefix_append ..

theorem foldl_withMerge [DecidableEq K] [TransCmp cmp] [TransCmp scmp] [LawfulEqCmp scmp]
    (path : List K) (merge : FCompoundWrite cmp scmp L) (writeId : ℤ)
    (w : FCompoundWrite cmp scmp L) :
    (withMerge path merge writeId).writes.foldl (fun w pv => w.addWrite pv.2 pv.1) w =
      w.addCompoundWrite merge path := by
  unfold writes withMerge FCompoundWrite.addCompoundWrite
  exact List.foldl_map

/-- What one record puts, it puts at places that are apart. -/
theorem pairwise_apart [TransCmp scmp] [LawfulEqCmp scmp] (record : FWriteRecord cmp scmp L) :
    record.writes.Pairwise (fun pv pw => Apart pv.1 pw.1) := by
  unfold writes
  split
  · exact List.pairwise_singleton _ _
  · rename_i merge _
    rw [List.pairwise_map]
    refine merge.pairwise_apart.imp fun hapart => ?_
    exact ⟨fun h => hapart.1 ((List.prefix_append_right_inj _).mp h),
      fun h => hapart.2 ((List.prefix_append_right_inj _).mp h)⟩

theorem apart_of_mem [TransCmp scmp] [LawfulEqCmp scmp] (record : FWriteRecord cmp scmp L)
    {pv pw : List K × Node cmp L} (hpv : pv ∈ record.writes) (hpw : pw ∈ record.writes)
    (hne : pv ≠ pw) : Apart pv.1 pw.1 := by
  have hsymm : Std.Symm (fun pv pw : List K × Node cmp L => Apart pv.1 pw.1) :=
    ⟨fun _ _ h => h.symm⟩
  exact record.pairwise_apart.forall hpv hpw hne

end FWriteRecord

/-! ## The tree -/

structure FWriteTree {K : Type} (cmp scmp : K → K → Ordering) (L : Type) where
  visibleWrites : FCompoundWrite cmp scmp L
  allWrites : List (FWriteRecord cmp scmp L)
  lastWriteId : ℤ

namespace FWriteTree

/-- `init`. -/
def empty : FWriteTree cmp scmp L := ⟨FCompoundWrite.emptyWrite, [], -1⟩

section Operations

variable [DecidableEq K] [TransCmp cmp] [TransCmp scmp] [LawfulEqCmp scmp]

/-- Nothing, like all that follows, where an assertion of the source fails. -/
def addOverwriteAtPath (t : FWriteTree cmp scmp L) (path : List K) (newData : Node cmp L)
    (writeId : ℤ) (visible : Bool) : Option (FWriteTree cmp scmp L) :=
  if t.lastWriteId < writeId then
    some {
      visibleWrites := if visible then t.visibleWrites.addWrite newData path else t.visibleWrites
      allWrites := t.allWrites ++ [.withOverwrite path newData writeId visible]
      lastWriteId := writeId }
  else none

def addMergeAtPath (t : FWriteTree cmp scmp L) (path : List K)
    (changedChildren : FCompoundWrite cmp scmp L) (writeId : ℤ) :
    Option (FWriteTree cmp scmp L) :=
  if t.lastWriteId < writeId then
    some {
      visibleWrites := t.visibleWrites.addCompoundWrite changedChildren path
      allWrites := t.allWrites ++ [.withMerge path changedChildren writeId]
      lastWriteId := writeId }
  else none

def writeForId (t : FWriteTree cmp scmp L) (writeId : ℤ) : Option (FWriteRecord cmp scmp L) :=
  t.allWrites.find? (fun write => write.writeId = writeId)

/-- One turn of the loop of `layerTreeFromWrites:filter:treeRoot:`. -/
def layerRecord (treeRoot : List K) (compoundWrite : FCompoundWrite cmp scmp L)
    (record : FWriteRecord cmp scmp L) : FCompoundWrite cmp scmp L :=
  let writePath := record.path
  match record.data with
  | .overwrite overwrite =>
    if treeRoot.isPrefixOf writePath then
      compoundWrite.addWrite overwrite (FPath.relativePathFrom treeRoot writePath)
    else if writePath.isPrefixOf treeRoot then
      compoundWrite.addWrite (overwrite.getChild (FPath.relativePathFrom writePath treeRoot)) []
    else compoundWrite
  | .merge merge =>
    if treeRoot.isPrefixOf writePath then
      compoundWrite.addCompoundWrite merge (FPath.relativePathFrom treeRoot writePath)
    else if writePath.isPrefixOf treeRoot then
      let relativePath := FPath.relativePathFrom writePath treeRoot
      if relativePath.isEmpty then compoundWrite.addCompoundWrite merge []
      else
        match merge.completeNodeAtPath relativePath with
        | some child => compoundWrite.addWrite (child.getChild relativePath.tail) []
        | none => compoundWrite
    else compoundWrite

def layerTreeFromWrites (writes : List (FWriteRecord cmp scmp L))
    (filter : FWriteRecord cmp scmp L → Bool) (treeRoot : List K) : FCompoundWrite cmp scmp L :=
  (writes.filter filter).foldl (layerRecord treeRoot) FCompoundWrite.emptyWrite

/-- `defaultFilter`. By its comment it keeps everything that is visible; it keeps everything. -/
def defaultFilter (_record : FWriteRecord cmp scmp L) : Bool := true

def resetTree (t : FWriteTree cmp scmp L) : FWriteTree cmp scmp L where
  visibleWrites := layerTreeFromWrites t.allWrites defaultFilter []
  allWrites := t.allWrites
  lastWriteId := (t.allWrites.getLast?.map FWriteRecord.writeId).getD (-1)

/-- The loop of `removeWriteId:`, over the other writes with their indices, the last one first:
whether the removed write was visible, and whether it overlaps with other writes. -/
def overlapLoop (writeToRemove : FWriteRecord cmp scmp L) (index : ℕ) :
    List (FWriteRecord cmp scmp L × ℕ) → Bool → Bool × Bool
  | [], overlaps => (true, overlaps)
  | (currentWrite, i) :: rest, overlaps =>
    if currentWrite.visible then
      if index ≤ i && currentWrite.containsPath writeToRemove.path then (false, overlaps)
      else overlapLoop writeToRemove index rest
        (overlaps || writeToRemove.path.isPrefixOf currentWrite.path)
    else overlapLoop writeToRemove index rest overlaps

/-- The tree without the write, and whether the write may have been visible. -/
def removeWriteId (t : FWriteTree cmp scmp L) (writeId : ℤ) :
    Option (FWriteTree cmp scmp L × Bool) :=
  match t.allWrites.findIdx? (fun record => record.writeId = writeId) with
  | none => none
  | some index =>
    match t.allWrites[index]? with
    | none => none
    | some writeToRemove =>
      let t' := { t with allWrites := t.allWrites.eraseIdx index }
      let (removedWriteWasVisible, overlaps) :=
        if writeToRemove.visible then
          overlapLoop writeToRemove index t'.allWrites.zipIdx.reverse false
        else (false, false)
      if !removedWriteWasVisible then some (t', false)
      else if overlaps then some (t'.resetTree, true)
      else
        let visibleWrites :=
          match writeToRemove.data with
          | .overwrite _ => t.visibleWrites.removeWriteAtPath writeToRemove.path
          | .merge merge => merge.writes.foldl (fun visibleWrites pv =>
              visibleWrites.removeWriteAtPath (writeToRemove.path ++ pv.1)) t.visibleWrites
        some ({ t' with visibleWrites := visibleWrites }, true)

/-- The writes that were pending come back. -/
def removeAllWrites (t : FWriteTree cmp scmp L) :
    FWriteTree cmp scmp L × List (FWriteRecord cmp scmp L) :=
  ({ t with visibleWrites := FCompoundWrite.emptyWrite, allWrites := [] }, t.allWrites)

def shadowingWriteAtPath (t : FWriteTree cmp scmp L) (path : List K) : Option (Node cmp L) :=
  t.visibleWrites.completeNodeAtPath path

/-- The filter of `calculateCompleteEventCacheAtPath:`. -/
def excluding (treePath : List K) (writeIdsToExclude : Option (List ℤ))
    (includeHiddenWrites : Bool) (record : FWriteRecord cmp scmp L) : Bool :=
  (record.visible || includeHiddenWrites) &&
    (writeIdsToExclude.isNone || !(writeIdsToExclude.getD []).contains record.writeId) &&
    (record.path.isPrefixOf treePath || treePath.isPrefixOf record.path)

def calculateCompleteEventCacheAtPath (t : FWriteTree cmp scmp L) (treePath : List K)
    (completeServerCache : Option (Node cmp L)) (writeIdsToExclude : Option (List ℤ))
    (includeHiddenWrites : Bool) : Option (Node cmp L) :=
  if writeIdsToExclude.isNone && !includeHiddenWrites then
    match t.visibleWrites.completeNodeAtPath treePath with
    | some shadowingNode => some shadowingNode
    | none =>
      let subMerge := t.visibleWrites.childCompoundWriteAtPath treePath
      if subMerge.isEmpty then completeServerCache
      else if completeServerCache.isNone && !subMerge.hasCompleteWriteAtPath [] then none
      else some (subMerge.applyToNode (completeServerCache.getD Node.empty))
  else
    let merge := t.visibleWrites.childCompoundWriteAtPath treePath
    if !includeHiddenWrites && merge.isEmpty then completeServerCache
    else if !includeHiddenWrites && completeServerCache.isNone &&
        !merge.hasCompleteWriteAtPath [] then none
    else
      let mergeAtPath := layerTreeFromWrites t.allWrites
        (excluding treePath writeIdsToExclude includeHiddenWrites) treePath
      some (mergeAtPath.applyToNode (completeServerCache.getD Node.empty))

def calculateCompleteEventChildrenAtPath (t : FWriteTree cmp scmp L) (treePath : List K)
    (completeServerChildren : Node cmp L) : Node cmp L :=
  match t.visibleWrites.completeNodeAtPath treePath with
  | some topLevelSet =>
    topLevelSet.children.foldl (fun completeChildren child =>
      completeChildren.updateImmediateChild child.1 child.2) Node.empty
  | none =>
    let merge := t.visibleWrites.childCompoundWriteAtPath treePath
    let layered := completeServerChildren.children.foldl (fun completeChildren child =>
      completeChildren.updateImmediateChild child.1
        ((merge.childCompoundWriteAtPath [child.1]).applyToNode child.2)) Node.empty
    merge.completeChildren.foldl (fun completeChildren child =>
      completeChildren.updateImmediateChild child.1 child.2) layered

/-- Nothing where a write covers the path. Where neither snapshot exists the source fails an
assertion; every caller has the snapshot of the server. -/
def calculateEventCacheAfterServerOverwriteAtPath (t : FWriteTree cmp scmp L)
    (treePath childPath : List K) (existingServerSnap : Node cmp L) : Option (Node cmp L) :=
  let path := treePath ++ childPath
  if t.visibleWrites.hasCompleteWriteAtPath path then none
  else
    let childMerge := t.visibleWrites.childCompoundWriteAtPath path
    if childMerge.isEmpty then some (existingServerSnap.getChild childPath)
    else some (childMerge.applyToNode (existingServerSnap.getChild childPath))

end Operations

/-- What the visible records of a list put, in their order. -/
def pending (records : List (FWriteRecord cmp scmp L)) : List (List K × Node cmp L) :=
  (records.filter FWriteRecord.visible).flatMap FWriteRecord.writes

@[simp] theorem pending_nil : pending ([] : List (FWriteRecord cmp scmp L)) = [] := rfl

theorem pending_append (l r : List (FWriteRecord cmp scmp L)) :
    pending (l ++ r) = pending l ++ pending r := by
  simp [pending]

theorem pending_cons (record : FWriteRecord cmp scmp L) (l : List (FWriteRecord cmp scmp L)) :
    pending (record :: l) = (if record.visible then record.writes else []) ++ pending l := by
  unfold pending
  rw [List.filter_cons]
  split <;> rfl

theorem pending_append_singleton (records : List (FWriteRecord cmp scmp L))
    (r : FWriteRecord cmp scmp L) :
    pending (records ++ [r]) = pending records ++ (if r.visible then r.writes else []) := by
  rw [pending_append, pending_cons, pending_nil, List.append_nil]

theorem mem_pending {records : List (FWriteRecord cmp scmp L)} {pv : List K × Node cmp L} :
    pv ∈ pending records ↔ ∃ r ∈ records, r.visible = true ∧ pv ∈ r.writes := by
  simp [pending, and_assoc]

section Removal

variable [DecidableEq K]

/-- A later write covers the whole path of the write. -/
def Shadowed (w : FWriteRecord cmp scmp L) (later : List (FWriteRecord cmp scmp L)) : Prop :=
  ∃ r ∈ later, r.visible = true ∧ r.containsPath w.path = true

/-- Another write has its path on the path of the write. -/
def Overlapping (w : FWriteRecord cmp scmp L) (others : List (FWriteRecord cmp scmp L)) : Prop :=
  ∃ r ∈ others, r.visible = true ∧ w.path <+: r.path

theorem overlapLoop_fst (w : FWriteRecord cmp scmp L) (index : ℕ)
    (l : List (FWriteRecord cmp scmp L × ℕ)) (overlaps : Bool) :
    (overlapLoop w index l overlaps).1 = false ↔
      ∃ c ∈ l, c.1.visible = true ∧ index ≤ c.2 ∧ c.1.containsPath w.path = true := by
  induction l generalizing overlaps with
  | nil => simp [overlapLoop]
  | cons c l ih =>
    obtain ⟨current, i⟩ := c
    rw [overlapLoop]
    simp only [List.mem_cons, or_and_right, exists_or, exists_eq_left]
    by_cases hv : current.visible
    · by_cases hc : index ≤ i ∧ current.containsPath w.path
      · simp [hv, hc.1, hc.2]
      · rw [if_pos hv, if_neg (by simpa using hc), ih]
        simp only [hv, true_and, hc, false_or]
    · rw [if_neg hv, ih]
      simp only [hv, Bool.false_eq_true, false_and, false_or]

theorem overlapLoop_snd {w : FWriteRecord cmp scmp L} {index : ℕ}
    {l : List (FWriteRecord cmp scmp L × ℕ)} {overlaps : Bool}
    (h : (overlapLoop w index l overlaps).1 = true) :
    (overlapLoop w index l overlaps).2 = true ↔
      overlaps = true ∨ ∃ c ∈ l, c.1.visible = true ∧ w.path <+: c.1.path := by
  induction l generalizing overlaps with
  | nil => simp [overlapLoop]
  | cons c l ih =>
    obtain ⟨current, i⟩ := c
    rw [overlapLoop] at h ⊢
    simp only [List.mem_cons, or_and_right, exists_or, exists_eq_left]
    by_cases hv : current.visible
    · by_cases hc : index ≤ i ∧ current.containsPath w.path
      · simp [hv, hc.1, hc.2] at h
      · rw [if_pos hv, if_neg (by simpa using hc)] at h ⊢
        rw [ih h]
        simp [hv, or_assoc]
    · rw [if_neg hv] at h ⊢
      rw [ih h]
      simp only [hv, Bool.false_eq_true, false_and, false_or]

omit [DecidableEq K] in
theorem exists_zipIdx_iff {l r : List (FWriteRecord cmp scmp L)}
    {p : FWriteRecord cmp scmp L → Prop} :
    (∃ c ∈ (l ++ r).zipIdx.reverse, p c.1) ↔ ∃ c ∈ l ++ r, p c := by
  constructor
  · rintro ⟨⟨c, i⟩, hc, hp⟩
    exact ⟨c, List.fst_mem_of_mem_zipIdx (List.mem_reverse.mp hc), hp⟩
  · rintro ⟨c, hc, hp⟩
    obtain ⟨i, hi, rfl⟩ := List.getElem_of_mem hc
    refine ⟨((l ++ r)[i], i), ?_, hp⟩
    rw [List.mem_reverse, List.mk_mem_zipIdx_iff_getElem?]
    exact List.getElem?_eq_getElem hi

omit [DecidableEq K] in
theorem exists_zipIdx_from_iff {l r : List (FWriteRecord cmp scmp L)}
    {p : FWriteRecord cmp scmp L → Prop} :
    (∃ c ∈ (l ++ r).zipIdx.reverse, l.length ≤ c.2 ∧ p c.1) ↔ ∃ c ∈ r, p c := by
  constructor
  · rintro ⟨⟨c, i⟩, hc, hle, hp⟩
    have hget := List.mk_mem_zipIdx_iff_getElem?.mp (List.mem_reverse.mp hc)
    rw [List.getElem?_append_right hle] at hget
    exact ⟨c, List.mem_of_getElem? hget, hp⟩
  · rintro ⟨c, hc, hp⟩
    obtain ⟨i, hi, rfl⟩ := List.getElem_of_mem hc
    refine ⟨(r[i], l.length + i), ?_, Nat.le_add_right _ _, hp⟩
    rw [List.mem_reverse, List.mk_mem_zipIdx_iff_getElem?, List.getElem?_append_right (by omega),
      Nat.add_sub_cancel_left]
    exact List.getElem?_eq_getElem hi

variable [TransCmp cmp] [TransCmp scmp] [LawfulEqCmp scmp]

/-- What a removal finds and does: the write is hidden or shadowed and only its record goes, or
it overlaps with others and the tree is built again, or all that it put is taken out. -/
theorem removeWriteId_cases {t t' : FWriteTree cmp scmp L} {writeId : ℤ} {visible : Bool}
    (h : t.removeWriteId writeId = some (t', visible)) :
    ∃ earlier w later, t.allWrites = earlier ++ w :: later ∧ w.writeId = writeId ∧
      (∀ r ∈ earlier, r.writeId ≠ writeId) ∧ t'.allWrites = earlier ++ later ∧
      ((visible = false ∧ (w.visible = false ∨ Shadowed w later) ∧
          t'.visibleWrites = t.visibleWrites) ∨
        (visible = true ∧ w.visible = true ∧ ¬ Shadowed w later ∧
          Overlapping w (earlier ++ later) ∧
          t'.visibleWrites = layerTreeFromWrites (earlier ++ later) defaultFilter []) ∨
        (visible = true ∧ w.visible = true ∧ ¬ Shadowed w later ∧
          ¬ Overlapping w (earlier ++ later) ∧
          t'.visibleWrites = w.writes.foldl (fun v pv => v.removeWriteAtPath pv.1)
            t.visibleWrites)) := by
  unfold removeWriteId at h
  split at h
  · cases h
  · rename_i index hindex
    obtain ⟨hlt, hid, hbefore⟩ := List.findIdx?_eq_some_iff_getElem.mp hindex
    rw [List.getElem?_eq_getElem hlt] at h
    have hsplit := (List.take_append_drop index t.allWrites).symm
    rw [List.drop_eq_getElem_cons hlt] at hsplit
    have herase : t.allWrites.eraseIdx index =
        t.allWrites.take index ++ t.allWrites.drop (index + 1) := List.eraseIdx_eq_take_drop_succ ..
    have hlength : (t.allWrites.take index).length = index := by
      rw [List.length_take]
      omega
    generalize t.allWrites.take index = earlier at *
    generalize t.allWrites.drop (index + 1) = later at *
    generalize hw : t.allWrites[index] = w at *
    subst hlength
    refine ⟨earlier, w, later, hsplit, by simpa using hid, ?_, ?_⟩
    · intro r hr
      obtain ⟨i, hi, rfl⟩ := List.getElem_of_mem hr
      have hne := hbefore i hi
      simpa [hsplit, List.getElem_append_left hi] using hne
    · simp only [herase] at h
      by_cases hv : w.visible
      · have hfst := overlapLoop_fst w earlier.length (earlier ++ later).zipIdx.reverse false
        have hshadow : (∃ c ∈ (earlier ++ later).zipIdx.reverse, c.1.visible = true ∧
            earlier.length ≤ c.2 ∧ c.1.containsPath w.path = true) ↔ Shadowed w later := by
          rw [Shadowed, ← exists_zipIdx_from_iff (l := earlier)]
          simp only [and_left_comm]
        rw [hshadow] at hfst
        simp only [hv, if_true] at h
        by_cases hs : Shadowed w later
        · rw [hfst.mpr hs] at h
          cases h
          exact ⟨rfl, Or.inl ⟨rfl, Or.inr hs, rfl⟩⟩
        · have htrue : (overlapLoop w earlier.length
              (earlier ++ later).zipIdx.reverse false).1 = true := by
            simpa using mt hfst.mp hs
          have hsnd := overlapLoop_snd htrue
          have hoverlap : (∃ c ∈ (earlier ++ later).zipIdx.reverse, c.1.visible = true ∧
              w.path <+: c.1.path) ↔ Overlapping w (earlier ++ later) :=
            exists_zipIdx_iff (p := fun c => c.visible = true ∧ w.path <+: c.path)
          rw [hoverlap] at hsnd
          rw [htrue] at h
          by_cases ho : Overlapping w (earlier ++ later)
          · rw [hsnd.mpr (Or.inr ho)] at h
            cases h
            exact ⟨rfl, Or.inr (Or.inl ⟨rfl, hv, hs, ho, rfl⟩)⟩
          · have hfalse : (overlapLoop w earlier.length
                (earlier ++ later).zipIdx.reverse false).2 = false := by
              simpa [ho] using hsnd
            rw [hfalse] at h
            cases h
            refine ⟨rfl, Or.inr (Or.inr ⟨rfl, hv, hs, ho, ?_⟩)⟩
            unfold FWriteRecord.writes
            cases w.data with
            | overwrite overwrite => rfl
            | merge merge => simp [List.foldl_map]
      · simp only [hv] at h
        cases h
        exact ⟨rfl, Or.inl ⟨rfl, Or.inl (by simpa using hv), rfl⟩⟩

/-- A write that is there can be removed. -/
theorem removeWriteId_of_mem {t : FWriteTree cmp scmp L} {writeId : ℤ}
    (h : ∃ w ∈ t.allWrites, w.writeId = writeId) :
    ∃ t' visible, t.removeWriteId writeId = some (t', visible) := by
  obtain ⟨w, hw, hid⟩ := h
  have hsome : (t.allWrites.findIdx? (fun record => record.writeId = writeId)).isSome := by
    rw [List.findIdx?_isSome, List.any_eq_true]
    exact ⟨w, hw, by simpa using hid⟩
  obtain ⟨index, hindex⟩ := Option.isSome_iff_exists.mp hsome
  obtain ⟨hlt, -, -⟩ := List.findIdx?_eq_some_iff_getElem.mp hindex
  unfold removeWriteId
  rw [hindex]
  simp only [List.getElem?_eq_getElem hlt]
  split
  · split
    · exact ⟨_, _, rfl⟩
    · split
      · exact ⟨_, _, rfl⟩
      · exact ⟨_, _, rfl⟩
  · exact ⟨_, _, rfl⟩

end Removal

end FWriteTree

end HateBlocker
