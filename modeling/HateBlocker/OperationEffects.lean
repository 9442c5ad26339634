-- What an operation does at one place. The part of a write that reaches it puts there what the
-- whole one puts from there on, the part of an answer affects the same places, and a view that gets
-- its part keeps to the data and to the overlay.
import HateBlocker.SyncTree

open Std PathMaps

namespace HateBlocker

variable {K L : Type} {cmp scmp : K → K → Ordering}

/-! ## What an operation puts over the data -/

namespace FOperation

section Effects

variable [DecidableEq K]

def effect : FOperation cmp scmp L → List K → Option (Option L)
  | overwrite _ path snap => graft path (FCompoundWrite.shade snap) (fun _ => none)
  | merge _ path children => graft path children.overlay (fun _ => none)
  | ackUserWrite _ _ _ => fun _ => none
  | listenComplete _ => fun _ => none

/-- An overwrite or a merge of the user or of the server. -/
def IsWrite (fromUser : Bool) : FOperation cmp scmp L → Prop
  | overwrite b _ _ => b = fromUser
  | merge b _ _ => b = fromUser
  | ackUserWrite _ _ _ => False
  | listenComplete _ => False

/-- A merge does not write its own root. -/
def Rootless : FOperation cmp scmp L → Prop
  | merge _ _ children => children.overlay [] = none
  | _ => True

variable [LawfulEqCmp scmp]

theorem effect_operationForChild {operation : FOperation cmp scmp L} {fromUser : Bool}
    (hwrite : operation.IsWrite fromUser) {k : K}
    (hpath : operation.path = [] ∨ operation.path.head? = some k) :
    (operation.operationForChild k = none → below [k] operation.effect = fun _ => none) ∧
      ∀ c, operation.operationForChild k = some c →
        c.IsWrite fromUser ∧ (operation.Rootless → c.Rootless) ∧
          c.effect = below [k] operation.effect := by
  cases operation with
  | overwrite b path snap =>
    cases path with
    | nil =>
      refine ⟨fun h => (by cases h), fun c h => ?_⟩
      cases h
      refine ⟨hwrite, fun _ => trivial, ?_⟩
      have hleaves := Node.leaves_getImmediateChild snap k
      have heffect : (overwrite b [] snap : FOperation cmp scmp L).effect =
          FCompoundWrite.shade snap := rfl
      have hchild : (overwrite b [] (snap.getImmediateChild k) : FOperation cmp scmp L).effect =
          FCompoundWrite.shade (snap.getImmediateChild k) := rfl
      rw [heffect, hchild]
      unfold FCompoundWrite.shade
      rw [hleaves]
      rfl
    | cons front path =>
      obtain rfl : front = k := by simpa [FOperation.path] using hpath
      refine ⟨fun h => (by cases h), fun c h => ?_⟩
      cases h
      refine ⟨hwrite, fun _ => trivial, ?_⟩
      exact (below_graft_append [front] path (FCompoundWrite.shade snap) (fun _ => none)).symm
  | merge b path children =>
    cases path with
    | nil =>
      have hoverlay := children.overlay_childCompoundWriteAtPath [k]
      have heffect : (merge b [] children : FOperation cmp scmp L).effect = children.overlay :=
        rfl
      rw [heffect, ← hoverlay]
      unfold operationForChild
      dsimp only
      by_cases hempty : (children.childCompoundWriteAtPath [k]).isEmpty = true
      · rw [if_pos hempty]
        exact ⟨fun _ => FCompoundWrite.isEmpty_iff.mp hempty, fun c h => by cases h⟩
      · rw [if_neg hempty]
        -- a merge that has the whole child goes on as an overwrite
        cases hroot : (children.childCompoundWriteAtPath [k]).rootWrite with
        | some snap =>
          refine ⟨fun h => (by cases h), fun c h => ?_⟩
          cases h
          refine ⟨hwrite, fun _ => trivial, ?_⟩
          rw [FCompoundWrite.overlay, FCompoundWrite.overlayOf_of_value hroot]
          exact rfl
        | none =>
          refine ⟨fun h => (by cases h), fun c h => ?_⟩
          cases h
          refine ⟨hwrite, ?_, ?_⟩
          · refine fun _ => FCompoundWrite.overlayOf_eq_none.mpr ⟨clear_nil _, ?_⟩
            rw [FImmutableTree.valueAtPath_nil]
            exact hroot
          · exact rfl
    | cons front path =>
      obtain rfl : front = k := by simpa [FOperation.path] using hpath
      refine ⟨fun h => (by cases h), fun c h => ?_⟩
      cases h
      refine ⟨hwrite, fun h => h, ?_⟩
      exact (below_graft_append [front] path children.overlay (fun _ => none)).symm
  | ackUserWrite path affectedTree revert => cases hwrite
  | listenComplete path => cases hwrite

omit [LawfulEqCmp scmp] in
/-- Beside its path an operation puts nothing. -/
theorem below_effect_of_beside {operation : FOperation cmp scmp L} {k : K}
    (hpath : ¬ (operation.path = [] ∨ operation.path.head? = some k)) :
    below [k] operation.effect = fun _ => none := by
  have hapart : Apart operation.path [k] := by
    cases hp : operation.path with
    | nil => exact absurd (Or.inl hp) hpath
    | cons front path =>
      have hne : front ≠ k := by
        rintro rfl
        exact hpath (Or.inr (by rw [hp]; rfl))
      constructor
      · rintro ⟨r, hr⟩
        exact hne (List.cons.inj hr).1
      · rintro ⟨r, hr⟩
        exact hne (List.cons.inj hr).1.symm
  cases operation with
  | overwrite b path snap => exact below_graft_of_apart hapart _ _
  | merge b path children => exact below_graft_of_apart hapart _ _
  | ackUserWrite path affectedTree revert => rfl
  | listenComplete path => rfl

/-- What reaches a place puts what the whole operation puts from there on. -/
theorem effect_reaching {operation : FOperation cmp scmp L} {fromUser : Bool}
    (hwrite : operation.IsWrite fromUser) (p : List K) :
    (operation.reaching p = none → below p operation.effect = fun _ => none) ∧
      ∀ o, operation.reaching p = some o →
        o.IsWrite fromUser ∧ (operation.Rootless → o.Rootless) ∧
          o.effect = below p operation.effect := by
  induction p generalizing operation with
  | nil =>
    refine ⟨fun h => (by cases h), fun o h => ?_⟩
    cases h
    exact ⟨hwrite, fun h => h, rfl⟩
  | cons k p ih =>
    have hsplit : below (k :: p) operation.effect = below p (below [k] operation.effect) :=
      below_append [k] p _
    by_cases hpath : operation.path = [] ∨ operation.path.head? = some k
    · obtain ⟨hnone, hsome⟩ := effect_operationForChild hwrite hpath
      rw [reaching, if_pos hpath, hsplit]
      cases hchild : operation.operationForChild k with
      | none =>
        refine ⟨fun _ => ?_, fun o h => by cases h⟩
        rw [hnone hchild]
        rfl
      | some c =>
        obtain ⟨hcwrite, hcrootless, hceffect⟩ := hsome c hchild
        rw [← hceffect]
        obtain ⟨ihnone, ihsome⟩ := ih hcwrite
        refine ⟨ihnone, fun o h => ?_⟩
        obtain ⟨howrite, horootless, hoeffect⟩ := ihsome o h
        exact ⟨howrite, fun h => horootless (hcrootless h), hoeffect⟩
    · rw [reaching, if_neg hpath, hsplit]
      refine ⟨fun _ => ?_, fun o h => by cases h⟩
      rw [below_effect_of_beside hpath]
      rfl

end Effects

end FOperation

/-! ## What a view makes of a write -/

namespace FViewProcessor

section Writes

theorem placed_shade (snap : Node cmp L) : Placed (FCompoundWrite.shade snap) [] :=
  ⟨by simp [FCompoundWrite.shade], clear_nil _⟩

variable [DecidableEq K] [TransCmp cmp] [LawfulEqCmp cmp] [TransCmp scmp] [LawfulEqCmp scmp]
  [DecidableEq L] {v : FViewCache cmp L} {o : List K → Option (Option L)} {f : List K → Option L}
  {w : FWriteTreeRef cmp scmp L} {operation : FOperation cmp scmp L}

/-- A write of the user goes over the others. -/
theorem Shows.receiveUser (hwrite : operation.IsWrite true) (h : Shows v o f)
    (hfits : v.cachedServerSnap.isFullyInitialized = true ∨ o [] ≠ none →
      ∀ q, Placed operation.effect q → Clear (shown o f) q)
    (optCompleteCache : Option (Node cmp L)) :
    Shows (process v operation w optCompleteCache).1 (upon operation.effect o) f := by
  cases operation with
  | overwrite b path snap =>
    obtain rfl : b = true := hwrite
    have heffect : upon (FOperation.overwrite true path snap : FOperation cmp scmp L).effect o =
        graft path (FCompoundWrite.shade snap) o := upon_graft path snap.leaves (fun _ => none) o
    rw [heffect]
    refine h.userOverwrite (fun hc => ?_) optCompleteCache
    have hclear := hfits hc _ (placed_graft path (placed_shade snap))
    rwa [List.append_nil] at hclear
  | merge b path children =>
    obtain rfl : b = true := hwrite
    have heffect : upon (FOperation.merge true path children : FOperation cmp scmp L).effect o =
        layer (children.writes.map (fun pv => (path ++ pv.1, FCompoundWrite.shade pv.2))) o := by
      have hlayer := layer_eq_upon ((FCompoundWrite.leavesOf children.writes).map
        (fun w => (path ++ w.1, w.2))) o
      rw [cover_map_append, ← FCompoundWrite.overlay_eq_cover, List.map_map] at hlayer
      rw [FCompoundWrite.leavesOf, List.map_map] at hlayer
      exact hlayer.symm
    rw [heffect]
    refine h.userMerge (fun hc pv hpv => ?_) optCompleteCache
    exact hfits hc _ (placed_graft path (FCompoundWrite.placed_of_mem_writes hpv))
  | ackUserWrite path affectedTree revert => cases hwrite
  | listenComplete path => cases hwrite

/-- A write of the server goes over its data. -/
theorem Shows.receiveServer (hwrite : operation.IsWrite false) (hrootless : operation.Rootless)
    (h : Shows v w.overlay f) (hdown : Downward w.overlay)
    (hfits : v.cachedServerSnap.isFullyInitialized = true →
      ∀ q, Placed operation.effect q → Clear f q)
    (hplaced : ∀ q, Placed w.overlay q → Clear (shown operation.effect f) q)
    (optCompleteCache : Option (Node cmp L)) :
    Shows (process v operation w optCompleteCache).1 w.overlay (shown operation.effect f) := by
  cases operation with
  | overwrite b path snap =>
    obtain rfl : b = false := hwrite
    have heffect : shown (FOperation.overwrite false path snap : FOperation cmp scmp L).effect f =
        graft path snap.leaves f := shown_graft_none path (FCompoundWrite.shade snap) f
    rw [heffect] at hplaced ⊢
    refine h.serverOverwrite snap hdown (fun hinit => ?_) (fun _ => hplaced)
    have hclear := hfits hinit _ (placed_graft path (placed_shade snap))
    rwa [List.append_nil] at hclear
  | merge b path children =>
    obtain rfl : b = false := hwrite
    have heffect : (FOperation.merge false path children : FOperation cmp scmp L).effect =
        (actualMerge path children).overlay := overlay_actualMerge.symm
    rw [heffect] at hfits hplaced ⊢
    refine h.serverMerge hdown ?_ hfits (fun _ => hplaced)
    rw [overlay_actualMerge]
    cases path with
    | nil => exact hrootless
    | cons k path => rfl
  | ackUserWrite path affectedTree revert => cases hwrite
  | listenComplete path => cases hwrite

end Writes

end FViewProcessor

/-! ## What an answer affects -/

section Answers

/-- The places that an answer affects. -/
def Affects (scmp : K → K → Ordering) (path : List K) (affectedTree : FImmutableTree K Unit)
    (a : List K) : Prop :=
  ∃ b, affectedTree.valueAtPath scmp b ≠ none ∧ path ++ b = a

/-- The part of an answer that reaches a place: it affects all that the whole answer affects from
there on, and nothing else but the place itself. -/
structure Answers (scmp : K → K → Ordering) (p path : List K)
    (affectedTree : FImmutableTree K Unit) (path' : List K)
    (affectedTree' : FImmutableTree K Unit) : Prop where
  sound : affectedTree'.Sound scmp
  alone : Alone (affectedTree'.valueAtPath scmp)
  reaches : ∀ q, (∃ a, Affects scmp path affectedTree a ∧ a <+: p ++ q) →
    ∃ a, Affects scmp path' affectedTree' a ∧ a <+: q
  comes : ∀ a, Affects scmp path' affectedTree' a →
    a = [] ∨ Affects scmp path affectedTree (p ++ a)
  path : path' = [] ∨ p ++ path' = path

variable [DecidableEq K]

variable (cmp L) in
theorem answers_operationForChild {path : List K} {affectedTree : FImmutableTree K Unit}
    (revert : Bool) (hsound : affectedTree.Sound scmp)
    (halone : Alone (affectedTree.valueAtPath scmp)) {k : K}
    (hpath : path = [] ∨ path.head? = some k) :
    ∃ path' affectedTree', FOperation.operationForChild k
        (.ackUserWrite path affectedTree revert : FOperation cmp scmp L) =
          some (.ackUserWrite path' affectedTree' revert) ∧
      Answers scmp [k] path affectedTree path' affectedTree' := by
  cases path with
  | nil =>
    by_cases hvalue : affectedTree.value.isSome = true
    · refine ⟨[], affectedTree, ?_, hsound, halone, ?_, ?_, Or.inl rfl⟩
      · unfold FOperation.operationForChild
        dsimp only
        rw [if_pos hvalue]
      · intro q _
        refine ⟨[], ⟨[], ?_, rfl⟩, List.nil_prefix⟩
        rw [FImmutableTree.valueAtPath_nil]
        exact Option.isSome_iff_ne_none.mp hvalue
      · rintro a ⟨b, hb, rfl⟩
        cases b with
        | nil => exact Or.inl rfl
        | cons l b =>
          have hnone := halone _ hb [] l b rfl
          rw [FImmutableTree.valueAtPath_nil] at hnone
          rw [hnone] at hvalue
          cases hvalue
    · have hsub : (affectedTree.subtreeAtPath scmp [k]).valueAtPath scmp =
          below [k] (affectedTree.valueAtPath scmp) :=
        FImmutableTree.valueAtPath_subtreeAtPath affectedTree [k]
      refine ⟨[], affectedTree.subtreeAtPath scmp [k], ?_, hsound.subtreeAtPath [k], ?_, ?_, ?_,
        Or.inl rfl⟩
      · unfold FOperation.operationForChild
        dsimp only
        rw [if_neg hvalue]
      · rw [hsub]
        exact halone.below [k]
      · rintro q ⟨a, ⟨b, hb, rfl⟩, hpre⟩
        cases b with
        | nil =>
          rw [FImmutableTree.valueAtPath_nil] at hb
          exact absurd (Option.isSome_iff_ne_none.mpr hb) hvalue
        | cons l b =>
          obtain ⟨rfl, hpre'⟩ := List.cons_prefix_cons.mp hpre
          refine ⟨b, ⟨b, ?_, rfl⟩, hpre'⟩
          rw [hsub]
          exact hb
      · rintro a ⟨b, hb, rfl⟩
        rw [hsub] at hb
        exact Or.inr ⟨k :: b, hb, rfl⟩
  | cons front path =>
    obtain rfl : front = k := by simpa using hpath
    refine ⟨path, affectedTree, rfl, hsound, halone, ?_, ?_, Or.inr rfl⟩
    · rintro q ⟨a, ⟨b, hb, rfl⟩, hpre⟩
      exact ⟨path ++ b, ⟨b, hb, rfl⟩, (List.cons_prefix_cons.mp hpre).2⟩
    · rintro a ⟨b, hb, rfl⟩
      exact Or.inr ⟨b, hb, rfl⟩

variable (cmp L) in
theorem answers_reaching {path : List K} {affectedTree : FImmutableTree K Unit}
    (revert : Bool) (hsound : affectedTree.Sound scmp)
    (halone : Alone (affectedTree.valueAtPath scmp)) (p : List K) :
    ((FOperation.ackUserWrite path affectedTree revert : FOperation cmp scmp L).reaching p = none →
      ∀ q a, Affects scmp path affectedTree a → ¬ a <+: p ++ q) ∧
    ∀ o, (FOperation.ackUserWrite path affectedTree revert : FOperation cmp scmp L).reaching p =
        some o → ∃ path' affectedTree', o = .ackUserWrite path' affectedTree' revert ∧
      Answers scmp p path affectedTree path' affectedTree' := by
  induction p generalizing path affectedTree with
  | nil =>
    refine ⟨fun h => (by cases h), fun o h => ?_⟩
    cases h
    exact ⟨path, affectedTree, rfl, hsound, halone, fun q h => h, fun a h => Or.inr h, Or.inr rfl⟩
  | cons k p ih =>
    have hfront : ((FOperation.ackUserWrite path affectedTree revert : FOperation cmp scmp L).path =
        [] ∨ (FOperation.ackUserWrite path affectedTree revert :
          FOperation cmp scmp L).path.head? = some k) ↔ (path = [] ∨ path.head? = some k) := Iff.rfl
    by_cases hpath : path = [] ∨ path.head? = some k
    · obtain ⟨path₁, tree₁, hchild, hfirst⟩ :=
        answers_operationForChild L cmp revert hsound halone hpath
      obtain ⟨hnone, hsome⟩ := ih hfirst.sound hfirst.alone
      have hreaching : (FOperation.ackUserWrite path affectedTree revert :
          FOperation cmp scmp L).reaching (k :: p) =
            (FOperation.ackUserWrite path₁ tree₁ revert).reaching p := by
        rw [FOperation.reaching, if_pos (hfront.mpr hpath), hchild]
        rfl
      rw [hreaching]
      constructor
      · intro h q a ha hpre
        obtain ⟨b, hb, hpre'⟩ := hfirst.reaches (p ++ q) ⟨a, ha, hpre⟩
        exact hnone h q b hb hpre'
      · intro o h
        obtain ⟨path', tree', rfl, hrest⟩ := hsome o h
        refine ⟨path', tree', rfl, hrest.sound, hrest.alone, ?_, ?_, ?_⟩
        · rintro q ⟨a, ha, hpre⟩
          exact hrest.reaches q (hfirst.reaches (p ++ q) ⟨a, ha, hpre⟩)
        · intro a ha
          rcases hrest.comes a ha with rfl | hin
          · exact Or.inl rfl
          · rcases hfirst.comes _ hin with hnil | hin'
            · exact Or.inl (List.append_eq_nil_iff.mp hnil).2
            · exact Or.inr hin'
        · rcases hrest.path with hnil | hp
          · exact Or.inl hnil
          · rcases hfirst.path with hnil | hp'
            · rw [hnil] at hp
              exact Or.inl (List.append_eq_nil_iff.mp hp).2
            · refine Or.inr ?_
              rw [← hp', ← hp]
              rfl
    · rw [FOperation.reaching, if_neg (mt hfront.mp hpath)]
      refine ⟨fun _ q a => ?_, fun o h => by cases h⟩
      rintro ⟨b, hb, rfl⟩ hpre
      cases path with
      | nil => exact hpath (Or.inl rfl)
      | cons front path =>
        obtain ⟨rfl, -⟩ := List.cons_prefix_cons.mp hpre
        exact hpath (Or.inr rfl)

variable [TransCmp cmp] [LawfulEqCmp cmp] [TransCmp scmp] [LawfulEqCmp scmp] [DecidableEq L]
  {v : FViewCache cmp L} {o : List K → Option (Option L)} {f : List K → Option L}
  {w : FWriteTreeRef cmp scmp L}

/-- An answer to a write, which is out of the way now. -/
theorem FViewProcessor.Shows.receiveAnswer {path : List K} {affectedTree : FImmutableTree K Unit}
    {revert : Bool} (hsound : affectedTree.Sound scmp) (h : Shows v o f)
    (hdown : Downward w.overlay) (hle : ∀ q, w.overlay q ≠ none → o q = w.overlay q)
    (hagree : ∀ q, (∀ a, Affects scmp path affectedTree a → ¬ a <+: q) → o q = w.overlay q)
    (hclear : ∀ a, Affects scmp path affectedTree a → Clear f a) (hpath : Clear f path)
    (hplaced : ∀ q, Placed w.overlay q → Clear f q) (optCompleteCache : Option (Node cmp L)) :
    Shows (FViewProcessor.process v (.ackUserWrite path affectedTree revert) w
      optCompleteCache).1 w.overlay f := by
  have hmem : ∀ a ∈ affectedTree.forEach, Affects scmp path affectedTree (path ++ a.1) := by
    rintro ⟨b, u⟩ ha
    refine ⟨b, ?_, rfl⟩
    rw [hsound.mem_forEach.mp ha]
    simp
  cases revert with
  | true =>
    refine h.revertUserWrite hdown hle (fun q hq => hagree q ?_) (fun _ => hpath)
      (fun _ => hplaced)
    rintro a ⟨b, -, rfl⟩ hpre
    exact hq ((List.prefix_append path b).trans hpre)
  | false =>
    refine h.ackUserWrite hdown hsound hle (fun q hq => hagree q ?_)
      (fun _ a ha => hclear _ (hmem a ha)) (fun _ => hplaced)
    rintro a ⟨b, hb, rfl⟩ hpre
    obtain ⟨u, hu⟩ := Option.ne_none_iff_exists'.mp hb
    exact hq (b, u) (hsound.mem_forEach.mpr hu) hpre

end Answers

end HateBlocker
