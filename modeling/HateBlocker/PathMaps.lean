-- Maps from paths to what stands there, and how they are overwritten: everything from
-- one path on is replaced by another map. The laws say how two overwrites compose when
-- one path lies on the other or when they part.
import Mathlib.Data.List.Basic
import Mathlib.Data.List.Infix
import Mathlib.Data.List.Pairwise

namespace PathMaps

variable {K A B : Type}

def below (p : List K) (f : List K → A) (q : List K) : A := f (p ++ q)

/-- No value stands strictly above the path. -/
def Clear (f : List K → Option A) (p : List K) : Prop :=
  ∀ r k s, p = r ++ k :: s → f r = none

/-- A value stands here and none above it. -/
def Placed (f : List K → Option A) (p : List K) : Prop := f p ≠ none ∧ Clear f p

/-- No value stands above another. -/
def Alone (f : List K → Option A) : Prop := ∀ p, f p ≠ none → Clear f p

/-- Neither path lies on the other. -/
def Apart (p q : List K) : Prop := ¬ p <+: q ∧ ¬ q <+: p

theorem Apart.symm {p q : List K} (h : Apart p q) : Apart q p := ⟨h.2, h.1⟩

theorem apart_singleton {k l : K} : Apart [k] [l] ↔ k ≠ l := by
  simp [Apart, eq_comm]

/-- Different keys are apart. -/
theorem pairwise_apart_keys {es : List (K × B)} (h : (es.map Prod.fst).Nodup) :
    (es.map (fun e => [e.1])).Pairwise Apart := by
  rw [List.nodup_iff_pairwise_ne, List.pairwise_map] at h
  rw [List.pairwise_map]
  exact h.imp fun hne => apart_singleton.mpr hne

/-! ## Maps from a path on -/

@[simp] theorem below_nil (f : List K → A) : below [] f = f := rfl

theorem below_append (p q : List K) (f : List K → A) : below (p ++ q) f = below q (below p f) := by
  funext r
  simp [below]

theorem below_apply (p q : List K) (f : List K → A) : below p f q = f (p ++ q) := rfl

/-! ## Paths without a value above -/

@[simp] theorem clear_nil (f : List K → Option A) : Clear f [] := by
  intro r k s h
  simp at h

theorem clear_cons {f : List K → Option A} {k : K} {p : List K} :
    Clear f (k :: p) ↔ f [] = none ∧ Clear (below [k] f) p := by
  constructor
  · intro h
    refine ⟨h [] k p rfl, ?_⟩
    rintro r l s rfl
    exact h (k :: r) l s rfl
  · rintro ⟨hnil, h⟩ r l s heq
    cases r with
    | nil => exact hnil
    | cons k' r =>
      rw [List.cons_append, List.cons.injEq] at heq
      obtain ⟨rfl, heq⟩ := heq
      exact h r l s heq

theorem clear_append {f : List K → Option A} {p q : List K} :
    Clear f (p ++ q) ↔ Clear f p ∧ Clear (below p f) q := by
  induction p generalizing f with
  | nil => simp
  | cons k p ih =>
    rw [List.cons_append, clear_cons, clear_cons, ih, and_assoc]
    rfl

theorem Clear.of_prefix {f : List K → Option A} {p q : List K} (h : Clear f q) (hp : p <+: q) :
    Clear f p := by
  obtain ⟨r, rfl⟩ := hp
  exact (clear_append.mp h).1

theorem clear_map {f : List K → Option A} {m : A → B} {p : List K} :
    Clear (fun q => (f q).map m) p ↔ Clear f p := by
  simp [Clear]

theorem alone_none : Alone (fun _ => none : List K → Option A) := fun _ h => absurd rfl h

theorem alone_root {f : List K → Option A} (h : ∀ k p, f (k :: p) = none) : Alone f := by
  intro p hp
  cases p with
  | nil => exact clear_nil f
  | cons k p => exact absurd (h k p) hp

theorem Alone.below {f : List K → Option A} (h : Alone f) (p : List K) : Alone (below p f) :=
  fun q hq => (clear_append.mp (h (p ++ q) hq)).2

/-- Values that stand alone stand apart. -/
theorem Alone.apart {f : List K → Option A} (h : Alone f) {p q : List K} (hp : f p ≠ none)
    (hq : f q ≠ none) (hne : p ≠ q) : Apart p q := by
  constructor
  · rintro ⟨r, rfl⟩
    cases r with
    | nil => exact hne (by simp)
    | cons k r => exact hp (h _ hq p k r rfl)
  · rintro ⟨r, rfl⟩
    cases r with
    | nil => exact hne (by simp)
    | cons k r => exact hq (h _ hp q k r rfl)

variable [DecidableEq K]

/-- What is left of the second path after the first. -/
def after : List K → List K → Option (List K)
  | [], q => some q
  | _ :: _, [] => none
  | k :: p, l :: q => if k = l then after p q else none

/-- `g` from the path on, `f` everywhere else. -/
def graft (p : List K) (g f : List K → A) (q : List K) : A :=
  match after p q with
  | some r => g r
  | none => f q

/-! ## What is left of a path -/

@[simp] theorem after_nil (q : List K) : after [] q = some q := rfl

theorem after_eq_some {p q r : List K} : after p q = some r ↔ q = p ++ r := by
  induction p generalizing q with
  | nil => simp [eq_comm]
  | cons k p ih =>
    cases q with
    | nil => simp [after]
    | cons l q =>
      by_cases h : k = l
      · subst h
        simp [after, ih]
      · simp [after, h, Ne.symm h]

theorem after_eq_none {p q : List K} : after p q = none ↔ ¬ p <+: q := by
  rw [Option.eq_none_iff_forall_ne_some]
  constructor
  · rintro h ⟨r, hr⟩
    exact h r (after_eq_some.mpr hr.symm)
  · intro h r hr
    exact h ⟨r, (after_eq_some.mp hr).symm⟩

@[simp] theorem after_append (p q : List K) : after p (p ++ q) = some q :=
  after_eq_some.mpr rfl

/-- A longer path is passed in two parts. -/
theorem after_append_left (p r q : List K) : after (p ++ r) q = (after p q).bind (after r) := by
  cases h : after p q with
  | some s =>
    obtain rfl := after_eq_some.mp h
    rw [Option.bind_some]
    cases hr : after r s with
    | some t =>
      obtain rfl := after_eq_some.mp hr
      rw [← List.append_assoc, after_append]
    | none =>
      rw [after_eq_none] at hr ⊢
      rwa [List.prefix_append_right_inj]
  | none =>
    rw [Option.bind_none, after_eq_none]
    rw [after_eq_none] at h
    exact fun hpre => h ((List.prefix_append p r).trans hpre)

/-! ## Overwrites -/

@[simp] theorem graft_append (p q : List K) (g f : List K → A) : graft p g f (p ++ q) = g q := by
  simp [graft]

@[simp] theorem graft_self (p : List K) (g f : List K → A) : graft p g f p = g [] := by
  have h := graft_append p [] g f
  rwa [List.append_nil] at h

theorem graft_elsewhere {p q : List K} (g f : List K → A) (h : ¬ p <+: q) :
    graft p g f q = f q := by
  simp [graft, after_eq_none.mpr h]

@[simp] theorem graft_nil (g f : List K → A) : graft [] g f = g := rfl

theorem graft_cons_nil (k : K) (p : List K) (g f : List K → A) : graft (k :: p) g f [] = f [] := rfl

theorem graft_cons_cons (k l : K) (p q : List K) (g f : List K → A) :
    graft (k :: p) g f (l :: q) =
      if k = l then graft p g (below [k] f) q else f (l :: q) := by
  unfold graft
  rw [after]
  by_cases h : k = l
  · subst h
    simp [below]
  · simp [h]

/-- An overwrite of a part of an overwrite is an overwrite by the overwritten part. -/
theorem graft_graft_append (p r : List K) (g h f : List K → A) :
    graft (p ++ r) g (graft p h f) = graft p (graft r g h) f := by
  funext q
  unfold graft
  rw [after_append_left]
  cases after p q with
  | some s => simp
  | none => simp

@[simp] theorem graft_below (p : List K) (f : List K → A) : graft p (below p f) f = f := by
  funext q
  unfold graft
  cases h : after p q with
  | some r =>
    obtain rfl := after_eq_some.mp h
    rfl
  | none => rfl

/-- An overwrite further down is an overwrite of what stands on the way. -/
theorem graft_append_left (p r : List K) (g f : List K → A) :
    graft (p ++ r) g f = graft p (graft r g (below p f)) f := by
  rw [← graft_graft_append, graft_below]

/-- What was written at or below a path is gone with it. -/
theorem graft_absorb (p r : List K) (g h f : List K → A) :
    graft p g (graft (p ++ r) h f) = graft p g f := by
  funext q
  unfold graft
  rw [after_append_left]
  cases after p q with
  | some s => simp
  | none => simp

theorem graft_comm {p q : List K} (h : Apart p q) (g g' f : List K → A) :
    graft p g (graft q g' f) = graft q g' (graft p g f) := by
  funext x
  by_cases hp : p <+: x
  · have hq : ¬ q <+: x := fun hq => (List.prefix_or_prefix_of_prefix hp hq).elim h.1 h.2
    obtain ⟨r, rfl⟩ := hp
    rw [graft_append, graft_elsewhere _ _ hq, graft_append]
  · rw [graft_elsewhere _ _ hp]
    by_cases hq : q <+: x
    · obtain ⟨r, rfl⟩ := hq
      rw [graft_append, graft_append]
    · rw [graft_elsewhere _ _ hq, graft_elsewhere _ _ hq, graft_elsewhere _ _ hp]

@[simp] theorem below_graft (p : List K) (g f : List K → A) : below p (graft p g f) = g := by
  funext q
  simp [below]

theorem below_graft_append (p r : List K) (g f : List K → A) :
    below p (graft (p ++ r) g f) = graft r g (below p f) := by
  funext q
  unfold below graft
  rw [after_append_left]
  simp

theorem below_append_graft (p r : List K) (g f : List K → A) :
    below (p ++ r) (graft p g f) = below r g := by
  rw [below_append, below_graft]

/-- An overwrite is not seen from a path apart. -/
theorem below_graft_of_apart {p q : List K} (h : Apart p q) (g f : List K → A) :
    below q (graft p g f) = below q f := by
  funext r
  unfold below
  apply graft_elsewhere
  intro hpre
  exact (List.prefix_or_prefix_of_prefix hpre (List.prefix_append q r)).elim h.1 h.2

/-- A map is applied inside an overwrite and outside of it. -/
theorem map_graft (m : A → B) (p : List K) (g f : List K → A) :
    (fun q => m (graft p g f q)) = graft p (fun q => m (g q)) (fun q => m (f q)) := by
  funext q
  unfold graft
  cases after p q <;> rfl

/-- A change from a path on, where no value stands above the path. -/
theorem Alone.graft {f g : List K → Option A} {p : List K} (hf : Alone f) (hg : Alone g)
    (hclear : Clear f p) : Alone (graft p g f) := by
  rintro q hq r k s rfl
  by_cases hr : p <+: r
  · obtain ⟨t, rfl⟩ := hr
    rw [List.append_assoc, graft_append] at hq
    rw [graft_append]
    exact hg _ hq t k s rfl
  · rw [graft_elsewhere _ _ hr]
    by_cases hpre : p <+: r ++ k :: s
    · obtain ⟨t, ht⟩ := hpre
      have hrp : r <+: p := by
        refine (List.prefix_or_prefix_of_prefix (List.prefix_append r (k :: s)) ?_).resolve_right hr
        rw [← ht]
        exact List.prefix_append ..
      obtain ⟨u, rfl⟩ := hrp
      cases u with
      | nil => exact absurd (by simp) hr
      | cons l u => exact hclear r l u rfl
    · rw [graft_elsewhere _ _ hpre] at hq
      exact hf _ hq r k s rfl

theorem Alone.graft_none {f : List K → Option A} (h : Alone f) (p : List K) :
    Alone (PathMaps.graft p (fun _ => none) f) := by
  have hle : ∀ q, PathMaps.graft p (fun _ => none) f q = none ∨
      PathMaps.graft p (fun _ => none) f q = f q := by
    intro q
    unfold PathMaps.graft
    cases after p q with
    | none => exact Or.inr rfl
    | some r => exact Or.inl rfl
  intro q hq r k s heq
  rcases hle r with hr | hr
  · exact hr
  · rw [hr]
    refine h q ?_ r k s heq
    rcases hle q with hq' | hq'
    · exact absurd hq' hq
    · rwa [← hq']

/-! ## Overwrites one after the other -/

/-- The writes in turn, each a path and what it puts there. -/
def layer (ws : List (List K × (List K → A))) (f : List K → A) : List K → A :=
  ws.foldl (fun f w => graft w.1 w.2 f) f

@[simp] theorem layer_nil (f : List K → A) : layer [] f = f := rfl

theorem layer_cons (w : List K × (List K → A)) (ws : List (List K × (List K → A)))
    (f : List K → A) : layer (w :: ws) f = layer ws (graft w.1 w.2 f) := rfl

theorem layer_append (ws vs : List (List K × (List K → A))) (f : List K → A) :
    layer (ws ++ vs) f = layer vs (layer ws f) := List.foldl_append ..

/-- Where no write reaches, everything is as before. -/
theorem layer_of_not_covered {ws : List (List K × (List K → A))} {q : List K}
    (h : ∀ w ∈ ws, ¬ w.1 <+: q) (f : List K → A) : layer ws f q = f q := by
  induction ws generalizing f with
  | nil => rfl
  | cons w ws ih =>
    rw [layer_cons, ih (fun v hv => h v (List.mem_cons_of_mem _ hv)),
      graft_elsewhere _ _ (h w (by simp))]

/-- A write that is apart from all the others can come last. -/
theorem layer_graft_of_apart {ws : List (List K × (List K → A))} {p : List K}
    (h : ∀ w ∈ ws, Apart p w.1) (g f : List K → A) :
    layer ws (graft p g f) = graft p g (layer ws f) := by
  induction ws generalizing f with
  | nil => rfl
  | cons w ws ih =>
    rw [layer_cons, layer_cons, ← graft_comm (h w (by simp)),
      ih (fun v hv => h v (List.mem_cons_of_mem _ hv))]

/-- A write under a later one does not count. -/
theorem layer_graft_of_covered {ws : List (List K × (List K → A))} {p : List K}
    (h : ∃ w ∈ ws, w.1 <+: p) (g f : List K → A) : layer ws (graft p g f) = layer ws f := by
  induction ws generalizing p g f with
  | nil => simp at h
  | cons w ws ih =>
    rw [layer_cons, layer_cons]
    by_cases hw : w.1 <+: p
    · obtain ⟨r, rfl⟩ := hw
      rw [graft_absorb]
    · obtain ⟨v, hv, hpre⟩ := h
      have hrest : ∃ v ∈ ws, v.1 <+: p := by
        rcases List.mem_cons.mp hv with rfl | hv
        · exact absurd hpre hw
        · exact ⟨v, hv, hpre⟩
      by_cases hp : p <+: w.1
      · obtain ⟨r, hr⟩ := hp
        rw [← hr, graft_graft_append, ih hrest]
        obtain ⟨v, hv, hpre⟩ := hrest
        exact (ih ⟨v, hv, hpre.trans ⟨r, rfl⟩⟩ w.2 f).symm
      · rw [graft_comm ⟨hw, hp⟩, ih hrest]

/-! ## What a list of writes puts -/

/-- What the writes put, and nothing where none of them reaches. -/
def cover (ws : List (List K × (List K → A))) : List K → Option A :=
  layer (ws.map (fun w => (w.1, fun q => some (w.2 q)))) (fun _ => none)

@[simp] theorem cover_nil : cover ([] : List (List K × (List K → A))) = fun _ => none := rfl

theorem cover_append_singleton (ws : List (List K × (List K → A))) (w : List K × (List K → A)) :
    cover (ws ++ [w]) = graft w.1 (fun q => some (w.2 q)) (cover ws) := by
  simp [cover, layer_append, layer_cons]

/-- More writes on top. -/
theorem layer_cover (ws vs : List (List K × (List K → A))) :
    layer (vs.map (fun w => (w.1, fun q => some (w.2 q)))) (cover ws) = cover (ws ++ vs) := by
  rw [cover, cover, List.map_append, layer_append]

/-- A later write comes before an earlier one. -/
theorem cover_append (ws vs : List (List K × (List K → A))) (q : List K) :
    cover (ws ++ vs) q = (cover vs q).or (cover ws q) := by
  induction vs using List.reverseRecOn with
  | nil => simp
  | append_singleton vs v ih =>
    rw [← List.append_assoc, cover_append_singleton, cover_append_singleton]
    by_cases h : v.1 <+: q
    · obtain ⟨r, rfl⟩ := h
      simp
    · rw [graft_elsewhere _ _ h, graft_elsewhere _ _ h, ih]

theorem cover_eq_none {ws : List (List K × (List K → A))} {q : List K} :
    cover ws q = none ↔ ∀ w ∈ ws, ¬ w.1 <+: q := by
  induction ws using List.reverseRecOn with
  | nil => simp
  | append_singleton ws w ih =>
    rw [cover_append_singleton]
    by_cases h : w.1 <+: q
    · obtain ⟨r, hr⟩ := h
      subst hr
      rw [graft_append]
      simp only [reduceCtorEq, List.mem_append, List.mem_singleton, false_iff, not_forall]
      exact ⟨w, Or.inr rfl, not_not_intro (List.prefix_append ..)⟩
    · rw [graft_elsewhere _ _ h, ih]
      simp [or_imp, forall_and, h]

/-- What is covered from above is covered. -/
theorem cover_append_ne_none {ws : List (List K × (List K → A))} {p : List K}
    (h : cover ws p ≠ none) (q : List K) : cover ws (p ++ q) ≠ none := by
  intro hnone
  rw [cover_eq_none] at hnone
  refine h (cover_eq_none.mpr fun w hw hpre => ?_)
  exact hnone w hw (hpre.trans (List.prefix_append ..))

/-- The writes count where they reach, and elsewhere what was there before. -/
theorem layer_eq_cover (ws : List (List K × (List K → A))) (f : List K → A) (q : List K) :
    layer ws f q = (cover ws q).getD (f q) := by
  induction ws using List.reverseRecOn with
  | nil => rfl
  | append_singleton ws w ih =>
    rw [cover_append_singleton, layer_append]
    change graft w.1 w.2 (layer ws f) q = _
    by_cases h : w.1 <+: q
    · obtain ⟨r, rfl⟩ := h
      simp
    · rw [graft_elsewhere _ _ h, graft_elsewhere _ _ h, ih]

/-! ## An overlay over data -/

/-- The overlay counts where it covers. -/
def shown (o : List K → Option A) (f : List K → A) (q : List K) : A := (o q).getD (f q)

/-- What is covered is covered from there on. -/
def Downward (o : List K → Option A) : Prop := ∀ p q, o p ≠ none → o (p ++ q) ≠ none

theorem downward_cover (ws : List (List K × (List K → A))) : Downward (cover ws) :=
  fun _ q h => cover_append_ne_none h q

omit [DecidableEq K] in
theorem Downward.below {o : List K → Option A} (h : Downward o) (p : List K) :
    Downward (PathMaps.below p o) := by
  intro q r hq
  rw [below_apply, ← List.append_assoc]
  exact h (p ++ q) r hq

omit [DecidableEq K] in
theorem Downward.root {o : List K → Option A} (h : Downward o) (hroot : o [] ≠ none)
    (q : List K) : o q ≠ none := h [] q hroot

omit [DecidableEq K] in
theorem Downward.none_above {o : List K → Option A} (h : Downward o) {p q : List K}
    (hnone : o (p ++ q) = none) : o p = none := by
  by_contra hp
  exact h p q hp hnone

omit [DecidableEq K] in
/-- What is placed from a path on that is not covered is placed. -/
theorem Downward.placed {o : List K → Option A} (h : Downward o) {p q : List K}
    (hp : o p = none) (hq : Placed (PathMaps.below p o) q) : Placed o (p ++ q) := by
  refine ⟨hq.1, clear_append.mpr ⟨?_, hq.2⟩⟩
  rintro r k s rfl
  exact h.none_above hp

theorem layer_eq_shown (ws : List (List K × (List K → A))) (f : List K → A) :
    layer ws f = shown (cover ws) f := by
  funext q
  exact layer_eq_cover ws f q

omit [DecidableEq K] in
@[simp] theorem shown_none (f : List K → A) : shown (fun _ => none) f = f := rfl

omit [DecidableEq K] in
theorem below_shown (p : List K) (o : List K → Option A) (f : List K → A) :
    below p (shown o f) = shown (below p o) (below p f) := rfl

/-- A write on top of the overlay. -/
theorem shown_graft (p : List K) (g : List K → A) (o : List K → Option A) (f : List K → A) :
    shown (graft p (fun q => some (g q)) o) f = graft p g (shown o f) := by
  funext q
  unfold shown graft
  cases after p q <;> rfl

omit [DecidableEq K] in
/-- The data that is covered does not count. -/
theorem shown_eq_of_covered {o : List K → Option A} (h : ∀ q, o q ≠ none) (f g : List K → A) :
    shown o f = shown o g := by
  funext q
  obtain ⟨a, ha⟩ := Option.ne_none_iff_exists'.mp (h q)
  simp [shown, ha]

omit [DecidableEq K] in
theorem below_shown_of_covered {o : List K → Option A} (h : Downward o) {p : List K}
    (hp : o p ≠ none) (f g : List K → A) : below p (shown o f) = below p (shown o g) := by
  rw [below_shown, below_shown]
  exact shown_eq_of_covered (fun q => h p q hp) (below p f) (below p g)

omit [DecidableEq K] in
theorem clear_shown {o : List K → Option (Option A)} {f : List K → Option A} (h : Downward o)
    {p : List K} (hp : o p = none) (hclear : Clear f p) : Clear (shown o f) p := by
  rintro r k s rfl
  rw [shown, h.none_above hp, Option.getD_none]
  exact hclear r k s rfl

omit [DecidableEq K] in
/-- An overlay that differs from another one below a path at most, where that one is bare. -/
theorem shown_eq_of_lifted {o o' : List K → Option A} {p : List K} (hdown : Downward o')
    (hle : ∀ q, o' q ≠ none → o q = o' q) (hagree : ∀ q, ¬ p <+: q → o q = o' q)
    (hp : o' p ≠ none) (f : List K → A) : shown o f = shown o' f := by
  funext q
  have hsame : o q = o' q := by
    by_cases hq : p <+: q
    · obtain ⟨r, rfl⟩ := hq
      exact hle _ (hdown p r hp)
    · exact hagree q hq
  rw [shown, shown, hsame]

/-- An overwrite puts no value above a path apart. -/
theorem clear_graft_of_apart {f g : List K → Option A} {p q : List K} (h : Apart p q) :
    Clear (graft p g f) q ↔ Clear f q := by
  have hsame : ∀ r k s, q = r ++ k :: s → graft p g f r = f r := by
    rintro r k s rfl
    apply graft_elsewhere
    intro hpre
    exact h.1 (hpre.trans (List.prefix_append ..))
  constructor
  · intro hclear r k s heq
    rw [← hsame r k s heq]
    exact hclear r k s heq
  · intro hclear r k s heq
    rw [hsame r k s heq]
    exact hclear r k s heq

/-- Maps that agree elsewhere, with one put into the other. -/
theorem graft_of_agree {p : List K} {f g : List K → A} (h : ∀ q, ¬ p <+: q → f q = g q) :
    graft p (below p g) f = g := by
  funext q
  by_cases hq : p <+: q
  · obtain ⟨r, rfl⟩ := hq
    rw [graft_append, below_apply]
  · rw [graft_elsewhere _ _ hq, h q hq]

/-- Writes that are apart can come in any order. -/
theorem layer_perm {ws vs : List (List K × (List K → A))} (h : ws.Perm vs)
    (hapart : ws.Pairwise (fun w v => Apart w.1 v.1)) (f : List K → A) :
    layer ws f = layer vs f := by
  unfold layer
  apply h.foldl_eq'
  intro w hw v hv g
  by_cases hne : w = v
  · rw [hne]
  · have hsymm : Std.Symm (fun w v : List K × (List K → A) => Apart w.1 v.1) :=
      ⟨fun _ _ h => h.symm⟩
    exact (graft_comm (hapart.forall hw hv hne) _ _ _).symm

/-- What is left of a write from a path on, if it is seen from there. -/
def under (p : List K) (w : List K × (List K → A)) : Option (List K × (List K → A)) :=
  match after p w.1 with
  | some r => some (r, w.2)
  | none => (after w.1 p).map (fun r => ([], below r w.2))

theorem below_graft_under (p : List K) (w : List K × (List K → A)) (f : List K → A) :
    below p (graft w.1 w.2 f) =
      match under p w with
      | some v => graft v.1 v.2 (below p f)
      | none => below p f := by
  obtain ⟨q, g⟩ := w
  unfold under
  cases hp : after p q with
  | some r =>
    obtain rfl := after_eq_some.mp hp
    exact below_graft_append p r g f
  | none =>
    cases hq : after q p with
    | some r =>
      obtain rfl := after_eq_some.mp hq
      simp only [Option.map_some, graft_nil]
      exact below_append_graft q r g f
    | none =>
      simp only [Option.map_none]
      exact below_graft_of_apart ⟨after_eq_none.mp hq, after_eq_none.mp hp⟩ g f

theorem below_layer (p : List K) (ws : List (List K × (List K → A))) (f : List K → A) :
    below p (layer ws f) = layer (ws.filterMap (under p)) (below p f) := by
  induction ws generalizing f with
  | nil => rfl
  | cons w ws ih =>
    rw [layer_cons, ih, below_graft_under, List.filterMap_cons]
    cases under p w <;> rfl

theorem under_map (m : A → B) (p : List K) (w : List K × (List K → A)) :
    under p (w.1, fun q => m (w.2 q)) = (under p w).map (fun v => (v.1, fun q => m (v.2 q))) := by
  unfold under
  cases after p w.1 with
  | some r => rfl
  | none => cases after w.1 p <;> rfl

theorem below_cover (p : List K) (ws : List (List K × (List K → A))) :
    below p (cover ws) = cover (ws.filterMap (under p)) := by
  unfold cover
  rw [below_layer, List.filterMap_map, List.map_filterMap]
  congr 2
  funext w
  exact under_map some p w

/-- Of writes that are apart each puts all that it has. -/
theorem below_layer_of_mem {ws : List (List K × (List K → A))}
    (hapart : ws.Pairwise (fun w v => Apart w.1 v.1)) {w : List K × (List K → A)} (hw : w ∈ ws)
    (f : List K → A) : below w.1 (layer ws f) = w.2 := by
  obtain ⟨l, r, rfl⟩ := List.append_of_mem hw
  have hr : ∀ v ∈ r, Apart w.1 v.1 :=
    (List.pairwise_cons.mp (List.pairwise_append.mp hapart).2.1).1
  rw [layer_append, layer_cons, layer_graft_of_apart hr, below_graft]

theorem cover_of_mem {ws : List (List K × (List K → A))}
    (hapart : ws.Pairwise (fun w v => Apart w.1 v.1)) {w : List K × (List K → A)} (hw : w ∈ ws)
    (q : List K) : cover ws (w.1 ++ q) = some (w.2 q) := by
  obtain ⟨l, r, rfl⟩ := List.append_of_mem hw
  have hr : cover r (w.1 ++ q) = none := by
    rw [cover_eq_none]
    intro v hv hpre
    have hv' := (List.pairwise_cons.mp (List.pairwise_append.mp hapart).2.1).1 v hv
    exact (List.prefix_or_prefix_of_prefix (List.prefix_append ..) hpre).elim hv'.1 hv'.2
  rw [← List.singleton_append, cover_append, cover_append, hr, ← List.nil_append [w],
    cover_append_singleton, graft_append]
  rfl

/-- Writes that lie on a path, each at its own place from there on. -/
theorem cover_map_append (p : List K) (ws : List (List K × (List K → A))) :
    cover (ws.map (fun w => (p ++ w.1, w.2))) = graft p (cover ws) (fun _ => none) := by
  have hall : under p ∘ (fun w : List K × (List K → A) => (p ++ w.1, w.2)) = some := by
    funext w
    simp [under]
  have hbelow : below p (cover (ws.map (fun w => (p ++ w.1, w.2)))) = cover ws := by
    rw [below_cover, List.filterMap_map, hall, List.filterMap_some]
  rw [← hbelow]
  refine (graft_of_agree fun q hq => ?_).symm
  symm
  rw [cover_eq_none]
  intro w hw hpre
  obtain ⟨v, -, rfl⟩ := List.mem_map.mp hw
  exact hq ((List.prefix_append ..).trans hpre)

/-- An overlay that starts at a path. -/
theorem shown_graft_none (p : List K) (o : List K → Option A) (f : List K → A) :
    shown (graft p o (fun _ => none)) f = graft p (shown o (below p f)) f := by
  funext q
  unfold shown graft
  cases hq : after p q with
  | none => rfl
  | some r =>
    obtain rfl := after_eq_some.mp hq
    rfl

/-- The one over the other. -/
def upon (e o : List K → Option A) (q : List K) : Option A := (e q).or (o q)

theorem upon_graft (p : List K) (g : List K → A) (e o : List K → Option A) :
    upon (graft p (fun q => some (g q)) e) o = graft p (fun q => some (g q)) (upon e o) := by
  funext q
  unfold upon
  by_cases hp : p <+: q
  · obtain ⟨r, rfl⟩ := hp
    rw [graft_append, graft_append]
    rfl
  · rw [graft_elsewhere _ _ hp, graft_elsewhere _ _ hp]

theorem layer_eq_upon (ws : List (List K × (List K → A))) (o : List K → Option A) :
    layer (ws.map (fun w => (w.1, fun q => some (w.2 q)))) o = upon (cover ws) o := by
  induction ws using List.reverseRecOn with
  | nil =>
    funext q
    rfl
  | append_singleton ws w ih =>
    rw [List.map_append, layer_append, ih, cover_append_singleton, upon_graft]
    rfl

theorem placed_graft {o : List K → Option A} {q : List K} (p : List K)
    (h : Placed o q) : Placed (graft p o (fun _ => none)) (p ++ q) := by
  constructor
  · rw [graft_append]
    exact h.1
  · rw [clear_append, below_graft]
    refine ⟨?_, h.2⟩
    rintro r k s rfl
    refine graft_elsewhere _ _ ?_
    intro hpre
    have hlength := hpre.length_le
    rw [List.length_append, List.length_cons] at hlength
    omega

/-! ## Writes that do not go below values -/

/-- None of the writes goes below a value that stands there by then. -/
def Fits : List (List K × (List K → Option A)) → (List K → Option A) → Prop
  | [], _ => True
  | w :: ws, f => Clear f w.1 ∧ Fits ws (graft w.1 w.2 f)

theorem fits_append {ws vs : List (List K × (List K → Option A))} {f : List K → Option A} :
    Fits (ws ++ vs) f ↔ Fits ws f ∧ Fits vs (layer ws f) := by
  induction ws generalizing f with
  | nil => simp [Fits]
  | cons w ws ih => simp [Fits, ih, and_assoc, layer_cons]

theorem fits_append_singleton {ws : List (List K × (List K → Option A))}
    {w : List K × (List K → Option A)} {f : List K → Option A} :
    Fits (ws ++ [w]) f ↔ Fits ws f ∧ Clear (layer ws f) w.1 := by
  simp [fits_append, Fits]

/-- Writes that are apart fit where each of them does. -/
theorem fits_of_apart {ws : List (List K × (List K → Option A))} {f : List K → Option A}
    (hapart : ws.Pairwise (fun w v => Apart w.1 v.1)) (h : ∀ w ∈ ws, Clear f w.1) :
    Fits ws f := by
  induction ws generalizing f with
  | nil => trivial
  | cons w ws ih =>
    obtain ⟨hfirst, hrest⟩ := List.pairwise_cons.mp hapart
    refine ⟨h w (by simp), ih hrest fun v hv => ?_⟩
    exact (clear_graft_of_apart (hfirst v hv)).mpr (h v (List.mem_cons_of_mem _ hv))

/-- Parts of one map fit on anything that is part of it too, in any order. -/
theorem fits_of_parts {g h : List K → Option A} {ps : List (List K)}
    (hle : ∀ q, h q = none ∨ h q = g q) (hclear : ∀ p ∈ ps, Clear g p) :
    Fits (ps.map (fun p => (p, below p g))) h := by
  induction ps generalizing h with
  | nil => trivial
  | cons p ps ih =>
    refine ⟨?_, ih ?_ fun q hq => hclear q (List.mem_cons_of_mem _ hq)⟩
    · intro r k s heq
      rcases hle r with hr | hr
      · exact hr
      · rw [hr]
        exact hclear p (by simp) r k s heq
    · intro q
      by_cases hq : p <+: q
      · obtain ⟨r, rfl⟩ := hq
        rw [graft_append]
        exact Or.inr rfl
      · rw [graft_elsewhere _ _ hq]
        exact hle q

/-- Parts of a map put nothing else than the map. -/
theorem cover_parts (g : List K → A) (ps : List (List K)) (q : List K) :
    cover (ps.map (fun p => (p, below p g))) q = none ∨
      cover (ps.map (fun p => (p, below p g))) q = some (g q) := by
  induction ps using List.reverseRecOn with
  | nil => exact Or.inl rfl
  | append_singleton ps p ih =>
    rw [List.map_append, List.map_singleton, cover_append_singleton]
    by_cases hq : p <+: q
    · obtain ⟨r, rfl⟩ := hq
      rw [graft_append]
      exact Or.inr rfl
    · rw [graft_elsewhere _ _ hq]
      exact ih

theorem shown_cover_parts (g : List K → A) (ps : List (List K)) :
    shown (cover (ps.map (fun p => (p, below p g)))) g = g := by
  funext q
  unfold shown
  rcases cover_parts g ps q with hq | hq <;> rw [hq] <;> rfl

/-- With fewer values to go below. -/
theorem Fits.of_le {ws : List (List K × (List K → Option A))} {f g : List K → Option A}
    (h : Fits ws f) (hle : ∀ q, g q = none ∨ g q = f q) : Fits ws g := by
  induction ws generalizing f g with
  | nil => trivial
  | cons w ws ih =>
    refine ⟨?_, ih h.2 ?_⟩
    · intro r k s heq
      rcases hle r with hr | hr
      · exact hr
      · rw [hr, h.1 r k s heq]
    · intro q
      by_cases hw : w.1 <+: q
      · obtain ⟨r, rfl⟩ := hw
        simp
      · rw [graft_elsewhere _ _ hw, graft_elsewhere _ _ hw]
        exact hle q

theorem Fits.below {ws : List (List K × (List K → Option A))} {f : List K → Option A}
    (h : Fits ws f) (p : List K) : Fits (ws.filterMap (under p)) (PathMaps.below p f) := by
  induction ws generalizing f with
  | nil => trivial
  | cons w ws ih =>
    have hrest := ih h.2
    rw [below_graft_under] at hrest
    rw [List.filterMap_cons]
    have hclear : ∀ v, under p w = some v → Clear (PathMaps.below p f) v.1 := by
      intro v hv
      unfold under at hv
      cases hp : after p w.1 with
      | some r =>
        rw [hp] at hv
        cases hv
        have hw := h.1
        rw [after_eq_some.mp hp] at hw
        exact (clear_append.mp hw).2
      | none =>
        rw [hp] at hv
        obtain ⟨r, -, rfl⟩ := Option.map_eq_some_iff.mp hv
        exact clear_nil _
    cases hu : under p w with
    | none =>
      rw [hu] at hrest
      exact hrest
    | some v =>
      rw [hu] at hrest
      exact ⟨hclear v hu, hrest⟩

/-- What the writes put nearest to the root does not go below a value. -/
theorem Fits.clear_of_placed {ws : List (List K × (List K → Option A))} {f : List K → Option A}
    (h : Fits ws f) {p : List K} (hp : Placed (cover ws) p) : Clear f p := by
  induction ws using List.reverseRecOn with
  | nil => exact absurd rfl hp.1
  | append_singleton ws w ih =>
    obtain ⟨hws, hw⟩ := fits_append_singleton.mp h
    obtain ⟨hcovered, habove⟩ := hp
    rw [cover_append_singleton] at hcovered habove
    by_cases hpre : w.1 <+: p
    · obtain ⟨s, rfl⟩ := hpre
      cases s with
      | nil =>
        rw [List.append_nil] at habove ⊢
        intro r k s heq
        have hr := habove r k s heq
        have hnot : ¬ w.1 <+: r := by
          intro hpre
          have hlen := hpre.length_le
          rw [heq, List.length_append, List.length_cons] at hlen
          omega
        rw [graft_elsewhere _ _ hnot] at hr
        have hlayer := hw r k s heq
        rwa [layer_eq_cover, hr] at hlayer
      | cons k s =>
        have hself := habove w.1 k s rfl
        rw [graft_self] at hself
        cases hself
    · rw [graft_elsewhere _ _ hpre] at hcovered
      refine ih hws ⟨hcovered, ?_⟩
      intro r k s heq
      have hr := habove r k s heq
      rwa [graft_elsewhere] at hr
      intro hpre'
      rw [heq] at hpre
      exact hpre (hpre'.trans (List.prefix_append ..))

theorem clear_below_of_placed {ws : List (List K × (List K → Option A))}
    {f : List K → Option A} (h : Fits ws f) {p q : List K}
    (hq : Placed (below p (cover ws)) q) : Clear (below p f) q := by
  by_cases hp : cover ws p = none
  · have hplaced := (downward_cover ws).placed hp hq
    exact (clear_append.mp (h.clear_of_placed hplaced)).2
  · cases q with
    | nil => exact clear_nil _
    | cons k r =>
      have hnone := hq.2 [] k r rfl
      rw [below_apply, List.append_nil] at hnone
      exact absurd hnone hp

theorem clear_of_fits_apart {ws : List (List K × (List K → Option A))}
    {f : List K → Option A} (h : Fits ws f)
    (hapart : ws.Pairwise (fun w v => Apart w.1 v.1)) : ∀ w ∈ ws, Clear f w.1 := by
  induction ws generalizing f with
  | nil => exact fun w hw => absurd hw List.not_mem_nil
  | cons w ws ih =>
    obtain ⟨hfirst, hrest⟩ := List.pairwise_cons.mp hapart
    intro u hu
    rcases List.mem_cons.mp hu with rfl | hin
    · exact h.1
    · exact (clear_graft_of_apart (hfirst u hin)).mp (ih h.2 hrest u hin)

/-! ## Maps put over each other -/

omit [DecidableEq K]

/-- Where maps stand at paths, each counts from its path on, and the one nearest to the root
counts. -/
def rootMost : (List K → Option (List K → A)) → List K → Option A
  | f, [] => (f []).map (fun g => g [])
  | f, k :: q =>
    match f [] with
    | some g => some (g (k :: q))
    | none => rootMost (below [k] f) q

theorem rootMost_of_root {f : List K → Option (List K → A)} {g : List K → A}
    (h : f [] = some g) : rootMost f = fun q => some (g q) := by
  funext q
  cases q with
  | nil => simp [rootMost, h]
  | cons k q => simp [rootMost, h]

@[simp] theorem rootMost_none :
    rootMost (fun _ => none : List K → Option (List K → A)) = fun _ => none := by
  funext q
  induction q with
  | nil => rfl
  | cons k q ih =>
    unfold rootMost
    exact ih

theorem rootMost_cons {f : List K → Option (List K → A)} (h : f [] = none) (k : K) (q : List K) :
    rootMost f (k :: q) = rootMost (below [k] f) q := by
  simp [rootMost, h]

theorem below_rootMost {f : List K → Option (List K → A)} {p : List K} (h : Clear f p) :
    below p (rootMost f) = rootMost (below p f) := by
  induction p generalizing f with
  | nil => rfl
  | cons k p ih =>
    obtain ⟨hnil, hrest⟩ := clear_cons.mp h
    rw [← List.singleton_append, below_append, below_append, ← ih hrest]
    congr 1
    funext q
    exact rootMost_cons hnil k q

/-- Nothing counts on a path where no map stands on the way. -/
theorem rootMost_eq_none {f : List K → Option (List K → A)} {p : List K} :
    rootMost f p = none ↔ Clear f p ∧ f p = none := by
  induction p generalizing f with
  | nil => simp [rootMost]
  | cons k p ih =>
    rw [clear_cons]
    cases h : f [] with
    | some g => simp [rootMost, h]
    | none =>
      rw [rootMost_cons h, ih]
      simp [below]

/-- A change from a path on is seen from there on. -/
theorem rootMost_eq_graft [DecidableEq K] {f f' : List K → Option (List K → A)} {p : List K}
    (hclear : Clear f p) (hsame : ∀ q, ¬ p <+: q → f' q = f q) :
    rootMost f' = graft p (rootMost (below p f')) (rootMost f) := by
  induction p generalizing f f' with
  | nil => rfl
  | cons k p ih =>
    obtain ⟨hnil, hrest⟩ := clear_cons.mp hclear
    have hnil' : f' [] = none := by rw [hsame [] (by simp), hnil]
    funext q
    cases q with
    | nil => simp [rootMost, hnil, hnil', graft_cons_nil]
    | cons l q =>
      rw [graft_cons_cons, rootMost_cons hnil', rootMost_cons hnil]
      split
      · rename_i hkl
        subst hkl
        have hinner : rootMost (below [k] f') =
            graft p (rootMost (below p (below [k] f'))) (rootMost (below [k] f)) := by
          refine ih hrest fun q hq => hsame (k :: q) ?_
          simpa using hq
        rw [hinner, ← below_append, below_rootMost (clear_cons.mpr ⟨hnil, clear_nil _⟩)]
        rfl
      · rename_i hkl
        congr 1
        funext q
        apply hsame
        simp [hkl]

end PathMaps
