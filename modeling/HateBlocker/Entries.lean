-- Lists of entries in the strict order of a comparator. The comparator may hold two
-- different keys for the same, so a put says which of the two keys stays in the list.
import Mathlib.Data.List.Basic
import Mathlib.Data.List.Nodup
import Mathlib.Data.List.Pairwise
import Mathlib.Data.List.Perm.Subperm

open Std

namespace Entries

variable {K V : Type} (cmp : K → K → Ordering)

def Sorted (es : List (K × V)) : Prop := es.Pairwise (fun e f => cmp e.1 f.1 = .lt)

/-- The entries with `v` under `k`. `pick k old` is the key that stays where `old` is the same
as `k`. -/
def put (pick : K → K → K) (k : K) (v : V) : List (K × V) → List (K × V)
  | [] => [(k, v)]
  | e :: es =>
    match cmp k e.1 with
    | .lt => (k, v) :: e :: es
    | .eq => (pick k e.1, v) :: es
    | .gt => e :: put pick k v es

def erase (k : K) (es : List (K × V)) : List (K × V) := es.filter (fun e => cmp k e.1 != .eq)

def find (k : K) (es : List (K × V)) : Option V :=
  (es.find? (fun e => cmp k e.1 == .eq)).map Prod.snd

variable {cmp}

theorem Sorted.append_iff {l r : List (K × V)} :
    Sorted cmp (l ++ r) ↔ Sorted cmp l ∧ Sorted cmp r ∧ ∀ e ∈ l, ∀ f ∈ r, cmp e.1 f.1 = .lt := by
  unfold Sorted
  exact List.pairwise_append

theorem Sorted.cons_iff {e : K × V} {r : List (K × V)} :
    Sorted cmp (e :: r) ↔ (∀ f ∈ r, cmp e.1 f.1 = .lt) ∧ Sorted cmp r := by
  unfold Sorted
  exact List.pairwise_cons

@[simp] theorem Sorted.nil : Sorted cmp ([] : List (K × V)) := List.Pairwise.nil

/-- A list cut at one of its entries. -/
theorem Sorted.cut_iff {l r : List (K × V)} {e : K × V} :
    Sorted cmp (l ++ e :: r) ↔ Sorted cmp l ∧ Sorted cmp r ∧ (∀ f ∈ l, cmp f.1 e.1 = .lt) ∧
      (∀ f ∈ r, cmp e.1 f.1 = .lt) ∧ ∀ f ∈ l, ∀ g ∈ r, cmp f.1 g.1 = .lt := by
  rw [Sorted.append_iff, Sorted.cons_iff]
  constructor
  · rintro ⟨hl, ⟨her, hr⟩, hlr⟩
    exact ⟨hl, hr, fun f hf => hlr f hf e (by simp), her,
      fun f hf g hg => hlr f hf g (List.mem_cons_of_mem _ hg)⟩
  · rintro ⟨hl, hr, hle, her, hlr⟩
    refine ⟨hl, ⟨her, hr⟩, ?_⟩
    intro f hf g hg
    rcases List.mem_cons.mp hg with rfl | hg
    · exact hle f hf
    · exact hlr f hf g hg

/-- Two lists of the same entries in strict order are the same list. -/
theorem Sorted.eq_of_perm [OrientedCmp cmp] {es fs : List (K × V)} (he : Sorted cmp es)
    (hf : Sorted cmp fs) (h : es.Perm fs) : es = fs := by
  refine h.eq_of_pairwise ?_ he hf
  intro a b _ _ hab hba
  exact absurd hba (by rw [OrientedCmp.gt_of_lt hab]; simp)

theorem Sorted.nodup [ReflCmp cmp] {es : List (K × V)} (h : Sorted cmp es) : es.Nodup := by
  refine h.imp ?_
  rintro e f hlt rfl
  rw [show cmp e.1 e.1 = .eq from ReflCmp.compare_self] at hlt
  cases hlt

theorem Sorted.nodup_keys [ReflCmp cmp] {es : List (K × V)} (h : Sorted cmp es) :
    (es.map Prod.fst).Nodup := by
  rw [List.nodup_iff_pairwise_ne, List.pairwise_map]
  refine h.imp ?_
  intro e f hlt heq
  rw [heq, show cmp f.1 f.1 = .eq from ReflCmp.compare_self] at hlt
  cases hlt

/-! ## Erasing and looking up -/

theorem Sorted.erase (k : K) {es : List (K × V)} (h : Sorted cmp es) :
    Sorted cmp (erase cmp k es) :=
  h.sublist List.filter_sublist

@[simp] theorem erase_append (k : K) (l r : List (K × V)) :
    erase cmp k (l ++ r) = erase cmp k l ++ erase cmp k r := by
  simp [erase]

theorem erase_of_ne {k : K} {es : List (K × V)} (h : ∀ e ∈ es, cmp k e.1 ≠ .eq) :
    erase cmp k es = es := by
  unfold erase
  apply List.filter_eq_self.mpr
  intro e he
  simpa using h e he

theorem erase_cons_eq {k : K} {e : K × V} {es : List (K × V)} (h : cmp k e.1 = .eq) :
    erase cmp k (e :: es) = erase cmp k es := by
  simp [erase, h]

theorem erase_cons_ne {k : K} {e : K × V} {es : List (K × V)} (h : cmp k e.1 ≠ .eq) :
    erase cmp k (e :: es) = e :: erase cmp k es := by
  simp [erase, h]

@[simp] theorem find_nil (k : K) : find cmp k ([] : List (K × V)) = none := rfl

theorem find_cons (k : K) (e : K × V) (es : List (K × V)) :
    find cmp k (e :: es) = if cmp k e.1 = .eq then some e.2 else find cmp k es := by
  unfold find
  rw [List.find?_cons]
  by_cases h : cmp k e.1 = .eq
  · simp [h]
  · have hb : (cmp k e.1 == .eq) = false := by simpa using h
    simp [hb, h]

theorem find_append (k : K) (l r : List (K × V)) :
    find cmp k (l ++ r) = (find cmp k l).or (find cmp k r) := by
  unfold find
  rw [List.find?_append]
  cases List.find? (fun e => cmp k e.1 == .eq) l <;> rfl

theorem find_eq_none {k : K} {es : List (K × V)} :
    find cmp k es = none ↔ ∀ e ∈ es, cmp k e.1 ≠ .eq := by
  simp [find]

theorem find_isSome {k : K} {es : List (K × V)} :
    (find cmp k es).isSome ↔ ∃ e ∈ es, cmp k e.1 = .eq := by
  simp [find]

/-! ## Putting -/

theorem put_append_left (pick : K → K → K) {k : K} {v : V} {l : List (K × V)} (r : List (K × V))
    (h : ∀ e ∈ l, cmp k e.1 = .gt) : put cmp pick k v (l ++ r) = l ++ put cmp pick k v r := by
  induction l with
  | nil => rfl
  | cons e l ih =>
    have he : cmp k e.1 = .gt := h e (by simp)
    simp only [List.cons_append, put, he]
    rw [ih (fun f hf => h f (List.mem_cons_of_mem _ hf))]

theorem put_append_right (pick : K → K → K) {k : K} {v : V} (l : List (K × V)) {e : K × V}
    (r : List (K × V)) (h : cmp k e.1 = .lt) :
    put cmp pick k v (l ++ e :: r) = put cmp pick k v l ++ e :: r := by
  induction l with
  | nil => simp [put, h]
  | cons f l ih =>
    simp only [List.cons_append, put]
    cases cmp k f.1 with
    | lt => rfl
    | eq => rfl
    | gt => simp only [ih, List.cons_append]

theorem mem_put {pick : K → K → K} {k : K} {v : V} {es : List (K × V)} {e : K × V}
    (h : e ∈ put cmp pick k v es) :
    e = (k, v) ∨ (∃ f ∈ es, cmp k f.1 = .eq ∧ e = (pick k f.1, v)) ∨ e ∈ es := by
  induction es with
  | nil => simp_all [put]
  | cons f es ih =>
    simp only [put] at h
    split at h
    · rcases List.mem_cons.mp h with rfl | h'
      · exact Or.inl rfl
      · exact Or.inr (Or.inr h')
    · rename_i hf
      rcases List.mem_cons.mp h with rfl | h'
      · exact Or.inr (Or.inl ⟨f, by simp, hf, rfl⟩)
      · exact Or.inr (Or.inr (List.mem_cons_of_mem _ h'))
    · rcases List.mem_cons.mp h with rfl | h'
      · exact Or.inr (Or.inr (by simp))
      · rcases ih h' with h1 | ⟨g, hg, hk, h2⟩ | h3
        · exact Or.inl h1
        · exact Or.inr (Or.inl ⟨g, List.mem_cons_of_mem _ hg, hk, h2⟩)
        · exact Or.inr (Or.inr (List.mem_cons_of_mem _ h3))

/-- `pick` stays with the keys that the comparator holds for the same. -/
def Picks (cmp : K → K → Ordering) (pick : K → K → K) : Prop :=
  ∀ k old, cmp k old = .eq → cmp (pick k old) k = .eq

variable [TransCmp cmp]

theorem picks_new : Picks cmp (fun k _ => k) := fun _ _ _ => ReflCmp.compare_self

theorem picks_old : Picks cmp (fun _ old => old) := fun _ _ h => OrientedCmp.eq_symm h

/-- Everything in the list after a put is the same as `k` or stood there before. -/
theorem cmp_of_mem_put {pick : K → K → K} (hpick : Picks cmp pick) {k : K} {v : V}
    {es : List (K × V)} {e : K × V} (h : e ∈ put cmp pick k v es) :
    cmp e.1 k = .eq ∨ e ∈ es := by
  rcases mem_put h with rfl | ⟨f, -, hf, rfl⟩ | h'
  · exact Or.inl ReflCmp.compare_self
  · exact Or.inl (hpick k f.1 hf)
  · exact Or.inr h'

theorem Sorted.put {pick : K → K → K} (hpick : Picks cmp pick) (k : K) (v : V)
    {es : List (K × V)} (h : Sorted cmp es) : Sorted cmp (put cmp pick k v es) := by
  induction es with
  | nil => simp [Entries.put, Sorted]
  | cons e es ih =>
    obtain ⟨hhead, htail⟩ := Sorted.cons_iff.mp h
    simp only [Entries.put]
    split
    · rename_i hlt
      refine Sorted.cons_iff.mpr ⟨?_, h⟩
      intro f hf
      rcases List.mem_cons.mp hf with rfl | hf
      · exact hlt
      · exact TransCmp.lt_trans hlt (hhead f hf)
    · rename_i heq
      refine Sorted.cons_iff.mpr ⟨?_, htail⟩
      intro f hf
      exact TransCmp.lt_of_eq_of_lt (TransCmp.eq_trans (hpick k e.1 heq) heq) (hhead f hf)
    · rename_i hgt
      refine Sorted.cons_iff.mpr ⟨?_, ih htail⟩
      intro f hf
      rcases cmp_of_mem_put hpick hf with heq | hf
      · exact TransCmp.lt_of_lt_of_eq (OrientedCmp.lt_of_gt hgt) (OrientedCmp.eq_symm heq)
      · exact hhead f hf

/-! ## What is found -/

/-- A lookup that only looks where the key can be: on one side of an entry. -/
theorem find_cut {k : K} {l r : List (K × V)} {e : K × V} (h : Sorted cmp (l ++ e :: r)) :
    find cmp k (l ++ e :: r) =
      match cmp k e.1 with
      | .lt => find cmp k l
      | .eq => some e.2
      | .gt => find cmp k r := by
  obtain ⟨-, -, hle, her, -⟩ := Sorted.cut_iff.mp h
  rw [find_append, find_cons]
  cases hk : cmp k e.1 with
  | lt =>
    have hr : find cmp k r = none := by
      refine find_eq_none.mpr fun f hf => ?_
      rw [TransCmp.lt_trans hk (her f hf)]
      simp
    simp [hr]
  | eq =>
    have hl : find cmp k l = none := by
      refine find_eq_none.mpr fun f hf => ?_
      rw [OrientedCmp.gt_of_lt (TransCmp.lt_of_lt_of_eq (hle f hf) (OrientedCmp.eq_symm hk))]
      simp
    simp [hl]
  | gt =>
    have hl : find cmp k l = none := by
      refine find_eq_none.mpr fun f hf => ?_
      rw [OrientedCmp.gt_of_lt (TransCmp.lt_trans (hle f hf) (OrientedCmp.lt_of_gt hk))]
      simp
    simp [hl]

theorem find_congr {k k' : K} (h : cmp k k' = .eq) (es : List (K × V)) :
    find cmp k es = find cmp k' es := by
  induction es with
  | nil => rfl
  | cons e es ih => rw [find_cons, find_cons, ih, TransCmp.congr_left h]

/-- A put changes the lookup of its own key and of no other. -/
theorem find_put {pick : K → K → K} (hpick : Picks cmp pick) (k x : K) (v : V)
    {es : List (K × V)} (h : Sorted cmp es) :
    find cmp x (put cmp pick k v es) = if cmp x k = .eq then some v else find cmp x es := by
  induction es with
  | nil => simp [put, find_cons]
  | cons e es ih =>
    obtain ⟨hhead, htail⟩ := Sorted.cons_iff.mp h
    simp only [put]
    split
    · rw [find_cons]
    · rename_i heq
      have hpicked : cmp x (pick k e.1) = cmp x k := TransCmp.congr_right (hpick k e.1 heq)
      have hold : cmp x e.1 = cmp x k := TransCmp.congr_right (OrientedCmp.eq_symm heq)
      rw [find_cons, find_cons, hpicked, hold]
      split <;> rfl
    · rename_i hgt
      rw [find_cons, find_cons, ih htail]
      by_cases hx : cmp x k = .eq
      · have hne : cmp x e.1 ≠ .eq := by rw [TransCmp.congr_left hx, hgt]; simp
        simp [hx, hne]
      · simp [hx]

theorem find_erase (k x : K) (es : List (K × V)) :
    find cmp x (erase cmp k es) = if cmp x k = .eq then none else find cmp x es := by
  induction es with
  | nil => simp [erase]
  | cons e es ih =>
    by_cases he : cmp k e.1 = .eq
    · rw [erase_cons_eq he, ih, find_cons]
      by_cases hx : cmp x k = .eq
      · simp [hx]
      · have hne : cmp x e.1 ≠ .eq := fun h =>
          hx (TransCmp.eq_trans h (OrientedCmp.eq_symm he))
        simp [hx, hne]
    · rw [erase_cons_ne he, find_cons, find_cons, ih]
      by_cases hx : cmp x k = .eq
      · have hne : cmp x e.1 ≠ .eq := fun h =>
          he (TransCmp.eq_trans (OrientedCmp.eq_symm hx) h)
        simp [hx, hne]
      · simp [hx]

/-! ## The entries on one side of a key -/

def onwards (cmp : K → K → Ordering) (k : K) (es : List (K × V)) : List (K × V) :=
  es.filter (fun e => cmp e.1 k != .lt)

def upTo (cmp : K → K → Ordering) (k : K) (es : List (K × V)) : List (K × V) :=
  es.filter (fun e => cmp e.1 k != .gt)

theorem onwards_cut {k : K} {l r : List (K × V)} {e : K × V} (h : Sorted cmp (l ++ e :: r)) :
    onwards cmp k (l ++ e :: r) =
      match cmp e.1 k with
      | .lt => onwards cmp k r
      | .eq => e :: r
      | .gt => onwards cmp k l ++ e :: r := by
  obtain ⟨-, -, hle, her, -⟩ := Sorted.cut_iff.mp h
  have hnone : cmp e.1 k ≠ .gt → l.filter (fun e => cmp e.1 k != .lt) = [] := by
    intro hne
    refine List.filter_eq_nil_iff.mpr fun f hf => ?_
    have hlt : cmp f.1 k = .lt := TransCmp.lt_of_lt_of_isLE (hle f hf) (by
      cases hc : cmp e.1 k <;> simp_all)
    simp [hlt]
  have hall : cmp e.1 k ≠ .lt → r.filter (fun e => cmp e.1 k != .lt) = r := by
    intro hne
    refine List.filter_eq_self.mpr fun f hf => ?_
    have hgt : cmp f.1 k = .gt := TransCmp.gt_of_gt_of_isGE (OrientedCmp.gt_of_lt (her f hf)) (by
      cases hc : cmp e.1 k <;> simp_all)
    simp [hgt]
  unfold onwards
  rw [List.filter_append, List.filter_cons]
  cases hc : cmp e.1 k with
  | lt => simp [hnone (by simp [hc])]
  | eq => simp [hnone (by simp [hc]), hall (by simp [hc])]
  | gt => simp [hall (by simp [hc])]

theorem upTo_cut {k : K} {l r : List (K × V)} {e : K × V} (h : Sorted cmp (l ++ e :: r)) :
    upTo cmp k (l ++ e :: r) =
      match cmp e.1 k with
      | .lt => l ++ e :: upTo cmp k r
      | .eq => l ++ [e]
      | .gt => upTo cmp k l := by
  obtain ⟨-, -, hle, her, -⟩ := Sorted.cut_iff.mp h
  have hall : cmp e.1 k ≠ .gt → l.filter (fun e => cmp e.1 k != .gt) = l := by
    intro hne
    refine List.filter_eq_self.mpr fun f hf => ?_
    have hlt : cmp f.1 k = .lt := TransCmp.lt_of_lt_of_isLE (hle f hf) (by
      cases hc : cmp e.1 k <;> simp_all)
    simp [hlt]
  have hnone : cmp e.1 k ≠ .lt → r.filter (fun e => cmp e.1 k != .gt) = [] := by
    intro hne
    refine List.filter_eq_nil_iff.mpr fun f hf => ?_
    have hgt : cmp f.1 k = .gt := TransCmp.gt_of_gt_of_isGE (OrientedCmp.gt_of_lt (her f hf)) (by
      cases hc : cmp e.1 k <;> simp_all)
    simp [hgt]
  unfold upTo
  rw [List.filter_append, List.filter_cons]
  cases hc : cmp e.1 k with
  | lt => simp [hall (by simp [hc])]
  | eq => simp [hnone (by simp [hc]), hall (by simp [hc])]
  | gt => simp [hnone (by simp [hc])]

/-- The entries below a key. -/
def below (cmp : K → K → Ordering) (k : K) (es : List (K × V)) : List (K × V) :=
  es.filter (fun e => cmp e.1 k == .lt)

theorem below_cut {k : K} {l r : List (K × V)} {e : K × V} (h : Sorted cmp (l ++ e :: r)) :
    below cmp k (l ++ e :: r) =
      match cmp k e.1 with
      | .lt => below cmp k l
      | .eq => l
      | .gt => l ++ e :: below cmp k r := by
  obtain ⟨-, -, hle, her, -⟩ := Sorted.cut_iff.mp h
  have hall : cmp k e.1 ≠ .lt → l.filter (fun e => cmp e.1 k == .lt) = l := by
    intro hne
    refine List.filter_eq_self.mpr fun f hf => ?_
    have hlt : cmp f.1 k = .lt := TransCmp.lt_of_lt_of_isLE (hle f hf) (by
      rw [show cmp e.1 k = (cmp k e.1).swap from OrientedCmp.eq_swap]
      cases hc : cmp k e.1 <;> simp_all)
    simp [hlt]
  have hnone : cmp k e.1 ≠ .gt → r.filter (fun e => cmp e.1 k == .lt) = [] := by
    intro hne
    refine List.filter_eq_nil_iff.mpr fun f hf => ?_
    have hgt : cmp f.1 k = .gt := TransCmp.gt_of_gt_of_isGE (OrientedCmp.gt_of_lt (her f hf)) (by
      rw [show cmp e.1 k = (cmp k e.1).swap from OrientedCmp.eq_swap]
      cases hc : cmp k e.1 <;> simp_all)
    simp [hgt]
  unfold below
  rw [List.filter_append, List.filter_cons,
    show cmp e.1 k = (cmp k e.1).swap from OrientedCmp.eq_swap]
  cases hc : cmp k e.1 with
  | lt => simp [hnone (by simp [hc])]
  | eq => simp [hnone (by simp [hc]), hall (by simp [hc])]
  | gt => simp [hall (by simp [hc])]

/-! ## Comparators that hold only equal keys for the same -/

section Lawful

variable [LawfulEqCmp cmp]

omit [TransCmp cmp] in
theorem find_eq_some_iff {k : K} {v : V} {es : List (K × V)} (h : Sorted cmp es) :
    find cmp k es = some v ↔ (k, v) ∈ es := by
  induction es with
  | nil => simp
  | cons e es ih =>
    obtain ⟨hhead, htail⟩ := Sorted.cons_iff.mp h
    rw [find_cons, List.mem_cons]
    by_cases hk : k = e.1
    · subst hk
      rw [if_pos ReflCmp.compare_self, Option.some.injEq]
      constructor
      · rintro rfl
        exact Or.inl rfl
      · rintro (heq | hmem)
        · exact (congrArg Prod.snd heq).symm
        · have hlt : cmp e.1 e.1 = .lt := hhead (e.1, v) hmem
          rw [show cmp e.1 e.1 = .eq from ReflCmp.compare_self] at hlt
          cases hlt
    · rw [if_neg (fun heq => hk (LawfulEqCmp.compare_eq_iff_eq.mp heq)), ih htail]
      constructor
      · exact Or.inr
      · rintro (heq | hmem)
        · exact absurd (congrArg Prod.fst heq) hk
        · exact hmem

/-- The order leaves a list no choice: its entries are the ones that are found. -/
theorem eq_of_find {es fs : List (K × V)} (hes : Sorted cmp es) (hfs : Sorted cmp fs)
    (h : ∀ k, find cmp k es = find cmp k fs) : es = fs := by
  refine hes.eq_of_perm hfs ?_
  rw [List.perm_ext_iff_of_nodup hes.nodup hfs.nodup]
  rintro ⟨k, v⟩
  rw [← find_eq_some_iff hes, ← find_eq_some_iff hfs, h]

/-- As many entries, each of them in the other list, are the same entries. -/
theorem eq_of_subset {es fs : List (K × V)} (hes : Sorted cmp es) (hfs : Sorted cmp fs)
    (hsub : ∀ e ∈ es, e ∈ fs) (hlen : fs.length ≤ es.length) : es = fs :=
  hes.eq_of_perm hfs ((List.subperm_of_subset hes.nodup hsub).perm_of_length_le hlen)

/-- A value that replaces another one leaves the keys as they are. -/
theorem keys_put {k : K} {w : V} (v : V) {es : List (K × V)} (hes : Sorted cmp es)
    (h : find cmp k es = some w) :
    (put cmp (fun k _ => k) k v es).map Prod.fst = es.map Prod.fst := by
  induction es with
  | nil => cases h
  | cons e es ih =>
    obtain ⟨hhead, htail⟩ := Sorted.cons_iff.mp hes
    unfold put
    cases hk : cmp k e.1 with
    | lt =>
      rcases List.mem_cons.mp ((find_eq_some_iff hes).mp h) with heq | hin
      · have hself : cmp k k = .eq := ReflCmp.compare_self
        rw [← heq, hself] at hk
        cases hk
      · have hgt := OrientedCmp.gt_of_lt (hhead _ hin)
        rw [hk] at hgt
        cases hgt
    | eq =>
      obtain rfl := LawfulEqCmp.eq_of_compare hk
      rfl
    | gt =>
      have hfind : find cmp k es = some w := by
        rw [find_cons, if_neg (by simp [hk])] at h
        exact h
      rw [List.map_cons, ih htail hfind, List.map_cons]

variable [DecidableEq K]

theorem find_put_self {pick : K → K → K} (hpick : Picks cmp pick) (k x : K) (v : V)
    {es : List (K × V)} (h : Sorted cmp es) :
    find cmp x (put cmp pick k v es) = if x = k then some v else find cmp x es := by
  rw [find_put hpick k x v h]
  simp only [LawfulEqCmp.compare_eq_iff_eq]

theorem find_erase_self (k x : K) (es : List (K × V)) :
    find cmp x (erase cmp k es) = if x = k then none else find cmp x es := by
  rw [find_erase]
  simp only [LawfulEqCmp.compare_eq_iff_eq]

/-! ## A place named by the key before it -/

/-- The new entry goes right behind the first one with the key `p`. -/
def insertBehind (p : K) (new : K × V) : List (K × V) → Option (List (K × V))
  | [] => none
  | e :: es => if e.1 = p then some (e :: new :: es) else (insertBehind p new es).map (e :: ·)

/-- The new entry goes behind the given key, or in front of all. -/
def insertAfter (prev : Option K) (new : K × V) (es : List (K × V)) : Option (List (K × V)) :=
  match prev with
  | none => some (new :: es)
  | some p => insertBehind p new es

/-- The key before a place in the order leads to it. -/
theorem insertAfter_eq_put (pick : K → K → K) {k : K} (v : V) {es : List (K × V)}
    (h : Sorted cmp es) (hk : k ∉ es.map Prod.fst) :
    insertAfter ((below cmp k es).getLast?.map Prod.fst) (k, v) es = some (put cmp pick k v es) := by
  induction es with
  | nil => rfl
  | cons e es ih =>
    obtain ⟨hhead, htail⟩ := Sorted.cons_iff.mp h
    have hcut := below_cut (k := k) (l := []) h
    rw [List.map_cons, List.mem_cons, not_or] at hk
    rw [List.nil_append] at hcut
    unfold put
    cases hc : cmp k e.1 with
    | lt =>
      rw [hcut, hc]
      rfl
    | eq => exact absurd (LawfulEqCmp.compare_eq_iff_eq.mp hc) hk.1
    | gt =>
      rw [hcut, hc]
      dsimp only
      have hih := ih htail hk.2
      rw [List.nil_append, List.getLast?_cons]
      cases hlast : (below cmp k es).getLast? with
      | none =>
        rw [hlast] at hih
        simp only [Option.map_none, insertAfter, Option.some.injEq] at hih
        simp [insertAfter, insertBehind, ← hih]
      | some f =>
        rw [hlast] at hih
        have hmem : f ∈ es := List.mem_of_mem_filter (List.mem_of_getLast? hlast)
        have hne : e.1 ≠ f.1 := by
          intro heq
          have hlt := hhead f hmem
          rw [heq, show cmp f.1 f.1 = .eq from ReflCmp.compare_self] at hlt
          cases hlt
        simp only [Option.getD_some, Option.map_some, insertAfter, insertBehind, if_neg hne] at hih ⊢
        rw [hih]
        rfl

omit [DecidableEq K] in
/-- Only the keys below a place count for the key before it. -/
theorem keys_below_congr {W : Type} {k : K} {es : List (K × V)} {fs : List (K × W)}
    (hes : Sorted cmp es) (hfs : Sorted cmp fs)
    (h : ∀ l, cmp l k = .lt → (l ∈ es.map Prod.fst ↔ l ∈ fs.map Prod.fst)) :
    (below cmp k es).map Prod.fst = (below cmp k fs).map Prod.fst := by
  have hsorted : ∀ {U : Type} {us : List (K × U)}, Sorted cmp us →
      ((below cmp k us).map Prod.fst).Pairwise (fun a b => cmp a b = .lt) := by
    intro U us hus
    rw [List.pairwise_map]
    exact hus.sublist List.filter_sublist
  refine ((List.perm_ext_iff_of_nodup ?_ ?_).mpr ?_).eq_of_pairwise ?_ (hsorted hes) (hsorted hfs)
  · exact hes.nodup_keys.sublist (List.filter_sublist.map _)
  · exact hfs.nodup_keys.sublist (List.filter_sublist.map _)
  · intro l
    simp only [below, List.mem_map, List.mem_filter, beq_iff_eq] at h ⊢
    constructor
    · rintro ⟨e, ⟨he, hlt⟩, rfl⟩
      obtain ⟨f, hf, hkey⟩ := (h e.1 hlt).mp ⟨e, he, rfl⟩
      exact ⟨f, ⟨hf, hkey ▸ hlt⟩, hkey⟩
    · rintro ⟨f, ⟨hf, hlt⟩, rfl⟩
      obtain ⟨e, he, hkey⟩ := (h f.1 hlt).mpr ⟨f, hf, rfl⟩
      exact ⟨e, ⟨he, hkey ▸ hlt⟩, hkey⟩
  · intro a b _ _ hab hba
    rw [OrientedCmp.gt_of_lt hab] at hba
    cases hba

end Lawful

end Entries
