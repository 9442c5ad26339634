-- The sorted dictionary: an array of entries up to a number of keys, a red-black tree
-- above it. What is put in and taken out is the same in both.
import HateBlocker.TreeBuilder
import HateBlocker.Runs

open Std

namespace HateBlocker

variable {K V : Type} (cmp : K → K → Ordering)

def sortedDictionaryArrayToRBTreeSizeThreshold : Nat := 25

namespace ArraySortedDictionary

def findInsertPositionForKey (key : K) : List (K × V) → Nat
  | [] => 0
  | e :: es => if cmp e.1 key = .lt then findInsertPositionForKey key es + 1 else 0

/-- The search stops at the first key above the one looked for. -/
def findKey (key : K) : List (K × V) → Option Nat
  | [] => none
  | e :: es =>
    match cmp key e.1 with
    | .eq => some 0
    | .lt => none
    | .gt => (findKey key es).map (· + 1)

end ArraySortedDictionary

namespace TreeSortedDictionary

def get (key : K) : LLRBNode K V → Option V
  | .empty => none
  | .value _ l k v r =>
    match cmp key k with
    | .eq => some v
    | .lt => get key l
    | .gt => get key r

/-- `none` is the exception for a key that is not there. -/
def getPredecessorKey (key : K) (rightParent : Option K) : LLRBNode K V → Option (Option K)
  | .empty => none
  | .value _ l k _ r =>
    match cmp key k with
    | .eq => some (if l.isEmpty then rightParent else l.maxKey)
    | .lt => getPredecessorKey key rightParent l
    | .gt => getPredecessorKey key (some k) r

end TreeSortedDictionary

inductive SortedDictionary (K V : Type)
  | array (entries : List (K × V))
  | tree (root : LLRBNode K V)
  deriving Repr

namespace SortedDictionary

open ArraySortedDictionary

def entries : SortedDictionary K V → List (K × V)
  | array es => es
  | tree root => root.toList

def count : SortedDictionary K V → Nat
  | array es => es.length
  | tree root => root.count

def dictionaryWithComparator : SortedDictionary K V := array []

def arrayFromDictionary (dictionary : List (K × V)) : Option (SortedDictionary K V) :=
  let keys := TreeSortedDictionary.sortedKeyList cmp dictionary
  if TreeSortedDictionary.ascending cmp keys then some (array keys) else none

def fromDictionary (dictionary : List (K × V)) : Option (SortedDictionary K V) :=
  if dictionary.length ≤ sortedDictionaryArrayToRBTreeSizeThreshold then
    arrayFromDictionary cmp dictionary
  else (TreeSortedDictionary.fromDictionary cmp dictionary).map tree

def get (key : K) : SortedDictionary K V → Option V
  | array es => (findKey cmp key es).bind (fun pos => (es[pos]?).map Prod.snd)
  | tree root => TreeSortedDictionary.get cmp key root

def contains (key : K) : SortedDictionary K V → Bool
  | array es => (findKey cmp key es).isSome
  | tree root => (TreeSortedDictionary.get cmp key root).isSome

/-- An array that is full becomes a tree. -/
def insertKey (key : K) (value : V) : SortedDictionary K V → Option (SortedDictionary K V)
  | array es =>
    match findKey cmp key es with
    | none =>
      if es.length ≥ sortedDictionaryArrayToRBTreeSizeThreshold then
        (TreeSortedDictionary.fromDictionary cmp (es ++ [(key, value)])).map tree
      else some (array (es.insertIdx (findInsertPositionForKey cmp key es) (key, value)))
    | some pos => some (array (es.set pos (key, value)))
  | tree root => some (tree ((root.insertKey cmp key value).withColor .black))

/-- A tree stays a tree however few keys are left. -/
def removeKey (key : K) : SortedDictionary K V → SortedDictionary K V
  | array es =>
    match findKey cmp key es with
    | none => array es
    | some pos => array (es.eraseIdx pos)
  | tree root =>
    if contains cmp key (tree root) then tree ((root.remove cmp key).withColor .black)
    else tree root

def minKey : SortedDictionary K V → Option K
  | array es => es.head?.map Prod.fst
  | tree root => root.minKey

def maxKey : SortedDictionary K V → Option K
  | array es => es.getLast?.map Prod.fst
  | tree root => root.maxKey

def getPredecessorKey (key : K) : SortedDictionary K V → Option (Option K)
  | array es =>
    match findKey cmp key es with
    | none => none
    | some 0 => some none
    | some (pos + 1) => some ((es[pos]?).map Prod.fst)
  | tree root => TreeSortedDictionary.getPredecessorKey cmp key none root

/-- What the dictionary asserts of a tree. -/
def checks : SortedDictionary K V → Prop
  | array _ => True
  | tree root => ∃ blackDepth, root.check = .ok blackDepth ∧ root.checkMaxDepth = .ok true

/-! ## What the searches find -/

variable {cmp}

/-- The key is there, at the end of the keys below it, or its place is. -/
theorem findKey_cases [TransCmp cmp] (key : K) {es : List (K × V)} (h : Entries.Sorted cmp es) :
    (∃ l e r, es = l ++ e :: r ∧ (∀ f ∈ l, cmp key f.1 = .gt) ∧ cmp key e.1 = .eq ∧
      findKey cmp key es = some l.length) ∨
    (∃ l r, es = l ++ r ∧ (∀ f ∈ l, cmp key f.1 = .gt) ∧ (∀ f ∈ r, cmp key f.1 = .lt) ∧
      findKey cmp key es = none ∧ findInsertPositionForKey cmp key es = l.length) := by
  induction es with
  | nil => exact Or.inr ⟨[], [], rfl, by simp, by simp, rfl, rfl⟩
  | cons e es ih =>
    obtain ⟨hhead, htail⟩ := Entries.Sorted.cons_iff.mp h
    cases hk : cmp key e.1 with
    | eq => exact Or.inl ⟨[], e, es, rfl, by simp, hk, by simp [findKey, hk]⟩
    | lt =>
      refine Or.inr ⟨[], e :: es, rfl, by simp, ?_, by simp [findKey, hk], ?_⟩
      · intro f hf
        rcases List.mem_cons.mp hf with rfl | hf
        · exact hk
        · exact TransCmp.lt_trans hk (hhead f hf)
      · simp [findInsertPositionForKey, OrientedCmp.gt_of_lt hk]
    | gt =>
      have hlt : cmp e.1 key = .lt := OrientedCmp.lt_of_gt hk
      have hall : ∀ l : List (K × V), (∀ f ∈ l, cmp key f.1 = .gt) →
          ∀ f ∈ e :: l, cmp key f.1 = .gt := by
        intro l hl f hf
        rcases List.mem_cons.mp hf with rfl | hf
        · exact hk
        · exact hl f hf
      rcases ih htail with ⟨l, g, r, rfl, hl, hg, hfind⟩ | ⟨l, r, rfl, hl, hr, hfind, hpos⟩
      · exact Or.inl ⟨e :: l, g, r, rfl, hall l hl, hg, by simp [findKey, hk, hfind]⟩
      · refine Or.inr ⟨e :: l, r, rfl, hall l hl, hr, by simp [findKey, hk, hfind], ?_⟩
        simp [findInsertPositionForKey, hlt, hpos]

theorem tree_get_eq [TransCmp cmp] (key : K) {t : LLRBNode K V}
    (h : Entries.Sorted cmp t.toList) :
    TreeSortedDictionary.get cmp key t = Entries.find cmp key t.toList := by
  induction t with
  | empty => rfl
  | value c l k v r ihl ihr =>
    obtain ⟨hl, hr, -, -, -⟩ := Entries.Sorted.cut_iff.mp h
    rw [LLRBNode.toList, Entries.find_cut h, TreeSortedDictionary.get, ihl hl, ihr hr]
    cases cmp key k <;> rfl

/-- Sorted entries, and a balanced tree with a black root. -/
structure Valid (cmp : K → K → Ordering) (d : SortedDictionary K V) : Prop where
  sorted : Entries.Sorted cmp d.entries
  balanced : ∀ root, d = tree root → ∃ n, root.Balanced .black n

theorem Valid.array [TransCmp cmp] {es : List (K × V)} (h : Entries.Sorted cmp es) :
    Valid cmp (array es) :=
  ⟨h, fun _ heq => by cases heq⟩

theorem Valid.tree [TransCmp cmp] {root : LLRBNode K V} (h : Entries.Sorted cmp root.toList)
    (hb : ∃ n, root.Balanced .black n) : Valid cmp (tree root) :=
  ⟨h, fun _ heq => by cases heq; exact hb⟩

theorem length_toList (t : LLRBNode K V) : t.toList.length = t.count := by
  induction t with
  | empty => rfl
  | value c l k v r ihl ihr =>
    simp only [LLRBNode.toList, LLRBNode.count, List.length_append, List.length_cons, ihl, ihr]
    omega

theorem count_eq (d : SortedDictionary K V) : d.count = d.entries.length := by
  cases d with
  | array es => rfl
  | tree root => exact (length_toList root).symm

theorem Valid.checks {d : SortedDictionary K V} (h : Valid cmp d) : d.checks := by
  cases d with
  | array es => exact trivial
  | tree root =>
    obtain ⟨n, hn⟩ := h.balanced root rfl
    refine ⟨n, hn.check_eq, ?_⟩
    have hle := hn.two_pow_le
    simp [LLRBNode.checkMaxDepth, hn.check_eq, Except.map, hle]

theorem get_eq [TransCmp cmp] (key : K) {d : SortedDictionary K V} (h : Valid cmp d) :
    d.get cmp key = Entries.find cmp key d.entries := by
  cases d with
  | tree root => exact tree_get_eq key h.sorted
  | array es =>
    rcases findKey_cases key h.sorted with
      ⟨l, e, r, heq, hl, he, hfind⟩ | ⟨l, r, heq, hl, hr, hfind, -⟩
    · obtain rfl : es = l ++ e :: r := heq
      have hsort := h.sorted
      simp only [entries] at hfind hsort ⊢
      rw [Entries.find_cut hsort, he]
      simp [get, hfind]
    · obtain rfl : es = l ++ r := heq
      simp only [entries] at hfind ⊢
      have hnone : Entries.find cmp key (l ++ r) = none := by
        refine Entries.find_eq_none.mpr fun f hf => ?_
        rcases List.mem_append.mp hf with hf | hf
        · simp [hl f hf]
        · simp [hr f hf]
      simp [get, hfind, hnone]

theorem contains_eq [TransCmp cmp] (key : K) {d : SortedDictionary K V} (h : Valid cmp d) :
    d.contains cmp key = (d.get cmp key).isSome := by
  cases d with
  | tree root => rfl
  | array es =>
    rcases findKey_cases key h.sorted with
      ⟨l, e, r, heq, -, -, hfind⟩ | ⟨l, r, -, -, -, hfind, -⟩
    · obtain rfl : es = l ++ e :: r := heq
      simp only [entries] at hfind
      simp [contains, get, hfind]
    · simp only [entries] at hfind
      simp [contains, get, hfind]

/-! ## What the operations keep -/

theorem insertIdx_length_append {α : Type} (l r : List α) (x : α) :
    (l ++ r).insertIdx l.length x = l ++ x :: r := by
  induction l with
  | nil => simp
  | cons a l ih => simp [ih]

/-- Between the keys below it and the keys above it. -/
theorem put_between [TransCmp cmp] (pick : K → K → K) {key : K} (value : V) {l r : List (K × V)}
    (hl : ∀ f ∈ l, cmp key f.1 = .gt) (hr : ∀ f ∈ r, cmp key f.1 = .lt) :
    Entries.put cmp pick key value (l ++ r) = l ++ (key, value) :: r := by
  rw [Entries.put_append_left pick r hl]
  cases r with
  | nil => rfl
  | cons f r => simp [Entries.put, hr f (by simp)]

/-- A full array and a new key make a tree of both. -/
theorem treeOfFull_spec [TransCmp cmp] {key : K} (value : V) {l r : List (K × V)}
    (hsort : Entries.Sorted cmp (l ++ r)) (hl : ∀ f ∈ l, cmp key f.1 = .gt)
    (hr : ∀ f ∈ r, cmp key f.1 = .lt) :
    ∃ root, TreeSortedDictionary.fromDictionary cmp (l ++ r ++ [(key, value)]) = some root ∧
      (∃ n, root.Balanced .black n) ∧ root.toList = l ++ (key, value) :: r := by
  have hput : Entries.Sorted cmp (l ++ (key, value) :: r) := by
    rw [← put_between (fun k _ => k) value hl hr]
    exact hsort.put Entries.picks_new key value
  have hne : (l ++ r ++ [(key, value)]).Pairwise (fun e f => cmp e.1 f.1 ≠ .eq) := by
    have hperm : (l ++ (key, value) :: r).Perm (l ++ r ++ [(key, value)]) :=
      List.perm_middle.trans (List.perm_append_singleton _ _).symm
    refine (hperm.pairwise_iff ?_).mp (hput.imp ?_)
    · intro a b hab hba
      exact hab (OrientedCmp.eq_symm hba)
    · intro a b hlt
      simp [hlt]
  obtain ⟨root, hroot, hbal, hlist⟩ := TreeSortedDictionary.fromDictionary_spec hne
  refine ⟨root, hroot, hbal, ?_⟩
  rw [hlist]
  apply Entries.Sorted.eq_of_perm (TreeSortedDictionary.sorted_sortedKeyList hne) hput
  refine (TreeSortedDictionary.sortedKeyList_perm _).trans ?_
  exact (List.perm_append_singleton _ _).trans List.perm_middle.symm

theorem insertKey_spec [TransCmp cmp] (key : K) (value : V) {d : SortedDictionary K V}
    (h : Valid cmp d) :
    ∃ d' pick, d.insertKey cmp key value = some d' ∧ Valid cmp d' ∧ Entries.Picks cmp pick ∧
      d'.entries = Entries.put cmp pick key value d.entries := by
  cases d with
  | tree root =>
    obtain ⟨n, hn⟩ := h.balanced root rfl
    obtain ⟨c, hc⟩ := (LLRBNode.insertKey_balanced cmp key value hn).1 rfl
    have hlist := LLRBNode.insertKey_toList cmp key value h.sorted
    refine ⟨_, fun _ old => old, rfl, .tree ?_ hc.blacken, Entries.picks_old, ?_⟩
    · rw [LLRBNode.toList_withColor, hlist]
      exact h.sorted.put Entries.picks_old key value
    · rw [entries, LLRBNode.toList_withColor, hlist]
      rfl
  | array es =>
    have hsort : Entries.Sorted cmp es := h.sorted
    rcases findKey_cases key hsort with
      ⟨l, e, r, heq, hl, he, hfind⟩ | ⟨l, r, heq, hl, hr, hfind, hpos⟩
    · have hset : (l ++ e :: r).set l.length (key, value) = l ++ (key, value) :: r := by simp
      have hput : Entries.put cmp (fun k _ => k) key value (l ++ e :: r) =
          l ++ (key, value) :: r := by
        rw [Entries.put_append_left _ _ hl]
        simp [Entries.put, he]
      subst heq
      refine ⟨array (l ++ (key, value) :: r), fun k _ => k, by simp only [insertKey, hfind, hset],
        .array ?_, Entries.picks_new, by simp only [entries, hput]⟩
      rw [← hput]
      exact hsort.put Entries.picks_new key value
    · subst heq
      have hput := put_between (fun k _ => k) value hl hr
      by_cases hfull : (l ++ r).length ≥ sortedDictionaryArrayToRBTreeSizeThreshold
      · obtain ⟨root, hroot, hbal, hlist⟩ := treeOfFull_spec value hsort hl hr
        refine ⟨_, fun k _ => k, ?_, .tree ?_ hbal, Entries.picks_new, ?_⟩
        · simp only [insertKey, hfind, if_pos hfull, hroot]
          rfl
        · rw [hlist, ← hput]
          exact hsort.put Entries.picks_new key value
        · simp only [entries, hlist, hput]
      · refine ⟨array (l ++ (key, value) :: r), fun k _ => k, ?_, .array ?_, Entries.picks_new,
          by simp only [entries, hput]⟩
        · simp only [insertKey, hfind, if_neg hfull, hpos, insertIdx_length_append]
        · rw [← hput]
          exact hsort.put Entries.picks_new key value

theorem removeKey_spec [TransCmp cmp] (key : K) {d : SortedDictionary K V} (h : Valid cmp d) :
    Valid cmp (d.removeKey cmp key) ∧
      (d.removeKey cmp key).entries = Entries.erase cmp key d.entries := by
  cases d with
  | tree root =>
    obtain ⟨n, hn⟩ := h.balanced root rfl
    by_cases hin : contains cmp key (tree root)
    · obtain ⟨hbal, hlist⟩ := LLRBNode.remove_spec key hn h.sorted
      simp only [removeKey, if_pos hin]
      refine ⟨.tree ?_ hbal, ?_⟩
      · rw [LLRBNode.toList_withColor, hlist]
        exact h.sorted.erase key
      · simp only [entries, LLRBNode.toList_withColor, hlist]
    · simp only [removeKey, if_neg hin]
      refine ⟨h, ?_⟩
      rw [contains_eq key h, get_eq key h, Bool.not_eq_true, Option.isSome_eq_false_iff,
        Option.isNone_iff_eq_none, Entries.find_eq_none] at hin
      exact (Entries.erase_of_ne hin).symm
  | array es =>
    have hsort : Entries.Sorted cmp es := h.sorted
    rcases findKey_cases key hsort with
      ⟨l, e, r, heq, hl, he, hfind⟩ | ⟨l, r, heq, hl, hr, hfind, -⟩
    · subst heq
      have herase : Entries.erase cmp key (l ++ e :: r) = (l ++ e :: r).eraseIdx l.length := by
        rw [LLRBNode.erase_cut_not_lt hsort (by simp [he]), Entries.erase_cons_eq he,
          Entries.erase_of_ne, List.eraseIdx_append_of_length_le (Nat.le_refl _)]
        · simp
        · intro f hf
          obtain ⟨-, -, -, habove, -⟩ := Entries.Sorted.cut_iff.mp hsort
          rw [TransCmp.lt_of_eq_of_lt he (habove f hf)]
          simp
      simp only [removeKey, hfind, entries]
      rw [herase]
      refine ⟨.array ?_, rfl⟩
      rw [← herase]
      exact hsort.erase key
    · subst heq
      simp only [removeKey, hfind, entries]
      refine ⟨h, (Entries.erase_of_ne ?_).symm⟩
      intro f hf
      rcases List.mem_append.mp hf with hf | hf
      · simp [hl f hf]
      · simp [hr f hf]

theorem fromDictionary_spec [TransCmp cmp] {dictionary : List (K × V)}
    (h : dictionary.Pairwise (fun e f => cmp e.1 f.1 ≠ .eq)) :
    ∃ d, fromDictionary cmp dictionary = some d ∧ Valid cmp d ∧ d.entries.Perm dictionary := by
  have hsort := TreeSortedDictionary.sorted_sortedKeyList h
  by_cases hsize : dictionary.length ≤ sortedDictionaryArrayToRBTreeSizeThreshold
  · refine ⟨_, ?_, .array hsort, TreeSortedDictionary.sortedKeyList_perm dictionary⟩
    simp only [fromDictionary, if_pos hsize, arrayFromDictionary,
      TreeSortedDictionary.ascending_iff.mpr hsort, ↓reduceIte]
  · obtain ⟨root, hroot, hbal, hlist⟩ := TreeSortedDictionary.fromDictionary_spec h
    refine ⟨tree root, ?_, .tree (by rw [hlist]; exact hsort) hbal, ?_⟩
    · simp only [fromDictionary, if_neg hsize, hroot, Option.map_some]
    · rw [entries, hlist]
      exact TreeSortedDictionary.sortedKeyList_perm dictionary

/-! ## Runs -/

inductive Update (K V : Type)
  | insert (key : K) (value : V)
  | remove (key : K)

/-- One call on the dictionary; `none` is the exception. -/
def update (cmp : K → K → Ordering) (d : SortedDictionary K V) :
    Update K V → Option (SortedDictionary K V)
  | .insert key value => d.insertKey cmp key value
  | .remove key => some (d.removeKey cmp key)

/-- What the same call does to a map from keys to values. -/
def written (cmp : K → K → Ordering) (m : K → Option V) (u : Update K V) (x : K) : Option V :=
  match u with
  | .insert key value => if cmp x key = .eq then some value else m x
  | .remove key => if cmp x key = .eq then none else m x

theorem update_spec [TransCmp cmp] {d : SortedDictionary K V} (h : Valid cmp d) (u : Update K V) :
    ∃ d', d.update cmp u = some d' ∧ Valid cmp d' ∧
      (fun x => d'.get cmp x) = written cmp (fun x => d.get cmp x) u := by
  cases u with
  | insert key value =>
    obtain ⟨d', pick, hd', hvalid, hpick, hentries⟩ := insertKey_spec key value h
    refine ⟨d', hd', hvalid, ?_⟩
    funext x
    rw [get_eq x hvalid, hentries, Entries.find_put hpick key x value h.sorted, written,
      get_eq x h]
  | remove key =>
    obtain ⟨hvalid, hentries⟩ := removeKey_spec key h
    refine ⟨_, rfl, hvalid, ?_⟩
    funext x
    rw [get_eq x hvalid, hentries, Entries.find_erase, written, get_eq x h]

theorem run_spec [TransCmp cmp] {d : SortedDictionary K V} (h : Valid cmp d)
    (us : List (Update K V)) :
    ∃ d', Runs.run (update cmp) d us = some d' ∧ Valid cmp d' ∧
      (fun x => d'.get cmp x) = us.foldl (written cmp) (fun x => d.get cmp x) := by
  induction us generalizing d with
  | nil => exact ⟨d, rfl, h, rfl⟩
  | cons u us ih =>
    obtain ⟨d₁, hd₁, hvalid₁, hget₁⟩ := update_spec h u
    obtain ⟨d₂, hd₂, hvalid₂, hget₂⟩ := ih hvalid₁
    refine ⟨d₂, ?_, hvalid₂, ?_⟩
    · simp only [Runs.run, hd₁, Option.bind_some, hd₂]
    · rw [hget₂, hget₁, List.foldl_cons]

theorem maxKey_eq_last (t : LLRBNode K V) : t.maxKey = t.toList.getLast?.map Prod.fst := by
  induction t with
  | empty => rfl
  | value c l k v r ihl ihr =>
    simp only [LLRBNode.maxKey, LLRBNode.toList]
    cases r with
    | empty => simp [LLRBNode.isEmpty, LLRBNode.toList]
    | value c' rl k' v' rr =>
      rw [if_neg (by simp [LLRBNode.isEmpty]), ihr, List.getLast?_append, List.getLast?_cons]
      cases hlast : (LLRBNode.value c' rl k' v' rr).toList.getLast? with
      | none => simp [LLRBNode.toList] at hlast
      | some e => simp

/-- A dictionary built out of keys that do not tie answers, after any calls, as the map that the
calls write to. Its keys are in strict order, and no call throws: not when the array turns into a
tree, and not one of the checks of the tree. -/
theorem dictionary_of_run [TransCmp cmp] {dictionary : List (K × V)}
    (h : dictionary.Pairwise (fun e f => cmp e.1 f.1 ≠ .eq)) (us : List (Update K V)) :
    ∃ start d, fromDictionary cmp dictionary = some start ∧ start.entries.Perm dictionary ∧
      Runs.run (update cmp) start us = some d ∧ d.checks ∧ Entries.Sorted cmp d.entries ∧
      (∀ x, d.get cmp x = us.foldl (written cmp) (fun x => start.get cmp x) x) ∧
      (∀ x, d.contains cmp x = (d.get cmp x).isSome) ∧ d.count = d.entries.length ∧
      d.minKey = d.entries.head?.map Prod.fst ∧ d.maxKey = d.entries.getLast?.map Prod.fst := by
  obtain ⟨start, hstart, hvalid, hperm⟩ := fromDictionary_spec h
  obtain ⟨d, hd, hvalid', hget⟩ := run_spec hvalid us
  refine ⟨start, d, hstart, hperm, hd, hvalid'.checks, hvalid'.sorted, fun x => congrFun hget x,
    fun x => contains_eq x hvalid', count_eq d, ?_, ?_⟩
  · cases d with
    | array es => rfl
    | tree root => simp only [minKey, LLRBNode.minKey, LLRBNode.min_eq_head, entries]
  · cases d with
    | array es => rfl
    | tree root => exact maxKey_eq_last root

/-- A full array, a call that makes a tree of it, and one that removes a key again. -/
theorem the_tree_of_twenty_six_numbers_checks :
    ∃ d, (fromDictionary compare ((List.range 25).map fun k => (k, k))).bind
        (fun start => Runs.run (update compare) start [.insert 25 0, .remove 3]) = some d ∧
      d.checks ∧ d.get compare 25 = some 0 ∧ d.get compare 3 = none := by
  have hkeys : ((List.range 25).map fun k => (k, k)).Pairwise
      (fun e f : Nat × Nat => compare e.1 f.1 ≠ .eq) := by decide
  obtain ⟨start, d, hstart, -, hrun, hchecks, -, hget, -⟩ :=
    dictionary_of_run hkeys [.insert 25 0, .remove 3]
  refine ⟨d, by rw [hstart, Option.bind_some, hrun], hchecks, ?_, ?_⟩
  · simp [hget, written]
  · simp [hget, written]

/-- The dictionaries that calls lead to. -/
def Reached (cmp : K → K → Ordering) (d : SortedDictionary K V) : Prop :=
  ∃ dictionary start us, fromDictionary cmp dictionary = some start ∧
    Runs.run (update cmp) start us = some d

theorem pairwise_of_fromDictionary [TransCmp cmp] {dictionary : List (K × V)}
    {d : SortedDictionary K V} (h : fromDictionary cmp dictionary = some d) :
    dictionary.Pairwise (fun e f => cmp e.1 f.1 ≠ .eq) := by
  by_contra hnot
  by_cases hsize : dictionary.length ≤ sortedDictionaryArrayToRBTreeSizeThreshold
  · have hasc : ¬ TreeSortedDictionary.ascending cmp
        (TreeSortedDictionary.sortedKeyList cmp dictionary) = true := by
      intro hasc
      have hnone := TreeSortedDictionary.fromDictionary_eq_none.mpr hnot
      simp [TreeSortedDictionary.fromDictionary, hasc] at hnone
    simp [fromDictionary, hsize, arrayFromDictionary, hasc] at h
  · rw [fromDictionary, if_neg hsize, TreeSortedDictionary.fromDictionary_eq_none.mpr hnot] at h
    cases h

theorem Reached.valid [TransCmp cmp] {d : SortedDictionary K V} (h : Reached cmp d) :
    Valid cmp d := by
  obtain ⟨dictionary, start, us, hstart, hrun⟩ := h
  obtain ⟨start', hstart', hvalid, -⟩ := fromDictionary_spec (pairwise_of_fromDictionary hstart)
  rw [hstart] at hstart'
  cases hstart'
  obtain ⟨d', hd', hvalid', -⟩ := run_spec hvalid us
  rw [hrun] at hd'
  cases hd'
  exact hvalid'

end SortedDictionary

end HateBlocker
