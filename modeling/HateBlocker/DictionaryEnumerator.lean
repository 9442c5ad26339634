-- Walking over the keys of a sorted dictionary: from the key before a given one, and
-- with an enumerator from a start key up or down. The array counts positions, the tree
-- keeps a stack of the nodes it has yet to answer.
import HateBlocker.SortedDictionary

open Std

namespace HateBlocker

variable {K V : Type}

namespace TreeSortedDictionaryEnumerator

/-- The nodes on the way down to the next key, the last one on top. -/
def pushNodes (isReverse : Bool) : LLRBNode K V → List (LLRBNode K V) → List (LLRBNode K V)
  | .empty, stack => stack
  | .value c l k v r, stack =>
    if isReverse then pushNodes isReverse r (.value c l k v r :: stack)
    else pushNodes isReverse l (.value c l k v r :: stack)

/-- The stack at the start. No start key compares as if it were below the node. -/
def initialStack (cmp : K → K → Ordering) (startKey : Option K) (isReverse : Bool) :
    LLRBNode K V → List (LLRBNode K V) → List (LLRBNode K V)
  | .empty, stack => stack
  | .value c l k v r, stack =>
    let result := match startKey with
      | some startKey => cmp k startKey
      | none => .gt
    match if isReverse then result.swap else result with
    | .lt =>
      if isReverse then initialStack cmp startKey isReverse l stack
      else initialStack cmp startKey isReverse r stack
    | .eq => .value c l k v r :: stack
    | .gt =>
      if isReverse then initialStack cmp startKey isReverse r (.value c l k v r :: stack)
      else initialStack cmp startKey isReverse l (.value c l k v r :: stack)

def nextObject (isReverse : Bool) : List (LLRBNode K V) → Option (K × List (LLRBNode K V))
  | .value _ l k _ r :: stack => some (k, pushNodes isReverse (if isReverse then l else r) stack)
  | _ => none

end TreeSortedDictionaryEnumerator

/-- An enumerator over the keys. -/
inductive Enumerator (K V : Type)
  | array (keys : List K) (pos : Int) (isReverse : Bool)
  | tree (stack : List (LLRBNode K V)) (isReverse : Bool)

namespace Enumerator

def nextObject : Enumerator K V → Option (K × Enumerator K V)
  | array keys pos isReverse =>
    if 0 ≤ pos ∧ pos < keys.length then
      keys[pos.toNat]?.map fun key =>
        (key, array keys (if isReverse then pos - 1 else pos + 1) isReverse)
    else none
  | tree stack isReverse =>
    (TreeSortedDictionaryEnumerator.nextObject isReverse stack).map fun next =>
      (next.1, tree next.2 isReverse)

/-- What the first `n` calls of `nextObject` answer. -/
def nextObjects : Nat → Enumerator K V → List K
  | 0, _ => []
  | n + 1, e =>
    match e.nextObject with
    | none => []
    | some (key, e') => key :: nextObjects n e'

end Enumerator

namespace SortedDictionary

open ArraySortedDictionary TreeSortedDictionaryEnumerator

variable (cmp : K → K → Ordering)

def keyEnumerator : SortedDictionary K V → Enumerator K V
  | array es => .array (es.map Prod.fst) 0 false
  | tree root => .tree (initialStack cmp none false root []) false

def keyEnumeratorFrom (startKey : K) : SortedDictionary K V → Enumerator K V
  | array es => .array (es.map Prod.fst) (findInsertPositionForKey cmp startKey es) false
  | tree root => .tree (initialStack cmp (some startKey) false root []) false

def reverseKeyEnumerator : SortedDictionary K V → Enumerator K V
  | array es => .array (es.map Prod.fst) (es.length - 1) true
  | tree root => .tree (initialStack cmp none true root []) true

def reverseKeyEnumeratorFrom (startKey : K) : SortedDictionary K V → Enumerator K V
  | array es =>
    let startPos := findInsertPositionForKey cmp startKey es
    -- The position is the one after the closest match, unless the match is exact.
    let exact := (es[startPos]?).any (fun e => cmp e.1 startKey = .eq)
    .array (es.map Prod.fst) (if exact then startPos else startPos - 1) true
  | tree root => .tree (initialStack cmp (some startKey) true root []) true

def keys (d : SortedDictionary K V) : List K := d.entries.map Prod.fst

end SortedDictionary

/-! ## What the stack has yet to answer -/

namespace TreeSortedDictionaryEnumerator

def remaining (isReverse : Bool) : List (LLRBNode K V) → List (K × V)
  | .value _ l k v r :: stack =>
    (k, v) :: ((if isReverse then l.toList.reverse else r.toList) ++ remaining isReverse stack)
  | _ => []

theorem remaining_pushNodes (isReverse : Bool) (t : LLRBNode K V) (stack : List (LLRBNode K V)) :
    remaining isReverse (pushNodes isReverse t stack) =
      (if isReverse then t.toList.reverse else t.toList) ++ remaining isReverse stack := by
  induction t generalizing stack with
  | empty => simp [pushNodes, LLRBNode.toList]
  | value c l k v r ihl ihr =>
    cases isReverse with
    | true => simp [pushNodes, ihr, remaining, LLRBNode.toList]
    | false => simp [pushNodes, ihl, remaining, LLRBNode.toList]

theorem remaining_nextObject (isReverse : Bool) (stack : List (LLRBNode K V)) :
    (remaining isReverse stack).map Prod.fst =
      match nextObject isReverse stack with
      | none => []
      | some (k, stack') => k :: (remaining isReverse stack').map Prod.fst := by
  rcases stack with _ | ⟨_ | ⟨c, l, k, v, r⟩, stack⟩
  · rfl
  · rfl
  · simp only [remaining, nextObject, remaining_pushNodes]
    cases isReverse <;> rfl

theorem remaining_initialStack (cmp : K → K → Ordering) (t : LLRBNode K V)
    (stack : List (LLRBNode K V)) :
    remaining false (initialStack cmp none false t stack) = t.toList ++ remaining false stack := by
  induction t generalizing stack with
  | empty => rfl
  | value c l k v r ihl ihr => simp [initialStack, ihl, remaining, LLRBNode.toList]

/-- Without a start key the way down in reverse passes by every node. -/
theorem initialStack_reverse (cmp : K → K → Ordering) (t : LLRBNode K V)
    (stack : List (LLRBNode K V)) : initialStack cmp none true t stack = stack := by
  induction t generalizing stack with
  | empty => rfl
  | value c l k v r ihl ihr => simp [initialStack, ihl]

variable {cmp : K → K → Ordering} [TransCmp cmp]

theorem remaining_initialStack_from (startKey : K) {t : LLRBNode K V}
    (h : Entries.Sorted cmp t.toList) (stack : List (LLRBNode K V)) :
    remaining false (initialStack cmp (some startKey) false t stack) =
      Entries.onwards cmp startKey t.toList ++ remaining false stack := by
  induction t generalizing stack with
  | empty => rfl
  | value c l k v r ihl ihr =>
    obtain ⟨hl, hr, -, -, -⟩ := Entries.Sorted.cut_iff.mp h
    rw [LLRBNode.toList, Entries.onwards_cut h]
    cases hk : cmp k startKey with
    | lt => simp [initialStack, hk, ihr hr]
    | eq => simp [initialStack, hk, remaining]
    | gt => simp [initialStack, hk, ihl hl, remaining]

theorem remaining_initialStack_reverseFrom (startKey : K) {t : LLRBNode K V}
    (h : Entries.Sorted cmp t.toList) (stack : List (LLRBNode K V)) :
    remaining true (initialStack cmp (some startKey) true t stack) =
      (Entries.upTo cmp startKey t.toList).reverse ++ remaining true stack := by
  induction t generalizing stack with
  | empty => rfl
  | value c l k v r ihl ihr =>
    obtain ⟨hl, hr, -, -, -⟩ := Entries.Sorted.cut_iff.mp h
    rw [LLRBNode.toList, Entries.upTo_cut h]
    cases hk : cmp k startKey with
    | lt => simp [initialStack, hk, ihr hr, remaining]
    | eq => simp [initialStack, hk, remaining]
    | gt => simp [initialStack, hk, ihl hl]

end TreeSortedDictionaryEnumerator

/-! ## What an enumerator answers -/

namespace Enumerator

/-- The keys that are left. An array enumerator stands on one of its keys or next to them. -/
def remaining : Enumerator K V → List K
  | array keys pos isReverse =>
    if isReverse then (keys.take (pos + 1).toNat).reverse else keys.drop pos.toNat
  | tree stack isReverse =>
    (TreeSortedDictionaryEnumerator.remaining isReverse stack).map Prod.fst

def Standing : Enumerator K V → Prop
  | array keys pos isReverse => if isReverse then -1 ≤ pos ∧ pos < keys.length else 0 ≤ pos
  | tree _ _ => True

theorem remaining_nextObject {e : Enumerator K V} (h : e.Standing) :
    (e.nextObject = none ∧ e.remaining = []) ∨
      ∃ key e', e.nextObject = some (key, e') ∧ e'.Standing ∧
        e.remaining = key :: e'.remaining := by
  cases e with
  | tree stack isReverse =>
    have hnext := TreeSortedDictionaryEnumerator.remaining_nextObject isReverse stack
    cases hn : TreeSortedDictionaryEnumerator.nextObject isReverse stack with
    | none =>
      rw [hn] at hnext
      exact Or.inl ⟨by simp [nextObject, hn], hnext⟩
    | some next =>
      rw [hn] at hnext
      exact Or.inr ⟨next.1, tree next.2 isReverse, by simp [nextObject, hn], trivial, hnext⟩
  | array keys pos isReverse =>
    by_cases hin : 0 ≤ pos ∧ pos < keys.length
    · obtain ⟨p, rfl⟩ := Int.eq_ofNat_of_zero_le hin.1
      have hp : p < keys.length := by omega
      refine Or.inr ⟨keys[p], array keys (if isReverse then (p : Int) - 1 else p + 1) isReverse,
        ?_, ?_, ?_⟩
      · simp [nextObject, hp]
      · cases isReverse with
        | true =>
          simp only [Standing, ↓reduceIte]
          omega
        | false =>
          simp only [Standing, Bool.false_eq_true, ↓reduceIte]
          omega
      · cases isReverse with
        | true =>
          have h1 : ((p : Int) + 1).toNat = p + 1 := by omega
          have h2 : ((p : Int) - 1 + 1).toNat = p := by omega
          simp only [remaining, ↓reduceIte, h1, h2, List.take_succ_eq_append_getElem hp]
          simp
        | false =>
          have h2 : ((p : Int) + 1).toNat = p + 1 := by omega
          simp only [remaining, Bool.false_eq_true, ↓reduceIte, Int.toNat_natCast, h2]
          exact List.drop_eq_getElem_cons hp
    · refine Or.inl ⟨by simp only [nextObject, if_neg hin], ?_⟩
      cases isReverse with
      | true =>
        simp only [Standing, ↓reduceIte] at h
        have h0 : (pos + 1).toNat = 0 := by omega
        simp [remaining, h0]
      | false =>
        simp only [Standing, Bool.false_eq_true, ↓reduceIte] at h
        simp only [remaining, Bool.false_eq_true, ↓reduceIte]
        exact List.drop_of_length_le (by omega)

theorem nextObjects_eq (n : Nat) {e : Enumerator K V} (h : e.Standing) :
    e.nextObjects n = e.remaining.take n := by
  induction n generalizing e with
  | zero => simp [nextObjects]
  | succ n ih =>
    rcases remaining_nextObject h with ⟨hnone, hrem⟩ | ⟨key, e', hsome, hstand, hrem⟩
    · simp [nextObjects, hnone, hrem]
    · simp [nextObjects, hsome, hrem, ih hstand]

end Enumerator

namespace SortedDictionary

open ArraySortedDictionary

variable {cmp : K → K → Ordering}

theorem findInsertPosition_le (cmp : K → K → Ordering) (startKey : K) (es : List (K × V)) :
    findInsertPositionForKey cmp startKey es ≤ es.length := by
  induction es with
  | nil => simp [findInsertPositionForKey]
  | cons e es ih =>
    simp only [findInsertPositionForKey, List.length_cons]
    split
    · omega
    · omega

theorem keyEnumerator_remaining (cmp : K → K → Ordering) (d : SortedDictionary K V) :
    (d.keyEnumerator cmp).Standing ∧ (d.keyEnumerator cmp).remaining = d.keys := by
  cases d with
  | array es => simp [keyEnumerator, Enumerator.Standing, Enumerator.remaining, keys, entries]
  | tree root =>
    refine ⟨trivial, ?_⟩
    simp only [keyEnumerator, Enumerator.remaining, keys, entries,
      TreeSortedDictionaryEnumerator.remaining_initialStack]
    simp [TreeSortedDictionaryEnumerator.remaining]

variable [TransCmp cmp]

/-- The keys from a start key on stand at its insert position. -/
theorem drop_findInsertPosition (startKey : K) {es : List (K × V)} (h : Entries.Sorted cmp es) :
    es.drop (findInsertPositionForKey cmp startKey es) = Entries.onwards cmp startKey es := by
  induction es with
  | nil => rfl
  | cons e es ih =>
    obtain ⟨-, htail⟩ := Entries.Sorted.cons_iff.mp h
    rw [← List.nil_append (e :: es)] at h
    have hcut := Entries.onwards_cut (k := startKey) h
    rw [List.nil_append] at hcut
    rw [hcut]
    cases hk : cmp e.1 startKey with
    | lt => simp [findInsertPositionForKey, hk, ih htail]
    | eq => simp [findInsertPositionForKey, hk]
    | gt => simp [findInsertPositionForKey, hk, Entries.onwards]

/-- The keys up to a start key end there, or just before where there is no exact match. -/
theorem take_findInsertPosition (startKey : K) {es : List (K × V)} (h : Entries.Sorted cmp es) :
    es.take (findInsertPositionForKey cmp startKey es +
      (if (es[findInsertPositionForKey cmp startKey es]?).any (fun e => cmp e.1 startKey = .eq)
        then 1 else 0)) = Entries.upTo cmp startKey es := by
  induction es with
  | nil => rfl
  | cons e es ih =>
    obtain ⟨-, htail⟩ := Entries.Sorted.cons_iff.mp h
    rw [← List.nil_append (e :: es)] at h
    have hcut := Entries.upTo_cut (k := startKey) h
    rw [List.nil_append, List.nil_append] at hcut
    rw [hcut]
    cases hk : cmp e.1 startKey with
    | lt =>
      have ih' := ih htail
      simp only [findInsertPositionForKey, hk, ↓reduceIte, List.getElem?_cons_succ]
      rw [Nat.add_right_comm, List.take_succ_cons, ih']
    | eq => simp [findInsertPositionForKey, hk]
    | gt => simp [findInsertPositionForKey, hk, Entries.upTo]

theorem keyEnumeratorFrom_remaining (startKey : K) {d : SortedDictionary K V} (h : Valid cmp d) :
    (d.keyEnumeratorFrom cmp startKey).Standing ∧
      (d.keyEnumeratorFrom cmp startKey).remaining =
        (Entries.onwards cmp startKey d.entries).map Prod.fst := by
  cases d with
  | array es =>
    refine ⟨by simp [keyEnumeratorFrom, Enumerator.Standing], ?_⟩
    simp only [keyEnumeratorFrom, Enumerator.remaining, Bool.false_eq_true, ↓reduceIte,
      Int.toNat_natCast, ← List.map_drop, entries]
    rw [drop_findInsertPosition startKey (show Entries.Sorted cmp es from h.sorted)]
  | tree root =>
    refine ⟨trivial, ?_⟩
    simp only [keyEnumeratorFrom, Enumerator.remaining, entries,
      TreeSortedDictionaryEnumerator.remaining_initialStack_from startKey h.sorted]
    simp [TreeSortedDictionaryEnumerator.remaining]

theorem reverseKeyEnumeratorFrom_remaining (startKey : K) {d : SortedDictionary K V}
    (h : Valid cmp d) :
    (d.reverseKeyEnumeratorFrom cmp startKey).Standing ∧
      (d.reverseKeyEnumeratorFrom cmp startKey).remaining =
        ((Entries.upTo cmp startKey d.entries).map Prod.fst).reverse := by
  cases d with
  | array es =>
    have htake := take_findInsertPosition startKey h.sorted
    have hle := findInsertPosition_le cmp startKey es
    simp only [entries] at htake ⊢
    simp only [reverseKeyEnumeratorFrom, Enumerator.remaining, Enumerator.Standing, ↓reduceIte,
      List.length_map]
    by_cases hexact : (es[findInsertPositionForKey cmp startKey es]?).any
        (fun e => cmp e.1 startKey = .eq)
    · have hlt : findInsertPositionForKey cmp startKey es < es.length := by
        by_contra hnot
        rw [List.getElem?_eq_none (by omega)] at hexact
        simp at hexact
      simp only [hexact, ↓reduceIte] at htake ⊢
      refine ⟨by omega, ?_⟩
      rw [← htake, List.map_take]
      congr 2
    · simp only [hexact, Bool.false_eq_true, ↓reduceIte, Nat.add_zero] at htake ⊢
      refine ⟨by omega, ?_⟩
      rw [← htake, List.map_take]
      congr 2
      omega
  | tree root =>
    refine ⟨trivial, ?_⟩
    simp only [reverseKeyEnumeratorFrom, Enumerator.remaining, entries,
      TreeSortedDictionaryEnumerator.remaining_initialStack_reverseFrom startKey h.sorted]
    simp [TreeSortedDictionaryEnumerator.remaining]

/-- Two keys put in, the higher one first. -/
theorem reached_two : Reached compare (array [(1, 'b'), (2, 'a')]) :=
  ⟨[], array [], [.insert 2 'a', .insert 1 'b'], by
    simp [fromDictionary, arrayFromDictionary, TreeSortedDictionary.sortedKeyList,
      TreeSortedDictionary.ascending, sortedDictionaryArrayToRBTreeSizeThreshold], rfl⟩

/-- Any number of calls on an enumerator answers the keys on its side of the start key, in its
direction. The exception is the enumerator of a tree in reverse without a start key. -/
theorem nextObjects_of_reached {d : SortedDictionary K V} (h : Reached cmp d) (n : Nat) :
    (d.keyEnumerator cmp).nextObjects n = d.keys.take n ∧
    (∀ startKey, (d.keyEnumeratorFrom cmp startKey).nextObjects n =
      ((Entries.onwards cmp startKey d.entries).map Prod.fst).take n) ∧
    (∀ startKey, (d.reverseKeyEnumeratorFrom cmp startKey).nextObjects n =
      ((Entries.upTo cmp startKey d.entries).map Prod.fst).reverse.take n) ∧
    (∀ es, d = array es → (d.reverseKeyEnumerator cmp).nextObjects n = d.keys.reverse.take n) ∧
    (∀ root, d = tree root → (d.reverseKeyEnumerator cmp).nextObjects n = []) := by
  have hvalid := h.valid
  refine ⟨?_, ?_, ?_, ?_, ?_⟩
  · obtain ⟨hstand, hrem⟩ := keyEnumerator_remaining cmp d
    rw [Enumerator.nextObjects_eq n hstand, hrem]
  · intro startKey
    obtain ⟨hstand, hrem⟩ := keyEnumeratorFrom_remaining startKey hvalid
    rw [Enumerator.nextObjects_eq n hstand, hrem]
  · intro startKey
    obtain ⟨hstand, hrem⟩ := reverseKeyEnumeratorFrom_remaining startKey hvalid
    rw [Enumerator.nextObjects_eq n hstand, hrem]
  · rintro es rfl
    have hstand : ((array es : SortedDictionary K V).reverseKeyEnumerator cmp).Standing := by
      simp only [reverseKeyEnumerator, Enumerator.Standing, ↓reduceIte, List.length_map]
      omega
    rw [Enumerator.nextObjects_eq n hstand]
    have hlen : ((es.length : Int) - 1 + 1).toNat = es.length := by omega
    simp only [reverseKeyEnumerator, Enumerator.remaining, ↓reduceIte, hlen, keys, entries]
    rw [List.take_of_length_le (i := es.length) (by simp)]
  · rintro root rfl
    rw [reverseKeyEnumerator, TreeSortedDictionaryEnumerator.initialStack_reverse]
    cases n <;> rfl

theorem two_keys_in_reverse :
    ((array [(1, 'b'), (2, 'a')]).reverseKeyEnumerator compare).nextObjects 5 = [2, 1] := by
  obtain ⟨-, -, -, harray, -⟩ := nextObjects_of_reached reached_two 5
  rw [harray _ rfl]
  decide

/-! ## The key before a key -/

theorem tree_getPredecessorKey (key : K) (rightParent : Option K) {t : LLRBNode K V}
    (h : Entries.Sorted cmp t.toList) :
    TreeSortedDictionary.getPredecessorKey cmp key rightParent t =
      if (Entries.find cmp key t.toList).isSome then
        some (((Entries.below cmp key t.toList).getLast?.map Prod.fst).or rightParent)
      else none := by
  induction t generalizing rightParent with
  | empty => rfl
  | value c l k v r ihl ihr =>
    obtain ⟨hl, hr, -, -, -⟩ := Entries.Sorted.cut_iff.mp h
    rw [LLRBNode.toList, Entries.find_cut h, Entries.below_cut h,
      TreeSortedDictionary.getPredecessorKey]
    cases hk : cmp key k with
    | lt => exact ihl rightParent hl
    | eq =>
      simp only [Option.isSome_some, ↓reduceIte, maxKey_eq_last]
      cases l with
      | empty => simp [LLRBNode.isEmpty, LLRBNode.toList]
      | value c' ll k' v' lr =>
        rw [if_neg (by simp [LLRBNode.isEmpty])]
        cases hlast : (LLRBNode.value c' ll k' v' lr).toList.getLast? with
        | none => simp [LLRBNode.toList] at hlast
        | some e => simp
    | gt =>
      simp only [ihr (some k) hr]
      split
      · rw [List.getLast?_append, List.getLast?_cons]
        cases (Entries.below cmp key r.toList).getLast? <;> simp
      · rfl

/-- The key before a key of the dictionary, the same in an array as in a tree; any other key
throws. -/
theorem getPredecessorKey_of_reached {d : SortedDictionary K V} (h : Reached cmp d) (key : K) :
    d.getPredecessorKey cmp key =
      if d.contains cmp key then some ((Entries.below cmp key d.entries).getLast?.map Prod.fst)
      else none := by
  have hvalid := h.valid
  cases d with
  | tree root =>
    rw [contains_eq key hvalid, get_eq key hvalid, getPredecessorKey, entries,
      tree_getPredecessorKey key none hvalid.sorted, Option.or_none]
  | array es =>
    have hsort : Entries.Sorted cmp es := hvalid.sorted
    rcases findKey_cases key hsort with
      ⟨l, e, r, heq, hl, he, hfind⟩ | ⟨l, r, -, -, -, hfind, -⟩
    · subst heq
      simp only [getPredecessorKey, contains, hfind, Option.isSome_some, ↓reduceIte, entries]
      rw [Entries.below_cut hsort]
      simp only [he]
      rcases List.eq_nil_or_concat l with rfl | ⟨l', f, rfl⟩
      · simp
      · simp
    · simp [getPredecessorKey, contains, hfind]

theorem the_predecessor_of_two_is_one :
    (array [(1, 'b'), (2, 'a')]).getPredecessorKey compare 2 = some (some 1) := by
  rw [getPredecessorKey_of_reached reached_two 2]
  decide

end SortedDictionary

end HateBlocker
