-- The tree that a sorted dictionary starts from when it is built out of many keys at
-- once. The number of keys plus one, read in binary, says how many chunks of each power
-- of two there are: a one stands for two of them, a black one above a red one.
import HateBlocker.LLRBRemove
import Mathlib.Data.Nat.Bitwise
import Mathlib.Data.List.Sort
import Mathlib.Data.List.Perm.Basic

open Std

namespace HateBlocker

namespace TreeSortedDictionary

variable {K V : Type}

/-- `keys` holds every key with its value. Out of range means no node; the chunks never are. -/
def buildBalancedTree (keys : List (K × V)) (startIndex length : Nat) : LLRBNode K V :=
  let length := min (keys.length - startIndex) length
  if _h : length = 0 then .empty
  else if length = 1 then
    match keys[startIndex]? with
    | none => .empty
    | some e => .value .black .empty e.1 e.2 .empty
  else
    let middle := length / 2
    match keys[startIndex + middle]? with
    | none => .empty
    | some e =>
      .value .black (buildBalancedTree keys startIndex middle) e.1 e.2
        (buildBalancedTree keys (startIndex + middle + 1) middle)
termination_by length
decreasing_by
  all_goals omega

/-- A chunk: its first key, the balanced tree of its other keys on the right, and the chunks before
it on the left. -/
def pennant (keys : List (K × V)) (color : Color) (chunkSize index : Nat)
    (before : Nat → LLRBNode K V) : LLRBNode K V :=
  match keys[index - chunkSize]? with
  | none => .empty
  | some e => .value color (before (index - chunkSize)) e.1 e.2
      (buildBalancedTree keys (index - chunkSize + 1) (chunkSize - 1))

/-- `digits` of the binary number `bits` are left, and the keys before `index`. -/
def rootFrom12List (keys : List (K × V)) (bits : Nat) : (digits index : Nat) → LLRBNode K V
  | 0, _ => .empty
  | digits + 1, index =>
    if bits.testBit digits then
      pennant keys .black (2 ^ digits) index
        (fun index => pennant keys .red (2 ^ digits) index (rootFrom12List keys bits digits))
    else pennant keys .black (2 ^ digits) index (rootFrom12List keys bits digits)

variable (cmp : K → K → Ordering)

/-- No key ties with the one before it. -/
def ascending : List (K × V) → Bool
  | e :: f :: es => cmp e.1 f.1 = .lt && ascending (f :: es)
  | _ => true

def sortedKeyList (dictionary : List (K × V)) : List (K × V) :=
  dictionary.mergeSort (fun e f => (cmp e.1 f.1).isLE)

/-- The tree of a dictionary, given as a list of its entries in any order; `none` stands for the
exception about keys with the same ordering. -/
def fromDictionary (dictionary : List (K × V)) : Option (LLRBNode K V) :=
  let keys := sortedKeyList cmp dictionary
  if ascending cmp keys then
    let count := (keys.length + 1).log2
    some (rootFrom12List keys ((keys.length + 1) % 2 ^ count) count keys.length)
  else none

/-! ## Sorting -/

variable {cmp}

theorem ascending_iff [TransCmp cmp] {es : List (K × V)} :
    ascending cmp es = true ↔ Entries.Sorted cmp es := by
  induction es with
  | nil => simp [ascending]
  | cons e es ih =>
    cases es with
    | nil => simp [ascending, Entries.Sorted]
    | cons f es =>
      simp only [ascending, Bool.and_eq_true, decide_eq_true_eq, ih]
      rw [Entries.Sorted.cons_iff (e := e)]
      constructor
      · rintro ⟨hef, hsort⟩
        refine ⟨?_, hsort⟩
        intro g hg
        rcases List.mem_cons.mp hg with rfl | hg
        · exact hef
        · exact TransCmp.lt_trans hef ((Entries.Sorted.cons_iff.mp hsort).1 g hg)
      · rintro ⟨hall, hsort⟩
        exact ⟨hall f (by simp), hsort⟩

theorem sortedKeyList_perm (dictionary : List (K × V)) :
    (sortedKeyList cmp dictionary).Perm dictionary :=
  List.mergeSort_perm _ _

theorem sortedKeyList_pairwise [TransCmp cmp] (dictionary : List (K × V)) :
    (sortedKeyList cmp dictionary).Pairwise (fun e f => (cmp e.1 f.1).isLE) := by
  apply List.pairwise_mergeSort
  · intro a b c hab hbc
    exact TransCmp.isLE_trans hab hbc
  · intro a b
    rw [show cmp b.1 a.1 = (cmp a.1 b.1).swap from OrientedCmp.eq_swap]
    cases cmp a.1 b.1 <;> rfl

/-- The sorted list is in strict order when no two of the keys tie. -/
theorem sorted_sortedKeyList [TransCmp cmp] {dictionary : List (K × V)}
    (h : dictionary.Pairwise (fun e f => cmp e.1 f.1 ≠ .eq)) :
    Entries.Sorted cmp (sortedKeyList cmp dictionary) := by
  have hne : (sortedKeyList cmp dictionary).Pairwise (fun e f => cmp e.1 f.1 ≠ .eq) := by
    refine ((sortedKeyList_perm dictionary).pairwise_iff ?_).mpr h
    intro a b hab hba
    exact hab (OrientedCmp.eq_symm hba)
  refine ((sortedKeyList_pairwise dictionary).and hne).imp ?_
  rintro a b ⟨hle, hne⟩
  cases hc : cmp a.1 b.1 with
  | lt => rfl
  | eq => exact absurd hc hne
  | gt => simp [hc] at hle

/-! ## Building -/

/-- A run of `2 ^ j - 1` keys makes a tree with black nodes only. -/
theorem buildBalancedTree_spec (keys : List (K × V)) (j : Nat) {s : Nat}
    (h : s + (2 ^ j - 1) ≤ keys.length) :
    (buildBalancedTree keys s (2 ^ j - 1)).Balanced .black j ∧
      (buildBalancedTree keys s (2 ^ j - 1)).toList = (keys.drop s).take (2 ^ j - 1) := by
  induction j generalizing s with
  | zero =>
    rw [buildBalancedTree]
    simp only [pow_zero, Nat.sub_self, Nat.min_zero, ↓reduceDIte, List.take_zero]
    exact ⟨.empty, rfl⟩
  | succ j ih =>
    have hpow : 2 ^ (j + 1) = 2 * 2 ^ j := by rw [pow_succ, Nat.mul_comm]
    have hpos : 0 < 2 ^ j := Nat.two_pow_pos j
    have hlen : min (keys.length - s) (2 ^ (j + 1) - 1) = 2 ^ (j + 1) - 1 := by omega
    have hmid : s + (2 ^ j - 1) < keys.length := by omega
    rw [buildBalancedTree]
    simp only [hlen]
    rw [dif_neg (by omega)]
    by_cases hone : 2 ^ (j + 1) - 1 = 1
    · have hj : j = 0 := by
        by_contra hj
        have h2 : 2 ≤ 2 ^ j := Nat.le_self_pow hj 2
        omega
      subst hj
      have hs : s < keys.length := by simpa using hmid
      rw [if_pos hone, List.getElem?_eq_getElem hs]
      refine ⟨.black .empty .empty, ?_⟩
      rw [List.drop_eq_getElem_cons hs]
      rfl
    · rw [if_neg hone]
      have hhalf : (2 ^ (j + 1) - 1) / 2 = 2 ^ j - 1 := by omega
      rw [hhalf, List.getElem?_eq_getElem hmid]
      obtain ⟨hleft, hlistl⟩ := ih (s := s) (by omega)
      obtain ⟨hright, hlistr⟩ := ih (s := s + (2 ^ j - 1) + 1) (by omega)
      refine ⟨.black hleft hright, ?_⟩
      have hsplit : 2 ^ (j + 1) - 1 = (2 ^ j - 1) + ((2 ^ j - 1) + 1) := by omega
      simp only [LLRBNode.toList, hlistl, hlistr]
      rw [hsplit, List.take_add, List.drop_drop]
      congr 1
      rw [List.drop_eq_getElem_cons hmid, List.take_succ_cons]

/-- A chunk of `2 ^ j` keys under the chunks before it. -/
theorem pennant_spec {keys : List (K × V)} (c : Color) (j index : Nat) (before : Nat → LLRBNode K V)
    (hsize : 2 ^ j ≤ index) (hindex : index ≤ keys.length)
    (hbefore : (before (index - 2 ^ j)).toList = keys.take (index - 2 ^ j)) :
    (pennant keys c (2 ^ j) index before).toList = keys.take index ∧
      ∃ k v r, pennant keys c (2 ^ j) index before = .value c (before (index - 2 ^ j)) k v r ∧
        r.Balanced .black j := by
  have hpos : 0 < 2 ^ j := Nat.two_pow_pos j
  have hlt : index - 2 ^ j < keys.length := by omega
  obtain ⟨hbal, hlist⟩ := buildBalancedTree_spec keys j (s := index - 2 ^ j + 1) (by omega)
  unfold pennant
  rw [List.getElem?_eq_getElem hlt]
  refine ⟨?_, _, _, _, rfl, hbal⟩
  simp only [LLRBNode.toList, hbefore, hlist]
  have hsplit : index = (index - 2 ^ j) + ((2 ^ j - 1) + 1) := by omega
  conv_rhs => rw [hsplit, List.take_add, List.drop_eq_getElem_cons hlt, List.take_succ_cons]

/-- What the remaining digits stand for. -/
theorem rootFrom12List_spec {keys : List (K × V)} (bits digits index : Nat)
    (hindex : index = 2 ^ digits - 1 + bits % 2 ^ digits) (h : index ≤ keys.length) :
    (rootFrom12List keys bits digits index).Balanced .black digits ∧
      (rootFrom12List keys bits digits index).toList = keys.take index := by
  induction digits generalizing index with
  | zero =>
    obtain rfl : index = 0 := by simpa [Nat.mod_one] using hindex
    exact ⟨.empty, rfl⟩
  | succ j ih =>
    have hpow : 2 ^ (j + 1) = 2 * 2 ^ j := by rw [pow_succ, Nat.mul_comm]
    have hpos : 0 < 2 ^ j := Nat.two_pow_pos j
    have hmod : bits % 2 ^ (j + 1) = bits % 2 ^ j + 2 ^ j * (bits.testBit j).toNat := by
      rw [Nat.mod_pow_succ, Nat.toNat_testBit]
    rw [rootFrom12List]
    by_cases hbit : bits.testBit j
    · -- Two chunks: the red one is met second and hangs below the black one.
      rw [if_pos hbit]
      simp only [hbit, Bool.toNat_true, mul_one] at hmod
      obtain ⟨hbal, hlist⟩ := ih (index - 2 ^ j - 2 ^ j) (by omega) (by omega)
      obtain ⟨hlistRed, k, v, r, hred, hr⟩ := pennant_spec .red j (index - 2 ^ j)
        (rootFrom12List keys bits j) (by omega) (by omega) hlist
      obtain ⟨hlistBlack, k', v', r', hblack, hr'⟩ := pennant_spec .black j index (fun index => pennant keys .red (2 ^ j) index
          (rootFrom12List keys bits j)) (by omega) h hlistRed
      refine ⟨?_, hlistBlack⟩
      rw [hblack, hred]
      exact .black (.red hbal hr) hr'
    · rw [if_neg hbit]
      simp only [hbit, Bool.toNat_false, mul_zero, add_zero] at hmod
      obtain ⟨hbal, hlist⟩ := ih (index - 2 ^ j) (by omega) (by omega)
      obtain ⟨hlistBlack, k', v', r', hblack, hr'⟩ := pennant_spec .black j index
        (rootFrom12List keys bits j) (by omega) h hlist
      refine ⟨?_, hlistBlack⟩
      rw [hblack]
      exact .black hbal hr'

/-- The whole tree. -/
theorem rootFrom12List_all (keys : List (K × V)) :
    (rootFrom12List keys ((keys.length + 1) % 2 ^ (keys.length + 1).log2) (keys.length + 1).log2
        keys.length).Balanced .black (keys.length + 1).log2 ∧
      (rootFrom12List keys ((keys.length + 1) % 2 ^ (keys.length + 1).log2)
        (keys.length + 1).log2 keys.length).toList = keys := by
  have hle : 2 ^ (keys.length + 1).log2 ≤ keys.length + 1 := Nat.log2_self_le (by omega)
  have hlt : keys.length + 1 < 2 ^ ((keys.length + 1).log2 + 1) := Nat.lt_log2_self
  have hpow : 2 ^ ((keys.length + 1).log2 + 1) = 2 * 2 ^ (keys.length + 1).log2 := by
    rw [pow_succ, Nat.mul_comm]
  have hmod : (keys.length + 1) % 2 ^ (keys.length + 1).log2 =
      keys.length + 1 - 2 ^ (keys.length + 1).log2 := by
    rw [Nat.mod_eq_sub_mod hle, Nat.mod_eq_of_lt (by omega)]
  obtain ⟨hbal, hlist⟩ := rootFrom12List_spec
    ((keys.length + 1) % 2 ^ (keys.length + 1).log2) (keys.length + 1).log2
    keys.length (by rw [Nat.mod_mod, hmod]; omega) (Nat.le_refl _)
  refine ⟨hbal, ?_⟩
  rw [hlist, List.take_length]

/-- A tree of many keys is built unless two of them tie. -/
theorem fromDictionary_spec [TransCmp cmp] {dictionary : List (K × V)}
    (h : dictionary.Pairwise (fun e f => cmp e.1 f.1 ≠ .eq)) :
    ∃ root, fromDictionary cmp dictionary = some root ∧ (∃ n, root.Balanced .black n) ∧
      root.toList = sortedKeyList cmp dictionary := by
  have hsort : ascending cmp (sortedKeyList cmp dictionary) = true :=
    ascending_iff.mpr (sorted_sortedKeyList h)
  obtain ⟨hbal, hlist⟩ := rootFrom12List_all (sortedKeyList cmp dictionary)
  refine ⟨_, ?_, ⟨_, hbal⟩, hlist⟩
  rw [fromDictionary]
  simp only [hsort, ↓reduceIte]

theorem fromDictionary_eq_none [TransCmp cmp] {dictionary : List (K × V)} :
    fromDictionary cmp dictionary = none ↔
      ¬ dictionary.Pairwise (fun e f => cmp e.1 f.1 ≠ .eq) := by
  constructor
  · intro hnone h
    obtain ⟨root, hroot, -⟩ := fromDictionary_spec h
    rw [hnone] at hroot
    cases hroot
  · intro h
    have hnot : ascending cmp (sortedKeyList cmp dictionary) = false := by
      refine Bool.eq_false_iff.mpr fun hasc => h ?_
      have hsort := ascending_iff.mp hasc
      refine ((sortedKeyList_perm dictionary).pairwise_iff ?_).mp (hsort.imp ?_)
      · intro a b hab hba
        exact hab (OrientedCmp.eq_symm hba)
      · intro a b hlt
        simp [hlt]
    rw [fromDictionary]
    simp only [hnot]
    simp

theorem a_key_twice_throws : fromDictionary compare [(1, 'a'), (2, 'b'), (1, 'c')] = none :=
  fromDictionary_eq_none.mpr (by decide)

end TreeSortedDictionary

end HateBlocker
