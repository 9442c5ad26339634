-- The order of the keys under a node: whole numbers of 32 bits first, by value and then
-- by length, and the other names character by character.
import Mathlib.Data.List.Basic
import Mathlib.Tactic.Ring
import Mathlib.Tactic.Linarith

open Std

namespace HateBlocker

/-- A string as its UTF-16 characters. -/
abbrev Unichars := List UInt16

def unichar (c : Char) : UInt16 := UInt16.ofNat c.toNat

/-- A key. The two names at the ends are told by their address, so no string is one of them. -/
inductive Name
  | minName
  | maxName
  | string (characters : Unichars)
  deriving DecidableEq, Repr

namespace FUtilities

/-- The loop of `tryParseStringToInt` over the digits. -/
def parseDigits (value : Int) : Unichars → Option Int
  | [] => some value
  | c :: cs =>
    if c < unichar '0' ∨ unichar '9' < c then none
    else parseDigits (value * 10 + (c.toNat - (unichar '0').toNat : Nat)) cs

def int32Min : Int := -2147483648

def int32Max : Int := 2147483647

def tryParseStringToInt (str : Unichars) : Option Int :=
  match str with
  | [] => none
  | c :: cs =>
    if str.length > 11 then none
    else
      let parsed :=
        if c = unichar '-' then
          if cs = [] then none else (parseDigits 0 cs).map (fun value => -value)
        else parseDigits 0 str
      parsed.bind (fun value => if value < int32Min ∨ int32Max < value then none else some value)

/-- Two strings of which neither is `minName` or `maxName`. -/
def compareStrings (a b : Unichars) : Ordering :=
  match tryParseStringToInt a, tryParseStringToInt b with
  | some aAsInt, some bAsInt =>
    if aAsInt > bAsInt then .gt
    else if aAsInt < bAsInt then .lt
    else if a.length > b.length then .gt
    else if a.length < b.length then .lt
    else .eq
  | some _, none => .lt
  | none, some _ => .gt
  | none, none => compare a b

/-- One string has one address at most here: two that are equal compare the same below, too. -/
def compareKey (a b : Name) : Ordering :=
  if a = b then .eq
  else if a = .minName ∨ b = .maxName then .lt
  else if b = .minName ∨ a = .maxName then .gt
  else
    match a, b with
    | .string a, .string b => compareStrings a b
    | _, _ => .eq

/-! ## A total order but for zeros -/

/-- Where a key stands among the kinds of keys. -/
def kind : Name → Nat
  | .minName => 0
  | .string a => if (tryParseStringToInt a).isSome then 1 else 2
  | .maxName => 3

def number : Name → Int
  | .string a => (tryParseStringToInt a).getD 0
  | _ => 0

/-- The length counts for a number only, and the characters for no number. -/
def lengthOfNumber : Name → Nat
  | .string a => if (tryParseStringToInt a).isSome then a.length else 0
  | _ => 0

def literal : Name → Unichars
  | .string a => if (tryParseStringToInt a).isSome then [] else a
  | _ => []

theorem compareStrings_self (a : Unichars) : compareStrings a a = .eq := by
  unfold compareStrings
  cases tryParseStringToInt a with
  | none => exact ReflOrd.compare_self
  | some i => simp

/-- Kind, number, length and characters, in this order. -/
def keyLex : Name → Name → Ordering :=
  compareLex (compareOn kind) (compareLex (compareOn number)
    (compareLex (compareOn lengthOfNumber) (compareOn literal)))

instance : TransCmp keyLex := by
  unfold keyLex
  infer_instance

theorem keyLex_of_kind_lt {a b : Name} (h : kind a < kind b) : keyLex a b = .lt := by
  have hcmp : compare (kind a) (kind b) = .lt := Nat.compare_eq_lt.mpr h
  simp [keyLex, compareLex, compareOn, hcmp]

theorem keyLex_of_kind_gt {a b : Name} (h : kind b < kind a) : keyLex a b = .gt :=
  OrientedCmp.gt_of_lt (keyLex_of_kind_lt h)

theorem kind_string (a : Unichars) : 0 < kind (.string a) ∧ kind (.string a) < 3 := by
  simp only [kind]
  split <;> omega

theorem compare_int (i j : Int) :
    compare i j = if i > j then .gt else if i < j then .lt else .eq := by
  by_cases h1 : i > j
  · rw [if_pos h1]
    exact Int.compare_eq_gt.mpr h1
  · by_cases h2 : i < j
    · rw [if_neg h1, if_pos h2]
      exact Int.compare_eq_lt.mpr h2
    · rw [if_neg h1, if_neg h2]
      exact Int.compare_eq_eq.mpr (by omega)

theorem compare_nat (i j : Nat) :
    compare i j = if i > j then .gt else if i < j then .lt else .eq := by
  by_cases h1 : i > j
  · rw [if_pos h1]
    exact Nat.compare_eq_gt.mpr h1
  · by_cases h2 : i < j
    · rw [if_neg h1, if_pos h2]
      exact Nat.compare_eq_lt.mpr h2
    · rw [if_neg h1, if_neg h2]
      exact Nat.compare_eq_eq.mpr (by omega)

theorem compareStrings_eq_lex (a b : Unichars) :
    compareStrings a b = keyLex (.string a) (.string b) := by
  cases ha : tryParseStringToInt a with
  | none =>
    cases hb : tryParseStringToInt b with
    | none =>
      simp [compareStrings, keyLex, compareLex, compareOn, kind, number, lengthOfNumber, literal,
        ha, hb]
    | some j =>
      have hkind : kind (.string b) < kind (.string a) := by simp [kind, ha, hb]
      simp [compareStrings, ha, hb, keyLex_of_kind_gt hkind]
  | some i =>
    cases hb : tryParseStringToInt b with
    | none =>
      have hkind : kind (.string a) < kind (.string b) := by simp [kind, ha, hb]
      simp [compareStrings, ha, hb, keyLex_of_kind_lt hkind]
    | some j =>
      simp only [compareStrings, keyLex, compareLex, compareOn, kind, number, lengthOfNumber,
        literal, ha, hb, Option.isSome_some, ↓reduceIte, Option.getD_some, compare_int,
        compare_nat, ReflOrd.compare_self, Ordering.then_eq]
      by_cases h1 : i > j
      · simp [h1]
      · by_cases h2 : i < j
        · simp [h1, h2]
        · simp [h1, h2]

theorem compareKey_string (a b : Unichars) :
    compareKey (.string a) (.string b) = compareStrings a b := by
  unfold compareKey
  by_cases h : a = b
  · simp [h, compareStrings_self]
  · simp [h]

theorem compareKey_eq_lex (a b : Name) : compareKey a b = keyLex a b := by
  have h3 : ∀ s, kind (.string s) < kind .maxName := fun s => (kind_string s).2
  have h0 : ∀ s, kind .minName < kind (.string s) := fun s => (kind_string s).1
  have h03 : kind .minName < kind .maxName := by decide
  cases a with
  | minName =>
    cases b with
    | minName => exact ReflCmp.compare_self.symm
    | string t => rw [keyLex_of_kind_lt (h0 t)]; rfl
    | maxName => rw [keyLex_of_kind_lt h03]; rfl
  | maxName =>
    cases b with
    | minName => rw [keyLex_of_kind_gt h03]; rfl
    | string t => rw [keyLex_of_kind_gt (h3 t)]; rfl
    | maxName => exact ReflCmp.compare_self.symm
  | string s =>
    cases b with
    | minName => rw [keyLex_of_kind_gt (h0 s)]; rfl
    | string t => rw [compareKey_string, compareStrings_eq_lex]
    | maxName => rw [keyLex_of_kind_lt (h3 s)]; rfl

/-- The keys are in a total order, ties allowed. -/
instance : TransCmp compareKey := by
  have h : compareKey = keyLex := by
    funext a b
    exact compareKey_eq_lex a b
  rw [h]
  infer_instance

/-! ## Which keys tie -/

theorem digit_lt {c : UInt16} (h : ¬ (c < unichar '0' ∨ unichar '9' < c)) :
    c.toNat - (unichar '0').toNat < 10 ∧ (unichar '0').toNat ≤ c.toNat := by
  have h0 : (unichar '0').toNat = 48 := by decide
  have h9 : (unichar '9').toNat = 57 := by decide
  rw [not_or, UInt16.not_lt, UInt16.not_lt, UInt16.le_iff_toNat_le, UInt16.le_iff_toNat_le] at h
  omega

/-- Digits of one length with one value are the same digits. -/
theorem parseDigits_inj {cs ds : Unichars} {v w x : Int} (hlen : cs.length = ds.length)
    (hc : parseDigits v cs = some x) (hd : parseDigits w ds = some x) : v = w ∧ cs = ds := by
  induction cs generalizing ds v w with
  | nil =>
    obtain rfl : ds = [] := List.eq_nil_of_length_eq_zero hlen.symm
    simp only [parseDigits, Option.some.injEq] at hc hd
    exact ⟨hc.trans hd.symm, rfl⟩
  | cons c cs ih =>
    cases ds with
    | nil => simp at hlen
    | cons d ds =>
      simp only [parseDigits] at hc hd
      split at hc
      · cases hc
      · rename_i hcdigit
        split at hd
        · cases hd
        · rename_i hddigit
          obtain ⟨hsame, hrest⟩ := ih (by simpa using hlen) hc hd
          obtain ⟨hc10, hc0⟩ := digit_lt hcdigit
          obtain ⟨hd10, hd0⟩ := digit_lt hddigit
          refine ⟨by omega, ?_⟩
          have hcd : c = d := UInt16.toNat_inj.mp (by omega)
          rw [hcd, hrest]

theorem parseDigits_nonneg {cs : Unichars} {v x : Int} (hv : 0 ≤ v)
    (h : parseDigits v cs = some x) : 0 ≤ x := by
  induction cs generalizing v with
  | nil =>
    simp only [parseDigits, Option.some.injEq] at h
    omega
  | cons c cs ih =>
    simp only [parseDigits] at h
    split at h
    · cases h
    · exact ih (by omega) h

/-- What a number is made of: digits, or a minus and digits. -/
theorem tryParse_cases {str : Unichars} {x : Int} (h : tryParseStringToInt str = some x) :
    (parseDigits 0 str = some x ∧ 0 ≤ x) ∨
      ∃ cs y, str = unichar '-' :: cs ∧ parseDigits 0 cs = some y ∧ x = -y ∧ 0 ≤ y := by
  cases str with
  | nil => simp [tryParseStringToInt] at h
  | cons c cs =>
    simp only [tryParseStringToInt] at h
    split at h
    · cases h
    · obtain ⟨value, hparsed, hrange⟩ := Option.bind_eq_some_iff.mp h
      split at hrange
      · cases hrange
      · cases hrange
        split at hparsed
        · rename_i hminus
          split at hparsed
          · cases hparsed
          · obtain ⟨y, hy, rfl⟩ := Option.map_eq_some_iff.mp hparsed
            exact Or.inr ⟨cs, y, by rw [hminus], hy, rfl, parseDigits_nonneg (by omega) hy⟩
        · exact Or.inl ⟨hparsed, parseDigits_nonneg (by omega) hparsed⟩

theorem compareStrings_eq_iff (a b : Unichars) :
    compareStrings a b = .eq ↔ a = b ∨ (a.length = b.length ∧
      tryParseStringToInt a = some 0 ∧ tryParseStringToInt b = some 0) := by
  constructor
  · intro h
    cases ha : tryParseStringToInt a with
    | none =>
      cases hb : tryParseStringToInt b with
      | none =>
        simp only [compareStrings, ha, hb] at h
        exact Or.inl (LawfulEqOrd.eq_of_compare h)
      | some j => simp [compareStrings, ha, hb] at h
    | some i =>
      cases hb : tryParseStringToInt b with
      | none => simp [compareStrings, ha, hb] at h
      | some j =>
        simp only [compareStrings, ha, hb] at h
        split_ifs at h with h1 h2 h3 h4
        obtain rfl : i = j := by omega
        have hlen : a.length = b.length := by omega
        rcases tryParse_cases ha with ⟨hpa, hi⟩ | ⟨cs, y, rfl, hpa, rfl, hy⟩
        · rcases tryParse_cases hb with ⟨hpb, -⟩ | ⟨ds, z, rfl, hpb, rfl, hz⟩
          · exact Or.inl (parseDigits_inj hlen hpa hpb).2
          · obtain rfl : z = 0 := by omega
            exact Or.inr ⟨hlen, by simp, by simp⟩
        · rcases tryParse_cases hb with ⟨hpb, hi⟩ | ⟨ds, z, rfl, hpb, hyz, hz⟩
          · obtain rfl : y = 0 := by omega
            exact Or.inr ⟨hlen, by simp, by simp⟩
          · obtain rfl : y = z := by omega
            have hrest := (parseDigits_inj (by simpa using hlen) hpa hpb).2
            exact Or.inl (by rw [hrest])
  · rintro (rfl | ⟨hlen, ha, hb⟩)
    · exact compareStrings_self a
    · simp [compareStrings, ha, hb, hlen]

/-- Two keys tie when they are the same, or both write zero in as many characters: one of them
with a minus. -/
theorem compareKey_eq_iff (a b : Name) :
    compareKey a b = .eq ↔ a = b ∨ ∃ s t, a = .string s ∧ b = .string t ∧ s.length = t.length ∧
      tryParseStringToInt s = some 0 ∧ tryParseStringToInt t = some 0 := by
  cases a with
  | minName => cases b <;> simp [compareKey]
  | maxName => cases b <;> simp [compareKey]
  | string s =>
    cases b with
    | minName => simp [compareKey]
    | maxName => simp [compareKey]
    | string t =>
      rw [compareKey_string, compareStrings_eq_iff]
      constructor
      · rintro (rfl | hzero)
        · exact Or.inl rfl
        · exact Or.inr ⟨s, t, rfl, rfl, hzero⟩
      · rintro (heq | ⟨s', t', hs, ht, hzero⟩)
        · exact Or.inl (Name.string.inj heq)
        · cases hs
          cases ht
          exact Or.inr hzero

end FUtilities

end HateBlocker
