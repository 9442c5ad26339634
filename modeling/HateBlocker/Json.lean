-- JSON: the values, the texts that denote them, and the strings that a value
-- holds. A text without a backslash has no escapes, so it cannot hold a control
-- character in a string.
import Mathlib.Algebra.Field.Rat

namespace Json

/-! ## Values -/

inductive Value
  | null
  | bool (b : Bool)
  | number (q : ℚ)
  | string (s : String)
  | array (elements : List Value)
  | object (members : List (String × Value))

/-- The value under a key, where there is one. -/
def Value.member? (key : String) : Value → Option Value
  | .object members => members.lookup key
  | _ => none

def Value.string? : Value → Option String
  | .string s => some s
  | _ => none

def Value.number? : Value → Option ℚ
  | .number q => some q
  | _ => none

/-- Only an array or an object can stand at the top of a document of the older grammar. -/
def Value.isContainer : Value → Bool
  | .array _ => true
  | .object _ => true
  | _ => false

/-- `s` is a string in the value, at any depth. Keys do not count. -/
inductive Value.Holds (s : String) : Value → Prop
  | here : Holds s (.string s)
  | element {x : Value} {xs : List Value} : x ∈ xs → Holds s x → Holds s (.array xs)
  | member {key : String} {x : Value} {members : List (String × Value)} :
      (key, x) ∈ members → Holds s x → Holds s (.object members)

theorem Value.Holds.of_member? {x : Value} {key s : String}
    (h : x.member? key = some (.string s)) : x.Holds s := by
  cases x with
  | object members =>
    obtain ⟨before, after, rfl, -⟩ := List.lookup_eq_some_iff.mp h
    exact .member (List.mem_append_right _ (List.mem_cons_self ..)) .here
  | _ => cases h

/-! ## Texts -/

def Space (w : List Char) : Prop := ∀ c ∈ w, c ∈ [' ', '\t', '\n', '\r']

def isDigit (c : Char) : Bool := '0' ≤ c && c ≤ '9'

def hexDigit? (c : Char) : Option ℕ :=
  if '0' ≤ c ∧ c ≤ '9' then some (c.toNat - '0'.toNat)
  else if 'a' ≤ c ∧ c ≤ 'f' then some (c.toNat - 'a'.toNat + 10)
  else if 'A' ≤ c ∧ c ≤ 'F' then some (c.toNat - 'A'.toNat + 10)
  else none

/-- Four hexadecimal digits name a code unit. -/
inductive CodeUnit : List Char → ℕ → Prop
  | mk {a b c d : Char} {i j k l : ℕ} : hexDigit? a = some i → hexDigit? b = some j →
      hexDigit? c = some k → hexDigit? d = some l →
      CodeUnit [a, b, c, d] (((i * 16 + j) * 16 + k) * 16 + l)

/-- What a backslash and one more character stand for. -/
def escaped? : Char → Option Char
  | '"' => some '"'
  | '\\' => some '\\'
  | '/' => some '/'
  | 'b' => some '\x08'
  | 'f' => some '\x0c'
  | 'n' => some '\n'
  | 'r' => some '\r'
  | 't' => some '\t'
  | _ => none

/-- The text between the quotes of a string, and the characters that it stands for. -/
inductive Chars : List Char → List Char → Prop
  | nil : Chars [] []
  | plain {c : Char} {t s : List Char} : ' ' ≤ c → c ≠ '"' → c ≠ '\\' → Chars t s →
      Chars (c :: t) (c :: s)
  | escape {e c : Char} {t s : List Char} : escaped? e = some c → Chars t s →
      Chars ('\\' :: e :: t) (c :: s)
  | unicode {u t s : List Char} {n : ℕ} : CodeUnit u n → n < 0xD800 ∨ 0xE000 ≤ n → Chars t s →
      Chars ('\\' :: 'u' :: u ++ t) (Char.ofNat n :: s)
  | surrogates {u v t s : List Char} {m n : ℕ} : CodeUnit u m → CodeUnit v n →
      0xD800 ≤ m → m < 0xDC00 → 0xDC00 ≤ n → n < 0xE000 → Chars t s →
      Chars ('\\' :: 'u' :: u ++ '\\' :: 'u' :: v ++ t)
        (Char.ofNat (0x10000 + (m - 0xD800) * 0x400 + (n - 0xDC00)) :: s)

def digitsValue (ds : List Char) : ℕ :=
  ds.foldl (fun n c => 10 * n + (c.toNat - '0'.toNat)) 0

def Digits (ds : List Char) : Prop := ds ≠ [] ∧ ∀ c ∈ ds, isDigit c = true

inductive Fraction : List Char → ℚ → Prop
  | none : Fraction [] 0
  | some {ds : List Char} : Digits ds → Fraction ('.' :: ds) (digitsValue ds / 10 ^ ds.length)

inductive Exponent : List Char → ℤ → Prop
  | none : Exponent [] 0
  | unsigned {e : Char} {ds : List Char} : e ∈ ['e', 'E'] → Digits ds →
      Exponent (e :: ds) (digitsValue ds)
  | plus {e : Char} {ds : List Char} : e ∈ ['e', 'E'] → Digits ds →
      Exponent (e :: '+' :: ds) (digitsValue ds)
  | minus {e : Char} {ds : List Char} : e ∈ ['e', 'E'] → Digits ds →
      Exponent (e :: '-' :: ds) (-digitsValue ds)

/-- An integer without leading zeros, a fraction and an exponent, perhaps with a minus sign. -/
inductive Number : List Char → ℚ → Prop
  | positive {ds f e : List Char} {q : ℚ} {z : ℤ} : Digits ds → ds = ['0'] ∨ ds.head? ≠ some '0' →
      Fraction f q → Exponent e z → Number (ds ++ f ++ e) ((digitsValue ds + q) * 10 ^ z)
  | negative {t : List Char} {q : ℚ} : t.head? ≠ some '-' → Number t q → Number ('-' :: t) (-q)

mutual

/-- The text `t` denotes the value `x`, with no space around it. -/
inductive Denotes : List Char → Value → Prop
  | null : Denotes ['n', 'u', 'l', 'l'] .null
  | true : Denotes ['t', 'r', 'u', 'e'] (.bool .true)
  | false : Denotes ['f', 'a', 'l', 's', 'e'] (.bool .false)
  | number {t : List Char} {q : ℚ} : Number t q → Denotes t (.number q)
  | string {t s : List Char} : Chars t s → Denotes ('"' :: (t ++ ['"'])) (.string (.ofList s))
  | emptyArray {w : List Char} : Space w → Denotes ('[' :: (w ++ [']'])) (.array [])
  | array {t : List Char} {xs : List Value} : Elements t xs →
      Denotes ('[' :: (t ++ [']'])) (.array xs)
  | emptyObject {w : List Char} : Space w → Denotes ('\x7b' :: (w ++ ['\x7d'])) (.object [])
  | object {t : List Char} {members : List (String × Value)} : Members t members →
      Denotes ('\x7b' :: (t ++ ['\x7d'])) (.object members)

/-- The text between the brackets of an array. -/
inductive Elements : List Char → List Value → Prop
  | last {w t w' : List Char} {x : Value} : Space w → Denotes t x → Space w' →
      Elements (w ++ t ++ w') [x]
  | cons {w t w' rest : List Char} {x : Value} {xs : List Value} : Space w → Denotes t x →
      Space w' → Elements rest xs → Elements (w ++ t ++ w' ++ ',' :: rest) (x :: xs)

/-- The text between the braces of an object. -/
inductive Members : List Char → List (String × Value) → Prop
  | last {t : List Char} {m : String × Value} : Member t m → Members t [m]
  | cons {t rest : List Char} {m : String × Value} {ms : List (String × Value)} : Member t m →
      Members rest ms → Members (t ++ ',' :: rest) (m :: ms)

/-- A key and its value, with the space around them. -/
inductive Member : List Char → String × Value → Prop
  | mk {w k w' w'' t w''' key : List Char} {x : Value} : Space w → Chars k key → Space w' →
      Space w'' → Denotes t x → Space w''' →
      Member (w ++ '"' :: (k ++ '"' :: (w' ++ ':' :: (w'' ++ t ++ w''')))) (.ofList key, x)

end

/-- A document: one value with space around it. -/
def Document (t : List Char) (x : Value) : Prop :=
  ∃ w v w', Space w ∧ Denotes v x ∧ Space w' ∧ t = w ++ v ++ w'

/-! ## Texts without escapes -/

/-- No character of the string is a control character. -/
def Printable (s : List Char) : Prop := ∀ c ∈ s, ' ' ≤ c

instance (s : List Char) : Decidable (Printable s) := List.decidableBAll (fun c => ' ' ≤ c) s

/-- A text of plain characters stands for itself. -/
theorem chars_of_plain {t : List Char} (hprint : Printable t) (hquote : '"' ∉ t)
    (hslash : '\\' ∉ t) : Chars t t := by
  induction t with
  | nil => exact .nil
  | cons c t ih =>
    simp only [List.mem_cons, not_or] at hquote hslash
    have ht : Chars t t :=
      ih (fun d hd => hprint d (List.mem_cons_of_mem _ hd)) hquote.2 hslash.2
    exact .plain (hprint c (by simp)) (Ne.symm hquote.1) (Ne.symm hslash.1) ht

theorem Chars.printable {t s : List Char} (h : Chars t s) (hslash : '\\' ∉ t) : Printable s := by
  induction h with
  | nil => simp [Printable]
  | plain hc _ _ _ ih =>
    simp only [List.mem_cons, not_or] at hslash
    intro d hd
    rcases List.mem_cons.mp hd with rfl | hd
    · exact hc
    · exact ih hslash.2 d hd
  | escape => simp at hslash
  | unicode => simp at hslash
  | surrogates => simp at hslash

mutual

/-- Without a backslash in the text there is no control character in any string of the value. -/
theorem Denotes.printable {t : List Char} {x : Value} (h : Denotes t x) (hslash : '\\' ∉ t)
    {s : String} (hs : x.Holds s) : Printable s.toList := by
  match h with
  | .null | .true | .false | .number _ => cases hs
  | .string hchars =>
    cases hs
    rw [String.toList_ofList]
    exact hchars.printable (fun hm => hslash (by simp [hm]))
  | .emptyArray _ =>
    obtain _ | ⟨hx, -⟩ := hs
    simp at hx
  | .array helements =>
    obtain _ | ⟨hx, hs⟩ := hs
    exact helements.printable (fun hm => hslash (by simp [hm])) hx hs
  | .emptyObject _ =>
    obtain _ | _ | ⟨hx, -⟩ := hs
    simp at hx
  | .object hmembers =>
    obtain _ | _ | ⟨hx, hs⟩ := hs
    exact hmembers.printable (fun hm => hslash (by simp [hm])) hx hs

theorem Elements.printable {t : List Char} {xs : List Value} (h : Elements t xs)
    (hslash : '\\' ∉ t) {x : Value} (hx : x ∈ xs) {s : String} (hs : x.Holds s) :
    Printable s.toList := by
  match h with
  | .last _ hv _ =>
    rw [List.mem_singleton.mp hx] at hs
    exact hv.printable (fun hm => hslash (by simp [hm])) hs
  | .cons _ hv _ hrest =>
    rcases List.mem_cons.mp hx with heq | hx
    · rw [heq] at hs
      exact hv.printable (fun hm => hslash (by simp [hm])) hs
    · exact hrest.printable (fun hm => hslash (by simp [hm])) hx hs

theorem Members.printable {t : List Char} {ms : List (String × Value)} (h : Members t ms)
    (hslash : '\\' ∉ t) {m : String × Value} (hm : m ∈ ms) {s : String} (hs : m.2.Holds s) :
    Printable s.toList := by
  match h with
  | .last hmember =>
    rw [List.mem_singleton.mp hm] at hs
    exact hmember.printable hslash hs
  | .cons hmember hrest =>
    rcases List.mem_cons.mp hm with heq | hm
    · rw [heq] at hs
      exact hmember.printable (fun hm => hslash (by simp [hm])) hs
    · exact hrest.printable (fun hc => hslash (by simp [hc])) hm hs

theorem Member.printable {t : List Char} {m : String × Value} (h : Member t m) (hslash : '\\' ∉ t)
    {s : String} (hs : m.2.Holds s) : Printable s.toList := by
  match h with
  | .mk _ _ _ _ hv _ => exact hv.printable (fun hm => hslash (by simp [hm])) hs

end

theorem Document.printable {t : List Char} {x : Value} (h : Document t x) (hslash : '\\' ∉ t)
    {s : String} (hs : x.Holds s) : Printable s.toList := by
  obtain ⟨w, v, w', -, hv, -, rfl⟩ := h
  exact hv.printable (fun hm => hslash (by simp [hm])) hs

end Json
