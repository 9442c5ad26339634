-- The keys that `childByAutoId` hands out: eight characters for the milliseconds and
-- twelve random ones, which count on when two keys are asked for in one millisecond.
-- As long as the clock does not go back the keys ascend, so posts keep the order in
-- which one device sent them.
import HateBlocker.KeyOrder
import HateBlocker.Runs

open Std

namespace HateBlocker

namespace FValidation

def invalidKeyCharacters : List Char := ['[', ']', '.', '#', '$', '/']

def isValidKey (key : Unichars) : Bool :=
  !key.isEmpty && key.all (fun c => !(invalidKeyCharacters.map unichar).contains c)

end FValidation

/-- The static variables of `FNextPushId`. -/
structure FNextPushId where
  lastPushTime : Nat
  lastRandChars : List Nat
  deriving DecidableEq, Repr

namespace FNextPushId

def pushChars : List Char :=
  "-0123456789ABCDEFGHIJKLMNOPQRSTUVWXYZ_abcdefghijklmnopqrstuvwxyz".toList

def initial : FNextPushId := ⟨0, List.replicate 12 0⟩

/-- The last `n` digits of `now` to the base 64, the last one written first. -/
def timeStampChars : Nat → Nat → List Nat
  | 0, _ => []
  | n + 1, now => timeStampChars n (now / 64) ++ [now % 64]

/-- The loop from the last character on: each 63 becomes 0, and the character before them counts
up. `none` stands for the write in front of the array when all are 63. -/
def countUp : List Nat → Option (List Nat)
  | [] => none
  | c :: cs => if c = 63 then (countUp cs).map (fun cs' => 0 :: cs') else some ((c + 1) :: cs)

def character (i : Nat) : UInt16 := unichar (pushChars.getD i '-')

/-- `now` is the time in milliseconds, `random` the answers of `arc4random`. -/
def get (s : FNextPushId) (now : Nat) (random : Fin 12 → Nat) : Option (FNextPushId × Unichars) :=
  let lastRandChars :=
    if now = s.lastPushTime then (countUp s.lastRandChars.reverse).map List.reverse
    else some (List.ofFn fun i => random i % 64)
  lastRandChars.map fun randChars =>
    (⟨now, randChars⟩, (timeStampChars 8 now ++ randChars).map character)

/-! ## Characters and numbers -/

def value (cs : List Nat) : Nat := cs.foldl (fun v c => v * 64 + c) 0

theorem foldl_value (v : Nat) (cs : List Nat) :
    cs.foldl (fun v c => v * 64 + c) v = v * 64 ^ cs.length + value cs := by
  induction cs generalizing v with
  | nil => simp [value]
  | cons c cs ih =>
    simp only [List.foldl_cons, List.length_cons, value]
    rw [ih (v * 64 + c), ih (0 * 64 + c)]
    ring

theorem value_append (cs ds : List Nat) :
    value (cs ++ ds) = value cs * 64 ^ ds.length + value ds := by
  rw [value, List.foldl_append, foldl_value]
  rfl

theorem value_cons (c : Nat) (cs : List Nat) : value (c :: cs) = c * 64 ^ cs.length + value cs := by
  rw [value, List.foldl_cons, foldl_value]
  simp

def Digits (cs : List Nat) : Prop := ∀ c ∈ cs, c < 64

theorem value_lt {cs : List Nat} (h : Digits cs) : value cs < 64 ^ cs.length := by
  induction cs with
  | nil => simp [value]
  | cons c cs ih =>
    have hc : c < 64 := h c (by simp)
    have hrest := ih (fun d hd => h d (List.mem_cons_of_mem _ hd))
    rw [value_cons, List.length_cons, pow_succ]
    calc c * 64 ^ cs.length + value cs < c * 64 ^ cs.length + 64 ^ cs.length := by omega
      _ = (c + 1) * 64 ^ cs.length := by ring
      _ ≤ 64 * 64 ^ cs.length := Nat.mul_le_mul_right _ (by omega)
      _ = 64 ^ cs.length * 64 := by ring

/-- Digit by digit means number by number. -/
theorem compare_value {cs ds : List Nat} (hlen : cs.length = ds.length) (hc : Digits cs)
    (hd : Digits ds) : compare cs ds = compare (value cs) (value ds) := by
  induction cs generalizing ds with
  | nil =>
    obtain rfl : ds = [] := List.eq_nil_of_length_eq_zero hlen.symm
    simp
  | cons c cs ih =>
    cases ds with
    | nil => simp at hlen
    | cons d ds =>
      have hlen' : cs.length = ds.length := by simpa using hlen
      have hcs : Digits cs := fun e he => hc e (List.mem_cons_of_mem _ he)
      have hds : Digits ds := fun e he => hd e (List.mem_cons_of_mem _ he)
      have hcv := value_lt hcs
      have hdv := value_lt hds
      rw [hlen'] at hcv
      rw [value_cons, value_cons, hlen', List.compare_cons_cons, ih hlen' hcs hds]
      rcases Nat.lt_trichotomy c d with hlt | rfl | hgt
      · rw [Nat.compare_eq_lt.mpr hlt]
        refine (Nat.compare_eq_lt.mpr ?_).symm
        calc c * 64 ^ ds.length + value cs < (c + 1) * 64 ^ ds.length := by
              rw [Nat.add_mul]
              omega
          _ ≤ d * 64 ^ ds.length := Nat.mul_le_mul_right _ hlt
          _ ≤ d * 64 ^ ds.length + value ds := Nat.le_add_right _ _
      · rw [Nat.compare_eq_eq.mpr rfl, Ordering.eq_then]
        rcases Nat.lt_trichotomy (value cs) (value ds) with h | h | h
        · rw [Nat.compare_eq_lt.mpr h, Nat.compare_eq_lt.mpr (by omega)]
        · rw [Nat.compare_eq_eq.mpr h, Nat.compare_eq_eq.mpr (by omega)]
        · rw [Nat.compare_eq_gt.mpr h, Nat.compare_eq_gt.mpr (by omega)]
      · rw [Nat.compare_eq_gt.mpr hgt]
        refine (Nat.compare_eq_gt.mpr ?_).symm
        calc d * 64 ^ ds.length + value ds < (d + 1) * 64 ^ ds.length := by
              rw [Nat.add_mul]
              omega
          _ ≤ c * 64 ^ ds.length := Nat.mul_le_mul_right _ hgt
          _ ≤ c * 64 ^ ds.length + value cs := Nat.le_add_right _ _

theorem character_lt_succ : ∀ i < 63, character i < character (i + 1) := by
  decide +kernel

theorem character_lt {i j : Nat} (h : i < j) (hj : j < 64) : character i < character j := by
  induction j with
  | zero => omega
  | succ j ih =>
    have hstep := character_lt_succ j (by omega)
    rcases Nat.lt_succ_iff_lt_or_eq.mp h with hlt | rfl
    · exact UInt16.lt_trans (ih hlt (by omega)) hstep
    · exact hstep

theorem compare_character {i j : Nat} (hi : i < 64) (hj : j < 64) :
    compare (character i) (character j) = compare i j := by
  rcases Nat.lt_trichotomy i j with h | rfl | h
  · rw [Nat.compare_eq_lt.mpr h]
    exact Std.compare_eq_lt.mpr (character_lt h hj)
  · rw [ReflOrd.compare_self, ReflOrd.compare_self]
  · rw [Nat.compare_eq_gt.mpr h]
    exact Std.compare_eq_gt.mpr (character_lt h hi)

theorem compare_map_character {cs ds : List Nat} (hc : Digits cs) (hd : Digits ds) :
    compare (cs.map character) (ds.map character) = compare cs ds := by
  induction cs generalizing ds with
  | nil =>
    cases ds with
    | nil => rfl
    | cons d ds => rfl
  | cons c cs ih =>
    cases ds with
    | nil => rfl
    | cons d ds =>
      simp only [List.map_cons]
      rw [List.compare_cons_cons, List.compare_cons_cons,
        compare_character (hc c (by simp)) (hd d (by simp)),
        ih (fun e he => hc e (List.mem_cons_of_mem _ he))
          (fun e he => hd e (List.mem_cons_of_mem _ he))]

/-! ## Counting up -/

theorem Digits.append {cs ds : List Nat} (hc : Digits cs) (hd : Digits ds) : Digits (cs ++ ds) := by
  intro c hmem
  rcases List.mem_append.mp hmem with h | h
  · exact hc c h
  · exact hd c h

theorem Digits.reverse {cs : List Nat} (h : Digits cs) : Digits cs.reverse :=
  fun c hc => h c (List.mem_reverse.mp hc)

theorem Digits.cons_iff {c : Nat} {cs : List Nat} : Digits (c :: cs) ↔ c < 64 ∧ Digits cs := by
  unfold Digits
  exact List.forall_mem_cons

theorem value_reverse_cons (c : Nat) (cs : List Nat) :
    value (c :: cs).reverse = value cs.reverse * 64 + c := by
  rw [List.reverse_cons, value_append]
  simp [value]

/-- The characters count up by one, or there is no room left in them. -/
theorem countUp_cases {cs : List Nat} (h : Digits cs) :
    (∃ ds, countUp cs = some ds ∧ ds.length = cs.length ∧ Digits ds ∧
      value ds.reverse = value cs.reverse + 1) ∨
    (countUp cs = none ∧ value cs.reverse + 1 = 64 ^ cs.length) := by
  induction cs with
  | nil => exact Or.inr ⟨rfl, by simp [value]⟩
  | cons c cs ih =>
    obtain ⟨hc, hcs⟩ := Digits.cons_iff.mp h
    by_cases hfull : c = 63
    · subst hfull
      rcases ih hcs with ⟨ds, hds, hlen, hdigits, hvalue⟩ | ⟨hnone, hvalue⟩
      · refine Or.inl ⟨0 :: ds, by simp [countUp, hds], by simp [hlen],
          Digits.cons_iff.mpr ⟨by omega, hdigits⟩, ?_⟩
        rw [value_reverse_cons, value_reverse_cons, hvalue]
        ring
      · refine Or.inr ⟨by simp [countUp, hnone], ?_⟩
        rw [value_reverse_cons, List.length_cons, pow_succ, ← hvalue]
        ring
    · refine Or.inl ⟨(c + 1) :: cs, by simp [countUp, hfull], rfl,
        Digits.cons_iff.mpr ⟨by omega, hcs⟩, ?_⟩
      rw [value_reverse_cons, value_reverse_cons]
      ring

@[simp] theorem length_timeStampChars (n now : Nat) : (timeStampChars n now).length = n := by
  induction n generalizing now with
  | zero => rfl
  | succ n ih => simp [timeStampChars, ih]

theorem digits_timeStampChars (n now : Nat) : Digits (timeStampChars n now) := by
  induction n generalizing now with
  | zero => simp [Digits, timeStampChars]
  | succ n ih =>
    refine (ih (now / 64)).append ?_
    intro c hc
    obtain rfl : c = now % 64 := by simpa using hc
    exact Nat.mod_lt _ (by omega)

theorem value_timeStampChars (n now : Nat) : value (timeStampChars n now) = now % 64 ^ n := by
  induction n generalizing now with
  | zero => simp [timeStampChars, value, Nat.mod_one]
  | succ n ih =>
    rw [timeStampChars, value_append, ih, pow_succ, Nat.mul_comm (64 ^ n) 64, Nat.mod_mul]
    simp only [List.length_cons, List.length_nil, value, List.foldl_cons, List.foldl_nil]
    omega

/-- Twelve random characters. -/
structure Good (s : FNextPushId) : Prop where
  length : s.lastRandChars.length = 12
  digits : Digits s.lastRandChars

theorem good_initial : Good initial := by
  refine ⟨rfl, ?_⟩
  intro c hc
  obtain rfl : c = 0 := by
    have h := List.eq_of_mem_replicate hc
    exact h
  omega

theorem good_random (now : Nat) (random : Fin 12 → Nat) :
    Good ⟨now, List.ofFn fun i => random i % 64⟩ := by
  refine ⟨by simp, ?_⟩
  intro c hc
  obtain ⟨i, rfl⟩ := List.mem_ofFn.mp hc
  exact Nat.mod_lt _ (by omega)

/-- The key that goes with a state. -/
def idOf (s : FNextPushId) : Unichars :=
  (timeStampChars 8 s.lastPushTime ++ s.lastRandChars).map character

/-- What a call can do: draw new characters at a new time, or count up at the same one. -/
theorem get_cases {s : FNextPushId} (h : Good s) (now : Nat) (random : Fin 12 → Nat) :
    (∃ s', get s now random = some (s', idOf s') ∧ Good s' ∧ s'.lastPushTime = now ∧
      ((now ≠ s.lastPushTime ∧ s' = ⟨now, List.ofFn fun i => random i % 64⟩) ∨
        (now = s.lastPushTime ∧ value s'.lastRandChars = value s.lastRandChars + 1))) ∨
    (get s now random = none ∧ now = s.lastPushTime ∧ value s.lastRandChars + 1 = 64 ^ 12) := by
  by_cases hsame : now = s.lastPushTime
  · rcases countUp_cases h.digits.reverse with ⟨ds, hds, hlen, hdigits, hvalue⟩ | ⟨hnone, hvalue⟩
    · refine Or.inl ⟨⟨now, ds.reverse⟩, ?_, ⟨?_, hdigits.reverse⟩, rfl, Or.inr ⟨hsame, ?_⟩⟩
      · simp [get, if_pos hsame, hds, idOf]
      · simpa [hlen] using h.length
      · simpa using hvalue
    · refine Or.inr ⟨by simp [get, if_pos hsame, hnone], hsame, ?_⟩
      simpa [h.length] using hvalue
  · exact Or.inl ⟨_, by simp [get, if_neg hsame, idOf], good_random now random, rfl,
      Or.inl ⟨hsame, rfl⟩⟩

/-! ## Keys -/

theorem length_idOf {s : FNextPushId} (h : Good s) : (idOf s).length = 20 := by
  simp [idOf, h.length]

/-- A key of twenty characters is too long for a number. -/
theorem tryParse_idOf {s : FNextPushId} (h : Good s) :
    FUtilities.tryParseStringToInt (idOf s) = none := by
  have hlen := length_idOf h
  cases hid : idOf s with
  | nil => rfl
  | cons c cs =>
    rw [hid] at hlen
    simp [FUtilities.tryParseStringToInt, hlen]

theorem digits_idOf {s : FNextPushId} (h : Good s) :
    Digits (timeStampChars 8 s.lastPushTime ++ s.lastRandChars) :=
  (digits_timeStampChars 8 _).append h.digits

/-- The keys are in the order of their times and, at one time, of their other characters. -/
theorem compareKey_idOf {s t : FNextPushId} (hs : Good s) (ht : Good t) :
    FUtilities.compareKey (.string (idOf s)) (.string (idOf t)) =
      compare (s.lastPushTime % 64 ^ 8 * 64 ^ 12 + value s.lastRandChars)
        (t.lastPushTime % 64 ^ 8 * 64 ^ 12 + value t.lastRandChars) := by
  have hlen : (timeStampChars 8 s.lastPushTime ++ s.lastRandChars).length =
      (timeStampChars 8 t.lastPushTime ++ t.lastRandChars).length := by
    simp [hs.length, ht.length]
  rw [FUtilities.compareKey_string, FUtilities.compareStrings, tryParse_idOf hs, tryParse_idOf ht]
  dsimp only
  rw [idOf, idOf, compare_map_character (digits_idOf hs) (digits_idOf ht),
    compare_value hlen (digits_idOf hs) (digits_idOf ht), value_append, value_append,
    value_timeStampChars, value_timeStampChars, hs.length, ht.length]

theorem character_valid : ∀ i < 64, !(FValidation.invalidKeyCharacters.map unichar).contains
    (character i) := by
  decide +kernel

theorem isValidKey_idOf {s : FNextPushId} (h : Good s) :
    FValidation.isValidKey (idOf s) = true := by
  have hlen := length_idOf h
  have hne : idOf s ≠ [] := by
    intro hnil
    simp [hnil] at hlen
  simp only [FValidation.isValidKey, Bool.and_eq_true, Bool.not_eq_true', List.isEmpty_eq_false_iff,
    List.all_eq_true]
  refine ⟨hne, ?_⟩
  intro c hc
  obtain ⟨i, hi, rfl⟩ := List.mem_map.mp hc
  simpa using character_valid i (digits_idOf h i hi)

/-! ## Sessions -/

/-- The generator and the keys that it has handed out. -/
structure Session where
  generator : FNextPushId
  ids : List Unichars

/-- A call at a time with random numbers. -/
structure Call where
  now : Nat
  random : Fin 12 → Nat

def Session.start : Session := ⟨initial, []⟩

def call (s : Session) (c : Call) : Option Session :=
  (get s.generator c.now c.random).map fun next => ⟨next.1, s.ids ++ [next.2]⟩

/-- The clock does not go back, and eight characters hold the time: until the year 10889. -/
def Clock (_ : List Call) (s : Session) (c : Call) : Prop :=
  s.generator.lastPushTime ≤ c.now ∧ c.now < 64 ^ 8

def Below (a b : Unichars) : Prop := FUtilities.compareKey (.string a) (.string b) = .lt

/-- The keys ascend, and the last one is the generator's. -/
structure Ascending (s : Session) : Prop where
  good : Good s.generator
  time : s.generator.lastPushTime < 64 ^ 8
  pairwise : s.ids.Pairwise Below
  last : ∀ id ∈ s.ids, id = idOf s.generator ∨ Below id (idOf s.generator)
  valid : ∀ id ∈ s.ids, FValidation.isValidKey id = true ∧ id.length = 20

theorem below_of_get {s s' : FNextPushId} (hs : Good s) (hs' : Good s') {now : Nat}
    (hnow : s'.lastPushTime = now) (hold : s.lastPushTime < 64 ^ 8)
    (hclock : s.lastPushTime ≤ now) (hbound : now < 64 ^ 8)
    (hstep : now = s.lastPushTime → value s'.lastRandChars = value s.lastRandChars + 1) :
    Below (idOf s) (idOf s') := by
  have hvalue := value_lt hs.digits
  rw [hs.length] at hvalue
  rw [Below, compareKey_idOf hs hs', Nat.compare_eq_lt, hnow, Nat.mod_eq_of_lt hold,
    Nat.mod_eq_of_lt hbound]
  by_cases hsame : now = s.lastPushTime
  · have h := hstep hsame
    omega
  · have hlt : s.lastPushTime + 1 ≤ now := by omega
    calc s.lastPushTime * 64 ^ 12 + value s.lastRandChars < (s.lastPushTime + 1) * 64 ^ 12 := by
          omega
      _ ≤ now * 64 ^ 12 := Nat.mul_le_mul_right _ hlt
      _ ≤ now * 64 ^ 12 + value s'.lastRandChars := Nat.le_add_right _ _

theorem below_trans {a b c : Unichars} (hab : Below a b) (hbc : Below b c) : Below a c :=
  TransCmp.lt_trans hab hbc

theorem Ascending.step {s s' : Session} {c : Call} (h : Ascending s) (hclock : Clock [] s c)
    (hstep : call s c = some s') : Ascending s' := by
  obtain ⟨next, hnext, rfl⟩ := Option.map_eq_some_iff.mp hstep
  rcases get_cases h.good c.now c.random with
    ⟨g, hg, hgood, htime, hcase⟩ | ⟨hnone, -, -⟩
  · rw [hg] at hnext
    cases hnext
    have hbelow : Below (idOf s.generator) (idOf g) := by
      refine below_of_get h.good hgood htime h.time hclock.1 hclock.2 ?_
      intro hsame
      rcases hcase with ⟨hne, -⟩ | ⟨-, hvalue⟩
      · exact absurd hsame hne
      · exact hvalue
    have hall : ∀ id ∈ s.ids, Below id (idOf g) := by
      intro id hid
      rcases h.last id hid with rfl | hlt
      · exact hbelow
      · exact below_trans hlt hbelow
    refine ⟨hgood, by rw [htime]; exact hclock.2, ?_, ?_, ?_⟩
    · rw [List.pairwise_append]
      refine ⟨h.pairwise, List.pairwise_singleton _ _, ?_⟩
      intro a ha b hb
      obtain rfl : b = idOf g := by simpa using hb
      exact hall a ha
    · intro id hid
      rcases List.mem_append.mp hid with hid | hid
      · exact Or.inr (hall id hid)
      · exact Or.inl (by simpa using hid)
    · intro id hid
      rcases List.mem_append.mp hid with hid | hid
      · exact h.valid id hid
      · obtain rfl : id = idOf g := by simpa using hid
        exact ⟨isValidKey_idOf hgood, length_idOf hgood⟩
  · rw [hnone] at hnext
    cases hnext

/-- However often a key is asked for, the keys ascend while the clock does not go back. So no two
are the same, and the children of a list come back in the order they were added in. -/
theorem ids_ascend {calls : List Call} {s : Session} (h : Runs.run call .start calls = some s)
    (hclock : Runs.EveryStep call Clock .start calls) :
    s.ids.length = calls.length ∧ s.ids.Pairwise Below ∧
      ∀ id ∈ s.ids, FValidation.isValidKey id = true ∧ id.length = 20 := by
  have hasc : Ascending s ∧ s.ids.length = calls.length := by
    refine Runs.run_induction_where (P := fun es t => Ascending t ∧ t.ids.length = es.length)
      ⟨⟨good_initial, by decide, List.Pairwise.nil, by simp [Session.start],
        by simp [Session.start]⟩, rfl⟩ ?_ hclock h
    rintro es t e u ⟨hasc, hlen⟩ hok hu
    refine ⟨hasc.step hok hu, ?_⟩
    obtain ⟨next, -, rfl⟩ := Option.map_eq_some_iff.mp hu
    simp [hlen]
  exact ⟨hasc.2, hasc.1.pairwise, hasc.1.valid⟩

theorem three_keys_ascend :
    ∃ s, Runs.run call .start [⟨1500000000000, fun i => i⟩, ⟨1500000000000, fun _ => 9⟩,
        ⟨1500000000001, fun _ => 0⟩] = some s ∧ s.ids.length = 3 ∧ s.ids.Pairwise Below := by
  refine ⟨_, rfl, ?_⟩
  have hclock : Runs.EveryStep call Clock .start [⟨1500000000000, fun i => i⟩,
      ⟨1500000000000, fun _ => 9⟩, ⟨1500000000001, fun _ => 0⟩] := by
    refine Runs.EveryStep.cons ⟨by decide, by decide⟩ rfl ?_
    refine Runs.EveryStep.cons ⟨by decide, by decide⟩ rfl ?_
    refine Runs.EveryStep.cons ⟨by decide, by decide⟩ rfl ?_
    exact Runs.everyStep_nil _ _
  obtain ⟨hlen, hpairwise, -⟩ := ids_ascend rfl hclock
  exact ⟨hlen, hpairwise⟩

/-! ## Too many keys at one time -/

theorem counts_at_once {s : Session} (hgood : Good s.generator) {calls : List Call}
    (hall : ∀ c ∈ calls, c.now = s.generator.lastPushTime) :
    (Runs.run call s calls).isSome ↔
      value s.generator.lastRandChars + calls.length < 64 ^ 12 := by
  induction calls generalizing s with
  | nil =>
    have hlt := value_lt hgood.digits
    rw [hgood.length] at hlt
    simpa using hlt
  | cons c cs ih =>
    have hnow : c.now = s.generator.lastPushTime := hall c (by simp)
    rcases get_cases hgood c.now c.random with
      ⟨g, hg, hgood', htime, ⟨hne, -⟩ | ⟨-, hvalue⟩⟩ | ⟨hnone, -, hfull⟩
    · exact absurd hnow hne
    · have hcs := ih (s := ⟨g, s.ids ++ [idOf g]⟩) hgood' (fun d hd => by
        rw [hall d (List.mem_cons_of_mem _ hd), htime, hnow])
      have hrun : Runs.run call s (c :: cs) = Runs.run call ⟨g, s.ids ++ [idOf g]⟩ cs := by
        simp [Runs.run, call, hg]
      rw [hrun, hcs, hvalue, List.length_cons]
      constructor
      · intro h
        omega
      · intro h
        omega
    · have hrun : Runs.run call s (c :: cs) = none := by simp [Runs.run, call, hnone]
      rw [hrun, List.length_cons]
      constructor
      · intro h
        cases h
      · intro h
        omega

/-- At one new time the generator writes in front of its array exactly when more keys are asked
for than are left above the number that the first call draws. -/
theorem keys_at_once {s : Session} {first : Call} {rest : List Call}
    (hnew : first.now ≠ s.generator.lastPushTime) (hall : ∀ c ∈ rest, c.now = first.now) :
    (Runs.run call s (first :: rest)).isSome ↔
      value (List.ofFn fun i => first.random i % 64) + rest.length < 64 ^ 12 := by
  have hget : get s.generator first.now first.random =
      some (⟨first.now, List.ofFn fun i => first.random i % 64⟩,
        idOf ⟨first.now, List.ofFn fun i => first.random i % 64⟩) := by
    simp [get, hnew, idOf]
  have hrun : Runs.run call s (first :: rest) =
      Runs.run call ⟨⟨first.now, List.ofFn fun i => first.random i % 64⟩,
        s.ids ++ [idOf ⟨first.now, List.ofFn fun i => first.random i % 64⟩]⟩ rest := by
    simp [Runs.run, call, hget]
  rw [hrun]
  exact counts_at_once (good_random first.now first.random) hall

theorem no_second_key_above_the_last :
    ¬ (Runs.run call .start [⟨1500000000000, fun _ => 63⟩, ⟨1500000000000, fun _ => 0⟩]).isSome := by
  rw [keys_at_once (by decide) (by decide)]
  decide

end FNextPushId

end HateBlocker
