-- A part of grep and sed: basic regular expressions without alternatives, the
-- leftmost and longest match, the `s` command with groups and the flag `g`, and
-- the `d` command.
import Mathlib.Data.Nat.Notation
import Mathlib.Data.List.TakeWhile

namespace Sed

/-! ## Matching -/

/-- A character of a set, or any number of them, in a numbered group or in none (0). -/
structure Piece where
  set : Char → Bool
  star : Bool
  group : ℕ

def one (set : Char → Bool) (group : ℕ) : Piece := ⟨set, false, group⟩
def many (set : Char → Bool) (group : ℕ) : Piece := ⟨set, true, group⟩

/-- The pieces of a text that stands for itself. -/
def literal (w : List Char) : List Piece := w.map (fun c => one (fun d => d == c) 0)

/-- A sequence of pieces, perhaps held to the start (`^`) or the end (`$`) of the line. -/
structure Regex where
  pieces : List Piece
  fromStart : Bool
  toEnd : Bool

/-- A regular expression without anchors. -/
def anywhere (pieces : List Piece) : Regex := ⟨pieces, false, false⟩

/-- The ways to take any number of characters of a set, longest first. -/
def runs (set : Char → Bool) : List Char → List (List Char × List Char)
  | [] => [([], [])]
  | c :: t =>
    if set c then (runs set t).map (fun x => (c :: x.1, x.2)) ++ [([], c :: t)] else [([], c :: t)]

/-- The ways to take a piece from the front of a text: what is taken, and the rest. -/
def Piece.takes (p : Piece) (t : List Char) : List (List Char × List Char) :=
  if p.star then runs p.set t
  else
    match t with
    | c :: rest => if p.set c then [([c], rest)] else []
    | [] => []

/-- What each piece took, with its group, and the text after the match. -/
structure Match where
  taken : List (ℕ × List Char)
  rest : List Char

def Match.cons (group : ℕ) (text : List Char) (m : Match) : Match :=
  ⟨(group, text) :: m.taken, m.rest⟩

/-- The text that a group matched. -/
def Match.captured (m : Match) (group : ℕ) : List Char :=
  (m.taken.filter (fun x => x.1 == group)).flatMap Prod.snd

/-- All matches at the front of a text. The earlier pieces take as much as they can first. -/
def parses : List Piece → List Char → List Match
  | [], t => [⟨[], t⟩]
  | p :: ps, t => (p.takes t).flatMap (fun x => (parses ps x.2).map (Match.cons p.group x.1))

/-- The longest match, and of several the one whose earlier pieces took more. -/
def longest : List Match → Option Match
  | [] => none
  | m :: ms =>
    match longest ms with
    | some m' => if m'.rest.length < m.rest.length then some m' else some m
    | none => some m

/-- The match at the front of `t`, where `t` is a whole line or the end of one. -/
def matchAt (r : Regex) (atStart : Bool) (t : List Char) : Option Match :=
  if r.fromStart && !atStart then none
  else longest ((parses r.pieces t).filter (fun m => !r.toEnd || m.rest.isEmpty))

/-- The leftmost match, with the text before it. -/
def find (r : Regex) (atStart : Bool) : List Char → Option (List Char × Match)
  | [] => (matchAt r atStart []).map (fun m => ([], m))
  | c :: t =>
    match matchAt r atStart (c :: t) with
    | some m => some ([], m)
    | none => (find r false t).map (fun x => (c :: x.1, x.2))

/-! ## Commands -/

/-- A part of a replacement: a text, or what a group matched. -/
inductive Part
  | text (w : List Char)
  | group (n : ℕ)

def expand (parts : List Part) (m : Match) : List Char :=
  parts.flatMap fun
    | .text w => w
    | .group n => m.captured n

/-- The `s` command. -/
def substitute (r : Regex) (parts : List Part) (t : List Char) : List Char :=
  match find r true t with
  | some (before, m) => before ++ expand parts m ++ m.rest
  | none => t

/-- The `s` command with the flag `g`, from some place in the line. A match without text right
after another match is passed over. Each turn takes a character at least, so more fuel than
characters is enough. -/
def replaceFrom (r : Regex) (parts : List Part) : ℕ → Bool → Bool → List Char → List Char
  | 0, _, _, t => t
  | fuel + 1, atStart, afterMatch, t =>
    match matchAt r atStart t with
    | some m =>
      if m.rest.length < t.length then expand parts m ++ replaceFrom r parts fuel false true m.rest
      else
        (if afterMatch then [] else expand parts m) ++
          match t with
          | c :: t' => c :: replaceFrom r parts fuel false false t'
          | [] => []
    | none =>
      match t with
      | c :: t' => c :: replaceFrom r parts fuel false false t'
      | [] => []

def substituteAll (r : Regex) (parts : List Part) (t : List Char) : List Char :=
  replaceFrom r parts (t.length + 1) true false t

inductive Command
  | substitute (r : Regex) (parts : List Part)
  | substituteAll (r : Regex) (parts : List Part)
  | delete (r : Regex)

/-- A command on the pattern space. A deleted line is gone. -/
def Command.run (t : List Char) : Command → Option (List Char)
  | .substitute r parts => some (Sed.substitute r parts t)
  | .substituteAll r parts => some (Sed.substituteAll r parts t)
  | .delete r => if (find r true t).isSome then none else some t

/-- The commands of a script on one line, in order. -/
def runScript : List Command → List Char → Option (List Char)
  | [], t => some t
  | c :: cs, t => (c.run t).bind (runScript cs)

theorem runScript_append (cs ds : List Command) (t : List Char) :
    runScript (cs ++ ds) t = (runScript cs t).bind (runScript ds) := by
  induction cs generalizing t with
  | nil => rfl
  | cons c cs ih =>
    simp only [List.cons_append, runScript]
    cases c.run t with
    | none => rfl
    | some u => exact ih u

/-! ## Lines -/

/-- The lines of a text, without the line feeds that end them. -/
def lines : List Char → List (List Char)
  | [] => []
  | c :: t =>
    if c = '\n' then [] :: lines t
    else
      match lines t with
      | l :: ls => (c :: l) :: ls
      | [] => [[c]]

def unlines (ls : List (List Char)) : List Char := ls.flatMap (fun l => l ++ ['\n'])

/-- `grep -e`. -/
def grep (r : Regex) (ls : List (List Char)) : List (List Char) :=
  ls.filter (fun l => (find r true l).isSome)

def sed (script : List Command) (ls : List (List Char)) : List (List Char) :=
  ls.filterMap (runScript script)

theorem lines_append {l : List Char} (h : '\n' ∉ l) (t : List Char) :
    lines (l ++ '\n' :: t) = l :: lines t := by
  induction l with
  | nil => simp [lines]
  | cons c l ih =>
    simp only [List.mem_cons, not_or] at h
    simp [lines, Ne.symm h.1, ih h.2]

/-- Lines that hold no line feed survive being written and read. -/
theorem lines_unlines {ls : List (List Char)} (h : ∀ l ∈ ls, '\n' ∉ l) :
    lines (unlines ls) = ls := by
  induction ls with
  | nil => rfl
  | cons l ls ih =>
    have hcons : unlines (l :: ls) = l ++ '\n' :: unlines ls := by simp [unlines]
    rw [hcons, lines_append (h l (by simp)), ih (fun l' hl' => h l' (List.mem_cons_of_mem _ hl'))]

/-! ## Runs of characters -/

/-- A run takes all characters of the set first; any other way to take it leaves one of them in
front of a rest that is no shorter. -/
theorem runs_append {set : Char → Bool} {ds t : List Char} (hds : ∀ c ∈ ds, set c = true)
    (ht : ∀ c r, t = c :: r → set c = false) :
    ∃ shorter, runs set (ds ++ t) = (ds, t) :: shorter ∧
      ∀ x ∈ shorter, t.length ≤ x.2.length ∧ ∃ c r, x.2 = c :: r ∧ set c = true := by
  induction ds with
  | nil =>
    refine ⟨[], ?_, by simp⟩
    cases t with
    | nil => rfl
    | cons c r => simp [runs, ht c r rfl]
  | cons d ds ih =>
    obtain ⟨shorter, heq, hshorter⟩ := ih (fun c hc => hds c (List.mem_cons_of_mem _ hc))
    have hd : set d = true := hds d (by simp)
    refine ⟨shorter.map (fun x => (d :: x.1, x.2)) ++ [([], d :: (ds ++ t))], ?_, ?_⟩
    · simp [runs, hd, heq]
    · intro x hx
      rcases List.mem_append.mp hx with hx | hx
      · obtain ⟨y, hy, rfl⟩ := List.mem_map.mp hx
        exact hshorter y hy
      · obtain rfl := List.mem_singleton.mp hx
        exact ⟨by simp; omega, d, ds ++ t, rfl, hd⟩

theorem parses_one_cons (set : Char → Bool) (group : ℕ) (ps : List Piece) (c : Char)
    (t : List Char) :
    parses (one set group :: ps) (c :: t) =
      if set c then (parses ps t).map (Match.cons group [c]) else [] := by
  by_cases hc : set c = true
  · simp [parses, one, Piece.takes, hc]
  · simp [parses, one, Piece.takes, hc]

/-- A run that a character outside the set must follow has only one way to match. -/
theorem parses_many_one {set stop : Char → Bool} {group group' : ℕ} {ps : List Piece}
    {ds t : List Char} {c : Char} (hds : ∀ d ∈ ds, set d = true) (hc : stop c = true)
    (hdisjoint : ∀ d, set d = true → stop d = false) :
    parses (many set group :: one stop group' :: ps) (ds ++ c :: t) =
      (parses ps t).map (fun m => (m.cons group' [c]).cons group ds) := by
  have hset : set c = false := by
    by_contra hne
    have hstop := hdisjoint c (by simpa using hne)
    rw [hc] at hstop
    cases hstop
  have ht : ∀ d r, c :: t = d :: r → set d = false := by
    rintro d r ⟨⟩
    exact hset
  obtain ⟨shorter, heq, hshorter⟩ := runs_append hds ht
  have hnone : shorter.flatMap (fun x =>
      (parses (one stop group' :: ps) x.2).map (Match.cons group x.1)) = [] := by
    rw [List.flatMap_eq_nil_iff]
    intro x hx
    obtain ⟨-, d, r, hxr, hd⟩ := hshorter x hx
    simp [hxr, parses_one_cons, hdisjoint d hd]
  have hunfold : parses (many set group :: one stop group' :: ps) (ds ++ c :: t) =
      (runs set (ds ++ c :: t)).flatMap (fun x =>
        (parses (one stop group' :: ps) x.2).map (Match.cons group x.1)) := rfl
  rw [hunfold, heq, List.flatMap_cons, hnone, List.append_nil, parses_one_cons, if_pos hc,
    List.map_map]
  rfl

/-- A run at the end of an expression. -/
theorem parses_many_last (set : Char → Bool) (group : ℕ) {ds t : List Char}
    (hds : ∀ c ∈ ds, set c = true) (ht : ∀ c r, t = c :: r → set c = false) :
    ∃ shorter, parses [many set group] (ds ++ t) = ⟨[(group, ds)], t⟩ :: shorter ∧
      ∀ m ∈ shorter, t.length ≤ m.rest.length := by
  obtain ⟨shorter, heq, hshorter⟩ := runs_append hds ht
  have hmap : parses [many set group] (ds ++ t) =
      (runs set (ds ++ t)).map (fun x => ⟨[(group, x.1)], x.2⟩) := by
    rw [List.map_eq_flatMap]
    rfl
  refine ⟨shorter.map (fun x => ⟨[(group, x.1)], x.2⟩), ?_, ?_⟩
  · rw [hmap, heq, List.map_cons]
  · intro m hm
    obtain ⟨x, hx, rfl⟩ := List.mem_map.mp hm
    exact (hshorter x hx).1

/-! ## The match that is chosen -/

theorem longest_mem {ms : List Match} {m : Match} (h : longest ms = some m) : m ∈ ms := by
  induction ms generalizing m with
  | nil => cases h
  | cons m' ms ih =>
    simp only [longest] at h
    split at h
    · rename_i m'' hm''
      split at h
      · cases h
        exact List.mem_cons_of_mem _ (ih hm'')
      · cases h
        exact List.mem_cons_self
    · cases h
      exact List.mem_cons_self

/-- The first match is chosen when no other is longer. -/
theorem longest_cons_of_le {m : Match} {ms : List Match}
    (h : ∀ m' ∈ ms, m.rest.length ≤ m'.rest.length) : longest (m :: ms) = some m := by
  simp only [longest]
  split
  · rename_i m' hm'
    have hle := h m' (longest_mem hm')
    rw [if_neg (by omega)]
  · rfl

theorem matchAt_anywhere (ps : List Piece) (atStart : Bool) (t : List Char) :
    matchAt (anywhere ps) atStart t = longest (parses ps t) := by
  simp only [matchAt, anywhere, Bool.false_and, Bool.false_eq_true, if_false, Bool.not_false,
    Bool.true_or, List.filter_eq_self.mpr (fun _ _ => rfl)]

/-- A match at the start of the line is the leftmost one. -/
theorem substitute_of_matchAt {r : Regex} {t : List Char} {m : Match} (parts : List Part)
    (h : matchAt r true t = some m) : substitute r parts t = expand parts m ++ m.rest := by
  cases t <;> simp [substitute, find, h]

theorem find_false_of_fromStart {r : Regex} (hr : r.fromStart = true) (t : List Char) :
    find r false t = none := by
  induction t with
  | nil => simp [find, matchAt, hr]
  | cons c t ih => simp [find, matchAt, hr, ih]

/-- An expression held to the start matches there or nowhere. -/
theorem find_of_fromStart {r : Regex} (hr : r.fromStart = true) (t : List Char) :
    find r true t = (matchAt r true t).map (fun m => ([], m)) := by
  cases t with
  | nil => rfl
  | cons c t =>
    simp only [find, find_false_of_fromStart hr]
    cases matchAt r true (c :: t) <;> rfl

/-! ## Replacing a text -/

/-- `s/w/y/` for a text `w` that stands for itself. -/
def replace (w y : List Char) : List Char → List Char :=
  substitute (anywhere (literal w)) [.text y]

theorem parses_literal_append (w t : List Char) :
    parses (literal w) (w ++ t) = [⟨w.map (fun c => (0, [c])), t⟩] := by
  induction w with
  | nil => rfl
  | cons c w ih =>
    have hcons : literal (c :: w) = one (fun d => d == c) 0 :: literal w := rfl
    rw [hcons, List.cons_append, parses_one_cons, ih]
    simp [Match.cons]

theorem parses_literal_of_not_prefix {w t : List Char} (h : ¬ w <+: t) :
    parses (literal w) t = [] := by
  induction w generalizing t with
  | nil => exact absurd (List.nil_prefix) h
  | cons c w ih =>
    have hcons : literal (c :: w) = one (fun d => d == c) 0 :: literal w := rfl
    cases t with
    | nil => rfl
    | cons d t =>
      rw [hcons, parses_one_cons]
      split
      · rename_i hdc
        obtain rfl : d = c := by simpa using hdc
        rw [ih (fun hw => h (List.cons_prefix_cons.mpr ⟨rfl, hw⟩))]
        rfl
      · rfl

theorem find_anywhere (ps : List Piece) (b b' : Bool) (t : List Char) :
    find (anywhere ps) b t = find (anywhere ps) b' t := by
  cases t <;> simp [find, matchAt_anywhere]

/-- At the text itself it is replaced. -/
theorem replace_append (w y t : List Char) : replace w y (w ++ t) = y ++ t := by
  have hm : matchAt (anywhere (literal w)) true (w ++ t) =
      some ⟨w.map (fun c => (0, [c])), t⟩ := by
    rw [matchAt_anywhere, parses_literal_append]
    rfl
  rw [replace, substitute_of_matchAt _ hm]
  simp [expand]

/-- A character where the text does not begin stays. -/
theorem replace_cons {w : List Char} (y : List Char) {c : Char} {t : List Char}
    (h : ¬ w <+: c :: t) : replace w y (c :: t) = c :: replace w y t := by
  have hm : matchAt (anywhere (literal w)) true (c :: t) = none := by
    rw [matchAt_anywhere, parses_literal_of_not_prefix h]
    rfl
  simp only [replace, substitute, find, hm, find_anywhere _ false true]
  cases find (anywhere (literal w)) true t <;> rfl

/-- So do all characters up to the first with which the text could begin. -/
theorem replace_append_of_notMem {q : Char} {w : List Char} (y : List Char) {u : List Char}
    (h : q ∉ u) (t : List Char) : replace (q :: w) y (u ++ t) = u ++ replace (q :: w) y t := by
  induction u with
  | nil => rfl
  | cons c u ih =>
    simp only [List.mem_cons, not_or] at h
    have hne : ¬ q :: w <+: c :: (u ++ t) := fun hw => h.1 (List.cons_prefix_cons.mp hw).1
    rw [List.cons_append, replace_cons y hne, ih h.2, List.cons_append]

theorem replace_of_notMem {q : Char} {w : List Char} (y : List Char) {u : List Char}
    (h : q ∉ u) : replace (q :: w) y u = u := by
  have hnil : replace (q :: w) y [] = [] := rfl
  simpa [hnil] using replace_append_of_notMem (w := w) y h []

/-- The text up to the first delimiter is unique. -/
theorem delimited_inj {q : Char} {a b s t : List Char} (ha : q ∉ a) (hb : q ∉ b)
    (h : a ++ q :: s = b ++ q :: t) : a = b ∧ s = t := by
  induction a generalizing b with
  | nil =>
    cases b with
    | nil => exact ⟨rfl, (List.cons.inj h).2⟩
    | cons d b => exact absurd (List.cons.inj h).1 (fun heq => hb (by simp [heq]))
  | cons c a ih =>
    cases b with
    | nil => exact absurd (List.cons.inj h).1 (fun heq => ha (by simp [heq]))
    | cons d b =>
      obtain ⟨rfl, htail⟩ := List.cons.inj h
      simp only [List.mem_cons, not_or] at ha hb
      obtain ⟨rfl, rfl⟩ := ih ha.2 hb.2 htail
      exact ⟨rfl, rfl⟩

/-- A delimited text begins with another one when the two agree up to the second delimiter. -/
theorem delimited_prefix_iff {q : Char} {w w' u t : List Char} (hw : q ∉ w) (hu : q ∉ u) :
    q :: (w ++ q :: w') <+: q :: (u ++ q :: t) ↔ w = u ∧ w' <+: t := by
  rw [List.cons_prefix_cons]
  constructor
  · rintro ⟨-, r, hr⟩
    rw [List.append_assoc, List.cons_append] at hr
    obtain ⟨rfl, ht⟩ := delimited_inj hw hu hr
    exact ⟨rfl, r, ht⟩
  · rintro ⟨rfl, r, rfl⟩
    exact ⟨rfl, r, by simp⟩

/-- A delimited text that does not go on as the searched one stays. -/
theorem replace_delimited {q : Char} {w w' : List Char} (y : List Char) {u t : List Char}
    (hw : q ∉ w) (hu : q ∉ u) (h : w = u → ¬ w' <+: t) :
    replace (q :: (w ++ q :: w')) y (q :: (u ++ q :: t)) =
      q :: (u ++ replace (q :: (w ++ q :: w')) y (q :: t)) := by
  have hne : ¬ q :: (w ++ q :: w') <+: q :: (u ++ q :: t) := by
    rw [delimited_prefix_iff hw hu]
    rintro ⟨heq, hpre⟩
    exact h heq hpre
  rw [replace_cons y hne, replace_append_of_notMem y hu]

/-- The characters of the outcome come from the text or from the replacement. -/
theorem mem_replace {w y t : List Char} {c : Char} (h : c ∈ replace w y t) : c ∈ t ∨ c ∈ y := by
  induction t with
  | nil =>
    cases w with
    | nil =>
      have hy := replace_append [] y []
      rw [List.append_nil] at hy
      rw [hy, List.append_nil] at h
      exact Or.inr h
    | cons q w => cases h
  | cons d t ih =>
    by_cases hw : w <+: d :: t
    · obtain ⟨r, hr⟩ := hw
      rw [← hr, replace_append, List.mem_append] at h
      rcases h with h | h
      · exact Or.inr h
      · left
        rw [← hr]
        exact List.mem_append_right _ h
    · rw [replace_cons y hw, List.mem_cons] at h
      rcases h with rfl | h
      · exact Or.inl List.mem_cons_self
      · rcases ih h with h | h
        · exact Or.inl (List.mem_cons_of_mem _ h)
        · exact Or.inr h

/-! ## Erasing characters -/

/-- The expression matches only characters of the set, and one at least wherever one stands. -/
structure Erases (r : Regex) (set : Char → Bool) : Prop where
  outside : ∀ b c t m, set c = false → matchAt r b (c :: t) = some m →
    (c :: t).length ≤ m.rest.length
  inside : ∀ b c t, set c = true → ∃ m ds, matchAt r b (c :: t) = some m ∧
    c :: t = ds ++ m.rest ∧ ds ≠ [] ∧ ∀ d ∈ ds, set d = true

/-- A character outside the set stays, even where the expression matches without text. -/
theorem Erases.replaceFrom_keep {r : Regex} {set : Char → Bool} (h : Erases r set) (fuel : ℕ)
    (atStart afterMatch : Bool) {c : Char} (t : List Char) (hc : set c = false) :
    replaceFrom r [] (fuel + 1) atStart afterMatch (c :: t) =
      c :: replaceFrom r [] fuel false false t := by
  simp only [replaceFrom]
  cases hm : matchAt r atStart (c :: t) with
  | none => rfl
  | some m =>
    have hlong : ¬ m.rest.length < (c :: t).length :=
      Nat.not_lt.mpr (h.outside atStart c t m hc hm)
    simp only [if_neg hlong]
    simp [expand]

/-- A character of the set goes, with others of the set that follow it. -/
theorem Erases.replaceFrom_drop {r : Regex} {set : Char → Bool} (h : Erases r set) (fuel : ℕ)
    (atStart afterMatch : Bool) {c : Char} (t : List Char) (hc : set c = true) :
    ∃ ds rest, c :: t = ds ++ rest ∧ ds ≠ [] ∧ (∀ d ∈ ds, set d = true) ∧
      replaceFrom r [] (fuel + 1) atStart afterMatch (c :: t) =
        replaceFrom r [] fuel false true rest := by
  obtain ⟨m, ds, hm, heq, hne, hds⟩ := h.inside atStart c t hc
  have hpos : 0 < ds.length := List.length_pos_iff.mpr hne
  have hlong := congrArg List.length heq
  rw [List.length_append] at hlong
  have hshort : m.rest.length < (c :: t).length := by omega
  refine ⟨ds, m.rest, heq, hne, hds, ?_⟩
  simp only [replaceFrom, hm, if_pos hshort]
  simp [expand]

theorem replaceFrom_erases {r : Regex} {set : Char → Bool} (h : Erases r set) {fuel : ℕ}
    (atStart afterMatch : Bool) {t : List Char} (hfuel : t.length < fuel) :
    replaceFrom r [] fuel atStart afterMatch t = t.filter (fun c => !set c) := by
  induction fuel generalizing atStart afterMatch t with
  | zero => omega
  | succ fuel ih =>
    cases t with
    | nil =>
      simp only [replaceFrom]
      cases matchAt r atStart [] <;> simp [expand]
    | cons c t =>
      have hlen : t.length < fuel := by simpa using hfuel
      cases hc : set c with
      | false =>
        rw [h.replaceFrom_keep fuel atStart afterMatch t hc, ih false false hlen]
        simp [hc]
      | true =>
        obtain ⟨ds, rest, heq, hne, hds, hdrop⟩ :=
          h.replaceFrom_drop fuel atStart afterMatch t hc
        have hpos : 0 < ds.length := List.length_pos_iff.mpr hne
        have hsum := congrArg List.length heq
        rw [List.length_append, List.length_cons] at hsum
        have hnone : ds.filter (fun c => !set c) = [] := by
          rw [List.filter_eq_nil_iff]
          intro d hd
          simp [hds d hd]
        rw [hdrop, ih false true (by omega), heq, List.filter_append, hnone, List.nil_append]

/-- The flag `g` with nothing for the replacement erases the characters of the set. -/
theorem substituteAll_erases {r : Regex} {set : Char → Bool} (h : Erases r set) (t : List Char) :
    substituteAll r [] t = t.filter (fun c => !set c) :=
  replaceFrom_erases h true false (by omega)

theorem erases_one (set : Char → Bool) (group : ℕ) : Erases (anywhere [one set group]) set where
  outside := by
    intro b c t m hc hm
    rw [matchAt_anywhere, parses_one_cons, hc] at hm
    cases hm
  inside := by
    intro b c t hc
    refine ⟨⟨[(group, [c])], t⟩, [c], ?_, rfl, by simp, by simpa using hc⟩
    rw [matchAt_anywhere, parses_one_cons, hc]
    rfl

/-- A run of characters of the set is taken whole. -/
theorem matchAt_many (set : Char → Bool) (group : ℕ) {ds t : List Char} (atStart : Bool)
    (hds : ∀ c ∈ ds, set c = true) (ht : ∀ c r, t = c :: r → set c = false) :
    matchAt (anywhere [many set group]) atStart (ds ++ t) = some ⟨[(group, ds)], t⟩ := by
  obtain ⟨shorter, heq, hshorter⟩ := parses_many_last set group hds ht
  rw [matchAt_anywhere, heq]
  exact longest_cons_of_le hshorter

theorem erases_many (set : Char → Bool) (group : ℕ) : Erases (anywhere [many set group]) set where
  outside := by
    intro b c t m hc hm
    have hnone : ∀ d r, c :: t = d :: r → set d = false := by
      rintro d r ⟨⟩
      exact hc
    have hempty : matchAt (anywhere [many set group]) b ([] ++ c :: t) =
        some ⟨[(group, [])], c :: t⟩ := matchAt_many set group b (by simp) hnone
    rw [List.nil_append] at hempty
    rw [hempty] at hm
    cases hm
    exact Nat.le_refl _
  inside := by
    intro b c t hc
    have hds : ∀ d ∈ (c :: t).takeWhile set, set d = true := fun d hd => List.mem_takeWhile_imp hd
    have ht : ∀ d r, (c :: t).dropWhile set = d :: r → set d = false := by
      intro d r heq
      have hhead := List.head?_dropWhile_not set (c :: t)
      rw [heq] at hhead
      simpa using hhead
    have hm := matchAt_many set group b hds ht
    rw [List.takeWhile_append_dropWhile] at hm
    exact ⟨_, _, hm, List.takeWhile_append_dropWhile.symm, by simp [hc], hds⟩

end Sed
