-- `structure_command.sh`: grep and sed make the training data out of the labelled
-- CSV file, line by line. Which files do they convert record by record, and can a
-- tweet change its label?
import HateBlocker.Json
import HateBlocker.Sed
import Mathlib.Data.List.Forall2

open Json Sed

namespace HateBlocker

/-! ## The CSV file -/

/-- A decimal field. -/
structure Count where
  digits : List Char
  nonempty : digits ≠ []
  decimal : ∀ c ∈ digits, isDigit c = true

def Count.ofDigit (c : Char) (h : isDigit c = true) : Count := ⟨[c], by simp, by simpa using h⟩

inductive Label
  | hateful
  | offensive
  | correct
  deriving DecidableEq

/-- The column `class`. -/
def Label.digit : Label → Char
  | .hateful => '0'
  | .offensive => '1'
  | .correct => '2'

def Label.name : Label → String
  | .hateful => "hateful"
  | .offensive => "offensive"
  | .correct => "correct"

/-- The text needs no quotes around it. -/
def Plain (t : List Char) : Prop := ∀ c ∈ t, c ∉ [',', '"', '\r', '\n']

/-- A record. The tweet is quoted, unless it is plain. -/
structure Row where
  index : Count
  count : Count
  hateSpeech : Count
  offensiveLanguage : Count
  neither : Count
  label : Label
  tweet : List Char
  quoted : Bool
  plain_or_quoted : quoted = true ∨ Plain tweet

/-- A text in quotes, with each quote in it doubled. -/
def quote (t : List Char) : List Char :=
  '"' :: (t.flatMap (fun c => if c = '"' then ['"', '"'] else [c]) ++ ['"'])

def Row.tweetField (r : Row) : List Char := if r.quoted then quote r.tweet else r.tweet

/-- Five counts, a class and the rest of a line. -/
def lineOf (index count hateSpeech offensiveLanguage neither : Count) (label : Label)
    (field : List Char) : List Char :=
  index.digits ++ ',' :: (count.digits ++ ',' :: (hateSpeech.digits ++ ',' ::
    (offensiveLanguage.digits ++ ',' :: (neither.digits ++ ',' :: label.digit :: ',' :: field))))

def Row.line (r : Row) : List Char :=
  lineOf r.index r.count r.hateSpeech r.offensiveLanguage r.neither r.label r.tweetField

def header : List Char := ",count,hate_speech,offensive_language,neither,class,tweet".toList

def csv (rows : List Row) : List Char := unlines (header :: rows.map Row.line)

/-! ## The script -/

def comma : Char → Bool := fun c => c == ','

/-- `^[0-9][0-9]*,` -/
def recordStart : Regex := ⟨[one isDigit 0, many isDigit 0, one comma 0], true, false⟩

/-- `[0-9]*,[0-9]*,[0-9]*,[0-9]*,[0-9]*,` -/
def counts : Regex :=
  anywhere [many isDigit 0, one comma 0, many isDigit 0, one comma 0, many isDigit 0, one comma 0,
    many isDigit 0, one comma 0, many isDigit 0, one comma 0]

/-- `^$` -/
def emptyLine : Regex := ⟨[], true, true⟩

/-- `"*` -/
def quotes : Regex := anywhere [many (fun c => c == '"') 0]

/-- `\([0-9]*\),\(.*\)` -/
def classAndTweet : Regex := anywhere [many isDigit 1, one comma 0, many (fun _ => true) 2]

/-- The replacement of `classAndTweet`. -/
def template : List Part :=
  [.text "\x7b\r\"text\": \"".toList, .group 2, .text "\",\r\"label\": \"".toList, .group 1,
    .text "\"\r\x7d,".toList]

/-- The sed commands of the first pipeline. -/
def plainScript : List Command :=
  [.substitute counts [], .delete emptyLine, .substituteAll quotes [],
    .substitute classAndTweet template]

/-- `\\` -/
def backslash : Regex := anywhere [one (fun c => c == '\\') 0]

/-- `"label": "…"` -/
def labelText (l : List Char) : List Char :=
  '"' :: ("label".toList ++ '"' :: (": ".toList ++ '"' :: (l ++ ['"'])))

/-- `s/"label": "old"/"label": "new"/` -/
def rename (old new : String) : Command :=
  .substitute (anywhere (literal (labelText old.toList))) [.text (labelText new.toList)]

/-- The sed commands of the second pipeline. -/
def namedScript : List Command :=
  plainScript ++ [.substituteAll backslash [], rename "2" "correct", rename "1" "offensive",
    rename "0" "hateful"]

/-- What the second pipeline prints for a file. -/
def structureCommand (file : List Char) : List Char :=
  unlines (sed namedScript (grep recordStart (lines file)))

/-- A text without its last comma. -/
def dropFinalComma (t : List Char) : List Char := (t.reverse.erase ',').reverse

/-- The output in brackets and without the final comma. -/
def structuredData (file : List Char) : List Char :=
  '[' :: (dropFinalComma (structureCommand file) ++ [']'])

/-! ## One line -/

/-- What the script makes of a line with the text `t` and the label `l`. -/
def block (t l : List Char) : List Char :=
  "\x7b\r".toList ++ '"' :: ("text".toList ++ '"' :: (": ".toList ++ '"' :: (t ++ '"' ::
    (",\r".toList ++ '"' :: ("label".toList ++ '"' :: (": ".toList ++ '"' :: (l ++ '"' ::
      "\r\x7d,".toList)))))))

/-- A text without its quotes and backslashes. -/
def clean (t : List Char) : List Char :=
  (t.filter (fun c => !(c == '"'))).filter (fun c => !(c == '\\'))

theorem isDigit_disjoint_comma (d : Char) (h : isDigit d = true) : comma d = false := by
  by_contra hne
  have hd : d = ',' := by simpa [comma] using hne
  subst hd
  exact absurd h (by decide)

/-- The first command takes the five counts off. -/
theorem substitute_counts (a b c d e : Count) (t : List Char) :
    substitute counts [] (a.digits ++ ',' :: (b.digits ++ ',' :: (c.digits ++ ',' ::
      (d.digits ++ ',' :: (e.digits ++ ',' :: t))))) = t := by
  have hcomma : comma ',' = true := rfl
  have hm : ∃ m, matchAt counts true (a.digits ++ ',' :: (b.digits ++ ',' :: (c.digits ++ ',' ::
      (d.digits ++ ',' :: (e.digits ++ ',' :: t))))) = some m ∧ m.rest = t := by
    rw [counts, matchAt_anywhere, parses_many_one a.decimal hcomma isDigit_disjoint_comma,
      parses_many_one b.decimal hcomma isDigit_disjoint_comma,
      parses_many_one c.decimal hcomma isDigit_disjoint_comma,
      parses_many_one d.decimal hcomma isDigit_disjoint_comma,
      parses_many_one e.decimal hcomma isDigit_disjoint_comma]
    exact ⟨_, rfl, rfl⟩
  obtain ⟨m, hm, hrest⟩ := hm
  rw [substitute_of_matchAt [] hm, hrest]
  rfl

/-- Only an empty line is deleted. -/
theorem run_delete_emptyLine (c : Char) (t : List Char) :
    (Command.delete emptyLine).run (c :: t) = some (c :: t) := by
  have hnone : find emptyLine true (c :: t) = none := by
    rw [find_of_fromStart rfl]
    rfl
  simp [Command.run, hnone]

theorem substitute_template (l : Label) (t : List Char) :
    substitute classAndTweet template (l.digit :: ',' :: t) = block t [l.digit] := by
  have hclass : isDigit l.digit = true := by
    cases l <;> rfl
  have hdigit : ∀ c ∈ [l.digit], isDigit c = true := by
    simpa using hclass
  have hall : ∀ c ∈ t, (fun _ : Char => true) c = true := fun _ _ => rfl
  obtain ⟨shorter, hmany, hshorter⟩ := parses_many_last _ 2 (t := []) hall (by simp)
  rw [List.append_nil] at hmany
  have hm : matchAt classAndTweet true (l.digit :: ',' :: t) =
      some ⟨[(1, [l.digit]), (0, [',']), (2, t)], []⟩ := by
    have hfront : parses [many isDigit 1, one comma 0, many (fun _ => true) 2]
        ([l.digit] ++ ',' :: t) = (parses [many (fun _ => true) 2] t).map
          (fun m => (m.cons 0 [',']).cons 1 [l.digit]) :=
      parses_many_one hdigit rfl isDigit_disjoint_comma
    rw [List.singleton_append] at hfront
    rw [classAndTweet, matchAt_anywhere, hfront, hmany, List.map_cons]
    exact longest_cons_of_le (by simp [Match.cons])
  rw [substitute_of_matchAt _ hm]
  simp [expand, template, block, Match.captured]

/-- A quoted piece stays, unless it is the key `label` and the old name follows. -/
theorem replace_labelText_skip {old y u t : List Char} (hu : '"' ∉ u)
    (h : "label".toList = u → ¬ ": ".toList ++ '"' :: (old ++ ['"']) <+: t) :
    replace (labelText old) y ('"' :: (u ++ '"' :: t)) =
      '"' :: (u ++ replace (labelText old) y ('"' :: t)) :=
  replace_delimited y (by decide) hu h

theorem replace_labelText_append {old y u : List Char} (hu : '"' ∉ u) (t : List Char) :
    replace (labelText old) y (u ++ t) = u ++ replace (labelText old) y t :=
  replace_append_of_notMem y hu t

theorem replace_labelText_hit (old new t : List Char) :
    replace (labelText old) (labelText new)
        ('"' :: ("label".toList ++ '"' :: (": ".toList ++ '"' :: (old ++ '"' :: t)))) =
      '"' :: ("label".toList ++ '"' :: (": ".toList ++ '"' :: (new ++ '"' :: t))) := by
  have hsplit : ∀ l, '"' :: ("label".toList ++ '"' :: (": ".toList ++ '"' :: (l ++ '"' :: t))) =
      labelText l ++ t := by
    intro l
    simp only [labelText, List.cons_append, List.append_assoc, List.nil_append]
  rw [hsplit, hsplit, replace_append]

/-- A label that neither ends its string nor is taken for the key. -/
def Named (l : List Char) : Prop := '"' ∉ l ∧ "label".toList ≠ l

instance (l : List Char) : Decidable (Named l) := inferInstanceAs (Decidable (_ ∧ _))

/-- After the label no other key `label` comes. -/
theorem replace_labelText_miss {old l : List Char} (y : List Char) (hold : '"' ∉ old)
    (hl : Named l) (hne : old ≠ l) :
    replace (labelText old) y
        ('"' :: ("label".toList ++ '"' :: (": ".toList ++ '"' :: (l ++ '"' :: "\r\x7d,".toList)))) =
      '"' :: ("label".toList ++ '"' :: (": ".toList ++ '"' :: (l ++ '"' :: "\r\x7d,".toList))) := by
  have hother : ¬ ": ".toList ++ '"' :: (old ++ ['"']) <+:
      ": ".toList ++ '"' :: (l ++ '"' :: "\r\x7d,".toList) := by
    rw [List.prefix_append_right_inj, delimited_prefix_iff hold hl.1]
    rintro ⟨heq, -⟩
    exact hne heq
  have hno : ¬ labelText old <+: '"' :: "\r\x7d,".toList := by
    intro hpre
    exact absurd (List.cons_prefix_cons.mp (List.cons_prefix_cons.mp hpre).2).1 (by decide)
  have hend : replace (labelText old) y "\r\x7d,".toList = "\r\x7d,".toList :=
    replace_of_notMem y (by decide)
  rw [replace_labelText_skip (by decide) (fun _ => hother),
    replace_labelText_skip (by decide) (fun h => absurd h (by decide)),
    replace_labelText_skip hl.1 (fun h => absurd h hl.2), replace_cons y hno, hend]

/-- A renaming changes the label of the block and nothing else, whatever the text says. -/
theorem replace_labelText_block {old new t l : List Char} (hold : '"' ∉ old) (ht : '"' ∉ t)
    (hl : Named l) :
    replace (labelText old) (labelText new) (block t l) =
      block t (if old = l then new else l) := by
  -- after the text comes a comma, so even the text `label` is not taken for the key
  have htext : ∀ rest, "label".toList = t → ¬ ": ".toList ++ '"' :: (old ++ ['"']) <+:
      ",\r".toList ++ rest := by
    intro rest _ hpre
    exact absurd (List.cons_prefix_cons.mp hpre).1 (by decide)
  rw [block, replace_labelText_append (by decide),
    replace_labelText_skip (by decide) (fun h => absurd h (by decide)),
    replace_labelText_skip (by decide) (fun h => absurd h (by decide)),
    replace_labelText_skip ht (htext _),
    replace_labelText_skip (by decide) (fun h => absurd h (by decide))]
  by_cases hlo : old = l
  · subst hlo
    rw [if_pos rfl, replace_labelText_hit, block]
  · rw [if_neg hlo, replace_labelText_miss _ hold hl hlo, block]

theorem Named.ite {p : Prop} [Decidable p] {l l' : List Char} (hl : Named l) (hl' : Named l') :
    Named (if p then l else l') := by
  by_cases hp : p
  · rw [if_pos hp]
    exact hl
  · rw [if_neg hp]
    exact hl'

theorem quote_notMem_clean (t : List Char) : '"' ∉ clean t := by
  simp [clean]

theorem backslash_notMem_clean (t : List Char) : '\\' ∉ clean t := by
  simp [clean]

/-- The three renamings give the class its name. -/
theorem rename_block (l : Label) {t : List Char} (ht : '"' ∉ t) :
    replace (labelText "0".toList) (labelText "hateful".toList)
      (replace (labelText "1".toList) (labelText "offensive".toList)
        (replace (labelText "2".toList) (labelText "correct".toList) (block t [l.digit]))) =
      block t l.name.toList := by
  have hclass : Named [l.digit] := by
    cases l <;> decide
  have hcorrect : Named "correct".toList := by decide
  have hoffensive : Named "offensive".toList := by decide
  -- a renaming leaves a label that the next one can read
  rw [replace_labelText_block (by decide) ht hclass,
    replace_labelText_block (by decide) ht (hcorrect.ite hclass),
    replace_labelText_block (by decide) ht (hoffensive.ite (hcorrect.ite hclass))]
  cases l <;> rfl

theorem filter_backslash_block (l : Label) (t : List Char) :
    (block t [l.digit]).filter (fun c => !(c == '\\')) =
      block (t.filter (fun c => !(c == '\\'))) [l.digit] := by
  cases l <;> simp [block, Label.digit]

/-- Five counts, a class and any text become one block with the cleaned text and the name of the
class. -/
theorem runScript_lineOf (a b c d e : Count) (l : Label) (field : List Char) :
    runScript namedScript (lineOf a b c d e l field) =
      some (block (clean field) l.name.toList) := by
  have hquotes : substituteAll quotes [] (l.digit :: ',' :: field) =
      l.digit :: ',' :: field.filter (fun c => !(c == '"')) := by
    rw [quotes, substituteAll_erases (erases_many _ 0)]
    cases l <;> simp [Label.digit]
  have hbackslash : substituteAll backslash []
      (block (field.filter (fun c => !(c == '"'))) [l.digit]) = block (clean field) [l.digit] := by
    rw [backslash, substituteAll_erases (erases_one _ 0), filter_backslash_block, clean]
  have hrename := rename_block l (quote_notMem_clean field)
  simp only [namedScript, plainScript, List.cons_append, List.nil_append, runScript, Command.run,
    Option.bind_some, lineOf, substitute_counts]
  have hkeep := run_delete_emptyLine l.digit (',' :: field)
  simp only [Command.run] at hkeep
  rw [hkeep]
  simp only [Option.bind_some, hquotes, substitute_template, hbackslash]
  exact congrArg some hrename

/-- grep keeps a line that begins with a count. -/
theorem find_recordStart_lineOf (a b c d e : Count) (l : Label) (field : List Char) :
    (find recordStart true (lineOf a b c d e l field)).isSome = true := by
  obtain ⟨first, rest, hdigits⟩ := List.exists_cons_of_ne_nil a.nonempty
  have hfirst : isDigit first = true := a.decimal first (by simp [hdigits])
  have hrest : ∀ x ∈ rest, isDigit x = true := fun x hx => a.decimal x (by simp [hdigits, hx])
  have hcomma : comma ',' = true := rfl
  rw [find_of_fromStart rfl, Option.isSome_map, lineOf, hdigits, List.cons_append]
  simp only [matchAt, recordStart, parses_one_cons, hfirst, if_true,
    parses_many_one hrest hcomma isDigit_disjoint_comma]
  rfl

/-- The counts and the class are digits, so the line ends where its text does. -/
theorem newline_notMem_lineOf (a b c d e : Count) (l : Label) {field : List Char}
    (h : '\n' ∉ field) : '\n' ∉ lineOf a b c d e l field := by
  have hcount : ∀ n : Count, '\n' ∉ n.digits := fun n hn => absurd (n.decimal _ hn) (by decide)
  have hdigit : '\n' ≠ l.digit := by
    cases l <;> decide
  simp [lineOf, hcount, h, hdigit]

/-- The header does not. -/
theorem find_recordStart_header : find recordStart true header = none := by
  rw [find_of_fromStart rfl]
  rfl

/-! ## The whole file -/

/-- A line of the data is one block of the output. -/
theorem sed_lineOf_cons (a b c d e : Count) (l : Label) (field : List Char)
    (ls : List (List Char)) :
    sed namedScript (grep recordStart (lineOf a b c d e l field :: ls)) =
      block (clean field) l.name.toList :: sed namedScript (grep recordStart ls) := by
  rw [grep, List.filter_cons, if_pos (find_recordStart_lineOf ..), sed,
    List.filterMap_cons_some (runScript_lineOf ..)]
  rfl

theorem newline_notMem_line {r : Row} (h : Printable r.tweet) : '\n' ∉ r.line := by
  have htweet : '\n' ∉ r.tweet := fun hn => absurd (h _ hn) (by decide)
  apply newline_notMem_lineOf
  unfold Row.tweetField
  split
  · simp only [quote, List.mem_cons, List.mem_append, List.mem_flatMap, List.not_mem_nil]
    rintro (hq | ⟨c, hc, hn⟩ | hq | hq)
    · exact absurd hq (by decide)
    · split at hn
      · exact absurd hn (by decide)
      · rw [List.mem_singleton] at hn
        exact htweet (hn ▸ hc)
    · exact absurd hq (by decide)
    · exact hq
  · exact htweet

/-- The quotes around and in the field do not matter once they are gone. -/
theorem clean_tweetField (r : Row) : clean r.tweetField = clean r.tweet := by
  unfold Row.tweetField clean
  split
  · congr 1
    have hdouble : ∀ t : List Char,
        (t.flatMap (fun c => if c = '"' then ['"', '"'] else [c])).filter
          (fun c => !(c == '"')) = t.filter (fun c => !(c == '"')) := by
      intro t
      induction t with
      | nil => rfl
      | cons c t ih =>
        rw [List.flatMap_cons, List.filter_append, ih]
        by_cases hc : c = '"'
        · simp [hc]
        · simp [hc]
    simp [quote, hdouble]
  · rfl

/-- Without control characters each record is one line, and each line one block. -/
theorem structureCommand_csv {rows : List Row} (h : ∀ r ∈ rows, Printable r.tweet) :
    structureCommand (csv rows) =
      unlines (rows.map (fun r => block (clean r.tweet) r.label.name.toList)) := by
  have hlines : lines (csv rows) = header :: rows.map Row.line := by
    apply lines_unlines
    intro l hl
    rcases List.mem_cons.mp hl with rfl | hl
    · decide
    · obtain ⟨r, hr, rfl⟩ := List.mem_map.mp hl
      exact newline_notMem_line (h r hr)
  have hheader : grep recordStart (header :: rows.map Row.line) =
      grep recordStart (rows.map Row.line) := by
    rw [grep, List.filter_cons, find_recordStart_header]
    rfl
  have hsed : sed namedScript (grep recordStart (rows.map Row.line)) =
      rows.map (fun r => block (clean r.tweet) r.label.name.toList) := by
    clear h hlines hheader
    induction rows with
    | nil => rfl
    | cons r rows ih =>
      rw [List.map_cons, Row.line, sed_lineOf_cons, clean_tweetField, ih, List.map_cons]
  rw [structureCommand, hlines, hheader, hsed]

/-- The backslashes go, and no renaming brings one back. -/
theorem backslash_notMem_runScript {t t' : List Char} (h : runScript namedScript t = some t') :
    '\\' ∉ t' := by
  rw [namedScript, runScript_append] at h
  obtain ⟨u, -, hu⟩ := Option.bind_eq_some_iff.mp h
  have herased : '\\' ∉ substituteAll backslash [] u := by
    rw [backslash, substituteAll_erases (erases_one _ 0)]
    simp
  have hkeep : ∀ {old new s : List Char}, '\\' ∉ s → '\\' ∉ labelText new →
      '\\' ∉ replace (labelText old) (labelText new) s := by
    intro old new s hs hnew hc
    rcases mem_replace hc with hc | hc
    · exact hs hc
    · exact hnew hc
  cases hu
  exact hkeep (hkeep (hkeep herased (by decide)) (by decide)) (by decide)

/-- Whatever the file, the output has no backslash. -/
theorem backslash_notMem_structuredData (file : List Char) : '\\' ∉ structuredData file := by
  have hout : '\\' ∉ structureCommand file := by
    intro hmem
    obtain ⟨l, hl, hc⟩ := List.mem_flatMap.mp hmem
    obtain ⟨t, -, ht⟩ := List.mem_filterMap.mp hl
    rcases List.mem_append.mp hc with hc | hc
    · exact backslash_notMem_runScript ht hc
    · exact absurd hc (by decide)
  intro hmem
  simp only [structuredData, List.mem_cons, List.mem_append, List.not_mem_nil, or_false] at hmem
  rcases hmem with hq | hmem | hq
  · exact absurd hq (by decide)
  · rw [dropFinalComma, List.mem_reverse] at hmem
    exact hout (List.mem_reverse.mp (List.mem_of_mem_erase hmem))
  · exact absurd hq (by decide)

/-! ## The JSON document -/

/-- The object that a block stands for. -/
def blockValue (r : Row) : Value :=
  .object [("text", .string (.ofList (clean r.tweet))), ("label", .string r.label.name)]

/-- The object has the label of the record, and for its text the whole tweet without quotes and
backslashes. -/
structure Describes (x : Value) (r : Row) : Prop where
  label : x.member? "label" = some (.string r.label.name)
  text : x.member? "text" = some (.string (.ofList (clean r.tweet)))

/-- The converted file is a JSON array with one object for each record, in order. -/
def Converted (rows : List Row) : Prop :=
  ∃ xs, Document (structuredData (csv rows)) (.array xs) ∧ List.Forall₂ Describes xs rows

theorem describes_blockValue (r : Row) : Describes (blockValue r) r := ⟨rfl, rfl⟩

theorem printable_clean {t : List Char} (h : Printable t) : Printable (clean t) := by
  intro c hc
  simp only [clean, List.mem_filter] at hc
  exact h c hc.1.1

/-- Neither quotes nor backslashes are control characters. -/
theorem printable_of_clean {t : List Char} (h : Printable (clean t)) : Printable t := by
  intro c hc
  by_cases hq : c = '"'
  · subst hq
    decide
  · by_cases hb : c = '\\'
    · subst hb
      decide
    · exact h c (by simp [clean, hc, hq, hb])

/-- The text between the braces of a block. -/
theorem members_block {r : Row} (h : Printable r.tweet) :
    Members ("\r\"text\": \"".toList ++ (clean r.tweet ++ ("\",\r\"label\": \"".toList ++
      (r.label.name.toList ++ "\"\r".toList))))
      [("text", .string (.ofList (clean r.tweet))), ("label", .string r.label.name)] := by
  have htext : Chars (clean r.tweet) (clean r.tweet) :=
    chars_of_plain (printable_clean h) (quote_notMem_clean _) (backslash_notMem_clean _)
  have hname : Chars r.label.name.toList r.label.name.toList := by
    cases r.label <;> exact chars_of_plain (by decide) (by decide) (by decide)
  have hkey : ∀ t : List Char, Printable t → '"' ∉ t → '\\' ∉ t → Chars t t :=
    fun _ => chars_of_plain
  have hreturn : Space ['\r'] := by simp [Space]
  have hblank : Space [' '] := by simp [Space]
  have hnone : Space [] := by simp [Space]
  have h1 := Member.mk hreturn (hkey "text".toList (by decide) (by decide) (by decide)) hnone
    hblank (.string htext) hnone
  have h2 := Member.mk hreturn (hkey "label".toList (by decide) (by decide) (by decide)) hnone
    hblank (.string hname) hreturn
  have hboth := Members.cons h1 (.last h2)
  simpa using hboth

/-- A block is the text of its object and a comma. -/
theorem denotes_block {r : Row} (h : Printable r.tweet) :
    ∃ t, Denotes t (blockValue r) ∧ block (clean r.tweet) r.label.name.toList = t ++ [','] := by
  refine ⟨_, .object (members_block h), ?_⟩
  simp [block]

theorem dropFinalComma_append {u v : List Char} (h : ',' ∈ v) :
    dropFinalComma (u ++ v) = u ++ dropFinalComma v := by
  simp [dropFinalComma, List.erase_append_left _ (List.mem_reverse.mpr h)]

/-- The blocks are the elements of an array, once the last of them has lost its comma. -/
theorem elements_unlines {rows : List Row} (h : ∀ r ∈ rows, Printable r.tweet) (hne : rows ≠ [])
    {w : List Char} (hw : Space w) :
    Elements (w ++ dropFinalComma
        (unlines (rows.map (fun r => block (clean r.tweet) r.label.name.toList))))
      (rows.map blockValue) := by
  induction rows generalizing w with
  | nil => exact absurd rfl hne
  | cons r rows ih =>
    obtain ⟨t, ht, hblock⟩ := denotes_block (h r List.mem_cons_self)
    have hfeed : Space ['\n'] := by simp [Space]
    have hnone : Space [] := by simp [Space]
    cases rows with
    | nil =>
      have hlast : dropFinalComma (t ++ [',', '\n']) = t ++ ['\n'] :=
        dropFinalComma_append (by decide)
      simpa [unlines, hblock, hlast] using Elements.last hw ht hfeed
    | cons r' rows =>
      have hrest := ih (fun q hq => h q (List.mem_cons_of_mem _ hq)) (by simp) hfeed
      have hcomma : ',' ∈ unlines ((r' :: rows).map
          (fun r => block (clean r.tweet) r.label.name.toList)) := by
        obtain ⟨t', -, hblock'⟩ := denotes_block (h r' (by simp))
        simp [unlines, hblock']
      have hsplit : unlines ((r :: r' :: rows).map
          (fun r => block (clean r.tweet) r.label.name.toList)) =
          (t ++ [',', '\n']) ++ unlines ((r' :: rows).map
            (fun r => block (clean r.tweet) r.label.name.toList)) := by
        simp [unlines, hblock]
      rw [hsplit, dropFinalComma_append hcomma]
      have hcons := Elements.cons hw ht hnone hrest
      simpa using hcons

theorem document_structuredData {rows : List Row} (h : ∀ r ∈ rows, Printable r.tweet) :
    Document (structuredData (csv rows)) (.array (rows.map blockValue)) := by
  have hnone : Space [] := by simp [Space]
  refine ⟨[], structuredData (csv rows), [], hnone, ?_, hnone, by simp⟩
  rw [structuredData, structureCommand_csv h]
  cases rows with
  | nil => exact .emptyArray hnone
  | cons r rows => exact .array (elements_unlines h (by simp) hnone)

theorem exists_describes {xs : List Value} {rows : List Row}
    (h : List.Forall₂ Describes xs rows) {r : Row} (hr : r ∈ rows) : ∃ x ∈ xs, Describes x r := by
  induction h with
  | nil => cases hr
  | cons hx _ ih =>
    rcases List.mem_cons.mp hr with rfl | hr
    · exact ⟨_, List.mem_cons_self, hx⟩
    · obtain ⟨y, hy, hdescribes⟩ := ih hr
      exact ⟨y, List.mem_cons_of_mem _ hy, hdescribes⟩

/-- The output has no escapes, so no string in it holds a control character. -/
theorem printable_of_converted {rows : List Row} (h : Converted rows) {r : Row} (hr : r ∈ rows) :
    Printable r.tweet := by
  obtain ⟨xs, hdoc, hall⟩ := h
  obtain ⟨x, hx, hdescribes⟩ := exists_describes hall hr
  have hholds : Value.Holds (.ofList (clean r.tweet)) (.array xs) :=
    .element hx (.of_member? hdescribes.text)
  have hprint := hdoc.printable (backslash_notMem_structuredData _) hholds
  rw [String.toList_ofList] at hprint
  exact printable_of_clean hprint

/-- The script converts the whole file exactly when no tweet has a control character. A line break
ends the line that sed works on, and no control character is ever escaped. -/
theorem converted_iff (rows : List Row) : Converted rows ↔ ∀ r ∈ rows, Printable r.tweet := by
  constructor
  · intro h r hr
    exact printable_of_converted h hr
  · intro h
    refine ⟨rows.map blockValue, document_structuredData h, ?_⟩
    rw [List.forall₂_map_left_iff]
    exact List.forall₂_same.mpr (fun r _ => describes_blockValue r)

/-- The tenth record of the data: its tweet goes over three lines. -/
def brokenRow : Row where
  index := .ofDigit '9' rfl
  count := .ofDigit '3' rfl
  hateSpeech := .ofDigit '1' rfl
  offensiveLanguage := .ofDigit '2' rfl
  neither := .ofDigit '0' rfl
  label := .offensive
  tweet := "\" @rhythmixx_ :hobbies include: fighting Mariam\"\n\nbitch".toList
  quoted := true
  plain_or_quoted := Or.inl rfl

/-- The lines after the first are lost, and so is the end of the tweet. -/
theorem a_line_break_cuts_the_tweet : ¬ Converted [brokenRow] := by
  intro h
  have hprint := printable_of_converted h (List.mem_singleton.mpr rfl)
  exact absurd hprint (by decide)

/-! ## Tweets that imitate the template -/

end HateBlocker
