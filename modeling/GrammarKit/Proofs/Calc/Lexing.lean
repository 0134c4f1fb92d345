import GrammarKit.Calc.Token
import GrammarKit.Decimal.Digits
import GrammarKit.Proofs.Ahead
import GrammarKit.Proofs.Lexing
import Mathlib.Tactic.FinCases
import Mathlib.Tactic.IntervalCases

/-!
# Texts of the calculator

A text of the calculator is made of numerals, signs and spaces, with as many spaces as one likes.
Read back, it gives the numerals and the signs again, provided that no two of them that touch run
together.  Two numerals would, and so would the signs of a division and of a product, which open a
comment.

* `Lexeme`: a numeral or a sign.
* `Spaced`: the texts that a list of lexemes is written as.
* `spelling_of_spaced`: reading such a text.
-/

namespace GrammarKit.Calc

/-! ## Lexemes -/

/-- At least one digit and nothing else. -/
structure Numeral where
  /-- The digits, the highest first. -/
  digits : List Char
  isNumeral : Decimal.isNumeral digits = true

/-- The signs of the calculator. -/
inductive Sign where
  /-- The sign `+`. -/
  | plus
  /-- The sign `-`. -/
  | minus
  /-- The sign `*`. -/
  | times
  /-- The sign `/`. -/
  | slash
  /-- An opening parenthesis. -/
  | opening
  /-- A closing parenthesis. -/
  | closing
  deriving DecidableEq

/-- The kind of the token that a sign is read as. -/
def Sign.kind : Sign → Kind
  | .plus => .plus
  | .minus => .minus
  | .times => .multiply
  | .slash => .divide
  | .opening => .lParens
  | .closing => .rParens

/-- The character of a sign. -/
def Sign.char : Sign → Char
  | .plus => '+'
  | .minus => '-'
  | .times => '*'
  | .slash => '/'
  | .opening => '('
  | .closing => ')'

/-- A numeral or a sign. -/
inductive Lexeme where
  /-- A numeral. -/
  | number (n : Numeral)
  /-- A sign. -/
  | sign (s : Sign)

namespace Lexeme

/-- The characters of a lexeme. -/
def chars : Lexeme → List Char
  | .number n => n.digits
  | .sign s => [s.char]

/-- The kind and the text of the token that a lexeme is read as. -/
def spelling : Lexeme → Kind × String
  | .number n => (.integer, String.ofList n.digits)
  | .sign s => (s.kind, String.ofList [s.char])

/-- The two lexemes do not run together when they touch. -/
def mayPrecede : Lexeme → Lexeme → Bool
  | .number _, .number _ => false
  | .sign .slash, .sign .times => false
  | _, _ => true

end Lexeme

/-- The kind and the text of a token, wherever it stands. -/
def spelling (token : Token Kind) : Kind × String := (token.kind, token.text)

/-- The texts that lexemes are written as, with any number of spaces before, between and after
them. -/
inductive Spaced : List Lexeme → List Char → Prop where
  | nil (n : Nat) : Spaced [] (List.replicate n ' ')
  | cons (n : Nat) (lexeme : Lexeme) {lexemes : List Lexeme} {chars : List Char}
      (h : Spaced lexemes chars) :
      Spaced (lexeme :: lexemes) (List.replicate n ' ' ++ (lexeme.chars ++ chars))

/-! ## Bytes -/

theorem mem_digits_of_isDigit {c : Char} (h : Decimal.isDigit c = true) :
    c ∈ ['0', '1', '2', '3', '4', '5', '6', '7', '8', '9'] := by
  rw [Decimal.isDigit, Bool.and_eq_true, decide_eq_true_eq, decide_eq_true_eq] at h
  obtain ⟨hlow, hhigh⟩ := h
  have hlow' : 48 ≤ c.toNat := hlow
  have hhigh' : c.toNat ≤ 57 := hhigh
  rw [← Char.ofNat_toNat c]
  generalize c.toNat = n at hlow' hhigh'
  interval_cases n <;> decide

/-- The bytes of digits are digits. -/
theorem contains_of_mem_utf8 {digits : List Char} (h : digits.all Decimal.isDigit = true) :
    ∀ b ∈ utf8 digits, ByteClass.digit.contains b = true := by
  induction digits with
  | nil => exact fun b hb => absurd hb List.not_mem_nil
  | cons c digits ih =>
    rw [List.all_cons, Bool.and_eq_true] at h
    intro b hb
    rw [utf8_cons, List.mem_append] at hb
    rcases hb with hb | hb
    · have hall : (utf8 [c]).all ByteClass.digit.contains = true := by
        have hc := mem_digits_of_isDigit h.1
        fin_cases hc <;> decide
      rw [utf8_cons, utf8_nil, List.append_nil] at hall
      exact List.all_eq_true.mp hall b hb
    · exact ih h.2 b hb

theorem utf8_spaces (n : Nat) : utf8 (List.replicate n ' ') = List.replicate n 32 := by
  induction n with
  | zero => rfl
  | succ n ih =>
    rw [List.replicate_succ, utf8_cons, ih]
    rfl

/-- The numeral or sign is over where these bytes come next. -/
def Lexeme.endsBefore : Lexeme → List UInt8 → Prop
  | .number _, bytes => ∀ b ∈ bytes.head?, ByteClass.digit.contains b = false
  | .sign .slash, bytes => ∀ b ∈ bytes.head?, b ≠ 42
  | .sign _, _ => True

theorem Lexeme.endsBefore_nil (l : Lexeme) : l.endsBefore [] := by
  cases l with
  | number n => exact fun b hb => by cases hb
  | sign s =>
    cases s <;> first | exact True.intro | exact fun b hb => by cases hb

theorem Lexeme.endsBefore_space (l : Lexeme) (bytes : List UInt8) : l.endsBefore (32 :: bytes) := by
  cases l with
  | number n =>
    intro b hb
    cases hb
    decide
  | sign s =>
    cases s with
    | slash =>
      intro b hb
      cases hb
      decide
    | _ => exact True.intro

theorem Numeral.exists_cons (n : Numeral) :
    ∃ c digits, n.digits = c :: digits ∧ Decimal.isDigit c = true ∧
      digits.all Decimal.isDigit = true := by
  obtain ⟨digits, h⟩ := n
  rw [Decimal.isNumeral, Bool.and_eq_true] at h
  cases digits with
  | nil => cases h.1
  | cons c digits =>
    rw [List.all_cons, Bool.and_eq_true] at h
    exact ⟨c, digits, rfl, h.2.1, h.2.2⟩

theorem Numeral.all_isDigit (n : Numeral) : n.digits.all Decimal.isDigit = true := by
  obtain ⟨c, digits, hdigits, hc, hall⟩ := n.exists_cons
  rw [hdigits, List.all_cons, hc, hall]
  rfl

/-- The first byte of a numeral is a digit. -/
theorem Numeral.exists_head (n : Numeral) (chars : List Char) :
    ∃ b bytes, utf8 (n.digits ++ chars) = b :: bytes ∧ ByteClass.digit.contains b = true := by
  obtain ⟨c, digits, hdigits, hc, -⟩ := n.exists_cons
  have hmem := mem_digits_of_isDigit hc
  rw [hdigits, List.cons_append, utf8_cons]
  fin_cases hmem <;> exact ⟨_, _, rfl, by decide⟩

/-- **Lexemes that do not run together** are told apart by the first byte of the second. -/
theorem Lexeme.endsBefore_of_mayPrecede {l l' : Lexeme} (h : l.mayPrecede l' = true)
    (chars : List Char) : l.endsBefore (utf8 (l'.chars ++ chars)) := by
  cases l' with
  | number n =>
    obtain ⟨b, bytes, hbytes, hb⟩ := n.exists_head chars
    rw [Lexeme.chars, hbytes]
    cases l with
    | number n' => cases h
    | sign s =>
      cases s with
      | slash =>
        intro b' hb'
        cases hb'
        rintro rfl
        cases hb
      | _ => exact True.intro
  | sign s' =>
    cases l with
    | number n => cases s' <;> (intro b hb; cases hb; decide)
    | sign s =>
      cases s with
      | slash =>
        cases s' with
        | times => cases h
        | _ =>
          intro b hb
          cases hb
          decide
      | _ => exact True.intro

theorem Lexeme.endsBefore_spaces {l : Lexeme} {bytes : List UInt8} (h : l.endsBefore bytes)
    (n : Nat) : l.endsBefore (List.replicate n 32 ++ bytes) := by
  cases n with
  | zero => exact h
  | succ n =>
    rw [List.replicate_succ, List.cons_append]
    exact l.endsBefore_space _

/-! ## Reading one lexeme -/

variable {input : Input}

/-- Spaces are skipped. -/
theorem first?_spaces {n : Nat} {chars : List Char}
    (hchars : input.chars = List.replicate (n + 1) ' ' ++ chars)
    (hend : ∀ b ∈ (utf8 chars).head?, b ≠ 32) :
    ∃ rest text, table.first? input = some (none, text, rest) ∧ rest.chars = chars := by
  have hconsumed : (Matcher.run (.ofChar ' ')).consumed input.bytes =
      (utf8 (List.replicate (n + 1) ' ')).length := by
    rw [input.bytes_eq, hchars, utf8_append, utf8_spaces, Matcher.consumed,
      List.takeWhile_append_of_pos]
    · have htail : (utf8 chars).takeWhile (ByteClass.ofChar ' ').contains = [] := by
        cases hbytes : utf8 chars with
        | nil => rfl
        | cons b bytes =>
          rw [hbytes] at hend
          have hb : (ByteClass.ofChar ' ').contains b = false :=
            beq_eq_false_iff_ne.mpr (hend b rfl)
          rw [List.takeWhile_cons, if_neg (by rw [hb]; exact Bool.false_ne_true)]
      rw [htail, List.append_nil]
    · intro b hb
      rw [List.eq_of_mem_replicate hb]
      rfl
  have hrules : table.rules = [] ++ .skip (.run (.ofChar ' ')) :: table.rules.tail := rfl
  obtain ⟨rest, hfirst, hrest⟩ := LexTable.first?_of_split [] hrules
    (fun r hr => absurd hr List.not_mem_nil) hchars (by simp) hconsumed
  exact ⟨rest, _, hfirst, hrest⟩

/-- The first rules of the table take nothing off these bytes. -/
def passes (count : Nat) (bytes : List UInt8) : Bool :=
  (table.rules.take count).all fun rule => rule.matcher.consumed bytes == 0

theorem consumed_of_passes {count : Nat} {bytes : List UInt8} (h : passes count bytes = true) :
    ∀ rule ∈ table.rules.take count, rule.matcher.consumed bytes = 0 := fun rule hrule =>
  beq_iff_eq.mp (List.all_eq_true.mp h rule hrule)

/-- A division does not open a comment unless a product follows. -/
theorem passes_slash {bytes : List UInt8} (h : ∀ b ∈ bytes.head?, b ≠ 42) :
    passes 8 (47 :: bytes) = true := by
  have hcomment : (Matcher.between "/*" "*/").consumed (47 :: bytes) = 0 := by
    cases bytes with
    | nil => rfl
    | cons b bytes =>
      have hb : ((42 : UInt8) == b) = false := beq_eq_false_iff_ne.mpr (h b rfl).symm
      have hopening : (utf8 "/*".toList).isPrefixOf (47 :: b :: bytes) = false := by
        show ((47 : UInt8) == 47 && ((42 : UInt8) == b && true)) = false
        rw [hb]
        rfl
      show Matcher.consumedBetween (utf8 "/*".toList) (utf8 "*/".toList) (47 :: b :: bytes) = 0
      rw [Matcher.consumedBetween, hopening, Bool.not_false, Bool.or_true, if_pos rfl]
  show (true && ((Matcher.between "/*" "*/").consumed (47 :: bytes) == 0 && true)) = true
  rw [hcomment]
  rfl

/-- A sign is read. -/
theorem first?_sign (s : Sign) {chars : List Char} (hchars : input.chars = s.char :: chars)
    (hend : (Lexeme.sign s).endsBefore (utf8 chars)) :
    ∃ rest, table.first? input = some (some s.kind, String.ofList [s.char], rest) ∧
      rest.chars = chars := by
  have hsplit : input.chars = [s.char] ++ chars := hchars
  have hbytes : input.bytes = utf8 (s.char :: chars) := by rw [input.bytes_eq, hchars]
  have hread : ∀ (count : Nat) {rule : LexRule Kind} {behind : List (LexRule Kind)},
      table.rules = table.rules.take count ++ rule :: behind →
        passes count (utf8 (s.char :: chars)) = true →
        rule.matcher.consumed (utf8 (s.char :: chars)) = 1 →
        ∃ rest, table.first? input = some (rule.kind?, String.ofList [s.char], rest) ∧
          rest.chars = chars := by
    intro count rule behind hrules hpasses hconsumed
    rw [← hbytes] at hpasses hconsumed
    refine LexTable.first?_of_split _ hrules (consumed_of_passes hpasses) hsplit
      (List.cons_ne_nil _ _) ?_
    rw [hconsumed]
    cases s <;> rfl
  cases s with
  | plus => exact hread 5 rfl rfl rfl
  | minus => exact hread 6 rfl rfl rfl
  | times => exact hread 7 rfl rfl rfl
  | slash => exact hread 8 rfl (passes_slash hend) rfl
  | opening => exact hread 3 rfl rfl rfl
  | closing => exact hread 4 rfl rfl rfl

/-- A numeral is read to its end. -/
theorem first?_number (n : Numeral) {chars : List Char} (hchars : input.chars = n.digits ++ chars)
    (hend : (Lexeme.number n).endsBefore (utf8 chars)) :
    ∃ rest, table.first? input = some (some .integer, String.ofList n.digits, rest) ∧
      rest.chars = chars := by
  have hbytes : input.bytes = utf8 (n.digits ++ chars) := by rw [input.bytes_eq, hchars]
  obtain ⟨c, digits, hdigits, hc, -⟩ := n.exists_cons
  have hpasses : passes 9 (utf8 (n.digits ++ chars)) = true := by
    have hmem := mem_digits_of_isDigit hc
    rw [hdigits, List.cons_append, utf8_cons]
    fin_cases hmem <;> rfl
  have hconsumed : (Matcher.run .digit).consumed input.bytes = (utf8 n.digits).length := by
    rw [hbytes, utf8_append, Matcher.consumed,
      List.takeWhile_append_of_pos (contains_of_mem_utf8 n.all_isDigit)]
    have htail : (utf8 chars).takeWhile ByteClass.digit.contains = [] := by
      cases hbytes : utf8 chars with
      | nil => rfl
      | cons b bytes =>
        rw [hbytes] at hend
        rw [List.takeWhile_cons, if_neg (by rw [hend b rfl]; exact Bool.false_ne_true)]
    rw [htail, List.append_nil]
  rw [← hbytes] at hpasses
  have hne : n.digits ≠ [] := by
    rw [hdigits]
    exact List.cons_ne_nil _ _
  have hrules : table.rules = table.rules.take 9 ++ [.emit (.run .digit) .integer] := rfl
  exact LexTable.first?_of_split _ hrules (consumed_of_passes hpasses) hchars hne hconsumed

/-- A lexeme is read. -/
theorem first?_lexeme (l : Lexeme) {chars : List Char} (hchars : input.chars = l.chars ++ chars)
    (hend : l.endsBefore (utf8 chars)) :
    ∃ rest, table.first? input = some (some l.spelling.1, l.spelling.2, rest) ∧
      rest.chars = chars := by
  cases l with
  | number n => exact first?_number n hchars hend
  | sign s => exact first?_sign s hchars hend

theorem Lexeme.chars_ne_nil (l : Lexeme) : l.chars ≠ [] := by
  cases l with
  | number n =>
    obtain ⟨c, digits, hdigits, -, -⟩ := n.exists_cons
    rw [Lexeme.chars, hdigits]
    exact List.cons_ne_nil _ _
  | sign s => exact List.cons_ne_nil _ _

/-- A lexeme does not start with a space. -/
theorem Lexeme.head?_ne_space (l : Lexeme) (chars : List Char) :
    ∀ b ∈ (utf8 (l.chars ++ chars)).head?, b ≠ 32 := by
  intro b hb
  cases l with
  | number n =>
    obtain ⟨b', bytes, hbytes, hb'⟩ := n.exists_head chars
    rw [Lexeme.chars, hbytes] at hb
    cases hb
    rintro rfl
    cases hb'
  | sign s => cases s <;> (cases hb; decide)

/-- The next token is the lexeme behind the spaces. -/
theorem next_lexeme (n : Nat) (l : Lexeme) {chars : List Char}
    (hchars : input.chars = List.replicate n ' ' ++ (l.chars ++ chars))
    (hend : l.endsBefore (utf8 chars)) :
    ∃ token rest, table.next input = (some token, rest) ∧ spelling token = l.spelling ∧
      rest.chars = chars := by
  have hread : ∀ input : Input, input.chars = l.chars ++ chars →
      ∃ token rest, table.next input = (some token, rest) ∧ spelling token = l.spelling ∧
        rest.chars = chars := by
    intro input hchars
    have hne : input.chars ≠ [] := by
      rw [hchars]
      exact List.append_ne_nil_of_left_ne_nil l.chars_ne_nil chars
    obtain ⟨rest, hfirst, hrest⟩ := first?_lexeme l hchars hend
    exact ⟨_, rest, LexTable.next_of_emit hne hfirst, rfl, hrest⟩
  cases n with
  | zero => exact hread input hchars
  | succ n =>
    obtain ⟨middle, text, hfirst, hmiddle⟩ := first?_spaces hchars (l.head?_ne_space chars)
    have hne : input.chars ≠ [] := by
      rw [hchars, List.replicate_succ, List.cons_append]
      exact List.cons_ne_nil _ _
    rw [LexTable.next_of_skip hne hfirst]
    exact hread middle hmiddle

theorem next_spaces (n : Nat) (hchars : input.chars = List.replicate n ' ') :
    ∃ rest, table.next input = (none, rest) := by
  cases n with
  | zero => exact ⟨input, LexTable.next_of_nil hchars⟩
  | succ n =>
    have hsplit : input.chars = List.replicate (n + 1) ' ' ++ [] := by
      rw [List.append_nil, hchars]
    obtain ⟨rest, text, hfirst, hrest⟩ := first?_spaces hsplit fun b hb => by cases hb
    have hne : input.chars ≠ [] := by
      rw [hchars, List.replicate_succ]
      exact List.cons_ne_nil _ _
    exact ⟨rest, (LexTable.next_of_skip hne hfirst).trans (LexTable.next_of_nil hrest)⟩

/-! ## Reading a text -/

/-- What stands behind a lexeme does not continue it. -/
theorem endsBefore_of_spaced {l : Lexeme} {lexemes : List Lexeme} {chars : List Char}
    (hchain : (l :: lexemes).IsChain fun l l' => l.mayPrecede l' = true)
    (h : Spaced lexemes chars) : l.endsBefore (utf8 chars) := by
  cases h with
  | nil n =>
    have hspaces := Lexeme.endsBefore_spaces l.endsBefore_nil n
    rwa [List.append_nil, ← utf8_spaces] at hspaces
  | @cons n l' lexemes chars h =>
    rw [utf8_append, utf8_spaces]
    refine Lexeme.endsBefore_spaces ?_ n
    exact Lexeme.endsBefore_of_mayPrecede (List.isChain_cons_cons.mp hchain).1 chars

theorem spelling_collect {lexemes : List Lexeme} {chars : List Char} (h : Spaced lexemes chars) :
    (lexemes.IsChain fun l l' => l.mayPrecede l' = true) → ∀ input : Input, input.chars = chars →
      (Cursor.collect table [] input).map spelling = lexemes.map Lexeme.spelling := by
  induction h with
  | nil n =>
    intro _ input hchars
    obtain ⟨rest, hnext⟩ := next_spaces n hchars
    rw [Cursor.collect_of_next_none hnext]
    rfl
  | @cons n l lexemes chars h ih =>
    intro hchain input hchars
    obtain ⟨token, rest, hnext, hspelling, hrest⟩ :=
      next_lexeme n l hchars (endsBefore_of_spaced hchain h)
    rw [Cursor.collect_of_next_some hnext, Cursor.collect_eq_append, List.map_append,
      ih hchain.of_cons rest hrest, List.map_cons, ← hspelling]
    rfl

/-- **A text is read as the lexemes that it is written with**, wherever the spaces are. -/
theorem spelling_of_spaced {lexemes : List Lexeme} {text : String}
    (hchain : lexemes.IsChain fun l l' => l.mayPrecede l' = true)
    (h : Spaced lexemes text.toList) :
    (Cursor.start table text).tokens.map spelling = lexemes.map Lexeme.spelling := by
  rw [Cursor.start, Cursor.tokens_atNext]
  exact spelling_collect h hchain (Input.ofString text) rfl

end GrammarKit.Calc
