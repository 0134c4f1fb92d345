import GrammarKit.Pascal.Token
import GrammarKit.Proofs.Pascal.Programs
import GrammarKit.Proofs.Spelling

/-!
# Texts of the Pascal subset

A text of the Pascal subset is made of words, names, numbers and signs, with gaps between them: blanks,
line ends and comments.  Read back, it gives the words, names, numbers and signs again.  Since there is
a gap behind each of them, none of them is cut short or runs into the next.

* `Lexeme`: a word, a name, a number or a sign.
* `LaidOut`: the texts that a list of lexemes is written as.
* `spelling_of_laidOut`: reading such a text.
* `WellSpelled`, `wellSpelled_of_spelled`: the other way round, what is read is spelled like that.
-/

namespace GrammarKit.Pascal

/-! ## Lexemes -/

/-- The signs of the Pascal subset. -/
inductive Sign where
  /-- An opening parenthesis. -/
  | opening
  /-- A closing parenthesis. -/
  | closing
  /-- The sign `+`. -/
  | plus
  /-- The sign `-`. -/
  | minus
  /-- The sign `*`. -/
  | times
  /-- The sign `;`. -/
  | semi
  /-- The sign `.`. -/
  | dot
  /-- The sign `/`. -/
  | slash
  /-- The sign `:=`. -/
  | assign
  /-- The sign `:`. -/
  | colon
  /-- The sign `,`. -/
  | comma
  deriving DecidableEq

namespace Sign

/-- The kind of the token that a sign is read as. -/
def kind : Sign → Kind
  | .opening => .lParens
  | .closing => .rParens
  | .plus => .plus
  | .minus => .minus
  | .times => .multiply
  | .semi => .semi
  | .dot => .dot
  | .slash => .floatDiv
  | .assign => .assign
  | .colon => .colon
  | .comma => .comma

/-- The characters of a sign. -/
def chars : Sign → List Char
  | .opening => ['(']
  | .closing => [')']
  | .plus => ['+']
  | .minus => ['-']
  | .times => ['*']
  | .semi => [';']
  | .dot => ['.']
  | .slash => ['/']
  | .assign => [':', '=']
  | .colon => [':']
  | .comma => [',']

end Sign

/-- The kind of the token that a word is read as. -/
def Keyword.kind : Keyword → Kind
  | .div => .integerDiv
  | .program => .program
  | .integer => .integer
  | .real => .real
  | .var => .var
  | .begin => .begin
  | .end => .end

/-- The kind of the token that a number is read as. -/
def Number.tokenKind : Number → Kind
  | .integer _ => .integerConst
  | .real _ _ => .realConst

/-- A word with a meaning, a name, a number or a sign. -/
inductive Lexeme where
  /-- A word with a meaning. -/
  | word {k : Keyword} (w : Word k)
  /-- A name. -/
  | name (n : Name)
  /-- A number. -/
  | number (n : Number)
  /-- A sign. -/
  | sign (s : Sign)

namespace Lexeme

/-- The characters of a lexeme. -/
def chars : Lexeme → List Char
  | .word w => w.chars
  | .name n => n.chars
  | .number n => n.chars
  | .sign s => s.chars

/-- The kind of the token that a lexeme is read as. -/
def kind : Lexeme → Kind
  | @word k _ => k.kind
  | .name _ => .id
  | .number n => n.tokenKind
  | .sign s => s.kind

/-- The kind and the text of the token that a lexeme is read as. -/
def spelling (l : Lexeme) : Kind × String := (l.kind, String.ofList l.chars)

end Lexeme

/-- The kind and the text of a token, wherever it stands. -/
def spelling (token : Token Kind) : Kind × String := (token.kind, token.text)

/-! ## Layout -/

/-- A blank or the end of a line. -/
def isBlank (c : Char) : Bool := c == ' ' || c == '\t' || c == '\n' || c == '\r'

/-- What may stand between two lexemes: a blank, the end of a line, or a comment in braces. -/
inductive Gap : List Char → Prop where
  | blank {c : Char} (h : isBlank c = true) : Gap [c]
  | comment {body : List Char} (h : '\x7d' ∉ body) : Gap ('\x7b' :: (body ++ ['\x7d']))

/-- Any number of gaps. -/
inductive Gaps : List Char → Prop where
  | nil : Gaps []
  | cons {gap gaps : List Char} (hgap : Gap gap) (h : Gaps gaps) : Gaps (gap ++ gaps)

/-- The texts that may stand behind a lexeme: gaps, at least one of them before the next lexeme, and
the lexemes. -/
inductive Behind : List Lexeme → List Char → Prop where
  | nil {gaps : List Char} (h : Gaps gaps) : Behind [] gaps
  | cons {gap gaps chars : List Char} {lexeme : Lexeme} {lexemes : List Lexeme} (hgap : Gap gap)
      (hgaps : Gaps gaps) (h : Behind lexemes chars) :
      Behind (lexeme :: lexemes) (gap ++ gaps ++ (lexeme.chars ++ chars))

/-- The texts that lexemes are written as, with at least one gap between them and any number of gaps
before and behind them. -/
inductive LaidOut : List Lexeme → List Char → Prop where
  | nil {gaps : List Char} (h : Gaps gaps) : LaidOut [] gaps
  | cons {gaps chars : List Char} {lexeme : Lexeme} {lexemes : List Lexeme} (hgaps : Gaps gaps)
      (h : Behind lexemes chars) : LaidOut (lexeme :: lexemes) (gaps ++ (lexeme.chars ++ chars))

/-! ## Gaps are skipped -/

/-- The bytes are those of a gap, if there are any. -/
def Separated (bytes : List UInt8) : Prop := ∀ b ∈ bytes.head?, b ∈ [9, 10, 13, 32, 123]

/-- A byte at which no gap begins, if there are any. -/
def Solid (bytes : List UInt8) : Prop := ∀ b ∈ bytes.head?, b ∉ [9, 10, 13, 32, 123]

theorem mem_blanks_of_isBlank {c : Char} (h : isBlank c = true) : c ∈ [' ', '\t', '\n', '\r'] := by
  simp only [isBlank, Bool.or_eq_true, beq_iff_eq] at h
  simp only [List.mem_cons, List.not_mem_nil, or_false]
  tauto

theorem contains_of_isBlank {c : Char} (h : isBlank c = true) :
    ∃ b, String.utf8EncodeChar c = [b] ∧
      (ByteClass.either .blank .newline).contains b = true ∧ b ∈ [9, 10, 13, 32] := by
  have hmem := mem_blanks_of_isBlank h
  fin_cases hmem <;> exact ⟨_, rfl, by decide, by decide⟩

theorem contains_of_mem_utf8_blanks {blanks : List Char} (h : ∀ c ∈ blanks, isBlank c = true) :
    ∀ b ∈ utf8 blanks, (ByteClass.either .blank .newline).contains b = true := by
  intro b hb
  obtain ⟨c, hc, hb⟩ := List.mem_flatMap.mp hb
  obtain ⟨b', hencode, hcontains, -⟩ := contains_of_isBlank (h c hc)
  rw [hencode, List.mem_singleton] at hb
  exact hb ▸ hcontains

/-- What holds of the numbers below 256 holds of all bytes. -/
theorem forall_byte {p : UInt8 → Prop} (h : ∀ n < 256, p (UInt8.ofNat n)) (b : UInt8) : p b := by
  have hb := h b.toNat b.toNat_lt
  rwa [UInt8.ofNat_toNat] at hb

/-- Behind some gaps without a blank in front there is no blank either. -/
theorem Gaps.not_blank_head {gaps chars : List Char} (h : Gaps gaps)
    (hblank : ∀ c ∈ gaps.head?, isBlank c = false) (hsolid : Solid (utf8 chars)) :
    ∀ b ∈ (utf8 (gaps ++ chars)).head?, (ByteClass.either .blank .newline).contains b = false := by
  cases h with
  | nil =>
    intro b hb
    refine Bool.eq_false_iff.mpr fun hcontains => hsolid b hb ?_
    simp only [ByteClass.contains, Bool.or_eq_true, beq_iff_eq] at hcontains
    rcases hcontains with (rfl | rfl) | rfl | rfl <;> decide
  | cons hgap _ =>
    cases hgap with
    | @blank c hc =>
      have := hblank c rfl
      rw [hc] at this
      cases this
    | comment _ =>
      intro b hb
      cases hb
      decide

theorem Gaps.dropWhile_isBlank {gaps : List Char} (h : Gaps gaps) :
    Gaps (gaps.dropWhile isBlank) := by
  induction h with
  | nil => exact .nil
  | cons hgap h ih =>
    cases hgap with
    | blank hc =>
      rw [List.singleton_append, List.dropWhile_cons_of_pos hc]
      exact ih
    | comment hbody => exact .cons (.comment hbody) h

theorem firstOccurrence?_singleton {p : UInt8} {body : List UInt8} (h : p ∉ body)
    (behind : List UInt8) (skipped : Nat) :
    firstOccurrence? [p] (body ++ p :: behind) skipped = some (skipped + body.length) := by
  induction body generalizing skipped with
  | nil =>
    rw [List.nil_append, firstOccurrence?, if_pos]
    · rfl
    · simp
  | cons b body ih =>
    obtain ⟨hne, hbody⟩ := List.ne_and_not_mem_of_not_mem_cons h
    rw [List.cons_append, firstOccurrence?, if_neg, ih hbody, List.length_cons]
    · exact congrArg some (by omega)
    · simp [hne]

/-- A brace is a byte of its own. -/
theorem not_mem_utf8_of_not_mem {body : List Char} (h : '\x7d' ∉ body) : 125 ∉ utf8 body := by
  intro hmem
  obtain ⟨c, hc, hb⟩ := List.mem_flatMap.mp hmem
  by_cases hlt : c.toNat < 128
  · rw [utf8EncodeChar_of_lt hlt, List.mem_singleton] at hb
    have hnat : c.toNat = 125 := by
      rw [← toNat_toUInt8 hlt, ← hb]
      rfl
    have hbrace : c = '\x7d' := by
      rw [← Char.ofNat_toNat c, hnat]
    exact h (hbrace ▸ hc)
  · exact absurd (le_of_mem_utf8EncodeChar (Nat.le_of_not_lt hlt) 125 hb) (by decide)

variable {input : Input}

/-- A run of blanks is skipped. -/
theorem first?_blanks {blanks chars : List Char} (hchars : input.chars = blanks ++ chars)
    (hne : blanks ≠ []) (hblanks : ∀ c ∈ blanks, isBlank c = true)
    (hend : ∀ b ∈ (utf8 chars).head?, (ByteClass.either .blank .newline).contains b = false) :
    ∃ rest text, table.first? input = some (none, text, rest) ∧ rest.chars = chars := by
  have hconsumed : (Matcher.run (.either .blank .newline)).consumed input.bytes =
      (utf8 blanks).length := by
    have htail : (utf8 chars).takeWhile (ByteClass.either .blank .newline).contains = [] := by
      cases hbytes : utf8 chars with
      | nil => rfl
      | cons b bytes =>
        rw [hbytes] at hend
        rw [List.takeWhile_cons, if_neg (by rw [hend b rfl]; exact Bool.false_ne_true)]
    rw [input.bytes_eq, hchars, utf8_append, Matcher.consumed,
      List.takeWhile_append_of_pos (contains_of_mem_utf8_blanks hblanks), htail, List.append_nil]
  have hrules : table.rules = [] ++ .skip (.run (.either .blank .newline)) :: table.rules.tail := rfl
  obtain ⟨rest, hfirst, hrest⟩ := LexTable.first?_of_split [] hrules
    (fun r hr => absurd hr List.not_mem_nil) hchars hne hconsumed
  exact ⟨rest, _, hfirst, hrest⟩

/-- A comment is skipped. -/
theorem first?_comment {body chars : List Char} (hbody : '\x7d' ∉ body)
    (hchars : input.chars = '\x7b' :: (body ++ ['\x7d']) ++ chars) :
    ∃ rest text, table.first? input = some (none, text, rest) ∧ rest.chars = chars := by
  have hbytes : input.bytes = 123 :: (utf8 body ++ 125 :: utf8 chars) := by
    rw [input.bytes_eq, hchars, List.cons_append, List.append_assoc, utf8_cons, utf8_append]
    rfl
  have hlength : (utf8 ('\x7b' :: (body ++ ['\x7d']))).length = 1 + (utf8 body).length + 1 := by
    rw [utf8_cons, utf8_append, List.length_append, List.length_append]
    show 1 + ((utf8 body).length + 1) = _
    omega
  have hconsumed : (Matcher.between "\x7b" "\x7d").consumed input.bytes =
      (utf8 ('\x7b' :: (body ++ ['\x7d']))).length := by
    have hfind : firstOccurrence? [125]
        ((123 :: (utf8 body ++ 125 :: utf8 chars)).drop ([123] : List UInt8).length) 0 = _ :=
      firstOccurrence?_singleton (not_mem_utf8_of_not_mem hbody) (utf8 chars) 0
    rw [hbytes, hlength]
    show Matcher.consumedBetween [123] [125] (123 :: (utf8 body ++ 125 :: utf8 chars)) = _
    rw [Matcher.consumedBetween, if_neg (by simp), hfind]
    show 1 + (0 + (utf8 body).length) + 1 = _
    omega
  have hrules : table.rules = [.skip (.run (.either .blank .newline))] ++
      .skip (.between "\x7b" "\x7d") :: table.rules.tail.tail := rfl
  have hblanks : (Matcher.run (.either .blank .newline)).consumed input.bytes = 0 := by
    rw [hbytes]
    exact Matcher.consumed_of_opens (by decide) _
  obtain ⟨rest, hfirst, hrest⟩ := LexTable.first?_of_split _ hrules
    (List.forall_mem_singleton.mpr hblanks) hchars (List.cons_ne_nil _ _) hconsumed
  exact ⟨rest, _, hfirst, hrest⟩

/-- **Gaps are skipped.** -/
theorem next_gaps {gaps chars : List Char} (h : Gaps gaps) (hchars : input.chars = gaps ++ chars)
    (hsolid : Solid (utf8 chars)) :
    ∃ rest : Input, table.next input = table.next rest ∧ rest.chars = chars := by
  induction hn : gaps.length using Nat.strongRecOn generalizing gaps input with
  | _ n ih =>
    cases h with
    | nil => exact ⟨input, rfl, hchars⟩
    | @cons gap gaps hgap h =>
      have hne : input.chars ≠ [] := by
        rw [hchars]
        cases hgap <;> exact List.cons_ne_nil _ _
      cases hgap with
      | @blank c hc =>
        -- All blanks up to the next comment or lexeme are taken at once.
        let blanks := c :: gaps.takeWhile isBlank
        have hsplit : input.chars = blanks ++ (gaps.dropWhile isBlank ++ chars) := by
          show _ = c :: (gaps.takeWhile isBlank ++ (gaps.dropWhile isBlank ++ chars))
          rw [← List.append_assoc, List.takeWhile_append_dropWhile, hchars]
          rfl
        have hblanks : ∀ x ∈ blanks, isBlank x = true :=
          List.forall_mem_cons.mpr ⟨hc, fun x hx => List.mem_takeWhile_imp hx⟩
        have hhead : ∀ x ∈ (gaps.dropWhile isBlank).head?, isBlank x = false := by
          intro x hx
          have := List.head?_dropWhile_not isBlank gaps
          rw [hx] at this
          simpa using this
        obtain ⟨middle, text, hfirst, hmiddle⟩ := first?_blanks hsplit (List.cons_ne_nil _ _)
          hblanks (h.dropWhile_isBlank.not_blank_head hhead hsolid)
        have hle : (gaps.dropWhile isBlank).length ≤ gaps.length :=
          (List.dropWhile_suffix isBlank).length_le
        have hlt : (gaps.dropWhile isBlank).length < n := by
          rw [← hn, List.length_append, List.length_singleton]
          omega
        rw [LexTable.next_of_skip hne hfirst]
        exact ih _ hlt h.dropWhile_isBlank hmiddle rfl
      | @comment body hbody =>
        rw [List.append_assoc] at hchars
        obtain ⟨middle, text, hfirst, hmiddle⟩ := first?_comment hbody hchars
        have hlt : gaps.length < n := by
          rw [← hn, List.length_append, List.length_cons]
          omega
        rw [LexTable.next_of_skip hne hfirst]
        exact ih _ hlt h hmiddle rfl

/-! ## Reading one lexeme -/

/-- The rules from the place `first` on up to the place `last` do not start with this byte. -/
def closed (first last : Nat) (b : UInt8) : Bool :=
  ((table.rules.take last).drop first).all fun rule => !rule.matcher.opens b

theorem consumed_of_closed (first last : Nat) {b : UInt8} (h : closed first last b = true)
    (bytes : List UInt8) :
    ∀ rule ∈ (table.rules.take last).drop first, rule.matcher.consumed (b :: bytes) = 0 := by
  intro rule hrule
  have hopens := List.all_eq_true.mp h rule hrule
  rw [Bool.not_eq_true'] at hopens
  exact Matcher.consumed_of_opens hopens bytes

/-- The rules that do not start with the first byte of a name or of a number. -/
theorem closed_starts (b : UInt8) :
    (nameStart.contains b = true → closed 0 13 b = true ∧ closed 20 22 b = true) ∧
      (ByteClass.digit.contains b = true → closed 0 20 b = true) :=
  forall_byte
    (p := fun b => (nameStart.contains b = true → closed 0 13 b = true ∧ closed 20 22 b = true) ∧
      (ByteClass.digit.contains b = true → closed 0 20 b = true))
    (by decide +kernel) b

/-- Signs and gaps do not start like a name. -/
theorem closed_signs_of_nameStart {b : UInt8} (h : nameStart.contains b = true) :
    closed 0 13 b = true := ((closed_starts b).1 h).1

/-- Numbers do not start like a name. -/
theorem closed_numbers_of_nameStart {b : UInt8} (h : nameStart.contains b = true) :
    closed 20 22 b = true := ((closed_starts b).1 h).2

/-- Only numbers start with a digit. -/
theorem closed_of_digit {b : UInt8} (h : ByteClass.digit.contains b = true) :
    closed 0 20 b = true := (closed_starts b).2 h

theorem Separated.contains_eq_false {cls : ByteClass}
    (hcls : ([9, 10, 13, 32, 123] : List UInt8).any cls.contains = false) {bytes : List UInt8}
    (h : Separated bytes) : ∀ b ∈ bytes.head?, cls.contains b = false :=
  fun b hb => Bool.eq_false_iff.mpr (List.any_eq_false.mp hcls b (h b hb))

/-- A run ends where no more bytes of its class follow. -/
theorem consumed_run {cls : ByteClass} {front bytes : List UInt8}
    (hfront : ∀ b ∈ front, cls.contains b = true)
    (hend : ∀ b ∈ bytes.head?, cls.contains b = false) :
    (Matcher.run cls).consumed (front ++ bytes) = front.length := by
  have htail : bytes.takeWhile cls.contains = [] := by
    cases bytes with
    | nil => rfl
    | cons b bytes =>
      rw [List.takeWhile_cons, if_neg (by rw [hend b rfl]; exact Bool.false_ne_true)]
  rw [Matcher.consumed, List.takeWhile_append_of_pos hfront, htail, List.append_nil]

/-! ### Signs -/

/-- The place of the rule of a sign. -/
def Sign.place : Sign → Nat
  | .opening => 2
  | .closing => 3
  | .plus => 4
  | .minus => 5
  | .times => 6
  | .semi => 7
  | .dot => 8
  | .slash => 9
  | .assign => 10
  | .colon => 11
  | .comma => 12

/-- What the rule of a sign takes. -/
def Sign.matcher : Sign → Matcher
  | .opening => .ofChar '('
  | .closing => .ofChar ')'
  | .plus => .ofChar '+'
  | .minus => .ofChar '-'
  | .times => .ofChar '*'
  | .semi => .ofChar ';'
  | .dot => .ofChar '.'
  | .slash => .ofChar '/'
  | .assign => .sequence [.ofChar ':', .ofChar '=']
  | .colon => .ofChar ':'
  | .comma => .ofChar ','

theorem rules_eq_sign (s : Sign) :
    table.rules = table.rules.take s.place ++
      .emit s.matcher s.kind :: table.rules.drop (s.place + 1) := by
  cases s <;> rfl

/-- The rules before that of a sign take nothing. -/
theorem consumed_before_sign (s : Sign) {bytes : List UInt8} (hend : Separated bytes) :
    ∀ rule ∈ table.rules.take s.place, rule.matcher.consumed (utf8 s.chars ++ bytes) = 0 := by
  cases s with
  | colon =>
    -- A colon alone is not taken for an assignment.
    have hassign : (Matcher.sequence [.ofChar ':', .ofChar '=']).consumed (58 :: bytes) = 0 := by
      cases bytes with
      | nil => rfl
      | cons b bytes =>
        have hb := hend b rfl
        fin_cases hb <;> rfl
    have hsplit : table.rules.take 11 = table.rules.take 10 ++
        [.emit (.sequence [.ofChar ':', .ofChar '=']) .assign] := rfl
    have hopens : closed 0 10 58 = true := by decide
    have hfirst := consumed_of_closed 0 10 hopens bytes
    show ∀ rule ∈ table.rules.take 11, rule.matcher.consumed (58 :: bytes) = 0
    rw [hsplit]
    exact List.forall_mem_append.mpr ⟨hfirst, List.forall_mem_singleton.mpr hassign⟩
  | _ => exact consumed_of_closed 0 _ (by decide) _

theorem consumed_sign (s : Sign) (bytes : List UInt8) :
    s.matcher.consumed (utf8 s.chars ++ bytes) = (utf8 s.chars).length := by
  cases s <;> rfl

/-- A sign is read. -/
theorem first?_sign (s : Sign) {chars : List Char} (hchars : input.chars = s.chars ++ chars)
    (hend : Separated (utf8 chars)) :
    ∃ rest, table.first? input = some (some s.kind, String.ofList s.chars, rest) ∧
      rest.chars = chars := by
  have hbytes : input.bytes = utf8 s.chars ++ utf8 chars := by
    rw [input.bytes_eq, hchars, utf8_append]
  have hne : s.chars ≠ [] := by cases s <;> exact List.cons_ne_nil _ _
  refine LexTable.first?_of_split _ (rules_eq_sign s) ?_ hchars hne ?_
  · rw [hbytes]
    exact consumed_before_sign s hend
  · rw [hbytes]
    exact consumed_sign s _

/-! ### Words with a meaning -/

namespace Keyword

/-- The place of the rule of a word. -/
def place : Keyword → Nat
  | .div => 13
  | .program => 14
  | .integer => 15
  | .real => 16
  | .var => 17
  | .begin => 18
  | .end => 19

/-- The word in capital letters. -/
def capitals : Keyword → String
  | .div => "DIV"
  | .program => "PROGRAM"
  | .integer => "INTEGER"
  | .real => "REAL"
  | .var => "VAR"
  | .begin => "BEGIN"
  | .end => "END"

/-- The first letter of the word. -/
def initial (k : Keyword) : Char := k.letters.toList.headD ' '

theorem letters_eq_cons (k : Keyword) : ∃ letters, k.letters.toList = k.initial :: letters := by
  cases k <;> exact ⟨_, rfl⟩

theorem ascii_capitals (k : Keyword) : Ascii k.capitals.toList := by
  cases k <;> decide

theorem toLower_capitals (k : Keyword) :
    k.capitals.toList.map Char.toLower = k.letters.toList := by
  cases k <;> decide

theorem rules_eq (k : Keyword) :
    table.rules = table.rules.take k.place ++
      .emit (.keyword k.capitals) k.kind :: table.rules.drop (k.place + 1) := by
  cases k <;> rfl

/-- No rule before that of a word starts with the first letter of the word. -/
theorem closed_initial (k : Keyword) :
    closed 0 k.place k.initial.toUInt8 = true ∧ closed 0 k.place k.initial.toUpper.toUInt8 = true := by
  cases k <;> decide

/-- Words that agree but for capital letters have bytes that do. -/
theorem map_foldCase_eq (k : Keyword) {chars : List Char}
    (h : chars.map Char.toLower = k.letters.toList) :
    (utf8 chars).map foldCase = (utf8 k.capitals.toList).map foldCase :=
  (map_foldCase_eq_iff k.ascii_capitals).mpr (h.trans k.toLower_capitals.symm)

end Keyword

variable {k : Keyword}

/-- A word starts with its first letter. -/
theorem Word.exists_cons (w : Word k) :
    ∃ c rest, w.chars = c :: rest ∧ c.toNat < 128 ∧ (c = k.initial ∨ c = k.initial.toUpper) := by
  obtain ⟨letters, hletters⟩ := k.letters_eq_cons
  have hword := w.isWord
  rw [hletters] at hword
  obtain ⟨c, rest, hchars, hc, -⟩ := List.map_eq_cons_iff.mp hword
  have hinitial : k.initial.toNat < 128 := by cases k <;> decide
  have hcases := eq_toLower_or_eq_toUpper c
  rw [hc] at hcases
  exact ⟨c, rest, hchars, toNat_toLower_lt_iff.mp (hc ▸ hinitial), hcases⟩

/-- The rules before that of a word take nothing. -/
theorem Word.consumed_before (w : Word k) (bytes : List UInt8) :
    ∀ rule ∈ table.rules.take k.place, rule.matcher.consumed (utf8 w.chars ++ bytes) = 0 := by
  obtain ⟨c, rest, hchars, hlt, hc⟩ := w.exists_cons
  have hclosed : closed 0 k.place c.toUInt8 = true := by
    rcases hc with rfl | rfl
    · exact k.closed_initial.1
    · exact k.closed_initial.2
  rw [hchars, utf8_cons, utf8EncodeChar_of_lt hlt]
  exact consumed_of_closed 0 k.place hclosed _

theorem Word.consumed_eq (w : Word k) (bytes : List UInt8) :
    (Matcher.keyword k.capitals).consumed (utf8 w.chars ++ bytes) = (utf8 w.chars).length := by
  have hfold := k.map_foldCase_eq w.isWord
  have hlength : (utf8 w.chars).length = (utf8 k.capitals.toList).length := by
    have hmap := congrArg List.length hfold
    rwa [List.length_map, List.length_map] at hmap
  have hstarts : Matcher.startsWith (utf8 k.capitals.toList) true (utf8 w.chars ++ bytes) = true := by
    rw [Matcher.startsWith, if_pos rfl, ← hlength, List.take_left, hfold]
    exact List.isPrefixOf_iff_prefix.mpr (List.prefix_refl _)
  rw [Matcher.keyword, Matcher.consumed, if_pos hstarts, hlength]

/-- A word is read. -/
theorem first?_word (w : Word k) {chars : List Char} (hchars : input.chars = w.chars ++ chars) :
    ∃ rest, table.first? input = some (some k.kind, String.ofList w.chars, rest) ∧
      rest.chars = chars := by
  have hbytes : input.bytes = utf8 w.chars ++ utf8 chars := by
    rw [input.bytes_eq, hchars, utf8_append]
  have hne : w.chars ≠ [] := by
    obtain ⟨c, rest, hword, -, -⟩ := w.exists_cons
    rw [hword]
    exact List.cons_ne_nil _ _
  refine LexTable.first?_of_split _ k.rules_eq ?_ hchars hne ?_
  · rw [hbytes]
    exact w.consumed_before _
  · rw [hbytes]
    exact w.consumed_eq _

/-! ### Numbers -/

theorem Numeral.consumed_eq (n : Calc.Numeral) {bytes : List UInt8}
    (hend : ∀ b ∈ bytes.head?, ByteClass.digit.contains b = false) :
    (Matcher.run .digit).consumed (utf8 n.digits ++ bytes) = (utf8 n.digits).length :=
  consumed_run (Calc.contains_of_mem_utf8 n.all_isDigit) hend

theorem Numeral.utf8_ne_nil (n : Calc.Numeral) : utf8 n.digits ≠ [] := by
  obtain ⟨b, bytes, hbytes, -⟩ := n.exists_head []
  rw [List.append_nil] at hbytes
  rw [hbytes]
  exact List.cons_ne_nil _ _

/-- What the rule of reals takes in turn. -/
def realSteps : List Matcher := [.run .digit, .ofChar '.', .run .digit]

/-- Digits without a point behind them are no real. -/
theorem consumed_real_of_integer (n : Calc.Numeral) {bytes : List UInt8} (hend : Separated bytes) :
    (Matcher.sequence realSteps).consumed (utf8 n.digits ++ bytes) = 0 := by
  have hpoint : (Matcher.ofChar '.').consumed bytes = 0 := by
    cases bytes with
    | nil => rfl
    | cons b bytes =>
      have hb := hend b rfl
      fin_cases hb <;> rfl
  rw [Matcher.consumed, realSteps,
    Matcher.consumedByAll_cons (Numeral.consumed_eq n (hend.contains_eq_false rfl))
      (Numeral.utf8_ne_nil n),
    Matcher.consumedByAll_of_eq_zero hpoint]
  rfl

theorem consumed_real (whole fraction : Calc.Numeral) {bytes : List UInt8} (hend : Separated bytes) :
    (Matcher.sequence realSteps).consumed
        (utf8 whole.digits ++ ([46] ++ (utf8 fraction.digits ++ bytes))) =
      (utf8 (Number.real whole fraction).chars).length := by
  have hpoint : ∀ b ∈ ([46] ++ (utf8 fraction.digits ++ bytes)).head?,
      ByteClass.digit.contains b = false := by
    intro b hb
    cases hb
    decide
  have hmiddle : ∀ bytes, (Matcher.ofChar '.').consumed ([46] ++ bytes) = [(46 : UInt8)].length :=
    fun _ => rfl
  have hlast : Matcher.consumedByAll [] bytes = some 0 := by rw [Matcher.consumedByAll]
  have hlength : (utf8 (Number.real whole fraction).chars).length =
      (utf8 whole.digits).length + (1 + (utf8 fraction.digits).length) := by
    rw [Number.chars, utf8_append, utf8_cons, List.length_append, List.length_append]
    rfl
  rw [Matcher.consumed, realSteps,
    Matcher.consumedByAll_cons (Numeral.consumed_eq whole hpoint) (Numeral.utf8_ne_nil whole),
    Matcher.consumedByAll_cons (hmiddle _) (List.cons_ne_nil _ _),
    Matcher.consumedByAll_cons (Numeral.consumed_eq fraction (hend.contains_eq_false rfl))
      (Numeral.utf8_ne_nil fraction), hlast, hlength]
  rfl

/-- A number is read to its end. -/
theorem first?_number (n : Number) {chars : List Char} (hchars : input.chars = n.chars ++ chars)
    (hend : Separated (utf8 chars)) :
    ∃ rest, table.first? input = some (some n.tokenKind, String.ofList n.chars, rest) ∧
      rest.chars = chars := by
  have hstart : ∀ (digits : Calc.Numeral) (behind : List Char),
      ∀ rule ∈ table.rules.take 20, rule.matcher.consumed (utf8 (digits.digits ++ behind)) = 0 := by
    intro digits behind
    obtain ⟨b, bytes, hbytes, hb⟩ := digits.exists_head behind
    rw [hbytes]
    exact consumed_of_closed 0 20 (closed_of_digit hb) bytes
  have hbytes : input.bytes = utf8 (n.chars ++ chars) := by rw [input.bytes_eq, hchars]
  cases n with
  | integer digits =>
    have hrules : table.rules = (table.rules.take 20 ++ [.emit (.sequence realSteps) .realConst]) ++
        .emit (.run .digit) .integerConst :: table.rules.drop 22 := rfl
    have hne : digits.digits ≠ [] := fun hnil => Numeral.utf8_ne_nil digits (by rw [hnil]; rfl)
    have hbytes' : input.bytes = utf8 digits.digits ++ utf8 chars := hbytes.trans (utf8_append _ _)
    refine LexTable.first?_of_split _ hrules ?_ hchars hne ?_
    · refine List.forall_mem_append.mpr ⟨?_, List.forall_mem_singleton.mpr ?_⟩
      · rw [hbytes]
        exact hstart digits chars
      · rw [hbytes']
        exact consumed_real_of_integer digits hend
    · rw [hbytes']
      exact Numeral.consumed_eq digits (hend.contains_eq_false rfl)
  | real whole fraction =>
    have hrules : table.rules = table.rules.take 20 ++
        .emit (.sequence realSteps) .realConst :: table.rules.drop 21 := rfl
    have hne : (Number.real whole fraction).chars ≠ [] :=
      List.append_ne_nil_of_right_ne_nil _ (List.cons_ne_nil _ _)
    have hsplit : (Number.real whole fraction).chars ++ chars =
        whole.digits ++ ('.' :: (fraction.digits ++ chars)) := by
      rw [Number.chars, List.append_assoc, List.cons_append]
    rw [hsplit] at hbytes
    refine LexTable.first?_of_split _ hrules ?_ hchars hne ?_
    · rw [hbytes]
      exact hstart whole _
    · rw [hbytes, utf8_append, utf8_cons, utf8_append]
      exact consumed_real whole fraction hend

/-! ### Names -/

namespace Name

theorem exists_cons (n : Name) :
    ∃ c rest, n.chars = c :: rest ∧ c.toNat < 128 ∧ nameStart.contains c.toUInt8 = true ∧
      Ascii rest ∧ ∀ b ∈ utf8 rest, ByteClass.letterOrDigit.contains b = true := by
  obtain ⟨chars, h⟩ := n
  cases chars with
  | nil => cases h
  | cons c rest =>
    rw [Pascal.isName, Bool.and_eq_true, Bool.or_eq_true, beq_iff_eq, List.all_eq_true] at h
    obtain ⟨hc, hrest⟩ := h
    have hascii : Ascii rest := fun x hx => toNat_lt_of_isAlphanum (hrest x hx)
    refine ⟨c, rest, rfl, ?_, ?_, hascii, fun b hb => ?_⟩
    · rcases hc with hc | rfl
      · exact toNat_lt_of_isAlpha hc
      · decide
    · rcases hc with hc | rfl
      · show (ByteClass.isLetter c.toUInt8 || _) = true
        rw [isLetter_toUInt8 (toNat_lt_of_isAlpha hc), hc, Bool.true_or]
      · decide
    · rw [utf8_of_ascii hascii] at hb
      obtain ⟨x, hx, rfl⟩ := List.mem_map.mp hb
      rw [letterOrDigit_toUInt8 (hascii x hx)]
      exact hrest x hx

theorem ascii (n : Name) : Ascii n.chars := by
  obtain ⟨c, rest, hchars, hc, -, hrest, -⟩ := n.exists_cons
  rw [hchars]
  exact ascii_cons_iff.mpr ⟨hc, hrest⟩

/-- No word with a meaning is read at the start of a free name, not even across its end. -/
theorem consumed_keyword {n : Name} (hfree : n.Free) (k : Keyword) {bytes : List UInt8}
    (hend : Separated bytes) : (Matcher.keyword k.capitals).consumed (utf8 n.chars ++ bytes) = 0 := by
  have hletters : (utf8 k.capitals.toList).map foldCase = k.letters.toList.map Char.toUInt8 := by
    rw [map_foldCase_utf8 k.ascii_capitals, k.toLower_capitals]
  have hname := map_foldCase_utf8 n.ascii
  have hwithin : ¬ k.letters.toList.map Char.toUInt8 <+:
      (n.chars.map Char.toLower).map Char.toUInt8 := by
    rintro ⟨behind, hbehind⟩
    obtain ⟨front, back, hsplit, hfront, -⟩ := List.map_eq_append_iff.mp hbehind.symm
    have hlower : Ascii (n.chars.map Char.toLower) := ascii_toLower_iff.mpr n.ascii
    have hascii : Ascii k.letters.toList := by
      rw [← k.toLower_capitals]
      exact ascii_toLower_iff.mpr k.ascii_capitals
    have heq : front = k.letters.toList := by
      refine eq_of_map_toUInt8 (fun c hc => hlower c ?_) hascii hfront
      rw [hsplit]
      exact List.mem_append_left back hc
    exact hfree k ⟨back, by rw [← heq, hsplit]⟩
  have hstarts : ¬ Matcher.startsWith (utf8 k.capitals.toList) true (utf8 n.chars ++ bytes) = true := by
    intro hstarts
    rw [Matcher.startsWith, if_pos rfl, List.isPrefixOf_iff_prefix, hletters] at hstarts
    have hall : k.letters.toList.map Char.toUInt8 <+:
        (n.chars.map Char.toLower).map Char.toUInt8 ++ bytes.map foldCase := by
      rw [← hname, ← List.map_append]
      exact hstarts.trans ((List.take_prefix _ _).map _)
    rcases List.prefix_or_prefix_of_prefix hall (List.prefix_append _ _) with hle | ⟨behind, hbehind⟩
    · exact hwithin hle
    · rw [← hbehind, List.prefix_append_right_inj] at hall
      cases behind with
      | nil =>
        rw [List.append_nil] at hbehind
        exact hwithin (hbehind ▸ List.prefix_refl _)
      | cons b behind =>
        -- The word goes on with a letter where the gap begins.
        obtain ⟨b', hb', heq⟩ : ∃ b' ∈ bytes.head?, foldCase b' = b := by
          cases bytes with
          | nil => cases List.prefix_nil.mp hall
          | cons b' bytes => exact ⟨b', rfl, ((List.cons_prefix_cons.mp hall).1).symm⟩
        have hmem : b ∈ k.letters.toList.map Char.toUInt8 := by
          rw [← hbehind]
          exact List.mem_append_right _ List.mem_cons_self
        have hgap : (k.letters.toList.map Char.toUInt8).any
            (([9, 10, 13, 32, 123] : List UInt8).map foldCase).contains = false := by
          cases k <;> rfl
        refine List.any_eq_false.mp hgap b hmem (List.contains_iff_mem.mpr ?_)
        exact heq ▸ List.mem_map_of_mem (hend b' hb')
  rw [Matcher.keyword, Matcher.consumed, if_neg hstarts]

/-- The rules before those of names take nothing. -/
theorem consumed_before {n : Name} (hfree : n.Free) {bytes : List UInt8} (hend : Separated bytes) :
    ∀ rule ∈ table.rules.take 22, rule.matcher.consumed (utf8 n.chars ++ bytes) = 0 := by
  have hsplit : table.rules.take 22 = (table.rules.take 13).drop 0 ++
      (([.div, .program, .integer, .real, .var, .begin, .end].map fun k : Keyword =>
        LexRule.emit (.keyword k.capitals) k.kind) ++ (table.rules.take 22).drop 20) := rfl
  obtain ⟨c, rest, hchars, hc, hstart, -, -⟩ := n.exists_cons
  have hbytes : utf8 n.chars ++ bytes = c.toUInt8 :: (utf8 rest ++ bytes) := by
    rw [hchars, utf8_cons, utf8EncodeChar_of_lt hc]
    rfl
  rw [hsplit]
  refine List.forall_mem_append.mpr ⟨?_, List.forall_mem_append.mpr ⟨?_, ?_⟩⟩
  · rw [hbytes]
    exact consumed_of_closed 0 13 (closed_signs_of_nameStart hstart) _
  · exact List.forall_mem_map.mpr fun k _ => consumed_keyword hfree k hend
  · rw [hbytes]
    exact consumed_of_closed 20 22 (closed_numbers_of_nameStart hstart) _

end Name

/-- A name is read to its end, unless it begins like a word with a meaning. -/
theorem first?_name {n : Name} (hfree : n.Free) {chars : List Char}
    (hchars : input.chars = n.chars ++ chars) (hend : Separated (utf8 chars)) :
    ∃ rest, table.first? input = some (some .id, String.ofList n.chars, rest) ∧
      rest.chars = chars := by
  obtain ⟨c, rest, hname, hc, hstart, hascii, hrest⟩ := n.exists_cons
  have hne : n.chars ≠ [] := by
    rw [hname]
    exact List.cons_ne_nil _ _
  have hbytes : input.bytes = utf8 n.chars ++ utf8 chars := by
    rw [input.bytes_eq, hchars, utf8_append]
  have hbefore := Name.consumed_before hfree hend
  have hfirst : ∀ bytes, (Matcher.char nameStart).consumed ([c.toUInt8] ++ bytes) = 1 := by
    intro bytes
    show (if nameStart.contains c.toUInt8 then 1 else 0) = 1
    rw [if_pos hstart]
  have hgap : ∀ b ∈ (utf8 chars).head?, ByteClass.letterOrDigit.contains b = false :=
    hend.contains_eq_false rfl
  have hrun := consumed_run hrest hgap
  have hsteps : Matcher.consumedByAll [.char nameStart, .run .letterOrDigit] input.bytes =
      (Matcher.consumedByAll [.run .letterOrDigit] (utf8 rest ++ utf8 chars)).map (1 + ·) := by
    rw [hbytes, hname, utf8_cons, utf8EncodeChar_of_lt hc, List.append_assoc]
    exact Matcher.consumedByAll_cons (hfirst _) (List.cons_ne_nil _ _) _
  rw [← hbytes] at hbefore
  cases hcase : utf8 rest with
  | nil =>
    -- A single letter is left to the last rule.
    have hrules : table.rules = (table.rules.take 22 ++
        [.emit (.sequence [.char nameStart, .run .letterOrDigit]) .id]) ++
          [.emit (.char nameStart) .id] := rfl
    refine LexTable.first?_of_split _ hrules ?_ hchars hne ?_
    · refine List.forall_mem_append.mpr ⟨hbefore, List.forall_mem_singleton.mpr ?_⟩
      show (Matcher.sequence [.char nameStart, .run .letterOrDigit]).consumed input.bytes = 0
      rw [hcase] at hrun hsteps
      rw [Matcher.consumed, hsteps, Matcher.consumedByAll_of_eq_zero hrun]
      rfl
    · rw [hbytes, hname, utf8_cons, utf8EncodeChar_of_lt hc, List.append_assoc, hcase]
      exact hfirst _
  | cons b bytes =>
    have hrules : table.rules = table.rules.take 22 ++
        .emit (.sequence [.char nameStart, .run .letterOrDigit]) .id :: table.rules.drop 23 := rfl
    have hlast : Matcher.consumedByAll [] (utf8 chars) = some 0 := by rw [Matcher.consumedByAll]
    have hcons : utf8 rest ≠ [] := by
      rw [hcase]
      exact List.cons_ne_nil _ _
    refine LexTable.first?_of_split _ hrules hbefore hchars hne ?_
    show (Matcher.sequence [.char nameStart, .run .letterOrDigit]).consumed input.bytes = _
    rw [Matcher.consumed, hsteps, Matcher.consumedByAll_cons hrun hcons, hlast, hname, utf8_cons,
      utf8EncodeChar_of_lt hc, List.length_append]
    rfl

/-! ## Reading a text -/

/-- Whether a name is free; all other lexemes are. -/
def Lexeme.Free : Lexeme → Prop
  | .name n => n.Free
  | _ => True

/-- A lexeme is read. -/
theorem first?_lexeme {l : Lexeme} (hfree : l.Free) {chars : List Char}
    (hchars : input.chars = l.chars ++ chars) (hend : Separated (utf8 chars)) :
    ∃ rest, table.first? input = some (some l.kind, String.ofList l.chars, rest) ∧
      rest.chars = chars := by
  cases l with
  | word w => exact first?_word w hchars
  | name n => exact first?_name hfree hchars hend
  | number n => exact first?_number n hchars hend
  | sign s => exact first?_sign s hchars hend

/-- No gap begins where a lexeme does. -/
theorem Lexeme.solid (l : Lexeme) (chars : List Char) : Solid (utf8 (l.chars ++ chars)) := by
  intro b hb
  cases l with
  | @word k w =>
    obtain ⟨c, rest, hchars, hlt, hc⟩ := w.exists_cons
    rw [Lexeme.chars, hchars, List.cons_append, utf8_cons, utf8EncodeChar_of_lt hlt] at hb
    cases hb
    rcases hc with rfl | rfl <;> cases k <;> decide
  | name n =>
    obtain ⟨c, rest, hchars, hlt, hstart, -, -⟩ := n.exists_cons
    rw [Lexeme.chars, hchars, List.cons_append, utf8_cons, utf8EncodeChar_of_lt hlt] at hb
    cases hb
    exact fun hmem => List.any_eq_false.mp
      (show ([9, 10, 13, 32, 123] : List UInt8).any nameStart.contains = false by decide) _ hmem hstart
  | number n =>
    obtain ⟨digits, behind, hchars⟩ : ∃ (digits : Calc.Numeral) (behind : List Char),
        n.chars ++ chars = digits.digits ++ behind := by
      cases n with
      | integer digits => exact ⟨digits, chars, rfl⟩
      | real whole fraction =>
        exact ⟨whole, '.' :: (fraction.digits ++ chars), List.append_assoc _ _ _⟩
    obtain ⟨b', bytes, hbytes, hdigit⟩ := digits.exists_head behind
    rw [Lexeme.chars, hchars, hbytes] at hb
    cases hb
    exact fun hmem => List.any_eq_false.mp
      (show ([9, 10, 13, 32, 123] : List UInt8).any ByteClass.digit.contains = false by decide) _ hmem
      hdigit
  | sign s => cases s <;> (cases hb; decide)

theorem Lexeme.chars_ne_nil (l : Lexeme) : l.chars ≠ [] := by
  cases l with
  | word w =>
    obtain ⟨c, rest, hchars, -, -⟩ := w.exists_cons
    rw [Lexeme.chars, hchars]
    exact List.cons_ne_nil _ _
  | name n =>
    obtain ⟨c, rest, hchars, -⟩ := n.exists_cons
    rw [Lexeme.chars, hchars]
    exact List.cons_ne_nil _ _
  | number n =>
    cases n with
    | integer digits => exact fun hnil => Numeral.utf8_ne_nil digits (congrArg utf8 hnil)
    | real whole fraction => exact List.append_ne_nil_of_right_ne_nil _ (List.cons_ne_nil _ _)
  | sign s => cases s <;> exact List.cons_ne_nil _ _

theorem Gap.separated {gap : List Char} (h : Gap gap) (chars : List Char) :
    Separated (utf8 (gap ++ chars)) := by
  intro b hb
  cases h with
  | blank hc =>
    obtain ⟨b', hencode, -, hmem⟩ := contains_of_isBlank hc
    rw [List.singleton_append, utf8_cons, hencode] at hb
    cases hb
    exact List.mem_append_left [123] hmem
  | comment _ =>
    cases hb
    decide

/-- Behind a lexeme there is a gap, or the end. -/
theorem Behind.separated {lexemes : List Lexeme} {chars : List Char} (h : Behind lexemes chars) :
    Separated (utf8 chars) := by
  cases h with
  | nil h =>
    cases h with
    | nil => exact fun b hb => by cases hb
    | cons hgap _ => exact hgap.separated _
  | cons hgap _ _ =>
    rw [List.append_assoc]
    exact hgap.separated _

/-- The next token is the lexeme behind the gaps. -/
theorem next_lexeme {l : Lexeme} (hfree : l.Free) {gaps chars : List Char} (hgaps : Gaps gaps)
    (hchars : input.chars = gaps ++ (l.chars ++ chars)) (hend : Separated (utf8 chars)) :
    ∃ token rest, table.next input = (some token, rest) ∧ spelling token = l.spelling ∧
      rest.chars = chars := by
  obtain ⟨middle, hnext, hmiddle⟩ := next_gaps hgaps hchars (l.solid chars)
  obtain ⟨rest, hfirst, hrest⟩ := first?_lexeme hfree hmiddle hend
  have hne : middle.chars ≠ [] := by
    rw [hmiddle]
    exact List.append_ne_nil_of_left_ne_nil l.chars_ne_nil _
  exact ⟨_, rest, hnext.trans (LexTable.next_of_emit hne hfirst), rfl, hrest⟩

theorem spelling_collect {lexemes : List Lexeme} {chars : List Char} (h : Behind lexemes chars) :
    (∀ l ∈ lexemes, l.Free) → ∀ input : Input, input.chars = chars →
      (Cursor.collect table [] input).map spelling = lexemes.map Lexeme.spelling := by
  induction h with
  | @nil gaps h =>
    intro _ input hchars
    have hsplit : input.chars = gaps ++ [] := by rw [List.append_nil, hchars]
    obtain ⟨rest, hnext, hrest⟩ := next_gaps h hsplit fun b hb => by cases hb
    rw [LexTable.next_of_nil hrest] at hnext
    rw [Cursor.collect_of_next_none hnext]
    rfl
  | @cons gap gaps chars l lexemes hgap hgaps h ih =>
    intro hfree input hchars
    obtain ⟨hl, hlexemes⟩ := List.forall_mem_cons.mp hfree
    obtain ⟨token, rest, hnext, hspelling, hrest⟩ :=
      next_lexeme hl (.cons hgap hgaps) hchars h.separated
    rw [Cursor.collect_of_next_some hnext, Cursor.collect_eq_append, List.map_append,
      ih hlexemes rest hrest, List.map_cons, ← hspelling]
    rfl

/-- **A text is read as the lexemes that it is written with**, whatever the gaps are. -/
theorem spelling_of_laidOut {lexemes : List Lexeme} {text : String}
    (hfree : ∀ l ∈ lexemes, l.Free) (h : LaidOut lexemes text.toList) :
    (Cursor.start table text).tokens.map spelling = lexemes.map Lexeme.spelling := by
  rw [Cursor.start, Cursor.tokens_atNext]
  have hchars : (Input.ofString text).chars = text.toList := rfl
  generalize Input.ofString text = input at hchars
  generalize text.toList = chars at h hchars
  cases h with
  | nil h => exact spelling_collect (.nil h) hfree input hchars
  | @cons gaps chars l lexemes hgaps h =>
    obtain ⟨hl, hlexemes⟩ := List.forall_mem_cons.mp hfree
    obtain ⟨token, rest, hnext, hspelling, hrest⟩ := next_lexeme hl hgaps hchars h.separated
    rw [Cursor.collect_of_next_some hnext, Cursor.collect_eq_append, List.map_append,
      spelling_collect h hlexemes rest hrest, List.map_cons, ← hspelling]
    rfl

/-! ## How tokens are spelled -/

/-- Tokens are spelled the way lexemes are written. -/
structure WellSpelled (token : Token Kind) : Prop where
  word : ∀ k : Keyword, token.kind = k.kind →
    token.text.toList.map Char.toLower = k.letters.toList
  sign : ∀ s : Sign, token.kind = s.kind → token.text = String.ofList s.chars
  name : token.kind = .id → isName token.text.toList = true
  integer : token.kind = .integerConst → Decimal.isNumeral token.text.toList = true
  real : token.kind = .realConst → ∃ whole fraction, token.text.toList = whole ++ '.' :: fraction ∧
    Decimal.isNumeral whole = true ∧ Decimal.isNumeral fraction = true

theorem eq_emit_word (k : Keyword) : ∀ rule ∈ table.rules, rule.kind? = some k.kind →
    rule = .emit (.keyword k.capitals) k.kind := by
  cases k <;> simp [table, keywords, LexRule.emit, LexRule.skip, Keyword.kind, Keyword.capitals]

theorem eq_emit_sign (s : Sign) : ∀ rule ∈ table.rules, rule.kind? = some s.kind →
    rule = .emit s.matcher s.kind := by
  cases s <;> simp [table, keywords, LexRule.emit, LexRule.skip, Sign.kind, Sign.matcher]

theorem eq_emit_name : ∀ rule ∈ table.rules, rule.kind? = some .id →
    rule = .emit (.sequence [.char nameStart, .run .letterOrDigit]) .id ∨
      rule = .emit (.char nameStart) .id := by
  simp [table, keywords, LexRule.emit, LexRule.skip]

theorem eq_emit_integer : ∀ rule ∈ table.rules, rule.kind? = some .integerConst →
    rule = .emit (.run .digit) .integerConst := by
  simp [table, keywords, LexRule.emit, LexRule.skip]

theorem eq_emit_real : ∀ rule ∈ table.rules, rule.kind? = some .realConst →
    rule = .emit (.sequence realSteps) .realConst := by
  simp [table, keywords, LexRule.emit, LexRule.skip, realSteps]

theorem Sign.ascii (s : Sign) : Ascii s.chars := by
  cases s <;> decide

/-- A sign is spelled by its own bytes. -/
theorem Sign.eq_of_spells (s : Sign) {bytes : List UInt8} (h : s.matcher.Spells bytes) :
    bytes = utf8 s.chars := by
  cases s with
  | assign =>
    obtain ⟨front, back, rfl, ⟨b, hb, rfl⟩, ⟨front', back', rfl, ⟨b', hb', rfl⟩, rfl⟩⟩ := h
    rw [beq_iff_eq.mp hb, beq_iff_eq.mp hb']
    rfl
  | _ =>
    obtain ⟨b, hb, rfl⟩ := h
    rw [beq_iff_eq.mp hb]
    rfl

/-- What starts like a name and goes on with letters and digits is a name. -/
theorem isName_of_utf8 {chars : List Char} {b : UInt8} {bytes : List UInt8}
    (h : utf8 chars = b :: bytes) (hb : nameStart.contains b = true)
    (hbytes : ∀ b ∈ bytes, ByteClass.letterOrDigit.contains b = true) : isName chars = true := by
  have hstart : nameStart.contains b = true → b < 128 := nameStart.lt_of_contains (by decide)
  have hmore : ∀ b, ByteClass.letterOrDigit.contains b = true → b < 128 :=
    fun _ => ByteClass.letterOrDigit.lt_of_contains rfl
  have hchars : Ascii chars := ascii_of_utf8 fun x hx => by
    rw [h, List.mem_cons] at hx
    rcases hx with rfl | hx
    · exact hstart hb
    · exact hmore x (hbytes x hx)
  rw [utf8_of_ascii hchars] at h
  obtain ⟨c, rest, rfl, rfl, rfl⟩ := List.map_eq_cons_iff.mp h
  obtain ⟨hc, hrest⟩ := ascii_cons_iff.mp hchars
  rw [isName, Bool.and_eq_true, Bool.or_eq_true, List.all_eq_true]
  refine ⟨?_, fun x hx => ?_⟩
  · have hletter : (ByteClass.isLetter c.toUInt8 || c.toUInt8 == '_'.toUInt8) = true := hb
    rw [isLetter_toUInt8 hc, Bool.or_eq_true] at hletter
    refine hletter.imp id fun heq => beq_iff_eq.mpr ?_
    have hsingle : [c].map Char.toUInt8 = ['_'].map Char.toUInt8 :=
      congrArg (fun b => [b]) (beq_iff_eq.mp heq)
    have hunderscore : Ascii ['_'] := by decide
    have hascii : Ascii [c] := List.forall_mem_singleton.mpr hc
    exact (List.cons.inj (eq_of_map_toUInt8 hascii hunderscore hsingle)).1
  · rw [← letterOrDigit_toUInt8 (hrest x hx)]
    exact hbytes _ (List.mem_map_of_mem hx)

/-- Digits, a point and digits are those of two numerals. -/
theorem exists_numerals_of_spells {chars : List Char}
    (h : (Matcher.sequence realSteps).Spells (utf8 chars)) :
    ∃ whole fraction, chars = whole ++ '.' :: fraction ∧ Decimal.isNumeral whole = true ∧
      Decimal.isNumeral fraction = true := by
  obtain ⟨front, back, hsplit, hfront, ⟨point, behind, rfl, ⟨b, hb, rfl⟩, ⟨back, last, rfl, hback,
    rfl⟩⟩⟩ := h
  rw [beq_iff_eq.mp hb, List.append_nil] at hsplit
  have hdigit : ∀ b, ByteClass.digit.contains b = true → b < 128 :=
    fun _ => ByteClass.digit.lt_of_contains rfl
  have hchars : Ascii chars := ascii_of_utf8 fun x hx => by
    rw [hsplit, List.mem_append, List.mem_append, List.mem_singleton] at hx
    rcases hx with hx | rfl | hx
    · exact hdigit x (hfront.2 x hx)
    · decide
    · exact hdigit x (hback.2 x hx)
  rw [utf8_of_ascii hchars] at hsplit
  obtain ⟨whole, more, rfl, rfl, hmore⟩ := List.map_eq_append_iff.mp hsplit
  obtain ⟨c, fraction, rfl, hc, rfl⟩ := List.map_eq_cons_iff.mp hmore
  obtain ⟨hwhole, hmore⟩ := List.forall_mem_append.mp hchars
  obtain ⟨hlt, hfraction⟩ := ascii_cons_iff.mp hmore
  have hpoint : [c] = ['.'] := by
    have hdot : Ascii ['.'] := by decide
    exact eq_of_map_toUInt8 (List.forall_mem_singleton.mpr hlt) hdot (congrArg (fun b => [b]) hc)
  refine ⟨whole, fraction, by rw [(List.cons.inj hpoint).1], ?_, ?_⟩
  · refine Matcher.isNumeral_of_spells ?_
    rw [utf8_of_ascii hwhole]
    exact hfront
  · refine Matcher.isNumeral_of_spells ?_
    rw [utf8_of_ascii hfraction]
    exact hback

/-- **What is read off a text is spelled the way lexemes are written.** -/
theorem wellSpelled_of_spelled {token : Token Kind} (h : table.Spelled token) :
    WellSpelled token := by
  have hrule : ∀ kind, token.kind = kind → kind ≠ .unknown →
      ∃ rule ∈ table.rules, rule.kind? = some kind ∧
        rule.matcher.Spells (utf8 token.text.toList) := by
    rintro _ rfl hne
    exact h.resolve_left hne
  refine ⟨fun k hkind => ?_, fun s hkind => ?_, fun hkind => ?_, fun hkind => ?_, fun hkind => ?_⟩
  · obtain ⟨rule, hmem, hemit, hspells⟩ := hrule _ hkind (by cases k <;> decide)
    rw [eq_emit_word k rule hmem hemit] at hspells
    exact (Matcher.map_toLower_of_spells k.ascii_capitals hspells).trans k.toLower_capitals
  · obtain ⟨rule, hmem, hemit, hspells⟩ := hrule _ hkind (by cases s <;> decide)
    rw [eq_emit_sign s rule hmem hemit] at hspells
    rw [← eq_of_utf8_eq s.ascii (s.eq_of_spells hspells), String.ofList_toList]
  · obtain ⟨rule, hmem, hemit, hspells⟩ := hrule _ hkind (by decide)
    rcases eq_emit_name rule hmem hemit with rfl | rfl
    · obtain ⟨front, back, hsplit, ⟨b, hb, rfl⟩, ⟨more, last, rfl, hmore, rfl⟩⟩ := hspells
      rw [List.append_nil] at hsplit
      exact isName_of_utf8 hsplit hb hmore.2
    · obtain ⟨b, hb, hsplit⟩ := hspells
      exact isName_of_utf8 hsplit hb fun x hx => absurd hx List.not_mem_nil
  · obtain ⟨rule, hmem, hemit, hspells⟩ := hrule _ hkind (by decide)
    rw [eq_emit_integer rule hmem hemit] at hspells
    exact Matcher.isNumeral_of_spells hspells
  · obtain ⟨rule, hmem, hemit, hspells⟩ := hrule _ hkind (by decide)
    rw [eq_emit_real rule hmem hemit] at hspells
    exact exists_numerals_of_spells hspells

end GrammarKit.Pascal
