import GrammarKit.Proofs.Respacing

/-!
# One expression, written for both languages

Numerals, signs and parentheses are written for the calculator with spaces between them.  For Pascal
they stand on the right of the only assignment of a program, and the word `DIV` stands for each
division.  Whatever the list is, an expression or not, each text is read as the list that it was
written from.

* `Calc.Lexeme.toPascal`: the same numeral or sign in Pascal.
* `Calc.sourceOf`, `Pascal.sourceOf`: the two texts.
* `Calc.spellings_sourceOf`, `Pascal.spellings_sourceOf`: their tokens.
-/

namespace GrammarKit

theorem toList_intercalate_space (text : String) (texts : List String) :
    (" ".intercalate (text :: texts)).toList =
      text.toList ++ texts.flatMap fun text => ' ' :: text.toList := by
  induction texts generalizing text with
  | nil => rw [String.intercalate_singleton, List.flatMap_nil, List.append_nil]
  | cons next texts ih =>
    rw [String.intercalate_cons_cons, String.toList_append, String.toList_append, ih,
      List.flatMap_cons, List.append_assoc]
    rfl

/-! ## 1.  The calculator -/

namespace Calc

/-- The text of the calculator for a list of numerals and signs: they are joined by spaces. -/
def sourceOf (lexemes : List Lexeme) : String :=
  " ".intercalate (lexemes.map fun lexeme => lexeme.spelling.2)

theorem Lexeme.toList_text (l : Lexeme) : l.spelling.2.toList = l.chars := by
  cases l <;> exact String.toList_ofList

/-- A lexeme is read before a space, and before the end. -/
theorem Lexeme.reads (l : Lexeme) {back : List Char} (hback : ∀ c ∈ back.head?, c = ' ') :
    table.Reads l.spelling.1 l.spelling.2.toList back := by
  have hend : l.endsBefore (utf8 back) := by
    cases back with
    | nil => exact l.endsBefore_nil
    | cons c back =>
      rw [hback c rfl]
      exact l.endsBefore_space _
  have hchars : (Input.ofString (String.ofList (l.chars ++ back))).chars = l.chars ++ back :=
    String.toList_ofList
  obtain ⟨rest, hfirst, rfl⟩ := first?_lexeme l hchars hend
  refine LexTable.reads_of_first? endsLow ?_ hfirst
  rw [hchars]
  exact List.append_ne_nil_of_left_ne_nil l.chars_ne_nil _

theorem Lexeme.skips_space (l : Lexeme) (back : List Char) :
    table.Skips [' '] (l.spelling.2.toList ++ back) := by
  rw [l.toList_text]
  exact skips_of_spaces (List.forall_mem_singleton.mpr rfl) (l.head?_ne_space back)

/-- **The text of the calculator is read as the list that it is written from.** -/
theorem spellings_sourceOf (lexemes : List Lexeme) :
    table.spellings (sourceOf lexemes) = lexemes.map Lexeme.spelling := by
  apply LexTable.Woven.spellings
  cases lexemes with
  | nil => exact .nil [] (LexTable.skips_nil _)
  | cons l lexemes =>
    have hspaced : table.Woven (lexemes.map Lexeme.spelling ++ [])
        ((lexemes.map Lexeme.spelling).flatMap (fun piece => ' ' :: piece.2.toList) ++ []) := by
      refine .spaced (List.forall_mem_map.mpr fun l _ back hback => l.reads hback)
        (List.forall_mem_map.mpr fun l _ => l.skips_space) (fun c hc => by cases hc) ?_
      exact .nil [] (LexTable.skips_nil _)
    rw [List.append_nil, List.append_nil, List.flatMap_map] at hspaced
    rw [sourceOf, List.map_cons, List.map_cons, toList_intercalate_space, List.flatMap_map]
    refine .cons [] (LexTable.skips_nil _) (l.reads ?_) hspaced
    cases lexemes with
    | nil => exact fun c hc => by cases hc
    | cons next lexemes =>
      intro c hc
      cases hc
      rfl

/-! ## 2.  The same in Pascal -/

/-- The text of a lexeme in Pascal: the word `DIV` for a division, and otherwise the same text. -/
def Lexeme.pascalText : Lexeme → String
  | .sign .slash => "DIV"
  | l => l.spelling.2

/-- The same numeral or sign in Pascal. -/
def Lexeme.toPascal : Lexeme → Pascal.Lexeme
  | .number n => .number (.integer n)
  | .sign .plus => .sign .plus
  | .sign .minus => .sign .minus
  | .sign .times => .sign .times
  | .sign .slash => .word (⟨"DIV".toList, rfl⟩ : Pascal.Word .div)
  | .sign .opening => .sign .opening
  | .sign .closing => .sign .closing

theorem Lexeme.text_toPascal (l : Lexeme) : l.toPascal.spelling.2 = l.pascalText := by
  cases l with
  | number n => rfl
  | sign s => cases s <;> rfl

theorem Lexeme.free_toPascal (l : Lexeme) : l.toPascal.Free := by
  cases l with
  | number n => exact True.intro
  | sign s => cases s <;> exact True.intro

end Calc

namespace Pascal

/-- The Pascal program that assigns what is written by a list of numerals and signs. -/
def sourceOf (lexemes : List Calc.Lexeme) : String :=
  "PROGRAM p; BEGIN x := " ++ " ".intercalate (lexemes.map Calc.Lexeme.pascalText) ++ " END."

example :
    sourceOf [.number ⟨['7'], rfl⟩, .sign .slash, .sign .minus, .number ⟨['2', '0'], rfl⟩] =
      "PROGRAM p; BEGIN x := 7 DIV - 20 END." :=
  rfl

theorem Lexeme.toList_text (l : Lexeme) : l.spelling.2.toList = l.chars := String.toList_ofList

/-- A lexeme is read before a space, and before the end. -/
theorem Lexeme.reads {l : Lexeme} (hfree : l.Free) (back : List Char)
    (hback : ∀ c ∈ back.head?, c = ' ') : table.Reads l.spelling.1 l.spelling.2.toList back := by
  have hend : Separated (utf8 back) := by
    cases back with
    | nil => exact fun b hb => by cases hb
    | cons c back =>
      rw [hback c rfl]
      exact Gap.separated (.blank rfl) back
  have hchars : (Input.ofString (String.ofList (l.chars ++ back))).chars = l.chars ++ back :=
    String.toList_ofList
  obtain ⟨rest, hfirst, rfl⟩ := first?_lexeme hfree hchars hend
  refine LexTable.reads_of_first? endsLow ?_ hfirst
  rw [hchars]
  exact List.append_ne_nil_of_left_ne_nil l.chars_ne_nil _

theorem Lexeme.skips_space (l : Lexeme) (back : List Char) :
    table.Skips [' '] (l.spelling.2.toList ++ back) := by
  rw [l.toList_text]
  exact fun input hchars => next_gaps (.cons (.blank rfl) .nil) hchars (l.solid back)

/-- A word with a meaning is read before anything. -/
theorem reads_word {k : Keyword} (w : Word k) (back : List Char) :
    table.Reads (Lexeme.word w).kind (Lexeme.word w).chars back := by
  have hchars : (Input.ofString (String.ofList (w.chars ++ back))).chars = w.chars ++ back :=
    String.toList_ofList
  obtain ⟨rest, hfirst, rfl⟩ := first?_word w hchars
  have hne : (Input.ofString (String.ofList (w.chars ++ rest.chars))).chars ≠ [] := by
    obtain ⟨c, more, hword, -⟩ := w.exists_cons
    rw [hchars, hword]
    exact List.cons_ne_nil _ _
  have hreads := LexTable.reads_of_first? endsLow hne hfirst
  rwa [String.toList_ofList] at hreads

/-- The word in capital letters. -/
def Keyword.word (k : Keyword) : Word k := ⟨k.capitals.toList, k.toLower_capitals⟩

/-- The name of the program. -/
def programName : Name := ⟨['p'], rfl⟩

/-- The name of its variable. -/
def variableName : Name := ⟨['x'], rfl⟩

/-- The lexemes before the expression. -/
def opening : List Lexeme :=
  [.word Keyword.program.word, .name programName, .sign .semi, .word Keyword.begin.word,
    .name variableName, .sign .assign]

/-- The lexemes behind the expression. -/
def closing : List Lexeme := [.word Keyword.end.word, .sign .dot]

theorem free_programName : programName.Free := by
  intro k
  cases k <;> decide

theorem free_variableName : variableName.Free := by
  intro k
  cases k <;> decide

/-- A name of one letter ends before a semicolon. -/
theorem reads_programName (back : List Char) :
    table.Reads .id programName.chars (';' :: back) := by
  have hend : table.Reads .id programName.chars [] := by
    have hreads := Lexeme.reads (l := .name programName) free_programName []
      fun c hc => by cases hc
    rwa [Lexeme.toList_text] at hreads
  refine hend.before (show utf8 programName.chars = 112 :: [] from rfl) fun b hb => ?_
  cases hb
  decide

variable {pieces : List (Kind × String)} {gap chars : List Char}

/-- A lexeme in front of what is woven. -/
theorem woven_lexeme (l : Lexeme) (hgap : Gaps gap) (hreads : table.Reads l.kind l.chars chars)
    (h : table.Woven pieces chars) :
    table.Woven (l.spelling :: pieces) (gap ++ (l.chars ++ chars)) := by
  have htext : (String.ofList l.chars).toList = l.chars := String.toList_ofList
  rw [← htext] at hreads ⊢
  refine .cons gap (fun input hchars => next_gaps hgap hchars ?_) hreads h
  rw [htext]
  exact l.solid chars

theorem woven_closing (hgap : Gaps gap) :
    table.Woven (closing.map Lexeme.spelling) (gap ++ "END.".toList) := by
  have hdot : table.Reads .dot ['.'] [] := by
    have hreads := Lexeme.reads (l := .sign .dot) True.intro [] fun c hc => by cases hc
    rwa [Lexeme.toList_text] at hreads
  have hsplit : gap ++ "END.".toList = gap ++ (Keyword.end.word.chars ++ ([] ++ ['.'])) := rfl
  rw [hsplit]
  exact woven_lexeme (.word Keyword.end.word) hgap (reads_word _ _)
    (woven_lexeme (.sign .dot) .nil hdot (.nil [] (LexTable.skips_nil _)))

theorem woven_opening (h : table.Woven pieces (' ' :: chars)) :
    table.Woven (opening.map Lexeme.spelling ++ pieces)
      ("PROGRAM p; BEGIN x :=".toList ++ ' ' :: chars) := by
  have hspace : Gaps [' '] := .cons (.blank rfl) .nil
  have hbefore : ∀ l : Lexeme, l.Free → ∀ back, table.Reads l.kind l.chars (' ' :: back) := by
    intro l hfree back
    have hreads := Lexeme.reads hfree (' ' :: back) fun c hc => by cases hc; rfl
    rwa [Lexeme.toList_text] at hreads
  have hsplit : "PROGRAM p; BEGIN x :=".toList ++ ' ' :: chars =
      Keyword.program.word.chars ++ ([' '] ++ (programName.chars ++ ([';'] ++ ([' '] ++
        (Keyword.begin.word.chars ++ ([' '] ++ (variableName.chars ++ ([' '] ++ ([':', '='] ++
          ' ' :: chars))))))))) := rfl
  rw [hsplit]
  exact woven_lexeme (.word Keyword.program.word) .nil (reads_word _ _)
    (woven_lexeme (.name programName) hspace (reads_programName _)
    (woven_lexeme (.sign .semi) .nil (hbefore (.sign .semi) True.intro _)
    (woven_lexeme (.word Keyword.begin.word) hspace (reads_word _ _)
    (woven_lexeme (.name variableName) hspace (hbefore (.name variableName) free_variableName _)
    (woven_lexeme (.sign .assign) hspace (hbefore (.sign .assign) True.intro _) h)))))

theorem toList_frame (body : String) :
    ("PROGRAM p; BEGIN x := " ++ body ++ " END.").toList =
      "PROGRAM p; BEGIN x :=".toList ++ ' ' :: (body.toList ++ " END.".toList) := by
  have hopening : "PROGRAM p; BEGIN x := ".toList = "PROGRAM p; BEGIN x :=".toList ++ [' '] := rfl
  rw [String.toList_append, String.toList_append, hopening, List.append_assoc, List.append_assoc]
  exact List.singleton_append

theorem toList_sourceOf (lexemes : List Calc.Lexeme) :
    (sourceOf lexemes).toList = "PROGRAM p; BEGIN x :=".toList ++
      ' ' :: ((" ".intercalate (lexemes.map Calc.Lexeme.pascalText)).toList ++ " END.".toList) :=
  toList_frame _

/-- **The program is read as the list that it is written from**, with the frame around it. -/
theorem spellings_sourceOf (lexemes : List Calc.Lexeme) :
    table.spellings (sourceOf lexemes) =
      (opening ++ (lexemes.map Calc.Lexeme.toPascal ++ closing)).map Lexeme.spelling := by
  rw [List.map_append]
  apply LexTable.Woven.spellings
  rw [toList_sourceOf]
  refine woven_opening ?_
  cases lexemes with
  | nil =>
    have hgap : ' ' :: ((" ".intercalate ([].map Calc.Lexeme.pascalText)).toList ++ " END.".toList) =
        [' ', ' '] ++ "END.".toList := rfl
    rw [hgap]
    exact woven_closing (.cons (.blank rfl) (.cons (.blank rfl) .nil))
  | cons l lexemes =>
    -- A single space stands before each lexeme, and before the word behind them.
    have hspaced : table.Woven
        (((l :: lexemes).map fun l => l.toPascal.spelling) ++ closing.map Lexeme.spelling)
        (((l :: lexemes).map fun l => l.toPascal.spelling).flatMap
          (fun piece => ' ' :: piece.2.toList) ++ ([' '] ++ "END.".toList)) := by
      refine .spaced (List.forall_mem_map.mpr fun l _ => Lexeme.reads l.free_toPascal)
        (List.forall_mem_map.mpr fun l _ => l.toPascal.skips_space) (fun c hc => ?_)
        (woven_closing (.cons (.blank rfl) .nil))
      cases hc
      rfl
    rw [List.flatMap_map] at hspaced
    simp only [Calc.Lexeme.text_toPascal] at hspaced
    have hclosing : " END.".toList = [' '] ++ "END.".toList := rfl
    rw [List.map_append, List.map_map, hclosing, List.map_cons (f := Calc.Lexeme.pascalText),
      toList_intercalate_space, List.flatMap_map, ← List.cons_append, ← List.cons_append]
    exact hspaced

end Pascal

end GrammarKit
