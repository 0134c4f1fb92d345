import GrammarKit.Proofs.Display
import Mathlib.Algebra.Group.Nat.Even
import Mathlib.Data.List.DropRight

/-!
# Labels between quotes

A label stands between quotes, and a quote in it gets a backslash.  Whoever reads the document takes a
backslash together with the character behind it, whatever that is, and a quote that is not taken in this
way closes the label.  A backslash of the label itself gets none.  So it depends on the backslashes in
front of a quote whether it closes the label: if their number is odd, the one that was added is taken
together with the last of them, and the quote is left alone.  At the end of the label an odd number of
backslashes takes the closing quote.

* `readQuoted`: how a label is read.
* `BackslashesPair`: before each quote and at the end there is an even number of backslashes.
* `readQuoted_quoteLabel_iff`: a label ends at its closing quote if and only if its backslashes pair.
* `draw_label_closes_iff`: the same for all labels of a document.
-/

namespace GrammarKit

/-! ## 1.  Reading between quotes -/

/-- Reads behind an opening quote up to the quote that closes it: what is inside, and what comes behind
it.  A character is escaped if the one before it is a backslash that is not escaped itself; only a
quote that is not escaped closes. -/
def readQuoted (escaped : Bool) : List Char → Option (List Char × List Char)
  | [] => none
  | c :: chars =>
    if !escaped && c == '"' then some ([], chars)
    else (readQuoted (!escaped && c == '\\') chars).map (Prod.map (c :: ·) id)

/-- None of the characters closes, and what comes behind them is not escaped. -/
def staysOpen (escaped : Bool) : List Char → Bool
  | [] => !escaped
  | c :: chars =>
    if !escaped && c == '"' then false else staysOpen (!escaped && c == '\\') chars

/-- **What stays open is read up to the quote behind it**, and nothing else is. -/
theorem readQuoted_append_iff (escaped : Bool) (inside rest : List Char) :
    readQuoted escaped (inside ++ '"' :: rest) = some (inside, rest) ↔
      staysOpen escaped inside = true := by
  induction inside generalizing escaped with
  | nil =>
    cases escaped with
    | false => exact iff_of_true rfl rfl
    | true =>
      rw [List.nil_append, readQuoted, if_neg (by decide), Option.map_eq_some_iff]
      refine iff_of_false ?_ (by decide)
      rintro ⟨_, -, h⟩
      cases h
  | cons c inside ih =>
    rw [List.cons_append, readQuoted, staysOpen]
    by_cases hcloses : (!escaped && c == '"') = true
    · rw [if_pos hcloses, if_pos hcloses]
      exact iff_of_false (fun h => by cases h) Bool.false_ne_true
    · rw [if_neg hcloses, if_neg hcloses, ← ih, Option.map_eq_some_iff]
      constructor
      · rintro ⟨⟨front, back⟩, h, heq⟩
        cases heq
        exact h
      · exact fun h => ⟨_, h, rfl⟩

/-! ## 2.  Backslashes in pairs -/

/-- How many backslashes there are at the end. -/
def backslashes (front : List Char) : Nat := (front.rtakeWhile (· = '\\')).length

/-- **Before each quote of the text, and at its end, there is an even number of backslashes.** -/
def BackslashesPair (text : List Char) : Prop :=
  ∀ front back, text = front ++ back → (∀ c ∈ back.head?, c = '"') → Even (backslashes front)

theorem backslashes_concat (front : List Char) (c : Char) :
    backslashes (front ++ [c]) = if c = '\\' then backslashes front + 1 else 0 := by
  rw [backslashes, List.rtakeWhile_concat]
  by_cases hc : c = '\\'
  · rw [if_pos (decide_eq_true hc), if_pos hc, List.length_append]
    rfl
  · rw [if_neg (by simpa using hc), if_neg hc]
    rfl

/-- The characters of a label as it is written. -/
def escapeQuotes (chars : List Char) : List Char :=
  chars.flatMap fun c => if c = '"' then ['\\', '"'] else [c]

theorem toList_quoteLabel (label : String) :
    (quoteLabel label).toList = escapeQuotes label.toList := String.toList_ofList

/-- A quote is written with a backslash: it stays open if it was not escaped before. -/
theorem staysOpen_escapeQuotes_quote (escaped : Bool) (chars : List Char) :
    staysOpen escaped (escapeQuotes ('"' :: chars)) =
      (!escaped && staysOpen false (escapeQuotes chars)) := by
  cases escaped <;> rfl

/-- Any other character is written as it is. -/
theorem staysOpen_escapeQuotes_cons (escaped : Bool) {c : Char} (hc : c ≠ '"')
    (chars : List Char) :
    staysOpen escaped (escapeQuotes (c :: chars)) =
      staysOpen (!escaped && c == '\\') (escapeQuotes chars) := by
  have hopen : ¬ (!escaped && c == '"') = true := by simp [hc]
  rw [escapeQuotes, List.flatMap_cons, if_neg hc, List.singleton_append, staysOpen, if_neg hopen]
  rfl

/-- The number of backslashes is even wherever it has to be in a text that stands behind another. -/
def BackslashesPairBehind (before chars : List Char) : Prop :=
  ∀ front back, chars = front ++ back → (∀ c ∈ back.head?, c = '"') →
    Even (backslashes (before ++ front))

theorem backslashesPairBehind_nil_iff {before : List Char} :
    BackslashesPairBehind before [] ↔ Even (backslashes before) := by
  constructor
  · intro h
    have heven := h [] [] rfl fun c hc => by cases hc
    rwa [List.append_nil] at heven
  · intro heven front back hsplit _
    rw [(List.nil_eq_append_iff.mp hsplit).1, List.append_nil]
    exact heven

/-- The text is split in front of its first character or behind it. -/
theorem backslashesPairBehind_cons_iff {before chars : List Char} {c : Char} :
    BackslashesPairBehind before (c :: chars) ↔
      (c = '"' → Even (backslashes before)) ∧ BackslashesPairBehind (before ++ [c]) chars := by
  constructor
  · intro h
    refine ⟨fun hc => ?_, fun front back hsplit hback => ?_⟩
    · have heven := h [] (c :: chars) rfl fun c' hc' => by cases hc'; exact hc
      rwa [List.append_nil] at heven
    · have heven := h (c :: front) back (by rw [hsplit, List.cons_append]) hback
      rwa [List.append_cons] at heven
  · rintro ⟨hfirst, hrest⟩ front back hsplit hback
    cases front with
    | nil =>
      rw [List.append_nil]
      rw [List.nil_append] at hsplit
      subst hsplit
      exact hfirst (hback c rfl)
    | cons c' front =>
      rw [List.cons_append] at hsplit
      cases hsplit
      rw [List.append_cons]
      exact hrest front back rfl hback

/-- A label stays open if the number of backslashes is even wherever it has to be. -/
theorem staysOpen_escapeQuotes_iff (before chars : List Char) :
    staysOpen (!decide (Even (backslashes before))) (escapeQuotes chars) = true ↔
      BackslashesPairBehind before chars := by
  -- The induction goes on behind each character; what matters of the text before is its backslashes.
  induction chars generalizing before with
  | nil =>
    rw [backslashesPairBehind_nil_iff, escapeQuotes, List.flatMap_nil, staysOpen, Bool.not_not,
      decide_eq_true_eq]
  | cons c chars ih =>
    rw [backslashesPairBehind_cons_iff, ← ih, backslashes_concat]
    by_cases hquote : c = '"'
    · subst hquote
      rw [staysOpen_escapeQuotes_quote, Bool.not_not, Bool.and_eq_true, decide_eq_true_eq,
        if_neg (by decide)]
      exact and_congr_left' ⟨fun heven _ => heven, fun heven => heven rfl⟩
    · have hother : c = '"' → Even (backslashes before) := fun hc => absurd hc hquote
      rw [staysOpen_escapeQuotes_cons _ hquote, Bool.not_not, and_iff_right hother]
      by_cases hback : c = '\\'
      · have hparity : decide (Even (backslashes before)) =
            !decide (Even (backslashes before + 1)) := by
          rw [← decide_not, decide_eq_decide, Nat.even_add_one, not_not]
        rw [if_pos hback, beq_iff_eq.mpr hback, Bool.and_true, hparity]
      · rw [if_neg hback, beq_eq_false_iff_ne.mpr hback, Bool.and_false]
        rfl

/-- Whether the backslashes of a text pair can be seen by reading it. -/
theorem staysOpen_escapeQuotes_iff_pair (text : List Char) :
    staysOpen false (escapeQuotes text) = true ↔ BackslashesPair text :=
  staysOpen_escapeQuotes_iff [] text

instance (text : List Char) : Decidable (BackslashesPair text) :=
  decidable_of_iff _ (staysOpen_escapeQuotes_iff_pair text)

/-- **A label ends at its closing quote if and only if its backslashes pair.** -/
theorem readQuoted_quoteLabel_iff (label : String) (rest : List Char) :
    readQuoted false ((quoteLabel label).toList ++ '"' :: rest) =
        some ((quoteLabel label).toList, rest) ↔
      BackslashesPair label.toList := by
  rw [readQuoted_append_iff, toList_quoteLabel, staysOpen_escapeQuotes_iff_pair]

/-! ## 3.  Labels of a document -/

namespace Drawing

/-- The lines of statements. -/
def linesText (strokes : List Stroke) : String := String.join (strokes.map Stroke.text)

theorem linesText_append (front back : List Stroke) :
    linesText (front ++ back) = linesText front ++ linesText back := by
  rw [linesText, List.map_append, String.join_append]
  rfl

end Drawing

/-- **When the labels of a document end where they should.**  A label stands between an opening and a
closing quote.  Who reads behind the opening quote comes to the closing one if and only if there is an
even number of backslashes before each quote of the label and at its end. -/
theorem draw_label_closes_iff {tree : Tree} {document : String} (h : tree.draw = .ok document) :
    ∃ drawing : Drawing, Drawing.ofTree tree = .ok drawing ∧
      ∀ before number label after, drawing.toList = before ++ .node number label :: after →
        let behind := "]\n" ++ Drawing.linesText after ++ "\x7d\n"
        document = Drawing.header ++ Drawing.linesText before ++ "  node" ++ toString number ++
          " [label=\"" ++ quoteLabel label ++ "\"" ++ behind ∧
        (readQuoted false (quoteLabel label ++ "\"" ++ behind).toList =
            some ((quoteLabel label).toList, behind.toList) ↔
          BackslashesPair label.toList) := by
  rw [Tree.draw] at h
  cases hdrawing : Drawing.ofTree tree with
  | error fault =>
    rw [hdrawing] at h
    cases h
  | ok drawing =>
    rw [hdrawing] at h
    cases h
    refine ⟨drawing, rfl, fun before number label after hsplit => ?_⟩
    intro behind
    constructor
    · have hrender : drawing.render = Drawing.header ++ Drawing.linesText drawing.toList ++ "\x7d\n" :=
        drawing.render_eq_join
      have hlines : Drawing.linesText (.node number label :: after) =
          (Stroke.node number label).text ++ Drawing.linesText after := String.join_cons
      have hclosing : "\"]\n" = "\"" ++ "]\n" := rfl
      rw [hrender, hsplit, Drawing.linesText_append, hlines, Stroke.text, hclosing]
      simp only [behind, String.append_assoc]
    · rw [String.toList_append, String.toList_append, List.append_assoc]
      exact readQuoted_quoteLabel_iff label behind.toList

/-- The document of a single piece of text. -/
theorem draw_raw (text : String) :
    Tree.draw ⟨⟨#[.raw text]⟩, ⟨0⟩⟩ =
      .ok (Drawing.header ++ (Stroke.node 0 text).text ++ "\x7d\n") := rfl

/-- A quote behind two backslashes, and a quote at the end: both stay inside. -/
theorem draw_label_closes_iff_two_backslashes :
    let tree : Tree := ⟨⟨#[.raw "a\\\\\"b\""]⟩, ⟨0⟩⟩
    let behind := "]\n" ++ Drawing.linesText [] ++ "\x7d\n"
    tree.draw = .ok (Drawing.header ++ (Stroke.node 0 "a\\\\\"b\"").text ++ "\x7d\n") ∧
      BackslashesPair "a\\\\\"b\"".toList ∧
      readQuoted false ("a\\\\\\\"b\\\"" ++ "\"" ++ behind).toList =
        some ("a\\\\\\\"b\\\"".toList, behind.toList) := by
  intro tree behind
  have hpair : BackslashesPair "a\\\\\"b\"".toList := by decide
  have hquoted : quoteLabel "a\\\\\"b\"" = "a\\\\\\\"b\\\"" := by decide
  obtain ⟨drawing, hdrawing, hlabels⟩ := draw_label_closes_iff (draw_raw "a\\\\\"b\"")
  have honly : Drawing.ofTree tree = .ok #[.node 0 "a\\\\\"b\""] := rfl
  cases honly.symm.trans hdrawing
  rw [← hquoted]
  exact ⟨draw_raw _, hpair, (hlabels [] 0 _ [] rfl).2.mpr hpair⟩

/-- **A label may take its closing quote, and it may end early.**  One backslash at the end does the
one, and one backslash before a quote does the other. -/
theorem draw_backslash_breaks_label :
    let last : Tree := ⟨⟨#[.raw "a\\"]⟩, ⟨0⟩⟩
    let inner : Tree := ⟨⟨#[.raw "\\\"b"]⟩, ⟨0⟩⟩
    last.draw = .ok (Drawing.header ++ "  node0 [label=\"a\\\"]\n" ++ "\x7d\n") ∧
      readQuoted false "a\\\"]\n\x7d\n".toList = none ∧
    inner.draw = .ok (Drawing.header ++ "  node0 [label=\"\\\\\"b\"]\n" ++ "\x7d\n") ∧
      readQuoted false "\\\\\"b\"]\n\x7d\n".toList =
        some ("\\\\".toList, "b\"]\n\x7d\n".toList) := by
  intro last inner
  have hlast : (Stroke.node 0 "a\\").text = "  node0 [label=\"a\\\"]\n" := by decide
  have hinner : (Stroke.node 0 "\\\"b").text = "  node0 [label=\"\\\\\"b\"]\n" := by decide
  rw [← hlast, ← hinner]
  exact ⟨draw_raw _, by decide, draw_raw _, by decide⟩

end GrammarKit
