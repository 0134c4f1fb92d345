import GrammarKit.Lexer.Matcher
import GrammarKit.Lexer.Token

/-!
# Lexical tables

A lexical table is an ordered list of rules.  At each place the first rule that takes at least one
byte, and ends between two characters, decides; how much a later rule would take does not count.
What a skipping rule takes is dropped.  Where no rule applies, one character becomes a token of the
table's unknown kind, so reading never gets stuck.

* `LexTable.first?` is the choice of the rule.
* `LexTable.next` reads one token and everything skipped before it.
* `length_next_lt`: reading a token leaves a shorter input.
-/

namespace GrammarKit

/-- One rule of a lexical table: what it takes, and the kind of token that becomes of it.  A rule
without a kind drops what it takes. -/
structure LexRule (K : Type) where
  /-- What the rule takes. -/
  matcher : Matcher
  /-- The kind of the token, if the rule makes one. -/
  kind? : Option K

/-- An ordered list of lexical rules. -/
structure LexTable (K : Type) where
  /-- The rules, in the order in which they are tried. -/
  rules : List (LexRule K)
  /-- The kind of a character that no rule takes. -/
  unknown : K
  /-- The kind of the token that stands for the end of the text. -/
  endOfText : K

namespace LexRule

variable {K : Type}

/-- A rule that makes tokens of this kind. -/
def emit (matcher : Matcher) (kind : K) : LexRule K := ⟨matcher, some kind⟩

/-- A rule that drops what it takes. -/
def skip (matcher : Matcher) : LexRule K := ⟨matcher, none⟩

/-- What the rule reads off the input: nothing, unless it takes whole characters and at least one. -/
def read? (rule : LexRule K) (input : Input) : Option (String × Input) :=
  match rule.matcher.consumed input.bytes with
  | 0 => none
  | n + 1 => input.take? (n + 1)

theorem length_lt_of_read? {rule : LexRule K} {input rest : Input} {text : String}
    (h : rule.read? input = some (text, rest)) : rest.chars.length < input.chars.length := by
  unfold read? at h
  split at h
  · cases h
  · exact Input.length_lt_of_take? h (Nat.succ_ne_zero _)

theorem offset_lt_of_read? {rule : LexRule K} {input rest : Input} {text : String}
    (h : rule.read? input = some (text, rest)) :
    input.offset < rest.offset ∧ rest.stop = input.stop := by
  unfold read? at h
  split at h
  · cases h
  · rw [Input.offset_of_take? h]
    exact ⟨Nat.lt_add_of_pos_right (Nat.succ_pos _), Input.stop_of_take? h⟩

end LexRule

namespace LexTable

variable {K : Type}

/-- The kind, the text and the rest that the first applicable rule yields. -/
def first? (table : LexTable K) (input : Input) : Option (Option K × String × Input) :=
  table.rules.findSome? fun rule => (rule.read? input).map fun read => (rule.kind?, read)

theorem length_lt_of_first? {table : LexTable K} {input rest : Input} {kind? : Option K}
    {text : String} (h : table.first? input = some (kind?, text, rest)) :
    rest.chars.length < input.chars.length := by
  obtain ⟨rule, -, hrule⟩ := List.exists_of_findSome?_eq_some h
  obtain ⟨read, hread, heq⟩ := Option.map_eq_some_iff.mp hrule
  cases heq
  exact LexRule.length_lt_of_read? hread

theorem offset_lt_of_first? {table : LexTable K} {input rest : Input} {kind? : Option K}
    {text : String} (h : table.first? input = some (kind?, text, rest)) :
    input.offset < rest.offset ∧ rest.stop = input.stop := by
  obtain ⟨rule, -, hrule⟩ := List.exists_of_findSome?_eq_some h
  obtain ⟨read, hread, heq⟩ := Option.map_eq_some_iff.mp hrule
  cases heq
  exact LexRule.offset_lt_of_read? hread

/-- The token at the front of the input, after what is skipped before it, and the input behind it.
There is no token at the end of the text. -/
def next (table : LexTable K) (input : Input) : Option (Token K) × Input :=
  match input.chars with
  | [] => (none, input)
  | c :: _ =>
    match _h : table.first? input with
    | some (some kind, text, rest) => (some ⟨kind, text, input.offset⟩, rest)
    | some (none, _, rest) => next table rest
    | none =>
      match input.take? c.utf8Size with
      | some (text, rest) => (some ⟨table.unknown, text, input.offset⟩, rest)
      | none => (none, input.finish)
termination_by input.chars.length
decreasing_by exact length_lt_of_first? _h

/-- Reading a token leaves a shorter input. -/
theorem length_next_lt (table : LexTable K) (input : Input) :
    ∀ token, (table.next input).1 = some token →
      (table.next input).2.chars.length < input.chars.length := by
  fun_induction table.next input with
  | case1 => intro token h; cases h
  | case2 input c tail hchars kind text rest hfirst =>
    intro token _
    exact length_lt_of_first? hfirst
  | case3 input c tail hchars text rest hfirst ih =>
    intro token h
    exact Nat.lt_trans (ih token h) (length_lt_of_first? hfirst)
  | case4 input c tail hchars hfirst text rest htake =>
    intro token _
    exact Input.length_lt_of_take? htake (Nat.ne_of_gt c.utf8Size_pos)
  | case5 => intro token h; cases h

/-- Reading moves forward in the text, and by at least one byte if there is a token. -/
theorem offset_next (table : LexTable K) (input : Input) :
    input.offset ≤ (table.next input).2.offset ∧ (table.next input).2.stop = input.stop ∧
      ((table.next input).1 ≠ none → input.offset < (table.next input).2.offset) := by
  fun_induction table.next input with
  | case1 => exact ⟨Nat.le_refl _, rfl, fun h => absurd rfl h⟩
  | case2 input c tail hchars kind text rest hfirst =>
    obtain ⟨hlt, hstop⟩ := offset_lt_of_first? hfirst
    exact ⟨Nat.le_of_lt hlt, hstop, fun _ => hlt⟩
  | case3 input c tail hchars text rest hfirst ih =>
    obtain ⟨hlt, hstop⟩ := offset_lt_of_first? hfirst
    exact ⟨Nat.le_trans (Nat.le_of_lt hlt) ih.1, ih.2.1.trans hstop,
      fun h => Nat.lt_trans hlt (ih.2.2 h)⟩
  | case4 input c tail hchars hfirst text rest htake =>
    rw [Input.offset_of_take? htake, Input.stop_of_take? htake]
    exact ⟨Nat.le_add_right _ _, rfl, fun _ => Nat.lt_add_of_pos_right c.utf8Size_pos⟩
  | case5 input c tail hchars hfirst htake =>
    exact ⟨input.offset_le_stop, rfl, fun h => absurd rfl h⟩

/-- The token that stands for the end of the text. -/
def endToken (table : LexTable K) (offset : Nat) : Token K := ⟨table.endOfText, "", offset⟩

/-- The token that is read at byte `start` of a text, and the offset behind it.  At the end of the
text that is the end token. -/
def tokenAt (table : LexTable K) (text : String) (start : Nat) : Token K × Nat :=
  match table.next (Input.dropTo text start) with
  | (some token, rest) => (token, rest.offset)
  | (none, rest) => (table.endToken rest.offset, rest.offset)

end LexTable

end GrammarKit
