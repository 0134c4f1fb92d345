import GrammarKit.Lexer.Table

/-!
# Cursors

A cursor stands on a token of a text and reads on from there when it is asked to.  It is a value:
keeping one is how a position is remembered, going on from a kept one is how it is restored.  Past
the last token a cursor has no token, and stays where it is.
-/

namespace GrammarKit

/-- A place in the token sequence of a text. -/
structure Cursor (K : Type) where
  /-- The table by which the text is read. -/
  table : LexTable K
  /-- The token here; there is none past the last one. -/
  token? : Option (Token K)
  /-- What is left to read behind the token. -/
  rest : Input

namespace Cursor

variable {K : Type}

/-- The cursor on the first token of the input. -/
def atNext (table : LexTable K) (input : Input) : Cursor K :=
  { table, token? := (table.next input).1, rest := (table.next input).2 }

/-- The cursor on the first token of a text. -/
def start (table : LexTable K) (text : String) : Cursor K := atNext table (Input.ofString text)

/-- The cursor past the last token of a text. -/
def atEnd (table : LexTable K) (text : String) : Cursor K :=
  { table, token? := none, rest := (Input.ofString text).finish }

/-- Whether the tokens are used up. -/
def isAtEnd (c : Cursor K) : Bool := c.token?.isNone

/-- The token here, the end token if the tokens are used up. -/
def token (c : Cursor K) : Token K := c.token?.getD (c.table.endToken c.rest.offset)

/-- Where the token here starts; the length of the text if the tokens are used up. -/
def offset (c : Cursor K) : Nat := c.token.offset

/-- The cursor on the token behind this one. -/
def advance (c : Cursor K) : Cursor K :=
  match c.token? with
  | none => c
  | some _ => atNext c.table c.rest

/-- Cursors over one text are compared by the token and by what is left behind it. -/
instance [BEq K] : BEq (Cursor K) := ⟨fun a b => a.rest.offset == b.rest.offset && a.token == b.token⟩

/-- The tokens of `input`, behind the ones already collected. -/
def collect (table : LexTable K) (collected : List (Token K)) (input : Input) : List (Token K) :=
  match _h : table.next input with
  | (none, _) => collected.reverse
  | (some token, rest) => collect table (token :: collected) rest
termination_by input.chars.length
decreasing_by
  have := table.length_next_lt input token (by rw [_h])
  rwa [_h] at this

/-- The tokens from here on. -/
def tokens (c : Cursor K) : List (Token K) :=
  match c.token? with
  | none => []
  | some token => collect c.table [token] c.rest

/-- A bound on the number of tokens from here on: it goes down whenever the cursor moves. -/
def remaining (c : Cursor K) : Nat :=
  (c.rest.stop - c.rest.offset) + (if c.token?.isSome then 1 else 0)

theorem remaining_atNext_le (table : LexTable K) (input : Input) :
    (atNext table input).remaining ≤ input.stop - input.offset := by
  obtain ⟨hle, hstop, hlt⟩ := table.offset_next input
  have hend := (table.next input).2.offset_le_stop
  have hremaining : (atNext table input).remaining =
      ((table.next input).2.stop - (table.next input).2.offset) +
        (if (table.next input).1.isSome then 1 else 0) := rfl
  rw [hremaining]
  split
  · next hsome =>
    have := hlt (Option.isSome_iff_ne_none.mp hsome)
    omega
  · omega

/-- A cursor that moves has fewer tokens ahead. -/
theorem remaining_advance_lt {c : Cursor K} (h : c.token? ≠ none) :
    c.advance.remaining < c.remaining := by
  obtain ⟨table, token?, rest⟩ := c
  cases token? with
  | none => exact absurd rfl h
  | some token => exact Nat.lt_succ_of_le (remaining_atNext_le table rest)

/-- A cursor past the last token stays there. -/
theorem advance_eq_self {c : Cursor K} (h : c.token? = none) : c.advance = c := by
  simp only [advance, h]

end Cursor

end GrammarKit
