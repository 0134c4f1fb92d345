import GrammarKit.Lexer.Cursor

/-!
# Streams of tokens

A stream is a place in a sequence of tokens.  Streams are values, so keeping one and going on from
it later is all that backtracking needs.  The number `remaining` goes down whenever a stream moves,
which is what bounds every repetition.

* `TokenStream` is the interface, with the two instances `Cursor` (tokens read on demand) and
  `TokenArray` (tokens held in memory).
* `LawfulTokenStream` states what the engine relies on.
-/

namespace GrammarKit

/-- A place in a sequence of tokens. -/
class TokenStream (S : Type) (T : outParam Type) where
  /-- The token here; there is none at the end. -/
  peek : S → Option T
  /-- The place behind the token here. -/
  advance : S → S
  /-- The position of the token here, in the units of the stream. -/
  offset : S → Nat
  /-- A bound on the number of tokens ahead. -/
  remaining : S → Nat

namespace TokenStream

variable {S T : Type} [TokenStream S T]

/-- Whether the tokens are used up. -/
def atEnd (s : S) : Bool :=
  match peek s with
  | some _ => false
  | none => true

theorem atEnd_iff {s : S} : atEnd s = true ↔ peek s = none := by
  unfold atEnd
  cases peek s <;> simp

theorem atEnd_eq_false_iff {s : S} : atEnd s = false ↔ ∃ token, peek s = some token := by
  unfold atEnd
  cases peek s <;> simp

end TokenStream

/-- What a stream promises: the end stays where it is, and a move leaves fewer tokens. -/
class LawfulTokenStream (S : Type) {T : Type} [TokenStream S T] : Prop where
  advance_of_peek_eq_none (s : S) : TokenStream.peek s = none → TokenStream.advance s = s
  remaining_advance_lt (s : S) :
    TokenStream.peek s ≠ none → TokenStream.remaining (TokenStream.advance s) < TokenStream.remaining s

/-- The tokens of a text, read on demand. -/
instance {K : Type} : TokenStream (Cursor K) (Token K) where
  peek c := c.token?
  advance := Cursor.advance
  offset := Cursor.offset
  remaining := Cursor.remaining

instance {K : Type} : LawfulTokenStream (Cursor K) where
  advance_of_peek_eq_none _ h := Cursor.advance_eq_self h
  remaining_advance_lt _ h := Cursor.remaining_advance_lt h

/-- Tokens held in memory, and the number of those already read. -/
structure TokenArray (T : Type) where
  /-- All tokens. -/
  tokens : Array T
  /-- How many of them lie behind. -/
  position : Nat
  deriving BEq

namespace TokenArray

variable {T : Type}

/-- The stream over all tokens of a list. -/
def ofList (tokens : List T) : TokenArray T := ⟨tokens.toArray, 0⟩

/-- The tokens ahead. -/
def ahead (s : TokenArray T) : List T := s.tokens.toList.drop s.position

/-- Past the token here; at the end, the end. -/
def advance (s : TokenArray T) : TokenArray T :=
  if s.position < s.tokens.size then { s with position := s.position + 1 } else s

instance : TokenStream (TokenArray T) T where
  peek s := s.tokens[s.position]?
  advance := advance
  offset := position
  remaining s := s.tokens.size - s.position

theorem ahead_advance (s : TokenArray T) : s.advance.ahead = s.ahead.drop 1 := by
  unfold advance
  split
  · simp [ahead]
  · next h =>
    have hle : s.tokens.toList.length ≤ s.position := by simpa using h
    simp [ahead, List.drop_eq_nil_of_le hle]

instance : LawfulTokenStream (TokenArray T) where
  advance_of_peek_eq_none s h := by
    have hle : s.tokens.size ≤ s.position := by simpa [TokenStream.peek] using h
    simp [TokenStream.advance, advance, Nat.not_lt_of_le hle]
  remaining_advance_lt s h := by
    have hlt : s.position < s.tokens.size := by
      refine Nat.lt_of_not_le fun hle => h ?_
      simpa [TokenStream.peek] using hle
    simp only [TokenStream.remaining, TokenStream.advance, advance, if_pos hlt]
    omega

end TokenArray

end GrammarKit
