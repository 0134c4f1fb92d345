/-!
# Tokens

A token is a kind together with the text it was read from.  Two tokens are the same when these two
agree; where a token stood in the text plays no part.
-/

namespace GrammarKit

/-- A classification of tokens, with the name under which each kind is shown. -/
class TokenKind (K : Type) where
  /-- The name of a kind. -/
  name : K → String

/-- Kinds that are known by their names alone. -/
instance : TokenKind String := ⟨id⟩

/-- A piece of the text with its classification. -/
structure Token (K : Type) where
  /-- What sort of token it is. -/
  kind : K
  /-- The piece of text. -/
  text : String
  /-- Where it starts, in bytes. -/
  offset : Nat
  deriving Repr

namespace Token

variable {K : Type}

/-- Tokens are compared by kind and text. -/
instance [BEq K] : BEq (Token K) := ⟨fun a b => a.kind == b.kind && a.text == b.text⟩

theorem beq_eq [BEq K] (a b : Token K) : (a == b) = (a.kind == b.kind && a.text == b.text) := rfl

/-- How a token is shown: its kind, and its text unless that is empty. -/
def label [TokenKind K] (t : Token K) : String :=
  if t.text.isEmpty then "Token(" ++ TokenKind.name t.kind ++ ")"
  else "Token(" ++ TokenKind.name t.kind ++ ", " ++ t.text ++ ")"

end Token

end GrammarKit
