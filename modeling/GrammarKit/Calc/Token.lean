import GrammarKit.Lexer.Table

/-!
# Tokens of the calculator

Spaces between tokens are dropped; a comment is a token of its own.
-/

namespace GrammarKit.Calc

/-- The kinds of tokens of the calculator. -/
inductive Kind where
  /-- A character that belongs to no token. -/
  | unknown
  /-- The sign `+`. -/
  | plus
  /-- The sign `-`. -/
  | minus
  /-- The sign `*`. -/
  | multiply
  /-- The sign `/`. -/
  | divide
  /-- A run of digits. -/
  | integer
  /-- The character number zero. -/
  | nullTerm
  /-- An opening parenthesis. -/
  | lParens
  /-- A closing parenthesis. -/
  | rParens
  /-- Set aside for words with a meaning; there are none. -/
  | keyword
  /-- A comment. -/
  | comment
  /-- The end of the text. -/
  | endOfFile
  deriving DecidableEq, Repr

namespace Kind

/-- The name under which a kind is shown. -/
def name : Kind → String
  | .unknown => "UNKNOWN"
  | .plus => "PLUS"
  | .minus => "MINUS"
  | .multiply => "MULTIPLY"
  | .divide => "DIVIDE"
  | .integer => "INTEGER"
  | .nullTerm => "NULLTERM"
  | .lParens => "LPARENS"
  | .rParens => "RPARENS"
  | .keyword => "KEYWORD"
  | .comment => "COMMENT"
  | .endOfFile => "ENDOFFILE"

/-- All kinds. -/
def all : List Kind :=
  [.unknown, .plus, .minus, .multiply, .divide, .integer, .nullTerm, .lParens, .rParens, .keyword,
    .comment, .endOfFile]

theorem mem_all (k : Kind) : k ∈ all := by
  cases k <;> decide

instance : TokenKind Kind := ⟨name⟩

end Kind

/-- The lexical rules of the calculator. -/
def table : LexTable Kind where
  unknown := .unknown
  endOfText := .endOfFile
  rules :=
    [ .skip (.run (.ofChar ' ')),
      .emit (.between "/*" "*/") .comment,
      .emit (.ofChar '\x00') .nullTerm,
      .emit (.ofChar '(') .lParens,
      .emit (.ofChar ')') .rParens,
      .emit (.ofChar '+') .plus,
      .emit (.ofChar '-') .minus,
      .emit (.ofChar '*') .multiply,
      .emit (.ofChar '/') .divide,
      .emit (.run .digit) .integer ]

end GrammarKit.Calc
