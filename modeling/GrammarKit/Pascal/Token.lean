import GrammarKit.Lexer.Table

/-!
# Tokens of the Pascal subset

Blanks, line ends and comments in braces are dropped.  The words with a meaning may be written in
capital or small letters.  The first rule that applies decides, so such a word is recognised even at
the start of a longer name.
-/

namespace GrammarKit.Pascal

/-- The kinds of tokens of the Pascal subset. -/
inductive Kind where
  /-- A character that belongs to no token. -/
  | unknown
  /-- The sign `+`. -/
  | plus
  /-- The sign `-`. -/
  | minus
  /-- The sign `*`. -/
  | multiply
  /-- The word `DIV`. -/
  | integerDiv
  /-- The sign `/`. -/
  | floatDiv
  /-- The word `BEGIN`. -/
  | begin
  /-- The word `END`. -/
  | «end»
  /-- The word `REAL`. -/
  | real
  /-- The word `INTEGER`. -/
  | integer
  /-- Digits, a point, digits. -/
  | realConst
  /-- Digits. -/
  | integerConst
  /-- A name. -/
  | id
  /-- The sign `:=`. -/
  | assign
  /-- The sign `;`. -/
  | semi
  /-- The sign `.`. -/
  | dot
  /-- An opening parenthesis. -/
  | lParens
  /-- A closing parenthesis. -/
  | rParens
  /-- The word `PROGRAM`. -/
  | program
  /-- The word `VAR`. -/
  | var
  /-- The sign `:`. -/
  | colon
  /-- The sign `,`. -/
  | comma
  /-- The end of the text. -/
  | endOfFile
  deriving DecidableEq, Repr

namespace Kind

/-- The name under which a kind is shown. -/
def name : Kind → String
  | .unknown => "UNKNOWN"
  | .plus => "PLUS"
  | .minus => "MINUS"
  | .multiply => "MULTIPLY"
  | .integerDiv => "INTEGER_DIV"
  | .floatDiv => "FLOAT_DIV"
  | .begin => "BEGIN"
  | .end => "END"
  | .real => "REAL"
  | .integer => "INTEGER"
  | .realConst => "REAL_CONST"
  | .integerConst => "INTEGER_CONST"
  | .id => "ID"
  | .assign => "ASSIGN"
  | .semi => "SEMI"
  | .dot => "DOT"
  | .lParens => "LPARENS"
  | .rParens => "RPARENS"
  | .program => "PROGRAM"
  | .var => "VAR"
  | .colon => "COLON"
  | .comma => "COMMA"
  | .endOfFile => "ENDOFFILE"

/-- All kinds. -/
def all : List Kind :=
  [.unknown, .plus, .minus, .multiply, .integerDiv, .floatDiv, .begin, .end, .real, .integer,
    .realConst, .integerConst, .id, .assign, .semi, .dot, .lParens, .rParens, .program, .var,
    .colon, .comma, .endOfFile]

theorem mem_all (k : Kind) : k ∈ all := by
  cases k <;> decide

instance : TokenKind Kind := ⟨name⟩

end Kind

/-- What a name may start with. -/
def nameStart : ByteClass := .either .letter (.ofChar '_')

/-- The words with a meaning, in the order in which they are tried. -/
def keywords : List (String × Kind) :=
  [("DIV", .integerDiv), ("PROGRAM", .program), ("INTEGER", .integer), ("REAL", .real),
    ("VAR", .var), ("BEGIN", .begin), ("END", .end)]

/-- The lexical rules of the Pascal subset. -/
def table : LexTable Kind where
  unknown := .unknown
  endOfText := .endOfFile
  rules :=
    [ .skip (.run (.either .blank .newline)),
      .skip (.between "\x7b" "\x7d"),
      .emit (.ofChar '(') .lParens,
      .emit (.ofChar ')') .rParens,
      .emit (.ofChar '+') .plus,
      .emit (.ofChar '-') .minus,
      .emit (.ofChar '*') .multiply,
      .emit (.ofChar ';') .semi,
      .emit (.ofChar '.') .dot,
      .emit (.ofChar '/') .floatDiv,
      .emit (.sequence [.ofChar ':', .ofChar '=']) .assign,
      .emit (.ofChar ':') .colon,
      .emit (.ofChar ',') .comma ] ++
    keywords.map (fun (word, kind) => .emit (.keyword word) kind) ++
    [ .emit (.sequence [.run .digit, .ofChar '.', .run .digit]) .realConst,
      .emit (.run .digit) .integerConst,
      .emit (.sequence [.char nameStart, .run .letterOrDigit]) .id,
      .emit (.char nameStart) .id ]

end GrammarKit.Pascal
