/-!
# Classes of bytes

A byte class is a decidable set of bytes.  The named classes hold ASCII bytes only, so none of them
accepts a byte from the inside of a longer UTF-8 character; only `ByteClass.byte` and
`ByteClass.anyOf` can name such a byte.
-/

namespace GrammarKit

/-- A set of bytes, given by what a lexical rule says about one byte. -/
inductive ByteClass where
  /-- This byte alone. -/
  | byte (value : UInt8)
  /-- The digits `0` to `9`. -/
  | digit
  /-- The letters `a` to `z` and `A` to `Z`. -/
  | letter
  /-- A letter or a digit. -/
  | letterOrDigit
  /-- The space and the horizontal tab. -/
  | blank
  /-- The line feed and the carriage return. -/
  | newline
  /-- The bytes listed. -/
  | anyOf (values : List UInt8)
  /-- The union of two classes. -/
  | either (first second : ByteClass)
  deriving DecidableEq, Repr

namespace ByteClass

/-- The byte is one of the ASCII digits. -/
def isDigit (b : UInt8) : Bool := 48 ≤ b && b ≤ 57

/-- The byte is one of the ASCII letters. -/
def isLetter (b : UInt8) : Bool := (65 ≤ b && b ≤ 90) || (97 ≤ b && b ≤ 122)

/-- Membership of a byte in a class. -/
def contains : ByteClass → UInt8 → Bool
  | .byte value, b => b == value
  | .digit, b => isDigit b
  | .letter, b => isLetter b
  | .letterOrDigit, b => isLetter b || isDigit b
  | .blank, b => b == 32 || b == 9
  | .newline, b => b == 10 || b == 13
  | .anyOf values, b => values.contains b
  | .either first second, b => first.contains b || second.contains b

/-- The class of the single ASCII character `c`. -/
def ofChar (c : Char) : ByteClass := .byte c.toUInt8

@[simp] theorem contains_either (first second : ByteClass) (b : UInt8) :
    (either first second).contains b = (first.contains b || second.contains b) := rfl

@[simp] theorem contains_letterOrDigit (b : UInt8) :
    letterOrDigit.contains b = (letter.contains b || digit.contains b) := rfl

end ByteClass

end GrammarKit
