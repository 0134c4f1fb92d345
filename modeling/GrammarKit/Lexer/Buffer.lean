import GrammarKit.Lexer.Table

/-!
# Reading at a place of the whole text

A matcher may be handed the whole text and the byte at which it starts.  It then looks at what stands
there and answers where it ends, which is where it started if it does not match.  Nothing is cut off
before: bytes are taken by their places, literals are compared with a window of the text, and a place may
lie behind the end, where there is nothing.

* `Matcher.matchAt` is the answer of a matcher at a place.
* `LexTable.firstMatch?` is the choice of the rule, and the place where it ends.
* `LexTable.matchNext` reads one token and everything skipped before it, and goes on from place to place.
-/

namespace GrammarKit

namespace Matcher

/-- The bytes from `start` up to `stop`; none if the buffer ends before. -/
def window? (buffer : List UInt8) (start stop : Nat) : Option (List UInt8) :=
  if start ≤ stop ∧ stop ≤ buffer.length then some (buffer.extract start stop) else none

/-- Where the text ends if it stands at `start`; otherwise `start`. -/
def literalAt (text : List UInt8) (ignoreCase : Bool) (buffer : List UInt8) (start : Nat) : Nat :=
  match window? buffer start (start + text.length) with
  | none => start
  | some window =>
    if (if ignoreCase then window.map foldCase == text.map foldCase else window == text) then
      start + text.length
    else start

/-- Where the first closing text ends behind an opening text at `start`; otherwise `start`. -/
def delimitedAt (opening closing buffer : List UInt8) (start : Nat) : Nat :=
  let body := literalAt opening false buffer start
  if body = start then start
  else
    match firstOccurrence? closing (buffer.drop body) 0 with
    | none => start
    | some skipped => body + skipped + closing.length

mutual

/-- Where a match that starts at byte `start` of the buffer ends: `start` itself if there is none. -/
def matchAt : Matcher → (buffer : List UInt8) → (start : Nat) → Nat
  | .char cls, buffer, start =>
    match buffer[start]? with
    | some b => if cls.contains b then start + 1 else start
    | none => start
  | .run cls, buffer, start => start + ((buffer.drop start).takeWhile cls.contains).length
  | .literal text ignoreCase, buffer, start => literalAt text ignoreCase buffer start
  | .delimited opening closing, buffer, start => delimitedAt opening closing buffer start
  | .sequence steps, buffer, start => matchAllAt steps buffer start 0 start

/-- Where the steps of a sequence arrive that started at `start`, went through `done` steps and came to
`place`.  The sequence fails, and answers `start`, if one of them takes nothing; and none but the first is
tried at the end of the buffer. -/
def matchAllAt : List Matcher → (buffer : List UInt8) → (start done place : Nat) → Nat
  | [], _, _, _, place => place
  | step :: steps, buffer, start, done, place =>
    if 0 < done ∧ buffer.length ≤ place then start
    else if step.matchAt buffer place = place then start
    else matchAllAt steps buffer start (done + 1) (step.matchAt buffer place)

end

end Matcher

/-- The piece of a text between two bytes; empty if one of them is inside a character, or behind the end,
or if they are in the wrong order. -/
def textBetween (text : String) (start stop : Nat) : String :=
  if start ≤ stop ∧ String.Pos.Raw.IsValid text ⟨start⟩ ∧ String.Pos.Raw.IsValid text ⟨stop⟩ then
    String.Pos.Raw.extract text ⟨start⟩ ⟨stop⟩
  else ""

/-- The number of bytes of the character at byte `place` of a text; one if there is no character. -/
def charWidth (text : String) (place : Nat) : Nat :=
  match String.Pos.Raw.get? text ⟨place⟩ with
  | some c => c.utf8Size
  | none => 1

namespace LexTable

variable {K : Type}

/-- The kind of the first rule that takes something at byte `place` and ends between two characters, and
where it ends. -/
def firstMatch? (table : LexTable K) (text : String) (place : Nat) : Option (Option K × Nat) :=
  let buffer := utf8 text.toList
  table.rules.findSome? fun rule =>
    let stop := rule.matcher.matchAt buffer place
    if place < stop ∧ String.Pos.Raw.IsValid text ⟨stop⟩ then some (rule.kind?, stop) else none

theorem lt_of_firstMatch? {table : LexTable K} {text : String} {place stop : Nat} {kind? : Option K}
    (h : table.firstMatch? text place = some (kind?, stop)) : place < stop := by
  obtain ⟨rule, -, hrule⟩ := List.exists_of_findSome?_eq_some h
  dsimp only at hrule
  split at hrule
  · next hends =>
    cases hrule
    exact hends.1
  · cases hrule

/-- The token that is read at byte `place` of a text, after what is skipped before it, and the place
behind it.  At the end of the text that is the end token. -/
def matchNext (table : LexTable K) (text : String) (place : Nat) : Token K × Nat :=
  if _hplace : text.utf8ByteSize ≤ place then
    (table.endToken text.utf8ByteSize, text.utf8ByteSize)
  else
    match _hfirst : table.firstMatch? text place with
    | some (none, stop) => table.matchNext text stop
    | some (some kind, stop) => (⟨kind, textBetween text place stop, place⟩, stop)
    | none =>
      let stop := place + charWidth text place
      (⟨table.unknown, textBetween text place stop, place⟩, stop)
termination_by text.utf8ByteSize - place
decreasing_by
  have hlt := lt_of_firstMatch? _hfirst
  omega

end LexTable

end GrammarKit
