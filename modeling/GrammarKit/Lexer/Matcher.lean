import GrammarKit.Text.ByteClass
import GrammarKit.Text.Input

/-!
# Matchers: what a lexical rule recognises

A matcher looks at the bytes ahead and answers how many of them it takes.  Taking nothing and not
matching are one and the same: the answer is `0` in both cases, so a caller that needs progress asks
for a positive answer.

* `Matcher.consumed` is that number.
* `consumed_le`: a matcher never takes more than there is.
-/

namespace GrammarKit

/-- What a lexical rule recognises at the start of the bytes ahead. -/
inductive Matcher where
  /-- One byte of the class. -/
  | char (cls : ByteClass)
  /-- The longest run of bytes of the class. -/
  | run (cls : ByteClass)
  /-- These bytes; ASCII letters may differ in case if `ignoreCase` is set. -/
  | literal (text : List UInt8) (ignoreCase : Bool)
  /-- The opening text, and all that follows up to the first closing text, included. -/
  | delimited (opening closing : List UInt8)
  /-- The steps one after the other, each of which takes something. -/
  | sequence (steps : List Matcher)

/-- The lower-case form of an ASCII capital letter; every other byte as it is. -/
def foldCase (b : UInt8) : UInt8 := if 65 ≤ b && b ≤ 90 then b + 32 else b

/-- The number of bytes before the first occurrence of `pattern`, counted on from `skipped`. -/
def firstOccurrence? (pattern : List UInt8) : List UInt8 → (skipped : Nat) → Option Nat
  | [], skipped => if pattern.isEmpty then some skipped else none
  | b :: bytes, skipped =>
    if pattern.isPrefixOf (b :: bytes) then some skipped
    else firstOccurrence? pattern bytes (skipped + 1)

namespace Matcher

/-- The text, letter for letter. -/
def text (s : String) : Matcher := .literal (utf8 s.toList) false

/-- The text, in capital or small letters. -/
def keyword (s : String) : Matcher := .literal (utf8 s.toList) true

/-- The single ASCII character `c`. -/
def ofChar (c : Char) : Matcher := .char (.ofChar c)

/-- What stands between the two texts, and the texts themselves. -/
def between (opening closing : String) : Matcher :=
  .delimited (utf8 opening.toList) (utf8 closing.toList)

/-- Whether `bytes` start with `text`. -/
def startsWith (text : List UInt8) (ignoreCase : Bool) (bytes : List UInt8) : Bool :=
  if ignoreCase then (text.map foldCase).isPrefixOf ((bytes.take text.length).map foldCase)
  else text.isPrefixOf bytes

/-- The number of bytes taken by `opening`, a body without `closing`, and `closing`. -/
def consumedBetween (opening closing bytes : List UInt8) : Nat :=
  if opening.isEmpty || !opening.isPrefixOf bytes then 0
  else
    match firstOccurrence? closing (bytes.drop opening.length) 0 with
    | none => 0
    | some body => opening.length + body + closing.length

mutual

/-- The number of bytes a matcher takes off the front of `bytes`; `0` if it does not match. -/
def consumed : Matcher → List UInt8 → Nat
  | .char cls, bytes =>
    match bytes with
    | [] => 0
    | b :: _ => if cls.contains b then 1 else 0
  | .run cls, bytes => (bytes.takeWhile cls.contains).length
  | .literal text ignoreCase, bytes => if startsWith text ignoreCase bytes then text.length else 0
  | .delimited opening closing, bytes => consumedBetween opening closing bytes
  | .sequence steps, bytes => (consumedByAll steps bytes).getD 0

/-- The number of bytes taken by the steps in turn; `none` if one of them takes nothing. -/
def consumedByAll : List Matcher → List UInt8 → Option Nat
  | [], _ => some 0
  | step :: steps, bytes =>
    match step.consumed bytes with
    | 0 => none
    | n + 1 => (consumedByAll steps (bytes.drop (n + 1))).map (n + 1 + ·)

end

/-- The end of a match that starts at byte `start` of `bytes`: `start` itself if there is none. -/
def matchEnd (m : Matcher) (bytes : List UInt8) (start : Nat) : Nat :=
  start + m.consumed (bytes.drop start)

theorem length_le_of_startsWith {text bytes : List UInt8} {ignoreCase : Bool}
    (h : startsWith text ignoreCase bytes = true) : text.length ≤ bytes.length := by
  cases ignoreCase with
  | false => exact (List.isPrefixOf_iff_prefix.mp h).length_le
  | true =>
    have hle : (text.map foldCase).length ≤ ((bytes.take text.length).map foldCase).length :=
      (List.isPrefixOf_iff_prefix.mp h).length_le
    rw [List.length_map, List.length_map, List.length_take] at hle
    exact Nat.le_trans hle (Nat.min_le_right _ _)

/-- The first occurrence lies within the bytes. -/
theorem le_of_firstOccurrence? {pattern : List UInt8} :
    ∀ {bytes : List UInt8} {skipped n : Nat}, firstOccurrence? pattern bytes skipped = some n →
      skipped ≤ n ∧ n + pattern.length ≤ skipped + bytes.length
  | [], skipped, n, h => by
    rw [firstOccurrence?] at h
    split at h
    · next hempty =>
      cases h
      rw [List.isEmpty_iff.mp hempty]
      exact ⟨Nat.le_refl _, Nat.le_refl _⟩
    · cases h
  | b :: bytes, skipped, n, h => by
    rw [firstOccurrence?] at h
    split at h
    · next hfront =>
      cases h
      exact ⟨Nat.le_refl _, Nat.add_le_add_left (List.isPrefixOf_iff_prefix.mp hfront).length_le _⟩
    · obtain ⟨hlow, hhigh⟩ := le_of_firstOccurrence? h
      rw [List.length_cons]
      omega

theorem consumedBetween_le (opening closing bytes : List UInt8) :
    consumedBetween opening closing bytes ≤ bytes.length := by
  unfold consumedBetween
  split
  · exact Nat.zero_le _
  · next hstarts =>
    simp only [Bool.or_eq_true, Bool.not_eq_true', not_or, Bool.not_eq_false] at hstarts
    have hopening := (List.isPrefixOf_iff_prefix.mp hstarts.2).length_le
    split
    · exact Nat.zero_le _
    · next body hbody =>
      have hle := (le_of_firstOccurrence? hbody).2
      rw [List.length_drop] at hle
      omega

mutual

/-- **A matcher never takes more than there is.** -/
theorem consumed_le : ∀ (m : Matcher) (bytes : List UInt8), m.consumed bytes ≤ bytes.length
  | .char cls, [] => Nat.le_refl 0
  | .char cls, b :: bytes => by
    rw [consumed]
    split
    · exact Nat.succ_le_succ (Nat.zero_le _)
    · exact Nat.zero_le _
  | .run cls, bytes => (List.takeWhile_prefix _).length_le
  | .literal text ignoreCase, bytes => by
    rw [consumed]
    split
    · next hstarts => exact length_le_of_startsWith hstarts
    · exact Nat.zero_le _
  | .delimited opening closing, bytes => consumedBetween_le opening closing bytes
  | .sequence steps, bytes => by
    rw [consumed]
    cases hsteps : consumedByAll steps bytes with
    | none => exact Nat.zero_le _
    | some n => exact le_of_consumedByAll steps hsteps

theorem le_of_consumedByAll : ∀ (steps : List Matcher) {bytes : List UInt8} {n : Nat},
    consumedByAll steps bytes = some n → n ≤ bytes.length
  | [], _, _, h => by
    cases h
    exact Nat.zero_le _
  | step :: steps, bytes, n, h => by
    have hfirst := consumed_le step bytes
    rw [consumedByAll] at h
    split at h
    · cases h
    · next first hstep =>
      obtain ⟨more, hmore, rfl⟩ := Option.map_eq_some_iff.mp h
      have hrest := le_of_consumedByAll steps hmore
      rw [List.length_drop] at hrest
      omega

end

end Matcher

end GrammarKit
