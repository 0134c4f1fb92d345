/-!
# The part of a text that is still to be read

Lexical rules look at bytes, tokens hold characters, and positions are counted in bytes.  An `Input`
keeps the three together: the characters left, their UTF-8 bytes, and the two offsets between which
they stand in the whole text.  The proof fields say that the views agree, so `Input.take?` is the one
place where bytes and characters meet.

* `splitBytes?` cuts a list of characters after a number of bytes, and refuses to cut a character.
* `Input.take?` reads that many bytes; `chars_of_take?` and `offset_of_take?` say what is left.
-/

namespace GrammarKit

/-- The UTF-8 bytes of a list of characters. -/
def utf8 (chars : List Char) : List UInt8 := chars.flatMap String.utf8EncodeChar

@[simp] theorem utf8_nil : utf8 [] = [] := rfl

@[simp] theorem utf8_cons (c : Char) (chars : List Char) :
    utf8 (c :: chars) = String.utf8EncodeChar c ++ utf8 chars := by
  simp [utf8]

@[simp] theorem utf8_append (left right : List Char) :
    utf8 (left ++ right) = utf8 left ++ utf8 right := by
  simp [utf8]

/-- Moves the characters that make up the first `n` bytes from `chars` to the reversed list `read`;
`none` if the text ends before, or if byte `n` is inside a character. -/
def splitBytes? (read : List Char) : List Char → Nat → Option (List Char × List Char)
  | chars, 0 => some (read.reverse, chars)
  | [], _ + 1 => none
  | c :: chars, n + 1 =>
    if c.utf8Size ≤ n + 1 then splitBytes? (c :: read) chars (n + 1 - c.utf8Size) else none

theorem splitBytes?_eq_some {chars : List Char} :
    ∀ {n : Nat} {read front back : List Char}, splitBytes? read chars n = some (front, back) →
      ∃ taken, front = read.reverse ++ taken ∧ chars = taken ++ back ∧ (utf8 taken).length = n := by
  induction chars with
  | nil =>
    intro n read front back h
    cases n with
    | zero => exact ⟨[], by simp_all [splitBytes?]⟩
    | succ n => simp [splitBytes?] at h
  | cons c chars ih =>
    intro n read front back h
    cases n with
    | zero => exact ⟨[], by simp_all [splitBytes?]⟩
    | succ n =>
      rw [splitBytes?] at h
      split at h
      · next fits =>
        obtain ⟨taken, hfront, hchars, hlength⟩ := ih h
        refine ⟨c :: taken, ?_, by rw [hchars]; rfl, ?_⟩
        · rw [hfront, List.reverse_cons, List.append_assoc]; rfl
        · rw [utf8_cons, List.length_append, String.length_utf8EncodeChar, hlength]
          omega
      · simp at h

/-- What is left of a text. -/
structure Input where
  /-- The characters that are left. -/
  chars : List Char
  /-- The same characters, as bytes. -/
  bytes : List UInt8
  /-- The number of bytes that were read before. -/
  offset : Nat
  /-- The number of bytes of the whole text. -/
  stop : Nat
  bytes_eq : bytes = utf8 chars
  stop_eq : stop = offset + bytes.length

namespace Input

/-- The whole of a text, nothing read. -/
def ofString (text : String) : Input where
  chars := text.toList
  bytes := utf8 text.toList
  offset := 0
  stop := (utf8 text.toList).length
  bytes_eq := rfl
  stop_eq := (Nat.zero_add _).symm

/-- The end of the text: everything is read. -/
def finish (input : Input) : Input where
  chars := []
  bytes := []
  offset := input.stop
  stop := input.stop
  bytes_eq := rfl
  stop_eq := rfl

/-- What is read lies before the end. -/
theorem offset_le_stop (input : Input) : input.offset ≤ input.stop := by
  rw [input.stop_eq]
  exact Nat.le_add_right _ _

/-- Two inputs with the same characters left at the same offset are the same input. -/
@[ext] theorem ext {a b : Input} (hchars : a.chars = b.chars) (hoffset : a.offset = b.offset) :
    a = b := by
  obtain ⟨chars, bytes, offset, stop, hbytes, hstop⟩ := a
  obtain ⟨chars', bytes', offset', stop', hbytes', hstop'⟩ := b
  subst hbytes hbytes' hstop hstop'
  cases hchars
  cases hoffset
  rfl

/-- Reads the first `n` bytes as a text; `none` if they are not whole characters of the input. -/
def take? (input : Input) (n : Nat) : Option (String × Input) :=
  match h : splitBytes? [] input.chars n with
  | none => none
  | some (front, back) =>
    some (String.ofList front,
      { chars := back
        bytes := input.bytes.drop n
        offset := input.offset + n
        stop := input.stop
        bytes_eq := by
          obtain ⟨taken, -, hchars, hlength⟩ := splitBytes?_eq_some h
          rw [input.bytes_eq, hchars, utf8_append, List.drop_append_of_le_length (by omega),
            ← hlength, List.drop_length, List.nil_append]
        stop_eq := by
          obtain ⟨taken, -, hchars, hlength⟩ := splitBytes?_eq_some h
          have hle : n ≤ input.bytes.length := by
            rw [input.bytes_eq, hchars, utf8_append, List.length_append]
            omega
          rw [input.stop_eq, List.length_drop]
          omega })

/-- What was read and what is left make up the input. -/
theorem chars_of_take? {input rest : Input} {n : Nat} {text : String}
    (h : input.take? n = some (text, rest)) : input.chars = text.toList ++ rest.chars := by
  unfold take? at h
  split at h
  · cases h
  · next front back hsplit =>
    cases h
    obtain ⟨taken, hfront, hchars, -⟩ := splitBytes?_eq_some hsplit
    simp [hfront, hchars]

/-- Reading `n` bytes moves the offset by `n`. -/
theorem offset_of_take? {input rest : Input} {n : Nat} {text : String}
    (h : input.take? n = some (text, rest)) : rest.offset = input.offset + n := by
  unfold take? at h
  split at h
  · cases h
  · cases h; rfl

/-- The end of the text does not move. -/
theorem stop_of_take? {input rest : Input} {n : Nat} {text : String}
    (h : input.take? n = some (text, rest)) : rest.stop = input.stop := by
  unfold take? at h
  split at h
  · cases h
  · cases h; rfl

/-- The text read is `n` bytes long. -/
theorem utf8_length_of_take? {input rest : Input} {n : Nat} {text : String}
    (h : input.take? n = some (text, rest)) : (utf8 text.toList).length = n := by
  unfold take? at h
  split at h
  · cases h
  · next front back hsplit =>
    cases h
    obtain ⟨taken, hfront, -, hlength⟩ := splitBytes?_eq_some hsplit
    simp [hfront, hlength]

/-- Reading at least one byte leaves fewer characters. -/
theorem length_lt_of_take? {input rest : Input} {n : Nat} {text : String}
    (h : input.take? n = some (text, rest)) (hn : n ≠ 0) :
    rest.chars.length < input.chars.length := by
  rw [chars_of_take? h, List.length_append]
  have hlength := utf8_length_of_take? h
  have hpos : text.toList ≠ [] := by
    intro hnil
    rw [hnil] at hlength
    exact hn hlength.symm
  have := List.length_pos_iff.mpr hpos
  omega

/-- What is left of a text after its first `n` bytes: nothing, if the text is shorter than that.
The offset is meant to stand between characters. -/
def dropTo (text : String) (n : Nat) : Input :=
  match (ofString text).take? n with
  | some (_, rest) => rest
  | none => (ofString text).finish

end Input

end GrammarKit
