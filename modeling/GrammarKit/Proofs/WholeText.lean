import GrammarKit.Lexer.Buffer
import GrammarKit.Proofs.CursorPlaces
import GrammarKit.Proofs.Lookahead
import Mathlib.Data.String.Basic

/-!
# Reading at a place, and reading what is left

A place of a text and what is left of the text from there are two ways to say the same.  A matcher that is
given the place may look anywhere, and nothing about its type tells that it does not look back.  That
it does not is shown here for each matcher in turn: its answer is the place, moved on by what it would
take off the bytes that are left.  The place may even lie behind the end, where nothing is left.

A step of a sequence is not tried at the end of the text unless it is the first.  This test changes nothing,
since no matcher takes anything there.

* `Matcher.matchAt_eq`: matchers, by induction.
* `LexTable.firstMatch?_eq`: the choice of the rule.
* `LexTable.matchNext_eq_tokenAt`: a token and the place behind it.
-/

namespace GrammarKit

namespace Matcher

/-! ## 1.  Matchers -/

variable {text opening closing bytes : List UInt8}

/-- A text is compared with as many bytes as it has itself. -/
theorem startsWith_iff_take (ignoreCase : Bool) (h : text.length ≤ bytes.length) :
    startsWith text ignoreCase bytes = true ↔
      if ignoreCase then (bytes.take text.length).map foldCase = text.map foldCase
      else bytes.take text.length = text := by
  cases ignoreCase with
  | false =>
    show text.isPrefixOf bytes = true ↔ bytes.take text.length = text
    rw [List.isPrefixOf_iff_prefix, List.prefix_iff_eq_take, eq_comm]
  | true =>
    show (text.map foldCase).isPrefixOf ((bytes.take text.length).map foldCase) = true ↔
      (bytes.take text.length).map foldCase = text.map foldCase
    have hlength : (text.map foldCase).length = ((bytes.take text.length).map foldCase).length := by
      rw [List.length_map, List.length_map, List.length_take, Nat.min_eq_left h]
    rw [List.isPrefixOf_iff_prefix]
    exact ⟨fun hfront => (hfront.eq_of_length hlength).symm, fun heq => heq ▸ List.prefix_refl _⟩

/-- A window is cut out of what is left. -/
theorem window?_eq (buffer : List UInt8) (start count : Nat) :
    window? buffer start (start + count) =
      if start + count ≤ buffer.length then some ((buffer.drop start).take count) else none := by
  rw [window?, List.extract_eq_take_drop, Nat.add_sub_cancel_left]
  simp only [Nat.le_add_right, true_and]

theorem literalAt_eq (text : List UInt8) (ignoreCase : Bool) (buffer : List UInt8) (start : Nat) :
    literalAt text ignoreCase buffer start =
      start + if startsWith text ignoreCase (buffer.drop start) then text.length else 0 := by
  rw [literalAt, window?_eq]
  by_cases hfits : start + text.length ≤ buffer.length
  · have hlength : text.length ≤ (buffer.drop start).length := by
      rw [List.length_drop]
      omega
    have hiff := startsWith_iff_take ignoreCase hlength
    rw [if_pos hfits]
    cases ignoreCase with
    | false => by_cases hsame : (buffer.drop start).take text.length = text <;> simp_all
    | true =>
      by_cases hsame : ((buffer.drop start).take text.length).map foldCase = text.map foldCase <;>
        simp_all
  · rw [if_neg hfits]
    dsimp only
    split
    · next hstarts =>
      -- Only the empty text is found behind the end, and it is no match there either.
      have hlength := length_le_of_startsWith hstarts
      rw [List.length_drop] at hlength
      have hempty : text.length = 0 := by omega
      rw [hempty, Nat.add_zero]
    · rw [Nat.add_zero]

theorem delimitedAt_eq (opening closing buffer : List UInt8) (start : Nat) :
    delimitedAt opening closing buffer start =
      start + consumedBetween opening closing (buffer.drop start) := by
  have hbody : literalAt opening false buffer start =
      start + if opening.isPrefixOf (buffer.drop start) then opening.length else 0 :=
    literalAt_eq opening false buffer start
  rw [delimitedAt, consumedBetween]
  cases opening with
  | nil => simp [hbody]
  | cons first more =>
    cases hopens : (first :: more).isPrefixOf (buffer.drop start) with
    | false => simp [hbody, hopens]
    | true =>
      have hmoves : start + (first :: more).length ≠ start := by simp
      rw [hopens, if_pos rfl] at hbody
      rw [hbody, if_neg hmoves, if_neg (by simp), List.drop_drop]
      cases firstOccurrence? closing (buffer.drop (start + (first :: more).length)) 0 with
      | none => rfl
      | some skipped => simp only [Nat.add_assoc]

mutual

/-- **A matcher at a place looks at nothing but what is left**, and moves on by what it takes off that. -/
theorem matchAt_eq : ∀ (m : Matcher) (buffer : List UInt8) (start : Nat),
    m.matchAt buffer start = start + m.consumed (buffer.drop start)
  | .char cls, buffer, start => by
    rw [matchAt, ← List.head?_drop]
    cases buffer.drop start with
    | nil => rfl
    | cons b rest =>
      rw [List.head?_cons, consumed]
      dsimp only
      split <;> rfl
  | .run cls, buffer, start => by rw [matchAt, consumed]
  | .literal text ignoreCase, buffer, start => by rw [matchAt, consumed, literalAt_eq]
  | .delimited opening closing, buffer, start => by rw [matchAt, consumed, delimitedAt_eq]
  | .sequence steps, buffer, start => by
    rw [matchAt, consumed, matchAllAt_eq steps]
    cases consumedByAll steps (buffer.drop start) <;> rfl

/-- Steps arrive behind what they take in turn, or answer the start. -/
theorem matchAllAt_eq : ∀ (steps : List Matcher) (buffer : List UInt8) (start done place : Nat),
    matchAllAt steps buffer start done place =
      (consumedByAll steps (buffer.drop place)).elim start (place + ·)
  | [], _, _, _, _ => by rw [matchAllAt, consumedByAll, Option.elim_some, Nat.add_zero]
  | step :: steps, buffer, start, done, place => by
    rw [matchAllAt, consumedByAll]
    split
    · next hend =>
      rw [List.drop_eq_nil_of_le hend.2, consumed_nil]
      rfl
    · rw [matchAt_eq step, matchAllAt_eq steps, ← List.drop_drop]
      cases step.consumed (buffer.drop place) with
      | zero =>
        rw [if_pos (Nat.add_zero place)]
        rfl
      | succ count =>
        rw [if_neg (by omega)]
        dsimp only
        cases consumedByAll steps ((buffer.drop place).drop (count + 1)) with
        | none => rfl
        | some more => exact Nat.add_assoc place (count + 1) more

end

theorem matchAt_eq_matchEnd (m : Matcher) (buffer : List UInt8) (start : Nat) :
    m.matchAt buffer start = m.matchEnd buffer start := m.matchAt_eq buffer start

end Matcher

/-! ## 2.  Pieces of a text -/

variable {text piece : String} {start : Nat}

/-- Both ends of a piece are between characters. -/
theorem HoldsAt.isValid (h : HoldsAt text start piece) :
    String.Pos.Raw.IsValid text ⟨start⟩ ∧
      String.Pos.Raw.IsValid text ⟨start + piece.utf8ByteSize⟩ := by
  obtain ⟨front, back, rfl, rfl⟩ := h
  refine ⟨String.Pos.Raw.isValid_iff_exists_append.mpr ⟨front, piece ++ back, ?_, rfl⟩,
    String.Pos.Raw.isValid_iff_exists_append.mpr ⟨front ++ piece, back, rfl, ?_⟩⟩
  · rw [String.append_assoc]
  · rw [String.Pos.Raw.ext_iff, String.byteIdx_rawEndPos, String.utf8ByteSize_append]

theorem HoldsAt.textBetween_eq (h : HoldsAt text start piece) :
    textBetween text start (start + piece.utf8ByteSize) = piece := by
  obtain ⟨hstart, hstop⟩ := h.isValid
  rw [textBetween, if_pos ⟨Nat.le_add_right _ _, hstart, hstop⟩]
  obtain ⟨front, back, rfl, rfl⟩ := h
  have hcut := String.extract_of_valid front.toList piece.toList back.toList
  rw [String.utf8Len_toList, String.utf8Len_toList, String.ofList_toList] at hcut
  rwa [← String.toList_append, ← String.toList_append, String.ofList_toList] at hcut

theorem Input.IsRest.charWidth_eq {input : Input} {c : Char} {tail : List Char}
    (h : input.IsRest text) (hchars : input.chars = c :: tail) :
    charWidth text input.offset = c.utf8Size := by
  obtain ⟨front, htext, hoffset⟩ := h
  have hget := String.get?_of_valid front.toList (c :: tail)
  rw [String.utf8Len_toList, hoffset, ← hchars, ← htext, String.ofList_toList, hchars] at hget
  rw [charWidth, hget]
  rfl

/-- A text is as long as what was read and what is left. -/
theorem Input.IsRest.utf8ByteSize_eq {input : Input} (h : input.IsRest text) :
    text.utf8ByteSize = input.offset + (utf8 input.chars).length := by
  obtain ⟨front, htext, hoffset⟩ := h
  rw [← utf8_length, htext, utf8_append, List.length_append, utf8_length, hoffset]

theorem Input.IsRest.offset_lt {input : Input} (h : input.IsRest text) (hne : input.chars ≠ []) :
    input.offset < text.utf8ByteSize := by
  cases hchars : input.chars with
  | nil => exact absurd hchars hne
  | cons c tail =>
    have hpos := c.utf8Size_pos
    rw [h.utf8ByteSize_eq, hchars, utf8_cons, List.length_append, String.length_utf8EncodeChar]
    omega

/-! ## 3.  Tables -/

namespace LexTable

variable {K : Type} {table : LexTable K} {input : Input} {place : Nat}

/-- The same rule is chosen, and it ends at the same place. -/
theorem firstMatch?_eq (table : LexTable K) (h : input.IsRest text) :
    table.firstMatch? text input.offset =
      (table.first? input).map fun (kind?, _, rest) => (kind?, rest.offset) := by
  rw [firstMatch?, first?, List.map_findSome?]
  congr 1
  funext rule
  rw [Matcher.matchAt_eq_matchEnd, Function.comp_apply, Option.map_map]
  cases hread : rule.read? input with
  | none =>
    have hnot := LexRule.not_appliesAt_of_read? h hread
    exact if_neg fun hends => hnot _ ⟨rfl, hends.1, hends.2⟩
  | some read =>
    obtain ⟨piece, rest⟩ := read
    obtain ⟨⟨hend, hlt, hvalid⟩, -, -, hrest⟩ := LexRule.appliesAt_of_read? h hread
    rw [← hrest] at hend hlt hvalid
    rw [hend]
    exact if_pos ⟨hlt, hvalid⟩

theorem matchNext_of_le (h : text.utf8ByteSize ≤ place) :
    table.matchNext text place = (table.endToken text.utf8ByteSize, text.utf8ByteSize) := by
  rw [matchNext, dif_pos h]

theorem matchNext_of_lt (h : place < text.utf8ByteSize) :
    table.matchNext text place =
      match table.firstMatch? text place with
      | some (none, stop) => table.matchNext text stop
      | some (some kind, stop) => (⟨kind, textBetween text place stop, place⟩, stop)
      | none =>
        (⟨table.unknown, textBetween text place (place + charWidth text place), place⟩,
          place + charWidth text place) := by
  rw [matchNext, dif_neg (Nat.not_le_of_lt h)]
  split <;> next hfirst => rw [hfirst]

/-- **Reading on from a place is reading what is left there.**  The token is the one on which a cursor
comes to stand, and the place is where that cursor reads on. -/
theorem matchNext_offset (table : LexTable K) (h : input.IsRest text) :
    table.matchNext text input.offset =
      ((Cursor.atNext table input).token, (Cursor.atNext table input).rest.offset) := by
  fun_induction table.next input with
  | case1 input hchars =>
    have hend := h.offset_of_nil hchars
    rw [matchNext_of_le (Nat.le_of_eq hend.symm), Cursor.token, Cursor.atNext, next_of_nil hchars,
      ← hend]
    rfl
  | case2 input c tail hchars kind piece rest hfirst =>
    have hopen : input.chars ≠ [] := fun hnil => by cases hchars.symm.trans hnil
    obtain ⟨-, -, hholds, hrest⟩ := takes_of_first? h hfirst
    have hmatch : table.firstMatch? text input.offset = some (some kind, rest.offset) := by
      rw [table.firstMatch?_eq h, hfirst]
      rfl
    rw [matchNext_of_lt (h.offset_lt hopen), hmatch, Cursor.token, Cursor.atNext,
      next_of_emit hopen hfirst, hrest]
    dsimp only
    rw [hholds.textBetween_eq]
    rfl
  | case3 input c tail hchars piece rest hfirst ih =>
    have hopen : input.chars ≠ [] := fun hnil => by cases hchars.symm.trans hnil
    obtain ⟨-, hleft, -, -⟩ := takes_of_first? h hfirst
    have hmatch : table.firstMatch? text input.offset = some (none, rest.offset) := by
      rw [table.firstMatch?_eq h, hfirst]
      rfl
    rw [matchNext_of_lt (h.offset_lt hopen), hmatch]
    dsimp only
    rw [ih hleft, Cursor.atNext, Cursor.atNext, next_of_skip hopen hfirst]
  | case4 input c tail hchars hfirst piece rest htake =>
    have hopen : input.chars ≠ [] := fun hnil => by cases hchars.symm.trans hnil
    obtain ⟨-, hholds, hrest⟩ := h.take? htake
    have hwidth : c.utf8Size = piece.utf8ByteSize := by
      rw [← utf8_length, Input.utf8_length_of_take? htake]
    have hmatch : table.firstMatch? text input.offset = none := by
      rw [table.firstMatch?_eq h, hfirst]
      rfl
    rw [matchNext_of_lt (h.offset_lt hopen), hmatch, h.charWidth_eq hchars, hwidth, Cursor.token,
      Cursor.atNext, next_of_unknown hchars hfirst htake, hrest]
    dsimp only
    rw [hholds.textBetween_eq]
    rfl
  | case5 input c tail hchars hfirst htake =>
    -- The character at the front can always be read.
    obtain ⟨rest, htake', -⟩ := Input.exists_take? (show input.chars = [c] ++ tail from hchars)
    have hlength : (utf8 [c]).length = c.utf8Size := by simp
    rw [hlength, htake] at htake'
    cases htake'

/-- What is left of a text from a place between two characters on is left there. -/
theorem isRest_dropTo (h : String.Pos.Raw.IsValid text ⟨start⟩) :
    (Input.dropTo text start).IsRest text ∧ (Input.dropTo text start).offset = start := by
  obtain ⟨front, back, rfl, hplace⟩ := String.Pos.Raw.isValid_iff_exists_append.mp h
  have hsize : front.utf8ByteSize = start := (congrArg String.Pos.Raw.byteIdx hplace).symm
  obtain ⟨rest, htake, hchars⟩ := Input.exists_take?
    (show (Input.ofString (front ++ back)).chars = front.toList ++ back.toList from
      String.toList_append)
  rw [utf8_length, hsize] at htake
  have hoffset : rest.offset = start := by
    rw [Input.offset_of_take? htake]
    exact Nat.zero_add _
  have hdrop : Input.dropTo (front ++ back) start = rest := by
    simp only [Input.dropTo, htake]
  rw [hdrop]
  exact ⟨⟨front, by rw [hchars, String.toList_append], hsize.trans hoffset.symm⟩, hoffset⟩

/-- **A token at a place of the whole text is the token of what is left there.** -/
theorem matchNext_eq_tokenAt (table : LexTable K) (h : String.Pos.Raw.IsValid text ⟨start⟩) :
    table.matchNext text start = table.tokenAt text start := by
  obtain ⟨hrest, hoffset⟩ := isRest_dropTo h
  have hmatch := table.matchNext_offset hrest
  rw [hoffset] at hmatch
  rw [hmatch, tokenAt, Cursor.token, Cursor.atNext]
  rcases table.next (Input.dropTo text start) with ⟨_ | token, rest⟩ <;> rfl

end LexTable

end GrammarKit
