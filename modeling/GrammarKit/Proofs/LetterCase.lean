import GrammarKit.Proofs.Ahead
import GrammarKit.Proofs.Lexing
import GrammarKit.Proofs.Spelling

/-!
# Capital and small letters

A byte is folded to a small letter if it is an ASCII capital; all other bytes stay.  A matcher that
names no byte with two forms, or asks for words in any form, takes as many bytes of a text as of the
text in small letters.  If all rules of a table are like this, the tokens of the text in small letters
are those of the text, in small letters.

Small letters neither move nor split a character: those that change are one byte before and after.

* `utf8_map_toLower`: the bytes of a text in small letters.
* `Matcher.caseBlind`: how this is seen in a matcher; `Matcher.consumed_map_foldCase` says what it is
  good for.
* `Input.small`, `Token.small`: in small letters.
* `Cursor.tokens_toLower`: the tokens of a text in small letters.
-/

namespace GrammarKit

/-! ## 1.  Characters and bytes -/

theorem toLower_of_le {c : Char} (h : 128 ≤ c.toNat) : c.toLower = c := by
  unfold Char.toLower
  split
  · next hupper =>
    have hle : c.toNat ≤ 90 := UInt32.le_iff_toNat_le.mp hupper.2
    omega
  · rfl

/-- What does not tell capital letters from small ones is seen on the ASCII characters. -/
theorem apply_toLower {α : Type} {f : Char → α}
    (h : ∀ n < 128, f (Char.ofNat n).toLower = f (Char.ofNat n)) (c : Char) :
    f c.toLower = f c := by
  by_cases hc : c.toNat < 128
  · have hascii := h c.toNat hc
    rwa [Char.ofNat_toNat] at hascii
  · rw [toLower_of_le (Nat.le_of_not_lt hc)]

@[simp] theorem toLower_toLower (c : Char) : c.toLower.toLower = c.toLower :=
  apply_toLower (by decide) c

theorem isAlpha_toLower (c : Char) : c.toLower.isAlpha = c.isAlpha := apply_toLower (by decide) c

theorem isAlphanum_toLower (c : Char) : c.toLower.isAlphanum = c.isAlphanum :=
  apply_toLower (by decide) c

theorem toLower_of_isAlpha_eq_false {c : Char} (h : c.isAlpha = false) : c.toLower = c := by
  have hneither : (c.isUpper || c.isLower) = false := h
  rw [Bool.or_eq_false_iff] at hneither
  exact dif_neg (of_decide_eq_false hneither.1)

/-- What is no letter has no other form. -/
theorem toLower_eq_iff_of_isAlpha_eq_false {c d : Char} (hd : d.isAlpha = false) :
    c.toLower = d ↔ c = d := by
  constructor
  · intro h
    have hc : c.isAlpha = false := by rw [← isAlpha_toLower, h, hd]
    rwa [toLower_of_isAlpha_eq_false hc] at h
  · rintro rfl
    exact toLower_of_isAlpha_eq_false hd

/-- A text without letters has no other form. -/
theorem map_toLower_eq_iff {chars word : List Char} (h : ∀ c ∈ word, c.isAlpha = false) :
    chars.map Char.toLower = word ↔ chars = word := by
  induction word generalizing chars with
  | nil => exact List.map_eq_nil_iff
  | cons d word ih =>
    obtain ⟨hd, hword⟩ := List.forall_mem_cons.mp h
    cases chars with
    | nil => simp
    | cons c chars =>
      rw [List.map_cons, List.cons.injEq, List.cons.injEq, ih hword,
        toLower_eq_iff_of_isAlpha_eq_false hd]

/-- Two texts are the same in small letters if they are so character by character. -/
theorem toLower_eq_toLower_iff {s t : String} :
    s.toLower = t.toLower ↔ s.toList.map Char.toLower = t.toList.map Char.toLower := by
  show s.map Char.toLower = t.map Char.toLower ↔ _
  rw [← String.toList_inj, String.toList_map, String.toList_map]

@[simp] theorem text_toLower_toLower (text : String) : text.toLower.toLower = text.toLower := by
  rw [toLower_eq_toLower_iff]
  show (text.map Char.toLower).toList.map Char.toLower = text.toList.map Char.toLower
  rw [String.toList_map, List.map_map]
  exact List.map_congr_left fun c _ => toLower_toLower c

theorem foldCase_of_le {b : UInt8} (h : 128 ≤ b) : foldCase b = b := by
  unfold foldCase
  rw [if_neg]
  simp only [Bool.and_eq_true, decide_eq_true_eq, not_and, UInt8.not_le]
  exact fun _ => UInt8.lt_of_lt_of_le (by decide) h

theorem foldCase_foldCase (b : UInt8) : foldCase (foldCase b) = foldCase b := by
  have hall : ∀ n < 256, foldCase (foldCase (UInt8.ofNat n)) = foldCase (UInt8.ofNat n) := by
    decide +kernel
  have hb := hall b.toNat b.toNat_lt
  rwa [UInt8.ofNat_toNat] at hb

/-- A character in small letters has the folded bytes. -/
theorem utf8EncodeChar_toLower (c : Char) :
    String.utf8EncodeChar c.toLower = (String.utf8EncodeChar c).map foldCase := by
  by_cases h : c.toNat < 128
  · rw [utf8EncodeChar_of_lt h, utf8EncodeChar_of_lt (toNat_toLower_lt_iff.mpr h), List.map_singleton,
      foldCase_toUInt8 h]
  · have hle : 128 ≤ c.toNat := Nat.le_of_not_lt h
    rw [toLower_of_le hle]
    refine ((List.map_congr_left fun b hb => ?_).trans (List.map_id _)).symm
    exact foldCase_of_le (le_of_mem_utf8EncodeChar hle b hb)

/-- **The bytes of a text in small letters** are the folded bytes of the text. -/
theorem utf8_map_toLower (chars : List Char) :
    utf8 (chars.map Char.toLower) = (utf8 chars).map foldCase := by
  induction chars with
  | nil => rfl
  | cons c chars ih =>
    rw [List.map_cons, utf8_cons, utf8_cons, List.map_append, utf8EncodeChar_toLower, ih]

theorem length_utf8_map_toLower (chars : List Char) :
    (utf8 (chars.map Char.toLower)).length = (utf8 chars).length := by
  rw [utf8_map_toLower, List.length_map]

/-! ## 2.  Matchers -/

/-- The class has both forms of a letter, or neither. -/
def ByteClass.caseBlind (cls : ByteClass) : Bool :=
  (List.range 256).all fun n => cls.contains (foldCase (UInt8.ofNat n)) == cls.contains (UInt8.ofNat n)

theorem ByteClass.contains_foldCase {cls : ByteClass} (h : cls.caseBlind = true) (b : UInt8) :
    cls.contains (foldCase b) = cls.contains b := by
  have hb := beq_iff_eq.mp (List.all_eq_true.mp h b.toNat (List.mem_range.mpr b.toNat_lt))
  rwa [UInt8.ofNat_toNat] at hb

/-- No byte of the text has another form. -/
def caseless (text : List UInt8) : Bool := text.all fun b => (ByteClass.byte b).caseBlind

namespace Matcher

mutual

/-- The matcher does not tell capital letters from small ones. -/
def caseBlind : Matcher → Bool
  | .char cls => cls.caseBlind
  | .run cls => cls.caseBlind
  | .literal text ignoreCase => ignoreCase || caseless text
  | .delimited opening closing => caseless opening && caseless closing
  | .sequence steps => allCaseBlind steps

/-- None of the steps does. -/
def allCaseBlind : List Matcher → Bool
  | [] => true
  | step :: steps => step.caseBlind && allCaseBlind steps

end

theorem isPrefixOf_map_foldCase : ∀ {text : List UInt8}, caseless text = true →
    ∀ bytes : List UInt8, text.isPrefixOf (bytes.map foldCase) = text.isPrefixOf bytes
  | [], _, _ => rfl
  | _ :: _, _, [] => rfl
  | v :: text, h, b :: bytes => by
    obtain ⟨hv, htext⟩ := Bool.and_eq_true_iff.mp h
    have hhead : (foldCase b == v) = (b == v) := ByteClass.contains_foldCase hv b
    rw [List.map_cons, List.isPrefixOf_cons_cons, List.isPrefixOf_cons_cons, isPrefixOf_map_foldCase htext,
      Bool.beq_comm (a := v), hhead, Bool.beq_comm (a := b)]

theorem firstOccurrence?_map_foldCase {pattern : List UInt8} (h : caseless pattern = true) :
    ∀ (bytes : List UInt8) (skipped : Nat),
      firstOccurrence? pattern (bytes.map foldCase) skipped = firstOccurrence? pattern bytes skipped
  | [], _ => rfl
  | b :: bytes, skipped => by
    have hprefix := isPrefixOf_map_foldCase h (b :: bytes)
    rw [List.map_cons] at hprefix
    rw [List.map_cons, firstOccurrence?, firstOccurrence?, hprefix,
      firstOccurrence?_map_foldCase h bytes]

theorem startsWith_map_foldCase {text : List UInt8} {ignoreCase : Bool}
    (h : (ignoreCase || caseless text) = true) (bytes : List UInt8) :
    startsWith text ignoreCase (bytes.map foldCase) = startsWith text ignoreCase bytes := by
  unfold startsWith
  cases ignoreCase with
  | false => exact isPrefixOf_map_foldCase h bytes
  | true =>
    have htwice : foldCase ∘ foldCase = foldCase := funext foldCase_foldCase
    simp only [if_true]
    rw [← List.map_take, List.map_map, htwice]

theorem consumedBetween_map_foldCase {opening closing : List UInt8} (hopening : caseless opening = true)
    (hclosing : caseless closing = true) (bytes : List UInt8) :
    consumedBetween opening closing (bytes.map foldCase) = consumedBetween opening closing bytes := by
  unfold consumedBetween
  rw [isPrefixOf_map_foldCase hopening, ← List.map_drop, firstOccurrence?_map_foldCase hclosing]

mutual

/-- **A matcher that does not tell capital letters from small ones** takes as many bytes of either. -/
theorem consumed_map_foldCase : ∀ {m : Matcher}, m.caseBlind = true → ∀ bytes : List UInt8,
    m.consumed (bytes.map foldCase) = m.consumed bytes
  | .char cls, _, [] => rfl
  | .char cls, h, b :: bytes => by
    rw [List.map_cons, consumed, consumed]
    simp only [ByteClass.contains_foldCase h]
  | .run cls, h, bytes => by
    have hcls : cls.contains ∘ foldCase = cls.contains := funext (ByteClass.contains_foldCase h)
    rw [consumed, consumed, List.takeWhile_map, List.length_map, hcls]
  | .literal text ignoreCase, h, bytes => by
    rw [consumed, consumed, startsWith_map_foldCase h]
  | .delimited opening closing, h, bytes => by
    obtain ⟨hopening, hclosing⟩ := Bool.and_eq_true_iff.mp h
    exact consumedBetween_map_foldCase hopening hclosing bytes
  | .sequence steps, h, bytes => by
    rw [consumed, consumed, consumedByAll_map_foldCase h]

theorem consumedByAll_map_foldCase : ∀ {steps : List Matcher}, allCaseBlind steps = true →
    ∀ bytes : List UInt8, consumedByAll steps (bytes.map foldCase) = consumedByAll steps bytes
  | [], _, _ => rfl
  | step :: steps, h, bytes => by
    obtain ⟨hstep, hsteps⟩ := Bool.and_eq_true_iff.mp h
    rw [consumedByAll, consumedByAll, consumed_map_foldCase hstep]
    split
    · rfl
    · rw [← List.map_drop, consumedByAll_map_foldCase hsteps]

end

end Matcher

/-! ## 3.  Reading -/

/-- What is left, in small letters. -/
def Input.small (input : Input) : Input where
  chars := input.chars.map Char.toLower
  bytes := utf8 (input.chars.map Char.toLower)
  offset := input.offset
  stop := input.stop
  bytes_eq := rfl
  stop_eq := by rw [length_utf8_map_toLower, ← input.bytes_eq, input.stop_eq]

theorem Input.bytes_small (input : Input) : input.small.bytes = input.bytes.map foldCase := by
  rw [input.bytes_eq]
  exact utf8_map_toLower input.chars

theorem Input.small_ofString (text : String) : (ofString text).small = ofString text.toLower :=
  Input.ext (String.toList_map.symm) rfl

/-- The token, in small letters. -/
def Token.small {K : Type} (token : Token K) : Token K := { token with text := token.text.toLower }

/-- As many bytes are read of either. -/
theorem Input.take?_small (input : Input) (n : Nat) :
    input.small.take? n = (input.take? n).map fun (text, rest) => (text.toLower, rest.small) := by
  cases htake : input.take? n with
  | some read =>
    obtain ⟨text, rest⟩ := read
    have hchars : input.small.chars = text.toList.map Char.toLower ++ rest.chars.map Char.toLower := by
      rw [← List.map_append, ← chars_of_take? htake]
      rfl
    obtain ⟨rest', htake', hrest⟩ := exists_take? hchars
    rw [length_utf8_map_toLower, utf8_length_of_take? htake] at htake'
    have hsmall : rest' = rest.small := by
      refine Input.ext hrest ?_
      rw [offset_of_take? htake']
      exact (offset_of_take? htake).symm
    rw [htake', hsmall, ← String.toList_map, String.ofList_toList]
    rfl
  | none =>
    refine Option.eq_none_iff_forall_ne_some.mpr fun read htake' => ?_
    obtain ⟨text, rest⟩ := read
    have hsplit : input.chars.map Char.toLower = text.toList ++ rest.chars := chars_of_take? htake'
    obtain ⟨front, back, hchars, hfront, -⟩ := List.map_eq_append_iff.mp hsplit
    obtain ⟨_, hread, -⟩ := exists_take? hchars
    rw [← length_utf8_map_toLower, hfront, utf8_length_of_take? htake', htake] at hread
    cases hread

section Tables

variable {K : Type} {table : LexTable K}

/-- No rule of the table tells capital letters from small ones. -/
def LexTable.caseBlind (table : LexTable K) : Bool := table.rules.all fun rule => rule.matcher.caseBlind

theorem LexRule.read?_small {rule : LexRule K} (h : rule.matcher.caseBlind = true) (input : Input) :
    rule.read? input.small =
      (rule.read? input).map fun (text, rest) => (text.toLower, rest.small) := by
  rw [read?, read?, Input.bytes_small, Matcher.consumed_map_foldCase h]
  split
  · rfl
  · exact Input.take?_small input _

/-- The first of some rules that applies. -/
theorem LexTable.findSome?_small {rules : List (LexRule K)}
    (h : ∀ rule ∈ rules, rule.matcher.caseBlind = true) (input : Input) :
    (rules.findSome? fun rule => (rule.read? input.small).map (rule.kind?, ·)) =
      (rules.findSome? fun rule => (rule.read? input).map (rule.kind?, ·)).map
        fun (kind?, text, rest) => (kind?, text.toLower, rest.small) := by
  induction rules with
  | nil => rfl
  | cons rule rules ih =>
    obtain ⟨hrule, hrules⟩ := List.forall_mem_cons.mp h
    rw [List.findSome?_cons, List.findSome?_cons, LexRule.read?_small hrule, ih hrules]
    cases rule.read? input <;> rfl

theorem LexTable.first?_small (h : table.caseBlind = true) (input : Input) :
    table.first? input.small = (table.first? input).map fun (kind?, text, rest) =>
      (kind?, text.toLower, rest.small) :=
  findSome?_small (List.all_eq_true.mp h) input

/-- **The next token in small letters** is that of the text in small letters. -/
theorem LexTable.next_small (h : table.caseBlind = true) (input : Input) :
    table.next input.small = ((table.next input).1.map Token.small, (table.next input).2.small) := by
  fun_induction table.next input with
  | case1 input hchars =>
    have hsmall : input.small.chars = [] := by simp [Input.small, hchars]
    exact next_of_nil hsmall
  | case2 input c tail hchars kind text rest hfirst =>
    have hsmall : input.small.chars ≠ [] := by simp [Input.small, hchars]
    refine next_of_emit hsmall ?_
    rw [first?_small h, hfirst]
    rfl
  | case3 input c tail hchars text rest hfirst ih =>
    have hsmall : input.small.chars ≠ [] := by simp [Input.small, hchars]
    have hskip : table.first? input.small = some (none, text.toLower, rest.small) := by
      rw [first?_small h, hfirst]
      rfl
    rw [← ih]
    exact next_of_skip hsmall hskip
  | case4 input c tail hchars hfirst text rest htake =>
    have hsmall : input.small.chars = c.toLower :: tail.map Char.toLower := by
      simp [Input.small, hchars]
    refine next_of_unknown hsmall ?_ ?_
    · rw [first?_small h, hfirst]
      rfl
    · rw [Input.take?_small, ← String.length_utf8EncodeChar, utf8EncodeChar_toLower, List.length_map,
        String.length_utf8EncodeChar, htake]
      rfl
  | case5 input c tail hchars hfirst htake =>
    -- The character at the front can always be read.
    obtain ⟨rest, htake', -⟩ := Input.exists_take? (show input.chars = [c] ++ tail from hchars)
    have hlength : (utf8 [c]).length = c.utf8Size := by simp
    rw [hlength, htake] at htake'
    cases htake'

theorem Cursor.collect_small (h : table.caseBlind = true) (input : Input) :
    collect table [] input.small = (collect table [] input).map Token.small := by
  induction hn : input.chars.length using Nat.strongRecOn generalizing input with
  | _ n ih =>
    have hsmall := table.next_small h input
    rcases hnext : table.next input with ⟨_ | token, rest⟩
    · rw [hnext] at hsmall
      rw [collect_of_next_none hnext, collect_of_next_none hsmall]
      rfl
    · rw [hnext] at hsmall
      have hlt := table.length_next_lt input token (by rw [hnext])
      rw [hnext, hn] at hlt
      rw [collect_of_next_some hnext, collect_of_next_some hsmall, collect_eq_append,
        collect_eq_append table rest, ih _ hlt rest rfl, List.map_append]
      rfl

/-- **The tokens of a text in small letters** are the tokens of the text, in small letters. -/
theorem Cursor.tokens_toLower (h : table.caseBlind = true) (text : String) :
    (start table text.toLower).tokens = (start table text).tokens.map Token.small := by
  rw [start, start, tokens_atNext, tokens_atNext, ← Input.small_ofString, collect_small h]

end Tables

end GrammarKit
