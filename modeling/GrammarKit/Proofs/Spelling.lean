import GrammarKit.Decimal.Digits
import GrammarKit.Proofs.Ahead
import GrammarKit.Proofs.Lexing
import Mathlib.Data.List.TakeWhile

/-!
# What a token may be spelled like

A token tells more than its kind: if it was read off a text, it is spelled the way a lexical rule of
that kind asks for.

* `Matcher.Spells`: the byte strings that a matcher may take, whatever stands around them.
* `Matcher.spells_of_consumed`: it takes no others.
* `LexTable.Spelled`, `Cursor.spelled_of_mem_tokens`: so each token is either of the unknown kind or
  spelled like its kind.
* `ascii_of_utf8`: bytes below 128 are characters.
-/

namespace GrammarKit

/-! ## Matchers -/

namespace Matcher

mutual

/-- The bytes may be taken by the matcher. -/
def Spells : Matcher → List UInt8 → Prop
  | .char cls, bytes => ∃ b, cls.contains b = true ∧ bytes = [b]
  | .run cls, bytes => bytes ≠ [] ∧ ∀ b ∈ bytes, cls.contains b = true
  | .literal text ignoreCase, bytes =>
    if ignoreCase then bytes.map foldCase = text.map foldCase else bytes = text
  | .delimited opening closing, bytes => ∃ body, bytes = opening ++ (body ++ closing)
  | .sequence steps, bytes => SpellsAll steps bytes

/-- The bytes may be taken by the steps in turn. -/
def SpellsAll : List Matcher → List UInt8 → Prop
  | [], bytes => bytes = []
  | step :: steps, bytes => ∃ front back, bytes = front ++ back ∧ step.Spells front ∧
    SpellsAll steps back

end

theorem take_of_startsWith {text bytes : List UInt8} {ignoreCase : Bool}
    (h : startsWith text ignoreCase bytes = true) :
    if ignoreCase then (bytes.take text.length).map foldCase = text.map foldCase
    else bytes.take text.length = text := by
  cases ignoreCase with
  | false =>
    have hfront : text <+: bytes := List.isPrefixOf_iff_prefix.mp h
    exact (List.prefix_iff_eq_take.mp hfront).symm
  | true =>
    have hfront : text.map foldCase <+: (bytes.take text.length).map foldCase :=
      List.isPrefixOf_iff_prefix.mp h
    have hle : ((bytes.take text.length).map foldCase).length ≤ (text.map foldCase).length := by
      simp only [List.length_map, List.length_take]
      exact Nat.min_le_left _ _
    exact (hfront.eq_of_length_le hle).symm

theorem exists_body_of_firstOccurrence? {pattern : List UInt8} :
    ∀ {bytes : List UInt8} {skipped n : Nat}, firstOccurrence? pattern bytes skipped = some n →
      ∃ body, n = skipped + body.length ∧ body ++ pattern <+: bytes
  | [], skipped, n, h => by
    rw [firstOccurrence?] at h
    split at h
    · next hempty =>
      cases h
      exact ⟨[], rfl, by rw [List.isEmpty_iff.mp hempty]; exact List.prefix_refl _⟩
    · cases h
  | b :: bytes, skipped, n, h => by
    rw [firstOccurrence?] at h
    split at h
    · next hfront =>
      cases h
      exact ⟨[], rfl, List.isPrefixOf_iff_prefix.mp hfront⟩
    · obtain ⟨body, hn, hbody⟩ := exists_body_of_firstOccurrence? h
      refine ⟨b :: body, ?_, (List.prefix_cons_inj b).mpr hbody⟩
      rw [hn, List.length_cons]
      omega

theorem exists_body_of_consumedBetween {opening closing bytes : List UInt8}
    (h : consumedBetween opening closing bytes ≠ 0) :
    ∃ body, bytes.take (consumedBetween opening closing bytes) = opening ++ (body ++ closing) := by
  unfold consumedBetween at h ⊢
  split at h
  · exact absurd rfl h
  · next hstarts =>
    rw [if_neg hstarts]
    simp only [Bool.or_eq_true, Bool.not_eq_true', not_or, Bool.not_eq_false] at hstarts
    obtain ⟨rest, rfl⟩ := List.isPrefixOf_iff_prefix.mp hstarts.2
    rw [List.drop_left] at h ⊢
    cases hbody : firstOccurrence? closing rest 0 with
    | none =>
      rw [hbody] at h
      exact absurd rfl h
    | some n =>
      obtain ⟨body, hn, behind, rfl⟩ := exists_body_of_firstOccurrence? hbody
      refine ⟨body, ?_⟩
      have hlength : opening.length + n + closing.length =
          (opening ++ (body ++ closing)).length := by
        simp only [List.length_append, hn]
        omega
      show (opening ++ (body ++ closing ++ behind)).take (opening.length + n + closing.length) = _
      rw [hlength, ← List.append_assoc opening (body ++ closing) behind, List.take_left]

mutual

/-- **A matcher takes nothing else.** -/
theorem spells_of_consumed : ∀ (m : Matcher) {bytes : List UInt8}, m.consumed bytes ≠ 0 →
    m.Spells (bytes.take (m.consumed bytes))
  | .char cls, [], h => absurd rfl h
  | .char cls, b :: bytes, h => by
    rw [consumed] at h ⊢
    by_cases hb : cls.contains b = true
    · simp only [hb, if_true]
      exact ⟨b, hb, rfl⟩
    · simp only [hb] at h
      exact absurd rfl h
  | .run cls, bytes, h => by
    rw [consumed] at h ⊢
    have htake := List.prefix_iff_eq_take.mp (List.takeWhile_prefix cls.contains (l := bytes))
    rw [← htake]
    exact ⟨fun hnil => h (by rw [hnil]; rfl), fun b hb => List.mem_takeWhile_imp hb⟩
  | .literal text ignoreCase, bytes, h => by
    rw [consumed] at h ⊢
    by_cases hstarts : startsWith text ignoreCase bytes = true
    · rw [if_pos hstarts]
      exact take_of_startsWith hstarts
    · rw [if_neg hstarts] at h
      exact absurd rfl h
  | .delimited opening closing, bytes, h => by
    rw [consumed] at h ⊢
    exact exists_body_of_consumedBetween h
  | .sequence steps, bytes, h => by
    rw [consumed] at h ⊢
    cases hsteps : consumedByAll steps bytes with
    | none =>
      rw [hsteps] at h
      exact absurd rfl h
    | some n => exact spellsAll_of_consumedByAll steps hsteps

/-- The same for several matchers in turn. -/
theorem spellsAll_of_consumedByAll : ∀ (steps : List Matcher) {bytes : List UInt8} {n : Nat},
    consumedByAll steps bytes = some n → SpellsAll steps (bytes.take n)
  | [], bytes, n, h => by
    cases h
    rfl
  | step :: steps, bytes, n, h => by
    rw [consumedByAll] at h
    cases hstep : step.consumed bytes with
    | zero =>
      rw [hstep] at h
      cases h
    | succ first =>
      rw [hstep] at h
      obtain ⟨more, hmore, rfl⟩ := Option.map_eq_some_iff.mp h
      refine ⟨bytes.take (first + 1), (bytes.drop (first + 1)).take more, List.take_add, ?_,
        spellsAll_of_consumedByAll steps hmore⟩
      have hne : step.consumed bytes ≠ 0 := by
        rw [hstep]
        exact Nat.succ_ne_zero first
      have hspells := spells_of_consumed step hne
      rwa [hstep] at hspells

end

end Matcher

/-! ## Tokens -/

/-- The token is spelled like its kind: a rule of the table that makes such tokens may take its text.
Tokens of the unknown kind may be spelled in any way. -/
def LexTable.Spelled {K : Type} (table : LexTable K) (token : Token K) : Prop :=
  token.kind = table.unknown ∨
    ∃ rule ∈ table.rules, rule.kind? = some token.kind ∧
      rule.matcher.Spells (utf8 token.text.toList)

theorem Input.utf8_of_take? {input rest : Input} {n : Nat} {text : String}
    (h : input.take? n = some (text, rest)) : utf8 text.toList = input.bytes.take n := by
  have hlength := utf8_length_of_take? h
  rw [input.bytes_eq, chars_of_take? h, utf8_append, ← hlength, List.take_left]

theorem LexRule.spells_of_read? {K : Type} {rule : LexRule K} {input rest : Input} {text : String}
    (h : rule.read? input = some (text, rest)) : rule.matcher.Spells (utf8 text.toList) := by
  unfold read? at h
  split at h
  · cases h
  · next n hn =>
    have hne : rule.matcher.consumed input.bytes ≠ 0 := by
      rw [hn]
      exact Nat.succ_ne_zero n
    have hspells := rule.matcher.spells_of_consumed hne
    rwa [hn, ← Input.utf8_of_take? h] at hspells

theorem LexTable.spelled_of_next {K : Type} (table : LexTable K) (input : Input) :
    ∀ token, (table.next input).1 = some token → table.Spelled token := by
  fun_induction table.next input with
  | case1 => intro token h; cases h
  | case2 input c tail hchars kind text rest hfirst =>
    intro token h
    cases h
    obtain ⟨rule, hrule, hread⟩ := List.exists_of_findSome?_eq_some hfirst
    obtain ⟨read, hread, heq⟩ := Option.map_eq_some_iff.mp hread
    obtain ⟨hkind, rfl⟩ := Prod.mk.inj heq
    exact Or.inr ⟨rule, hrule, hkind, LexRule.spells_of_read? hread⟩
  | case3 input c tail hchars text rest hfirst ih => exact ih
  | case4 =>
    intro token h
    cases h
    exact Or.inl rfl
  | case5 => intro token h; cases h

/-- **Each token of a text is spelled like its kind.** -/
theorem Cursor.spelled_of_mem_tokens {K : Type} (table : LexTable K) (text : String) :
    ∀ token ∈ (Cursor.start table text).tokens, table.Spelled token := by
  rw [start, tokens_atNext]
  generalize Input.ofString text = input
  induction hn : input.chars.length using Nat.strongRecOn generalizing input with
  | _ n ih =>
    rcases hnext : table.next input with ⟨_ | token, rest⟩
    · rw [collect_of_next_none hnext]
      exact fun token htoken => absurd htoken List.not_mem_nil
    · have hspelled := table.spelled_of_next input token (by rw [hnext])
      have hlt := table.length_next_lt input token (by rw [hnext])
      rw [hnext, hn] at hlt
      rw [collect_of_next_some hnext, collect_eq_append]
      exact List.forall_mem_cons.mpr ⟨hspelled, ih _ hlt rest rfl⟩

/-! ## Bytes and characters -/

theorem toNat_toUInt8 {c : Char} (h : c.toNat < 128) : c.toUInt8.toNat = c.toNat := by
  show c.toNat % 256 = c.toNat
  exact Nat.mod_eq_of_lt (by omega)

theorem utf8EncodeChar_of_lt {c : Char} (h : c.toNat < 128) :
    String.utf8EncodeChar c = [c.toUInt8] := by
  have hle : c.val.toNat ≤ 127 := Nat.le_of_lt_succ h
  rw [String.utf8EncodeChar]
  simp only [hle, if_true]
  rfl

/-- A character of several bytes has none below 128. -/
theorem le_of_mem_utf8EncodeChar {c : Char} (h : 128 ≤ c.toNat) :
    ∀ b ∈ String.utf8EncodeChar c, 128 ≤ b := by
  have hsize : ¬ c.val.toNat ≤ 127 := Nat.not_le_of_lt h
  have hbyte : ∀ n lead : Nat, 128 ≤ lead → n + lead < 256 → (128 : UInt8) ≤ UInt8.ofNat (n + lead) := by
    intro n lead hlead hlt
    rw [UInt8.le_iff_toNat_le, UInt8.toNat_ofNat_of_lt' hlt]
    exact Nat.le_trans hlead (Nat.le_add_left _ _)
  rw [String.utf8EncodeChar]
  simp only [hsize, if_false]
  split
  · simp only [List.forall_mem_cons, List.not_mem_nil, false_imp_iff, implies_true, and_true]
    exact ⟨hbyte _ _ (by omega) (by omega), hbyte _ _ (by omega) (by omega)⟩
  · split
    · simp only [List.forall_mem_cons, List.not_mem_nil, false_imp_iff, implies_true, and_true]
      exact ⟨hbyte _ _ (by omega) (by omega), hbyte _ _ (by omega) (by omega),
        hbyte _ _ (by omega) (by omega)⟩
    · simp only [List.forall_mem_cons, List.not_mem_nil, false_imp_iff, implies_true, and_true]
      exact ⟨hbyte _ _ (by omega) (by omega), hbyte _ _ (by omega) (by omega),
        hbyte _ _ (by omega) (by omega), hbyte _ _ (by omega) (by omega)⟩

theorem lt_of_utf8EncodeChar {c : Char} (h : ∀ b ∈ String.utf8EncodeChar c, b < 128) :
    c.toNat < 128 := by
  refine Nat.lt_of_not_le fun hle => ?_
  obtain ⟨b, hb⟩ := List.exists_mem_of_ne_nil _ (String.utf8EncodeChar_ne_nil (c := c))
  exact absurd (h b hb) (UInt8.not_lt.mpr (le_of_mem_utf8EncodeChar hle b hb))

/-- The characters are one byte each. -/
def Ascii (chars : List Char) : Prop := ∀ c ∈ chars, c.toNat < 128

instance (chars : List Char) : Decidable (Ascii chars) := List.decidableBAll _ _

theorem ascii_cons_iff {c : Char} {chars : List Char} :
    Ascii (c :: chars) ↔ c.toNat < 128 ∧ Ascii chars := List.forall_mem_cons

theorem utf8_of_ascii {chars : List Char} (h : Ascii chars) : utf8 chars = chars.map Char.toUInt8 := by
  induction chars with
  | nil => rfl
  | cons c chars ih =>
    obtain ⟨hc, hchars⟩ := ascii_cons_iff.mp h
    rw [utf8_cons, utf8EncodeChar_of_lt hc, ih hchars]
    rfl

/-- Bytes below 128 are characters. -/
theorem ascii_of_utf8 {chars : List Char} (h : ∀ b ∈ utf8 chars, b < 128) : Ascii chars := by
  induction chars with
  | nil => exact fun c hc => absurd hc List.not_mem_nil
  | cons c chars ih =>
    rw [utf8_cons, List.forall_mem_append] at h
    exact ascii_cons_iff.mpr ⟨lt_of_utf8EncodeChar h.1, ih h.2⟩

theorem isDigit_toUInt8 {c : Char} (h : c.toNat < 128) :
    ByteClass.isDigit c.toUInt8 = Decimal.isDigit c := by
  rw [ByteClass.isDigit, Decimal.isDigit]
  simp only [UInt8.le_iff_toNat_le, toNat_toUInt8 h, Char.le_def, UInt32.le_iff_toNat_le]
  rfl

theorem isLetter_toUInt8 {c : Char} (h : c.toNat < 128) :
    ByteClass.isLetter c.toUInt8 = c.isAlpha := by
  show _ = (decide (c.val ≥ 'A'.val ∧ c.val ≤ 'Z'.val) ||
    (decide (c.val ≥ 'a'.val) && decide (c.val ≤ 'z'.val)))
  rw [ByteClass.isLetter]
  simp only [Bool.decide_and, UInt8.le_iff_toNat_le, toNat_toUInt8 h, UInt32.le_iff_toNat_le,
    ge_iff_le]
  rfl

theorem letterOrDigit_toUInt8 {c : Char} (h : c.toNat < 128) :
    ByteClass.letterOrDigit.contains c.toUInt8 = c.isAlphanum := by
  show (ByteClass.isLetter c.toUInt8 || ByteClass.isDigit c.toUInt8) = (c.isAlpha || c.isDigit)
  rw [isLetter_toUInt8 h, isDigit_toUInt8 h]
  rfl

theorem toNat_lt_of_isAlpha {c : Char} (h : c.isAlpha = true) : c.toNat < 128 := by
  have hletter : (decide (c.val ≥ 'A'.val ∧ c.val ≤ 'Z'.val) ||
      (decide (c.val ≥ 'a'.val) && decide (c.val ≤ 'z'.val))) = true := h
  simp only [Bool.or_eq_true, Bool.and_eq_true, decide_eq_true_eq] at hletter
  rcases hletter with hupper | hlower
  · have hle : c.toNat ≤ 90 := UInt32.le_iff_toNat_le.mp hupper.2
    omega
  · have hle : c.toNat ≤ 122 := UInt32.le_iff_toNat_le.mp hlower.2
    omega

theorem toNat_lt_of_isAlphanum {c : Char} (h : c.isAlphanum = true) : c.toNat < 128 := by
  have hboth : (c.isAlpha || (decide (c.val ≥ '0'.val) && decide (c.val ≤ '9'.val))) = true := h
  simp only [Bool.or_eq_true, Bool.and_eq_true, decide_eq_true_eq] at hboth
  rcases hboth with hletter | hdigit
  · exact toNat_lt_of_isAlpha hletter
  · have hle : c.toNat ≤ 57 := UInt32.le_iff_toNat_le.mp hdigit.2
    omega

theorem foldCase_toUInt8 {c : Char} (h : c.toNat < 128) :
    foldCase c.toUInt8 = c.toLower.toUInt8 := by
  have hall : ∀ n < 128, foldCase (Char.ofNat n).toUInt8 = (Char.ofNat n).toLower.toUInt8 := by
    decide
  have hc := hall c.toNat h
  rwa [Char.ofNat_toNat] at hc

/-- Lower case does not lead into or out of the characters of one byte. -/
theorem toNat_toLower_lt_iff {c : Char} : c.toLower.toNat < 128 ↔ c.toNat < 128 := by
  unfold Char.toLower
  split
  · next hupper =>
    have hle : c.toNat ≤ 90 := UInt32.le_iff_toNat_le.mp hupper.2
    have hlower : (c.val + 32).toNat = (c.toNat + 32) % 2 ^ 32 := rfl
    exact ⟨fun _ => by omega, fun _ => show (c.val + 32).toNat < 128 by omega⟩
  · rfl

/-- A letter is its lower case, or the upper case of that. -/
theorem eq_toLower_or_eq_toUpper (c : Char) : c = c.toLower ∨ c = c.toLower.toUpper := by
  by_cases h : c.toNat < 128
  · have hall : ∀ n < 128, Char.ofNat n = (Char.ofNat n).toLower ∨
        Char.ofNat n = (Char.ofNat n).toLower.toUpper := by decide
    have hc := hall c.toNat h
    rwa [Char.ofNat_toNat] at hc
  · refine Or.inl ?_
    unfold Char.toLower
    split
    · next hupper =>
      have hle : c.toNat ≤ 90 := UInt32.le_iff_toNat_le.mp hupper.2
      omega
    · rfl

theorem lt_of_foldCase_lt {b : UInt8} (h : foldCase b < 128) : b < 128 := by
  unfold foldCase at h
  split at h
  · next hupper =>
    simp only [Bool.and_eq_true, decide_eq_true_eq, UInt8.le_iff_toNat_le] at hupper
    have hle : b.toNat ≤ 90 := hupper.2
    exact UInt8.lt_iff_toNat_lt.mpr (show b.toNat < 128 by omega)
  · exact h

theorem map_foldCase_utf8 {chars : List Char} (h : Ascii chars) :
    (utf8 chars).map foldCase = (chars.map Char.toLower).map Char.toUInt8 := by
  rw [utf8_of_ascii h, List.map_map, List.map_map]
  exact List.map_congr_left fun c hc => foldCase_toUInt8 (h c hc)

/-- Characters of one byte are told by their bytes. -/
theorem eq_of_map_toUInt8 {chars chars' : List Char} (h : Ascii chars) (h' : Ascii chars')
    (heq : chars.map Char.toUInt8 = chars'.map Char.toUInt8) : chars = chars' := by
  have hback : ∀ {chars : List Char}, Ascii chars →
      (chars.map Char.toUInt8).map (fun b => Char.ofNat b.toNat) = chars := by
    intro chars h
    rw [List.map_map]
    refine (List.map_congr_left fun c hc => ?_).trans (List.map_id chars)
    show Char.ofNat c.toUInt8.toNat = c
    rw [toNat_toUInt8 (h c hc), Char.ofNat_toNat]
  rw [← hback h, heq, hback h']

theorem eq_of_utf8_eq {chars word : List Char} (hword : Ascii word) (h : utf8 chars = utf8 word) :
    chars = word := by
  have hchars : Ascii chars := ascii_of_utf8 fun b hb => by
    rw [h, utf8_of_ascii hword] at hb
    obtain ⟨c, hc, rfl⟩ := List.mem_map.mp hb
    rw [UInt8.lt_iff_toNat_lt, toNat_toUInt8 (hword c hc)]
    exact hword c hc
  rw [utf8_of_ascii hchars, utf8_of_ascii hword] at h
  exact eq_of_map_toUInt8 hchars hword h

theorem ascii_toLower_iff {chars : List Char} : Ascii (chars.map Char.toLower) ↔ Ascii chars := by
  refine List.forall_mem_map.trans ?_
  exact forall₂_congr fun c _ => toNat_toLower_lt_iff

/-- **Words that agree but for capital letters** are those whose bytes do. -/
theorem map_foldCase_eq_iff {chars word : List Char} (hword : Ascii word) :
    (utf8 chars).map foldCase = (utf8 word).map foldCase ↔
      chars.map Char.toLower = word.map Char.toLower := by
  constructor
  · intro h
    have hlower : ∀ b ∈ (utf8 word).map foldCase, b < 128 := by
      rw [map_foldCase_utf8 hword]
      refine List.forall_mem_map.mpr fun c hc => ?_
      have hc' := ascii_toLower_iff.mpr hword c hc
      rw [UInt8.lt_iff_toNat_lt, toNat_toUInt8 hc']
      exact hc'
    have hchars : Ascii chars := ascii_of_utf8 fun b hb =>
      lt_of_foldCase_lt (hlower _ (h ▸ List.mem_map_of_mem hb))
    rw [map_foldCase_utf8 hword, map_foldCase_utf8 hchars] at h
    exact eq_of_map_toUInt8 (ascii_toLower_iff.mpr hchars) (ascii_toLower_iff.mpr hword) h
  · intro h
    have hchars : Ascii chars := by
      rw [← ascii_toLower_iff, h, ascii_toLower_iff]
      exact hword
    rw [map_foldCase_utf8 hword, map_foldCase_utf8 hchars, h]

/-! ## Classes of low bytes -/

/-- All bytes of the class are below 128. -/
def ByteClass.isLow : ByteClass → Bool
  | .byte value => value < 128
  | .anyOf values => values.all (· < 128)
  | .either first second => first.isLow && second.isLow
  | .digit | .letter | .letterOrDigit | .blank | .newline => true

theorem ByteClass.lt_of_isDigit {b : UInt8} (h : isDigit b = true) : b < 128 := by
  simp only [isDigit, Bool.and_eq_true, decide_eq_true_eq, UInt8.le_iff_toNat_le] at h
  exact UInt8.lt_iff_toNat_lt.mpr (Nat.lt_of_le_of_lt h.2 (by decide))

theorem ByteClass.lt_of_isLetter {b : UInt8} (h : isLetter b = true) : b < 128 := by
  simp only [isLetter, Bool.or_eq_true, Bool.and_eq_true, decide_eq_true_eq,
    UInt8.le_iff_toNat_le] at h
  refine UInt8.lt_iff_toNat_lt.mpr ?_
  rcases h with hupper | hlower
  · exact Nat.lt_of_le_of_lt hupper.2 (by decide)
  · exact Nat.lt_of_le_of_lt hlower.2 (by decide)

theorem ByteClass.lt_of_contains : ∀ (cls : ByteClass), cls.isLow = true → ∀ {b : UInt8},
    cls.contains b = true → b < 128
  | .byte value, h, b, hb => by
    rw [beq_iff_eq.mp hb]
    exact of_decide_eq_true h
  | .anyOf values, h, b, hb =>
    of_decide_eq_true (List.all_eq_true.mp h b (List.contains_iff_mem.mp hb))
  | .either first second, h, b, hb => by
    rw [isLow, Bool.and_eq_true] at h
    rw [contains_either, Bool.or_eq_true] at hb
    exact hb.elim (lt_of_contains first h.1) (lt_of_contains second h.2)
  | .digit, _, b, hb => lt_of_isDigit hb
  | .letter, _, b, hb => lt_of_isLetter hb
  | .letterOrDigit, _, b, hb => (Bool.or_eq_true _ _ ▸ hb).elim lt_of_isLetter lt_of_isDigit
  | .blank, _, b, hb => by
    simp only [contains, Bool.or_eq_true, beq_iff_eq] at hb
    rcases hb with rfl | rfl <;> decide
  | .newline, _, b, hb => by
    simp only [contains, Bool.or_eq_true, beq_iff_eq] at hb
    rcases hb with rfl | rfl <;> decide

/-! ## The usual matchers -/

namespace Matcher

variable {chars word : List Char} {c : Char}

theorem eq_singleton_of_spells (hc : c.toNat < 128) (h : (ofChar c).Spells (utf8 chars)) :
    chars = [c] := by
  obtain ⟨b, hb, hbytes⟩ := h
  have hsingle : Ascii [c] := ascii_cons_iff.mpr ⟨hc, fun _ hx => absurd hx List.not_mem_nil⟩
  have heq : b = c.toUInt8 := beq_iff_eq.mp hb
  refine eq_of_utf8_eq hsingle ?_
  rw [hbytes, heq, utf8_of_ascii hsingle]
  rfl

theorem isNumeral_of_spells (h : (run .digit).Spells (utf8 chars)) :
    Decimal.isNumeral chars = true := by
  obtain ⟨hne, hdigits⟩ := h
  have hchars : Ascii chars := ascii_of_utf8 fun b hb => by
    have hdigit : ByteClass.isDigit b = true := hdigits b hb
    simp only [ByteClass.isDigit, Bool.and_eq_true, decide_eq_true_eq,
      UInt8.le_iff_toNat_le] at hdigit
    have hle : b.toNat ≤ 57 := hdigit.2
    exact UInt8.lt_iff_toNat_lt.mpr (show b.toNat < 128 by omega)
  rw [utf8_of_ascii hchars] at hne hdigits
  rw [Decimal.isNumeral, Bool.and_eq_true, Bool.not_eq_true', List.isEmpty_eq_false_iff,
    List.all_eq_true]
  refine ⟨fun hnil => hne (by rw [hnil]; rfl), fun c hc => ?_⟩
  rw [← isDigit_toUInt8 (hchars c hc)]
  exact hdigits _ (List.mem_map_of_mem hc)

theorem map_toLower_of_spells {text : String} (htext : Ascii text.toList)
    (h : (keyword text).Spells (utf8 chars)) :
    chars.map Char.toLower = text.toList.map Char.toLower :=
  (map_foldCase_eq_iff htext).mp h

end Matcher

end GrammarKit
