import GrammarKit.Proofs.Respacing
import GrammarKit.Proofs.Tiling

/-!
# What the kind of a token tells

The first rule that takes something decides what a token is.  So the kind of a token tells more than
how the token is spelled: it tells what the rules before that one did not take, and where the rule had
to stop.  A name does not begin like a word with a meaning and goes on as far as there are letters and
digits, and a character belongs to no token only if there is nothing that it may begin.

What stands before a token has no part in the reading of it.  But a piece that ends with a digit was
taken as far as there are digits, so no digit is left for the next one to begin with.

* `LexTable.Makes.reads`, `LexTable.Tiles.forall_tokens`: from the pieces of a text to what is read.
* `Matcher.contains_head_of_consumedByAll`: what stops with a run stops where the run does.
* `LexTable.Reads.exists_rule`: the rule that reads a piece, and the rules that leave it.
* `Reads.classified`: what the kind tells of a token and of what stands behind it.
* `settled_of_consumed`: no number goes on from one piece into the next.
* `tokens_classified`: both, for each token of a text.
-/

namespace GrammarKit

section Table

variable {K : Type} {table : LexTable K} {text : String}

/-! ## 1.  From places to what is read -/

theorem utf8_drop_front (front back : String) :
    (utf8 (front ++ back).toList).drop front.utf8ByteSize = utf8 back.toList := by
  rw [String.toList_append, utf8_append, ← utf8_length, List.drop_left]

/-- A rule that applies at a piece and stops behind it takes the piece. -/
theorem LexRule.AppliesAt.consumed_eq {rule : LexRule K} {front piece back : String}
    (h : rule.AppliesAt (front ++ (piece ++ back)) front.utf8ByteSize
      (front.utf8ByteSize + piece.utf8ByteSize)) :
    rule.matcher.consumed (utf8 piece.toList ++ utf8 back.toList) = (utf8 piece.toList).length := by
  have hstop := h.matchEnd_eq
  rw [Matcher.matchEnd, utf8_drop_front, String.toList_append, utf8_append] at hstop
  rw [utf8_length]
  exact Nat.add_left_cancel hstop

/-- A rule that stops between characters takes nothing where it does not apply. -/
theorem LexRule.consumed_eq_zero_of_not_appliesAt {rule : LexRule K}
    (hlow : rule.matcher.endsLow = true) {front back : String}
    (h : ∀ stop, ¬ rule.AppliesAt (front ++ back) front.utf8ByteSize stop) :
    rule.matcher.consumed (utf8 back.toList) = 0 := by
  by_contra hne
  have hlast := rule.matcher.lt_of_getLast? hlow (rule.matcher.spells_of_consumed hne)
  obtain ⟨taken, rest, hchars, hlength⟩ :=
    exists_front_of_getLast?_lt back.toList (rule.matcher.consumed_le _) hlast
  have hback : back = String.ofList taken ++ String.ofList rest := by
    rw [← String.ofList_append, ← hchars, String.ofList_toList]
  have hsize : (String.ofList taken).utf8ByteSize = rule.matcher.consumed (utf8 back.toList) := by
    rw [← utf8_length, String.toList_ofList, hlength]
  refine h (front.utf8ByteSize + rule.matcher.consumed (utf8 back.toList)) ⟨?_, ?_, ?_⟩
  · rw [Matcher.matchEnd, utf8_drop_front]
  · exact Nat.lt_add_of_pos_right (Nat.pos_of_ne_zero hne)
  · refine String.Pos.Raw.isValid_iff_exists_append.mpr
      ⟨front ++ String.ofList taken, String.ofList rest, ?_, ?_⟩
    · rw [String.append_assoc, ← hback]
    · rw [String.Pos.Raw.ext_iff, String.byteIdx_rawEndPos, String.utf8ByteSize_append, hsize]

namespace LexTable

/-- What the first rule that applies takes is what the first rule takes that takes anything. -/
theorem Takes.exists_rule (hlow : ∀ rule ∈ table.rules, rule.matcher.endsLow = true)
    {front piece back : String} {kind? : Option K}
    (h : table.Takes (front ++ (piece ++ back)) front.utf8ByteSize kind? piece) :
    ∃ before rule behind, table.rules = before ++ rule :: behind ∧ rule.kind? = kind? ∧
      (∀ r ∈ before, r.matcher.consumed (utf8 piece.toList ++ utf8 back.toList) = 0) ∧
      rule.matcher.consumed (utf8 piece.toList ++ utf8 back.toList) = (utf8 piece.toList).length := by
  obtain ⟨before, rule, behind, hrules, hbefore, hrule, hkind⟩ := h
  refine ⟨before, rule, behind, hrules, hkind, fun r hr => ?_, hrule.consumed_eq⟩
  have hzero := LexRule.consumed_eq_zero_of_not_appliesAt
    (hlow r (hrules ▸ List.mem_append_left _ hr)) (hbefore r hr)
  rwa [String.toList_append, utf8_append] at hzero

/-- **What a table makes of a piece is what is read**, if the rules stop between characters. -/
theorem Makes.reads (hlow : ∀ rule ∈ table.rules, rule.matcher.endsLow = true)
    {token : Token K} {front back : String} (htext : text = front ++ (token.text ++ back))
    (hfront : front.utf8ByteSize = token.offset) (hne : token.text ≠ "")
    (h : table.Makes text token) :
    table.Reads token.kind token.text.toList back.toList := by
  rw [Makes, htext, ← hfront] at h
  rcases h with htakes | ⟨hnone, hkind, c, hc⟩
  · obtain ⟨before, rule, behind, hrules, hkind, hbefore, hrule⟩ := htakes.exists_rule hlow
    exact .rule before behind hrules hkind (fun hnil => hne (String.toList_eq_nil_iff.mp hnil))
      hbefore hrule
  · rw [hkind, hc, String.toList_singleton]
    refine .unknown fun r hr => ?_
    have hzero := LexRule.consumed_eq_zero_of_not_appliesAt (hlow r hr) (hnone r hr)
    rwa [hc, String.toList_append, utf8_append, String.toList_singleton] at hzero

variable {P : String → String → Prop} {front back : String} {start stop : Nat}

/-- What holds at a place, and behind each piece that is dropped, holds behind all of them. -/
theorem Drops.exists_split
    (hdrop : ∀ front piece back : String, text = front ++ (piece ++ back) →
      piece ≠ "" → table.Takes text front.utf8ByteSize none piece → P (front ++ piece) back)
    {pieces : List String} (h : table.Drops text start pieces stop) (htext : text = front ++ back)
    (hfront : front.utf8ByteSize = start) (hstart : P front back) :
    ∃ front back, text = front ++ back ∧ front.utf8ByteSize = stop ∧ P front back := by
  induction pieces generalizing start front back with
  | nil => exact ⟨front, back, htext, hfront.trans h, hstart⟩
  | cons piece pieces ih =>
    obtain ⟨hne, hholds, htakes, hrest⟩ := h
    obtain ⟨rest, rfl⟩ := hholds.exists_append htext hfront
    have hnext := hdrop front piece rest htext hne (hfront.symm ▸ htakes)
    rw [← String.append_assoc] at htext
    exact ih hrest htext (by rw [String.utf8ByteSize_append, hfront]) hnext

/-- **What holds at the start of a tiling and behind each of its pieces** holds before each token. -/
theorem Tiles.forall_tokens
    (hdrop : ∀ front piece back : String, text = front ++ (piece ++ back) →
      piece ≠ "" → table.Takes text front.utf8ByteSize none piece → P (front ++ piece) back)
    (htoken : ∀ (front : String) (token : Token K) (back : String),
      text = front ++ (token.text ++ back) → front.utf8ByteSize = token.offset → token.text ≠ "" →
        table.Makes text token → P (front ++ token.text) back)
    {gaps : List (List String)} {tokens : List (Token K)} (h : table.Tiles text start gaps tokens) :
    ∀ {front back : String}, text = front ++ back → front.utf8ByteSize = start → P front back →
      ∀ token ∈ tokens, ∃ front back : String, text = front ++ (token.text ++ back) ∧
        front.utf8ByteSize = token.offset ∧ P front (token.text ++ back) := by
  induction h with
  | finish => exact fun _ _ _ token hmem => absurd hmem List.not_mem_nil
  | @token start gap gaps first tokens hgap hne hholds hmakes _ ih =>
    intro front back htext hfront hstart
    obtain ⟨front, back, htext, hfront, hplace⟩ := hgap.exists_split hdrop htext hfront hstart
    obtain ⟨rest, rfl⟩ := hholds.exists_append htext hfront
    refine List.forall_mem_cons.mpr ⟨⟨front, rest, htext, hfront, hplace⟩, ?_⟩
    have hbehind := htoken front first rest htext hfront hne hmakes
    refine ih ?_ ?_ hbehind
    · rw [String.append_assoc, ← htext]
    · rw [String.utf8ByteSize_append, hfront, Token.stop]

end LexTable

/-! ## 2.  Where a run stops -/

namespace Matcher

variable {cls : ByteClass}

/-- **What stops with a run stops where the run does.** -/
theorem contains_head_of_consumedByAll : ∀ {steps : List Matcher} {bytes : List UInt8} {n : Nat},
    consumedByAll (steps ++ [run cls]) bytes = some n →
      ∀ b ∈ (bytes.drop n).head?, cls.contains b = false
  | [], bytes, n, h => by
    rw [List.nil_append, consumedByAll] at h
    split at h
    · cases h
    · next first hrun =>
      rw [consumedByAll] at h
      cases h
      have hstop := @contains_head_drop_run cls bytes
      rwa [hrun] at hstop
  | step :: steps, bytes, n, h => by
    rw [List.cons_append, consumedByAll] at h
    split at h
    · cases h
    · next first _ =>
      obtain ⟨more, hmore, rfl⟩ := Option.map_eq_some_iff.mp h
      rw [← List.drop_drop]
      exact contains_head_of_consumedByAll hmore

/-- A step alone. -/
theorem consumedByAll_singleton {step : Matcher} {bytes : List UInt8} (h : step.consumed bytes ≠ 0) :
    consumedByAll [step] bytes = some (step.consumed bytes) := by
  obtain ⟨n, hn⟩ := Nat.exists_eq_succ_of_ne_zero h
  rw [consumedByAll, hn]
  show (consumedByAll [] _).map (n + 1 + ·) = _
  rw [consumedByAll]
  rfl

variable {front back : List UInt8}

theorem contains_head_of_run (h : (run cls).consumed (front ++ back) = front.length) :
    ∀ b ∈ back.head?, cls.contains b = false := by
  have hstop := @contains_head_drop_run cls (front ++ back)
  rwa [h, List.drop_left] at hstop

theorem contains_head_of_sequence {steps : List Matcher} (hne : front ≠ [])
    (h : (sequence (steps ++ [run cls])).consumed (front ++ back) = front.length) :
    ∀ b ∈ back.head?, cls.contains b = false := by
  rw [consumed] at h
  cases hsteps : consumedByAll (steps ++ [run cls]) (front ++ back) with
  | none =>
    rw [hsteps] at h
    exact absurd (List.length_eq_zero_iff.mp h.symm) hne
  | some n =>
    have hn : n = front.length := by rw [← h, hsteps, Option.getD_some]
    have hstop := contains_head_of_consumedByAll hsteps
    rwa [hn, List.drop_left] at hstop

/-- The matcher takes something wherever this byte stands. -/
def starts : Matcher → UInt8 → Bool
  | .char cls, b | .run cls, b => cls.contains b
  | _, _ => false

theorem consumed_ne_zero_of_starts {m : Matcher} {b : UInt8} (h : m.starts b = true)
    (bytes : List UInt8) : m.consumed (b :: bytes) ≠ 0 := by
  cases m with
  | char cls =>
    have hb : cls.contains b = true := h
    rw [consumed]
    simp only [hb, if_true]
    exact Nat.one_ne_zero
  | run cls =>
    have hb : cls.contains b = true := h
    rw [consumed, List.takeWhile_cons_of_pos hb]
    exact Nat.succ_ne_zero _
  | _ => cases h

end Matcher

/-- A class of bytes stands for characters: none of them comes next where no byte of the class does. -/
theorem eq_false_of_utf8_head? {cls : ByteClass} {p : Char → Bool}
    (hcls : ∀ c, p c = true → c.toNat < 128 ∧ cls.contains c.toUInt8 = true) {chars : List Char}
    (h : ∀ b ∈ (utf8 chars).head?, cls.contains b = false) : ∀ c ∈ chars.head?, p c = false := by
  intro c hc
  cases chars with
  | nil => cases hc
  | cons first rest =>
    cases hc
    refine Bool.eq_false_iff.mpr fun hp => ?_
    obtain ⟨hlt, hcontains⟩ := hcls c hp
    rw [utf8_cons, utf8EncodeChar_of_lt hlt] at h
    rw [h c.toUInt8 rfl] at hcontains
    cases hcontains

theorem digit_contains {c : Char} (h : Decimal.isDigit c = true) :
    c.toNat < 128 ∧ ByteClass.digit.contains c.toUInt8 = true := by
  have halphanum : c.isAlphanum = true := by
    show (c.isAlpha || Decimal.isDigit c) = true
    rw [h, Bool.or_true]
  have hlt := toNat_lt_of_isAlphanum halphanum
  exact ⟨hlt, (isDigit_toUInt8 hlt).trans h⟩

theorem letterOrDigit_contains {c : Char} (h : c.isAlphanum = true) :
    c.toNat < 128 ∧ ByteClass.letterOrDigit.contains c.toUInt8 = true :=
  ⟨toNat_lt_of_isAlphanum h, (letterOrDigit_toUInt8 (toNat_lt_of_isAlphanum h)).trans h⟩

theorem getLast?_utf8 {chars : List Char} {c : Char} (hc : c ∈ chars.getLast?)
    (hlt : c.toNat < 128) : c.toUInt8 ∈ (utf8 chars).getLast? := by
  obtain ⟨front, rfl⟩ := List.getLast?_eq_some_iff.mp hc
  rw [utf8_append, utf8_cons, utf8_nil, List.append_nil, utf8EncodeChar_of_lt hlt,
    List.getLast?_concat]
  rfl

/-! ## 3.  The rule that reads a piece -/

namespace LexTable

variable {kind : K} {front back : List Char}

/-- **A piece of a known kind is read by a rule of the kind**, and the rules before it take nothing. -/
theorem Reads.exists_rule (h : table.Reads kind front back) (hkind : kind ≠ table.unknown) :
    ∃ rule ∈ table.rules, rule.kind? = some kind ∧
      rule.matcher.consumed (utf8 front ++ utf8 back) = (utf8 front).length ∧
      ∀ first rest, table.rules = first ++ rest → rule ∉ first →
        ∀ r ∈ first, r.matcher.consumed (utf8 front ++ utf8 back) = 0 := by
  cases h with
  | @rule before behind rule _ _ _ hrules hrule _ hbefore hconsumed =>
    exact ⟨rule, hrules ▸ List.mem_append_right _ List.mem_cons_self, hrule, hconsumed,
      fun first rest hsplit hnot r hr => hbefore r (mem_before (hrules.symm.trans hsplit) hnot r hr)⟩
  | unknown _ => exact absurd rfl hkind

/-- A piece of the unknown kind is a character that no rule takes, unless there is a rule for it. -/
theorem Reads.exists_char (h : table.Reads kind front back)
    (hrules : ∀ rule ∈ table.rules, rule.kind? ≠ some kind) :
    ∃ c, front = [c] ∧ ∀ rule ∈ table.rules, rule.matcher.consumed (utf8 [c] ++ utf8 back) = 0 := by
  cases h with
  | rule _ _ hsplit hkind _ _ _ =>
    exact absurd hkind (hrules _ (hsplit ▸ List.mem_append_right _ List.mem_cons_self))
  | @unknown c _ hnone => exact ⟨c, rfl, hnone⟩

/-- What is read is spelled like its kind. -/
theorem Reads.spelled {token : Token K} (h : table.Reads token.kind token.text.toList back) :
    table.Spelled token := by
  by_cases hkind : token.kind = table.unknown
  · exact Or.inl hkind
  · obtain ⟨rule, hmem, hrule, hconsumed, -⟩ := h.exists_rule hkind
    exact Or.inr ⟨rule, hmem, hrule, Matcher.spells_front hconsumed (utf8_ne_nil h.ne_nil)⟩

end LexTable

end Table

namespace Pascal

/-! ## 4.  What a kind tells -/

variable {kind : Kind} {front back : List Char}

theorem head?_of_integer (h : table.Reads .integerConst front back) :
    (∀ c ∈ back.head?, Decimal.isDigit c = false) ∧
      ∀ c rest, back = '.' :: c :: rest → Decimal.isDigit c = false := by
  obtain ⟨rule, hmem, hkind, hconsumed, hbefore⟩ := h.exists_rule (by decide)
  rw [eq_emit_integer rule hmem hkind] at hconsumed hbefore
  have hrun : (Matcher.run .digit).consumed (utf8 front ++ utf8 back) = (utf8 front).length := hconsumed
  refine ⟨eq_false_of_utf8_head? (fun _ => digit_contains) (Matcher.contains_head_of_run hrun),
    fun c rest hback => ?_⟩
  -- With a point and a digit behind it, it would be the beginning of a real.
  have hreal : (Matcher.sequence realSteps).consumed (utf8 front ++ utf8 back) = 0 := by
    refine hbefore (table.rules.take 21) (table.rules.drop 21) rfl ?_
      (.emit (.sequence realSteps) .realConst) ?_
    · simp [table, keywords, LexRule.emit, LexRule.skip]
    · simp [table, keywords, LexRule.emit, LexRule.skip, realSteps]
  refine Bool.eq_false_iff.mpr fun hdigit => ?_
  obtain ⟨hlt, hcontains⟩ := digit_contains hdigit
  have hbytes : utf8 back = [46] ++ (c.toUInt8 :: utf8 rest) := by
    rw [hback, utf8_cons, utf8_cons, utf8EncodeChar_of_lt hlt]
    rfl
  have hpoint : (Matcher.ofChar '.').consumed ([46] ++ (c.toUInt8 :: utf8 rest)) =
      [(46 : UInt8)].length := rfl
  have hfraction : (Matcher.run .digit).consumed (c.toUInt8 :: utf8 rest) ≠ 0 :=
    @Matcher.consumed_ne_zero_of_starts (.run .digit) c.toUInt8 hcontains _
  rw [Matcher.consumed, realSteps, Matcher.consumedByAll_cons hrun (utf8_ne_nil h.ne_nil), hbytes,
    Matcher.consumedByAll_cons hpoint (List.cons_ne_nil _ _),
    Matcher.consumedByAll_singleton hfraction] at hreal
  simp at hreal

theorem head?_of_real (h : table.Reads .realConst front back) :
    ∀ c ∈ back.head?, Decimal.isDigit c = false := by
  obtain ⟨rule, hmem, hkind, hconsumed, -⟩ := h.exists_rule (by decide)
  rw [eq_emit_real rule hmem hkind] at hconsumed
  have hsteps : realSteps = [.run .digit, .ofChar '.'] ++ [.run .digit] := rfl
  rw [hsteps] at hconsumed
  exact eq_false_of_utf8_head? (fun _ => digit_contains)
    (Matcher.contains_head_of_sequence (utf8_ne_nil h.ne_nil) hconsumed)

/-- A name goes on as far as there are letters and digits, also a name of one letter: it is left to
the last rule by the one before, which wants more. -/
theorem head?_of_name (h : table.Reads .id front back) :
    ∀ c ∈ back.head?, c.isAlphanum = false := by
  obtain ⟨rule, hmem, hkind, hconsumed, hbefore⟩ := h.exists_rule (by decide)
  have hne := utf8_ne_nil h.ne_nil
  refine eq_false_of_utf8_head? (fun _ => letterOrDigit_contains) ?_
  rcases eq_emit_name rule hmem hkind with rfl | rfl
  · exact @Matcher.contains_head_of_sequence .letterOrDigit _ _ [.char nameStart] hne hconsumed
  · have hletter : (Matcher.char nameStart).consumed (utf8 front ++ utf8 back) = (utf8 front).length :=
      hconsumed
    have hlonger : (Matcher.sequence [.char nameStart, .run .letterOrDigit]).consumed
        (utf8 front ++ utf8 back) = 0 := by
      refine hbefore (table.rules.take 23) (table.rules.drop 23) rfl ?_
        (.emit (.sequence [.char nameStart, .run .letterOrDigit]) .id) ?_
      · simp [table, keywords, LexRule.emit, LexRule.skip]
      · simp [table, keywords, LexRule.emit, LexRule.skip]
    refine Matcher.contains_head_of_consumed_run ?_
    by_contra hrun
    rw [Matcher.consumed, Matcher.consumedByAll_cons hletter hne,
      Matcher.consumedByAll_singleton hrun] at hlonger
    simp [hrun] at hlonger

/-- A name does not begin like a word with a meaning. -/
theorem free_of_name (h : table.Reads .id front back) (k : Keyword) :
    ¬ k.letters.toList <+: front.map Char.toLower := by
  rintro ⟨more, hmore⟩
  obtain ⟨word, behind, rfl, hword, -⟩ := List.map_eq_append_iff.mp hmore.symm
  obtain ⟨rule, hmem, hkind, -, hbefore⟩ := h.exists_rule (by decide)
  have hzero : (Matcher.keyword k.capitals).consumed (utf8 (word ++ behind) ++ utf8 back) = 0 := by
    refine hbefore (table.rules.take 20) (table.rules.drop 20) rfl ?_
      (.emit (.keyword k.capitals) k.kind) ?_
    · rcases eq_emit_name rule hmem hkind with rfl | rfl <;>
        simp [table, keywords, LexRule.emit, LexRule.skip]
    · cases k <;> simp [table, keywords, LexRule.emit, LexRule.skip, Keyword.kind, Keyword.capitals]
  have hne : utf8 word ≠ [] := by
    obtain ⟨c, rest, hchars, -⟩ := Word.exists_cons ⟨word, hword⟩
    have hcons : word = c :: rest := hchars
    rw [hcons]
    exact utf8_ne_nil (List.cons_ne_nil c rest)
  have htaken := Word.consumed_eq ⟨word, hword⟩ (utf8 behind ++ utf8 back)
  rw [utf8_append, List.append_assoc, htaken] at hzero
  exact hne (List.length_eq_zero_iff.mp hzero)

/-- A colon is no beginning of an assignment. -/
theorem head?_of_colon (h : table.Reads .colon [':'] back) : back.head? ≠ some '=' := by
  intro hback
  obtain ⟨rest, rfl⟩ : ∃ rest, back = '=' :: rest := List.head?_eq_some_iff.mp hback
  obtain ⟨rule, hmem, hkind, -, hbefore⟩ := h.exists_rule (by decide)
  have hzero : (Matcher.sequence [.ofChar ':', .ofChar '=']).consumed
      (utf8 [':'] ++ utf8 ('=' :: rest)) = 0 := by
    refine hbefore (table.rules.take 11) (table.rules.drop 11) rfl ?_
      (.emit (.sequence [.ofChar ':', .ofChar '=']) .assign) ?_
    · rw [eq_emit_sign .colon rule hmem hkind]
      simp [table, keywords, LexRule.emit, LexRule.skip, Sign.kind, Sign.matcher]
    · simp [table, keywords, LexRule.emit, LexRule.skip]
  have htaken : (Matcher.sequence [.ofChar ':', .ofChar '=']).consumed
      (utf8 [':'] ++ utf8 ('=' :: rest)) = 2 := rfl
  rw [htaken] at hzero
  cases hzero

/-- The characters that a blank or a sign may begin with, and the underscore. -/
def plainSigns : List Char :=
  ['_', ' ', '\t', '\r', '\n', ',', ':', '(', ')', '+', '-', '*', ';', '.', '/']

/-- There is a rule for each letter, digit, blank and sign. -/
theorem exists_rule_starts {c : Char} (h : c.isAlphanum = true ∨ c ∈ plainSigns) :
    c.toNat < 128 ∧ ∃ rule ∈ table.rules, rule.matcher.starts c.toUInt8 = true := by
  have hbytes : ∀ b : UInt8, ByteClass.letterOrDigit.contains b = true ∨
      b ∈ plainSigns.map Char.toUInt8 → table.rules.any (fun rule => rule.matcher.starts b) = true :=
    forall_byte (by decide +kernel)
  have hsigns : Ascii plainSigns := by decide
  rcases h with h | h
  · obtain ⟨hlt, hcontains⟩ := letterOrDigit_contains h
    exact ⟨hlt, List.any_eq_true.mp (hbytes _ (Or.inl hcontains))⟩
  · exact ⟨hsigns c h, List.any_eq_true.mp (hbytes _ (Or.inr (List.mem_map_of_mem h)))⟩

/-- A character that belongs to no token is none of those that a rule takes, and no comment. -/
theorem exists_char_of_unknown (h : table.Reads .unknown front back) :
    ∃ c, front = [c] ∧ c.isAlphanum = false ∧ c ∉ plainSigns ∧ (c = '\x7b' → '\x7d' ∉ back) := by
  have hnone : ∀ rule ∈ table.rules, rule.kind? ≠ some .unknown := by decide
  obtain ⟨c, rfl, hzero⟩ := h.exists_char hnone
  have hplain : ¬ (c.isAlphanum = true ∨ c ∈ plainSigns) := by
    intro hplain
    obtain ⟨hlt, rule, hmem, hstarts⟩ := exists_rule_starts hplain
    have htaken := hzero rule hmem
    rw [utf8_cons, utf8_nil, List.append_nil, utf8EncodeChar_of_lt hlt] at htaken
    exact Matcher.consumed_ne_zero_of_starts hstarts _ htaken
  obtain ⟨halphanum, hsign⟩ := not_or.mp hplain
  refine ⟨c, rfl, Bool.eq_false_iff.mpr halphanum, hsign, ?_⟩
  rintro rfl
  exact not_mem_of_reads_brace h

/-- **What the kind of a token tells** of the token, and of the text behind it. -/
structure Classified (token : Token Kind) (behind : List Char) : Prop extends WellSpelled token where
  free : token.kind = .id → ∀ k : Keyword, ¬ k.letters.toList <+: token.text.toList.map Char.toLower
  name_end : token.kind = .id → ∀ c ∈ behind.head?, c.isAlphanum = false
  integer_end : token.kind = .integerConst → (∀ c ∈ behind.head?, Decimal.isDigit c = false) ∧
    ∀ c rest, behind = '.' :: c :: rest → Decimal.isDigit c = false
  real_end : token.kind = .realConst → ∀ c ∈ behind.head?, Decimal.isDigit c = false
  colon_end : token.kind = .colon → behind.head? ≠ some '='
  unknown : token.kind = .unknown → ∃ c, token.text = String.singleton c ∧ c.isAlphanum = false ∧
    c ∉ plainSigns ∧ (c = '\x7b' → '\x7d' ∉ behind)

/-- **What is read is what its kind tells.** -/
theorem Reads.classified {token : Token Kind} (h : table.Reads token.kind token.text.toList back) :
    Classified token back := by
  have hkind : ∀ kind, token.kind = kind → table.Reads kind token.text.toList back := by
    rintro _ rfl
    exact h
  have hspelled := wellSpelled_of_spelled h.spelled
  refine ⟨hspelled, fun hname => free_of_name (hkind _ hname),
    fun hname => head?_of_name (hkind _ hname),
    fun hinteger => head?_of_integer (hkind _ hinteger),
    fun hreal => head?_of_real (hkind _ hreal), fun hcolon => ?_, fun hunknown => ?_⟩
  · have hreads := hkind _ hcolon
    rw [hspelled.sign .colon hcolon, String.toList_ofList] at hreads
    exact head?_of_colon hreads
  · obtain ⟨c, hc, hplain⟩ := exists_char_of_unknown (hkind _ hunknown)
    refine ⟨c, ?_, hplain⟩
    rw [← String.toList_inj, hc, String.toList_singleton]

/-! ## 5.  What stands before a number -/

/-- No run of digits goes on across this place. -/
def Settled (before behind : List Char) : Prop :=
  ∀ c ∈ before.getLast?, Decimal.isDigit c = true → ∀ d ∈ behind.head?, Decimal.isDigit d = false

theorem settled_of_utf8
    (h : ∀ b ∈ (utf8 front).getLast?, ByteClass.digit.contains b = true →
      ∀ b ∈ (utf8 back).head?, ByteClass.digit.contains b = false) : Settled front back := by
  intro c hc hdigit
  obtain ⟨hlt, hcontains⟩ := digit_contains hdigit
  exact eq_false_of_utf8_head? (fun _ => digit_contains) (h c.toUInt8 (getLast?_utf8 hc hlt) hcontains)

theorem Settled.append {before : List Char} (h : Settled front back) (hne : front ≠ []) :
    Settled (before ++ front) back := by
  intro c hc
  rw [List.getLast?_append_of_ne_nil _ hne] at hc
  exact h c hc

/-- The rules that have a use for digits. -/
theorem eq_of_uses_digit {rule : LexRule Kind} (hmem : rule ∈ table.rules) {b : UInt8}
    (hdigit : ByteClass.digit.contains b = true) (huses : rule.matcher.uses b = true) :
    rule = .skip (.between "\x7b" "\x7d") ∨ rule = .emit (.sequence realSteps) .realConst ∨
      rule = .emit (.run .digit) .integerConst ∨
      rule = .emit (.sequence [.char nameStart, .run .letterOrDigit]) .id := by
  let others := table.rules.take 1 ++ ((table.rules.take 20).drop 2 ++ table.rules.drop 23)
  have hsplit : table.rules = table.rules.take 1 ++ (.skip (.between "\x7b" "\x7d") ::
      ((table.rules.take 20).drop 2 ++ (.emit (.sequence realSteps) .realConst ::
        .emit (.run .digit) .integerConst ::
          .emit (.sequence [.char nameStart, .run .letterOrDigit]) .id :: table.rules.drop 23))) := rfl
  have hunused : ∀ b : UInt8, ByteClass.digit.contains b = true →
      others.all (fun rule => !rule.matcher.uses b) = true := forall_byte (by decide +kernel)
  have hother : rule ∉ others := fun hother => by
    have hnot := List.all_eq_true.mp (hunused b hdigit) rule hother
    rw [huses] at hnot
    cases hnot
  rw [List.mem_append, List.mem_append, not_or, not_or] at hother
  rw [hsplit, List.mem_append, List.mem_cons, List.mem_append, List.mem_cons, List.mem_cons,
    List.mem_cons] at hmem
  tauto

/-- **A piece that a rule takes leaves no digit to go on with**, if it ends with one. -/
theorem settled_of_consumed {rule : LexRule Kind} (hmem : rule ∈ table.rules) (hne : front ≠ [])
    (h : rule.matcher.consumed (utf8 front ++ utf8 back) = (utf8 front).length) :
    Settled front back := by
  have hbytes := utf8_ne_nil hne
  refine settled_of_utf8 fun b hb hdigit => ?_
  have huses := Matcher.uses_of_consumed h hbytes b (List.mem_of_getLast? hb)
  rcases eq_of_uses_digit hmem hdigit huses with rfl | rfl | rfl | rfl
  · -- A comment ends with a brace.
    obtain ⟨body, hbody⟩ : ∃ body, utf8 front = [123] ++ (body ++ [125]) :=
      Matcher.spells_front h hbytes
    rw [hbody, ← List.append_assoc, List.getLast?_concat] at hb
    cases hb
    cases hdigit
  · exact @Matcher.contains_head_of_sequence .digit _ _ [.run .digit, .ofChar '.'] hbytes h
  · exact Matcher.contains_head_of_run h
  · have hstop := @Matcher.contains_head_of_sequence .letterOrDigit _ _ [.char nameStart] hbytes h
    exact fun d hd => (Bool.or_eq_false_iff.mp (hstop d hd)).2

/-- What is read leaves no digit to go on with, if it ends with one. -/
theorem Reads.settled (h : table.Reads kind front back) : Settled front back := by
  by_cases hkind : kind = .unknown
  · subst hkind
    obtain ⟨c, rfl, hplain, -⟩ := exists_char_of_unknown h
    intro d hd hdigit
    cases hd
    rw [Char.isAlphanum, Bool.or_eq_false_iff] at hplain
    exact absurd hdigit (Bool.eq_false_iff.mp hplain.2)
  · obtain ⟨rule, hmem, -, hconsumed, -⟩ := h.exists_rule hkind
    exact settled_of_consumed hmem h.ne_nil hconsumed

/-! ## 6.  All tokens of a text -/

/-- Each token of a text is read before what stands behind it, and no number goes on into it. -/
theorem exists_settled (source : String) : ∀ token ∈ (Cursor.start table source).tokens,
    ∃ front back : String, source = front ++ (token.text ++ back) ∧
      front.utf8ByteSize = token.offset ∧ table.Reads token.kind token.text.toList back.toList ∧
      Settled front.toList (token.text.toList ++ back.toList) := by
  obtain ⟨-, hmakes, -, gaps, htiles, -⟩ := tokens_tile table source
  let P : String → String → Prop := fun front back => Settled front.toList back.toList
  have hstart : P "" source := fun c hc => by cases hc
  have hdrop : ∀ front piece back : String, source = front ++ (piece ++ back) → piece ≠ "" →
      table.Takes source front.utf8ByteSize none piece → P (front ++ piece) back := by
    intro front piece back hsource hne htakes
    rw [hsource] at htakes
    obtain ⟨before, rule, behind, hrules, -, -, hconsumed⟩ := htakes.exists_rule endsLow
    have hmem : rule ∈ table.rules := hrules ▸ List.mem_append_right _ List.mem_cons_self
    have hopen : piece.toList ≠ [] := fun hnil => hne (String.toList_eq_nil_iff.mp hnil)
    show Settled (front ++ piece).toList back.toList
    rw [String.toList_append]
    exact (settled_of_consumed hmem hopen hconsumed).append hopen
  have htoken : ∀ (front : String) (token : Token Kind) (back : String),
      source = front ++ (token.text ++ back) → front.utf8ByteSize = token.offset → token.text ≠ "" →
        table.Makes source token → P (front ++ token.text) back := by
    intro front token back hsource hfront hne hmakes
    have hreads := hmakes.reads endsLow hsource hfront hne
    show Settled (front ++ token.text).toList back.toList
    rw [String.toList_append]
    exact (Reads.settled hreads).append hreads.ne_nil
  intro token hmem
  obtain ⟨front, back, hsource, hfront, hsettled⟩ :=
    htiles.forall_tokens hdrop htoken String.empty_append.symm rfl hstart token hmem
  obtain ⟨hne, -, hmakes⟩ := hmakes token hmem
  refine ⟨front, back, hsource, hfront, hmakes.reads endsLow hsource hfront hne, ?_⟩
  rwa [← String.toList_append]

/-- A numeral starts with a digit. -/
theorem exists_digit_of_isNumeral {chars : List Char} (h : Decimal.isNumeral chars = true) :
    ∃ d rest, chars = d :: rest ∧ Decimal.isDigit d = true := by
  rw [Decimal.isNumeral, Bool.and_eq_true, Bool.not_eq_true', List.isEmpty_eq_false_iff] at h
  obtain ⟨d, rest, rfl⟩ := List.exists_cons_of_ne_nil h.1
  exact ⟨d, rest, rfl, List.all_eq_true.mp h.2 d List.mem_cons_self⟩

/-- Where no number goes on, a token that starts with a digit has none before it. -/
theorem Settled.not_digit {before behind : List Char} {d : Char} (h : Settled before (d :: behind))
    (hd : Decimal.isDigit d = true) : ∀ c ∈ before.getLast?, Decimal.isDigit c = false := by
  intro c hc
  refine Bool.eq_false_iff.mpr fun hdigit => ?_
  rw [h c hc hdigit d rfl] at hd
  cases hd

/-- **The kinds of the tokens of a Pascal text**, whatever the text is.  Each token stands in it at its
offset, between what is before and what is behind.  The kind tells how the token is spelled and what
cannot stand behind it:

* a word with a meaning is spelled like it, in capital or small letters;
* a name is a letter or an underscore, and then letters and digits; it does not begin like a word with a
  meaning, and no letter and no digit is behind it;
* an integer is made of digits, with no digit before it and none behind, nor a point and a digit;
* a real is made of digits, a point and digits, with no digit before it and none behind;
* a colon is not followed by an equality sign;
* a character that belongs to no token is no letter, digit, underscore, blank or sign, and if it is an
  opening brace, then no closing one is behind it. -/
theorem tokens_classified (source : String) : ∀ token ∈ (Cursor.start table source).tokens,
    ∃ front back : String, source = front ++ (token.text ++ back) ∧
      front.utf8ByteSize = token.offset ∧ Classified token back.toList ∧
      (token.kind = .integerConst ∨ token.kind = .realConst →
        ∀ c ∈ front.toList.getLast?, Decimal.isDigit c = false) := by
  intro token hmem
  obtain ⟨front, back, hsource, hfront, hreads, hsettled⟩ := exists_settled source token hmem
  have hclassified := Reads.classified hreads
  refine ⟨front, back, hsource, hfront, hclassified, ?_⟩
  rintro (hinteger | hreal)
  · obtain ⟨d, rest, htext, hd⟩ := exists_digit_of_isNumeral (hclassified.integer hinteger)
    rw [htext] at hsettled
    exact hsettled.not_digit hd
  · obtain ⟨whole, fraction, htext, hwhole, -⟩ := hclassified.real hreal
    obtain ⟨d, rest, rfl, hd⟩ := exists_digit_of_isNumeral hwhole
    rw [htext] at hsettled
    exact hsettled.not_digit hd

/-- A comment that is not closed: its brace belongs to no token, and what is behind it is read. -/
theorem tokens_classified_unclosed :
    ∃ token ∈ (Cursor.start table "a1\x7b2").tokens, token.kind = .unknown ∧
      ∃ front back : String, "a1\x7b2" = front ++ (token.text ++ back) ∧
        front.utf8ByteSize = token.offset ∧ Classified token back.toList := by
  have hkinds : (Cursor.start table "a1\x7b2").tokens.map Token.kind =
      [.id, .unknown, .integerConst] := by decide +kernel
  have hunknown : Kind.unknown ∈ (Cursor.start table "a1\x7b2").tokens.map Token.kind := by
    rw [hkinds]
    decide
  obtain ⟨token, hmem, hkind⟩ := List.mem_map.mp hunknown
  obtain ⟨front, back, hsource, hfront, hclassified, -⟩ := tokens_classified "a1\x7b2" token hmem
  exact ⟨token, hmem, hkind, front, back, hsource, hfront, hclassified⟩

end Pascal

end GrammarKit
