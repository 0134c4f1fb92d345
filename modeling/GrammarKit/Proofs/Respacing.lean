import GrammarKit.Proofs.Lookahead
import GrammarKit.Proofs.Pascal.Lexing

/-!
# Other gaps between the tokens

Take the tokens of a text, whatever it is, and write their texts once more with other gaps between
them.  Then the same tokens are read again.  A token was read before what stood behind it in the text,
and it has to be read before a gap now.

Most rules have no use for the first byte of a gap, so they take what they took.  Three rules do:

* the rule for the gaps takes nothing where a token starts;
* the comment of the calculator is taken up to its own end, and what is no comment does not open one,
  since a gap stands behind it;
* a brace that opens no comment in Pascal is a token of its own.  It was read before a text without a
  closing brace, and none may come behind it now.  So there are blanks only in the gaps, or no such
  token.

`LexTable.Separators` is what the two languages have to show, and `spellings_respace` is the result.
-/

namespace GrammarKit

/-! ## 1.  Pieces and gaps -/

/-- Pieces with gaps: gap number `i` stands before piece number `i`, and one more at the end. -/
def respace (gaps : Nat → String) : List String → String
  | [] => gaps 0
  | text :: texts => gaps 0 ++ (text ++ respace (fun i => gaps (i + 1)) texts)

/-- The gaps for so many pieces are of this sort, and no two pieces touch. -/
structure Apart (Gap : List Char → Prop) (gaps : Nat → String) (count : Nat) : Prop where
  gap : ∀ i ≤ count, Gap (gaps i).toList
  between : ∀ i, 0 < i → i < count → gaps i ≠ ""

variable {Gap : List Char → Prop} {gaps : Nat → String} {count : Nat} {texts : List String}

theorem Apart.tail (h : Apart Gap gaps (count + 1)) : Apart Gap (fun i => gaps (i + 1)) count where
  gap i hi := h.gap (i + 1) (Nat.succ_le_succ hi)
  between i _ hi := h.between (i + 1) (Nat.succ_pos i) (Nat.succ_lt_succ hi)

theorem Apart.mono {Gap' : List Char → Prop} (h : Apart Gap gaps count)
    (himp : ∀ gap, Gap gap → Gap' gap) : Apart Gap' gaps count where
  gap i hi := himp _ (h.gap i hi)
  between := h.between

/-- A text with other gaps starts with the first of them; without a piece there is nothing else. -/
theorem exists_toList_respace (gaps : Nat → String) (texts : List String) :
    ∃ rest, (respace gaps texts).toList = (gaps 0).toList ++ rest ∧ (texts = [] → rest = []) := by
  cases texts with
  | nil => exact ⟨[], (List.append_nil _).symm, fun _ => rfl⟩
  | cons text texts =>
    rw [respace, String.toList_append]
    exact ⟨_, rfl, fun h => by cases h⟩

theorem mem_respace {c : Char} : ∀ {texts : List String} {gaps : Nat → String},
    c ∈ (respace gaps texts).toList →
      (∃ i ≤ texts.length, c ∈ (gaps i).toList) ∨ ∃ text ∈ texts, c ∈ text.toList
  | [], gaps, h => Or.inl ⟨0, Nat.le_refl 0, h⟩
  | text :: texts, gaps, h => by
    rw [respace, String.toList_append, String.toList_append, List.mem_append, List.mem_append] at h
    rcases h with h | h | h
    · exact Or.inl ⟨0, Nat.zero_le _, h⟩
    · exact Or.inr ⟨text, List.mem_cons_self, h⟩
    · rcases mem_respace h with ⟨i, hi, hc⟩ | ⟨other, hother, hc⟩
      · exact Or.inl ⟨i + 1, Nat.succ_le_succ hi, hc⟩
      · exact Or.inr ⟨other, List.mem_cons_of_mem _ hother, hc⟩

/-- The same separator between all pieces, and nothing behind them. -/
theorem respace_eq_intercalate (separator : String) :
    ∀ (text : String) (texts : List String) (gaps : Nat → String),
      (∀ i, 0 < i → i < texts.length + 1 → gaps i = separator) → gaps (texts.length + 1) = "" →
        respace gaps (text :: texts) = gaps 0 ++ separator.intercalate (text :: texts)
  | text, [], gaps, _, hlast => by
    rw [respace, respace, String.intercalate_singleton]
    show gaps 0 ++ (text ++ gaps 1) = _
    rw [show gaps 1 = "" from hlast, String.append_empty]
  | text, next :: texts, gaps, hbetween, hlast => by
    have hrest := respace_eq_intercalate separator next texts (fun i => gaps (i + 1))
      (fun i _ hi => hbetween (i + 1) (Nat.succ_pos i) (Nat.succ_lt_succ hi)) hlast
    have hfirst : gaps (0 + 1) = separator := hbetween 1 Nat.one_pos (Nat.succ_lt_succ (Nat.succ_pos _))
    rw [respace, hrest, String.intercalate_cons_cons, hfirst, String.append_assoc]

theorem forall_eq_space {text : String} (h : text.toList.all (· == ' ') = true) :
    ∀ c ∈ text.toList, c = ' ' :=
  fun c hc => beq_iff_eq.mp (List.all_eq_true.mp h c hc)

/-- **Pieces joined by spaces** are pieces with gaps. -/
theorem exists_gaps_of_intercalate (texts : List String) :
    ∃ gaps : Nat → String, Apart (fun gap => ∀ c ∈ gap, c = ' ') gaps texts.length ∧
      respace gaps texts = " ".intercalate texts := by
  refine ⟨fun i => if 0 < i ∧ i < texts.length then " " else "", ⟨fun i _ => ?_, fun i h hi => ?_⟩, ?_⟩
  · show ∀ c ∈ (if 0 < i ∧ i < texts.length then " " else "").toList, c = ' '
    split <;> exact forall_eq_space (by decide)
  · show (if 0 < i ∧ i < texts.length then " " else "") ≠ ""
    rw [if_pos ⟨h, hi⟩]
    decide
  · cases texts with
    | nil => rfl
    | cons text texts =>
      rw [respace_eq_intercalate " " text texts]
      · rw [if_neg (fun h => Nat.lt_irrefl 0 h.1), String.empty_append]
      · exact fun i h hi => if_pos ⟨h, hi⟩
      · exact if_neg fun h => Nat.lt_irrefl _ h.2

/-! ## 2.  What a language has to show -/

namespace LexTable

variable {K : Type} {table : LexTable K} {Piece : K → List Char → Prop}

/-- **Gaps that may stand between such pieces**: a piece that is read is also read before a gap, and
gaps are skipped before pieces and before the end.  Behind the gap there are only characters that stood
behind the piece before, and those of gaps. -/
structure Separators (table : LexTable K) (Gap : List Char → Prop) (Piece : K → List Char → Prop) :
    Prop where
  reads {kind : K} {front back gap rest : List Char} (h : table.Reads kind front back)
    (hpiece : Piece kind front) (hgap : Gap gap) (hapart : gap ≠ [] ∨ rest = [])
    (hchars : ∀ c ∈ gap ++ rest, c ∈ back ∨ ∃ gap, Gap gap ∧ c ∈ gap) :
    table.Reads kind front (gap ++ rest)
  skips {kind : K} {front back gap : List Char} (h : table.Reads kind front back)
    (hpiece : Piece kind front) (hgap : Gap gap) : table.Skips gap (front ++ back)
  skips_end {gap : List Char} (hgap : Gap gap) : table.Skips gap []

/-- Tokens that are read off a text are read with other gaps between them. -/
theorem Separators.woven (h : table.Separators Gap Piece) {tokens : List (Token K)}
    {chars : List Char} (hread : table.ReadOff tokens chars) : ∀ gaps : Nat → String,
      Apart Gap gaps tokens.length → (∀ token ∈ tokens, Piece token.kind token.text.toList) →
        table.Woven (tokens.map fun token => (token.kind, token.text))
          (respace gaps (tokens.map Token.text)).toList := by
  induction hread with
  | nil => exact fun gaps hapart _ => .nil _ (h.skips_end (hapart.gap 0 (Nat.le_refl 0)))
  | @cons token tokens gap chars hreads hrest ih =>
    intro gaps hapart hpieces
    obtain ⟨hpiece, hpieces⟩ := List.forall_mem_cons.mp hpieces
    have hgap : ∀ i ≤ tokens.length, Gap (gaps (i + 1)).toList := hapart.tail.gap
    obtain ⟨rest, hsplit, hnil⟩ :=
      exists_toList_respace (fun i => gaps (i + 1)) (tokens.map Token.text)
    have hagain : table.Reads token.kind token.text.toList
        (respace (fun i => gaps (i + 1)) (tokens.map Token.text)).toList := by
      have hmem : ∀ c ∈ (respace (fun i => gaps (i + 1)) (tokens.map Token.text)).toList,
          c ∈ chars ∨ ∃ gap, Gap gap ∧ c ∈ gap := by
        intro c hc
        rcases mem_respace hc with ⟨i, hi, hc⟩ | ⟨text, htext, hc⟩
        · rw [List.length_map] at hi
          exact Or.inr ⟨_, hgap i hi, hc⟩
        · obtain ⟨other, hother, rfl⟩ := List.mem_map.mp htext
          exact Or.inl (hrest.mem_chars other hother c hc)
      rw [hsplit] at hmem ⊢
      refine h.reads hreads hpiece (hgap 0 (Nat.zero_le _)) ?_ hmem
      cases tokens with
      | nil => exact Or.inr (hnil rfl)
      | cons next tokens =>
        have hopen : gaps 1 ≠ "" :=
          hapart.between 1 Nat.one_pos (Nat.succ_lt_succ (Nat.succ_pos _))
        exact Or.inl fun hempty => hopen (String.toList_eq_nil_iff.mp hempty)
    rw [List.map_cons, List.map_cons, respace, String.toList_append, String.toList_append]
    exact .cons _ (h.skips hagain hpiece (hapart.gap 0 (Nat.zero_le _))) hagain
      (ih _ hapart.tail hpieces)

/-- **With other gaps the same tokens are read.** -/
theorem Separators.spellings_respace_eq (h : table.Separators Gap Piece)
    (hlow : ∀ rule ∈ table.rules, rule.matcher.endsLow = true) {source : String} {gaps : Nat → String}
    (hapart : Apart Gap gaps (table.spellings source).length)
    (hpieces : ∀ piece ∈ table.spellings source, Piece piece.1 piece.2.toList) :
    table.spellings (respace gaps ((table.spellings source).map Prod.snd)) =
      table.spellings source := by
  have hread : table.ReadOff (Cursor.start table source).tokens source.toList := by
    rw [Cursor.start, Cursor.tokens_atNext]
    exact table.readOff_collect hlow (Input.ofString source)
  rw [spellings, List.length_map] at hapart
  have htexts : (table.spellings source).map Prod.snd =
      (Cursor.start table source).tokens.map Token.text := List.map_map
  rw [htexts]
  exact (h.woven hread gaps hapart fun token htoken =>
    hpieces _ (List.mem_map_of_mem (f := fun token => (token.kind, token.text)) htoken)).spellings

end LexTable

/-! ## 3.  Rules that have a use for gaps -/

namespace Matcher

/-- A run goes on as far as there are bytes of its class. -/
theorem contains_head_drop_run {cls : ByteClass} (bytes : List UInt8) :
    ∀ b ∈ (bytes.drop ((run cls).consumed bytes)).head?, cls.contains b = false := by
  have hdrop := @List.drop_left _ (bytes.takeWhile cls.contains) (bytes.dropWhile cls.contains)
  rw [List.takeWhile_append_dropWhile] at hdrop
  intro b hb
  have hrest : b ∈ (bytes.dropWhile cls.contains).head? := hdrop ▸ hb
  have hnot := List.head?_dropWhile_not cls.contains bytes
  rw [Option.mem_def.mp hrest] at hnot
  exact hnot

/-- A run that takes nothing does not start. -/
theorem contains_head_of_consumed_run {cls : ByteClass} {bytes : List UInt8}
    (h : (run cls).consumed bytes = 0) : ∀ b ∈ bytes.head?, cls.contains b = false := by
  have hstop := @contains_head_drop_run cls bytes
  rwa [h, List.drop_zero] at hstop

/-- A run that does not start at a piece takes nothing whatever is behind it. -/
theorem consumed_run_append {cls : ByteClass} {front back : List UInt8} (hne : front ≠ [])
    (h : (run cls).consumed (front ++ back) = 0) (back' : List UInt8) :
    (run cls).consumed (front ++ back') = 0 := by
  cases front with
  | nil => exact absurd rfl hne
  | cons b front =>
    have hstart : (run cls).opens b = false := contains_head_of_consumed_run h b rfl
    exact consumed_of_opens hstart _

theorem consumedBetween_of_not_opened {opening closing bytes : List UInt8}
    (h : opening.isPrefixOf bytes = false) : consumedBetween opening closing bytes = 0 := by
  rw [consumedBetween, h, Bool.not_false, Bool.or_true, if_pos rfl]

/-- A text that is not opened is none before other text either. -/
theorem consumedBetween_append_of_not_opened {opening closing front back : List UInt8}
    (h : opening.isPrefixOf (front ++ back) = false) :
    consumedBetween opening closing (front ++ back) = consumedBetween opening closing front := by
  have hfront : opening.isPrefixOf front = false := Bool.eq_false_iff.mpr fun hpre =>
    Bool.eq_false_iff.mp h (List.isPrefixOf_iff_prefix.mpr
      ((List.isPrefixOf_iff_prefix.mp hpre).trans (List.prefix_append _ _)))
  rw [consumedBetween_of_not_opened h, consumedBetween_of_not_opened hfront]

end Matcher

theorem utf8_ne_nil {chars : List Char} (h : chars ≠ []) : utf8 chars ≠ [] := by
  cases chars with
  | nil => exact absurd rfl h
  | cons c chars =>
    rw [utf8_cons]
    exact List.append_ne_nil_of_left_ne_nil String.utf8EncodeChar_ne_nil _

/-- A character with a byte below 128 is this byte. -/
theorem utf8_singleton_of_mem {c : Char} {b : UInt8} (hb : b ∈ utf8 [c]) (hlow : b < 128) :
    utf8 [c] = [b] := by
  rw [utf8_cons, utf8_nil, List.append_nil] at hb ⊢
  by_cases hlt : c.toNat < 128
  · rw [utf8EncodeChar_of_lt hlt] at hb ⊢
    rw [List.mem_singleton.mp hb]
  · exact absurd hlow
      (UInt8.not_lt.mpr (le_of_mem_utf8EncodeChar (Nat.le_of_not_lt hlt) b hb))

/-! ## 4.  The calculator -/

namespace Calc

theorem endsLow : ∀ rule ∈ table.rules, rule.matcher.endsLow = true :=
  List.all_eq_true.mp (by decide)

variable {kind : Kind} {front back gap rest : List Char}

theorem head?_of_spaces (hgap : ∀ c ∈ gap, c = ' ') (hapart : gap ≠ [] ∨ rest = []) :
    ∀ b ∈ (utf8 (gap ++ rest)).head?, b = 32 := by
  intro b hb
  cases gap with
  | nil =>
    rw [hapart.resolve_left (fun h => h rfl)] at hb
    cases hb
  | cons c gap =>
    rw [hgap c List.mem_cons_self] at hb
    cases hb
    rfl

/-- Only the rule of the comments has a use for both bytes that open a comment. -/
theorem not_uses_opening : ∀ rule ∈ table.rules.drop 2,
    (rule.matcher.uses 47 && rule.matcher.uses 42) = false := by
  decide

theorem not_uses_space : ∀ rule ∈ table.rules.drop 2, rule.matcher.uses 32 = false := by
  decide

/-- What opens a comment stands before the gap. -/
theorem exists_of_opening {front back : List UInt8} (hne : front ≠ [])
    (hhead : ∀ b ∈ back.head?, b = 32)
    (h : (utf8 "/*".toList).isPrefixOf (front ++ back) = true) :
    ∃ more, front = 47 :: 42 :: more := by
  cases front with
  | nil => exact absurd rfl hne
  | cons b front =>
    have hboth : (47 == b && List.isPrefixOf [42] (front ++ back)) = true := h
    obtain ⟨hb, hrest⟩ := Bool.and_eq_true_iff.mp hboth
    rw [← beq_iff_eq.mp hb]
    cases front with
    | nil =>
      cases back with
      | nil => cases hrest
      | cons b' back =>
        rw [hhead b' rfl] at hrest
        cases hrest
    | cons b' front =>
      have hstar : (42 == b' && List.isPrefixOf [] (front ++ back)) = true := hrest
      rw [← beq_iff_eq.mp (Bool.and_eq_true_iff.mp hstar).1]
      exact ⟨front, rfl⟩

/-- A piece that opens a comment is a comment. -/
theorem comment_of_opening (h : table.Reads kind front back) {more : List UInt8}
    (hfront : utf8 front = 47 :: 42 :: more) :
    (Matcher.between "/*" "*/").consumed (utf8 front) ≠ 0 := by
  have hslash : (47 : UInt8) ∈ utf8 front := hfront ▸ List.mem_cons_self
  have hstar : (42 : UInt8) ∈ utf8 front := hfront ▸ List.mem_cons_of_mem _ List.mem_cons_self
  cases h with
  | @rule before behind rule kind front back hrules hkind hne hbefore hrule =>
    have huses := rule.matcher.uses_of_consumed hrule (utf8_ne_nil hne)
    have hmem : rule ∈ table.rules := hrules ▸ List.mem_append_right _ List.mem_cons_self
    have hsplit : table.rules = .skip (.run (.ofChar ' ')) ::
        .emit (.between "/*" "*/") .comment :: table.rules.drop 2 := rfl
    rw [hsplit, List.mem_cons, List.mem_cons] at hmem
    rcases hmem with rfl | rfl | hmem
    · cases hkind
    · have hfull : (Matcher.between "/*" "*/").consumed (utf8 front) = (utf8 front).length :=
        (Matcher.consumed_of_le (Nat.le_of_eq hrule)).trans hrule
      rw [hfull, hfront]
      exact Nat.succ_ne_zero _
    · have hnone := not_uses_opening rule hmem
      rw [huses 47 hslash, huses 42 hstar] at hnone
      cases hnone
  | unknown _ =>
    rw [utf8_singleton_of_mem hslash (by decide)] at hfront
    cases hfront

/-- Spaces are skipped, if no space comes next. -/
theorem skips_of_spaces (hgap : ∀ c ∈ gap, c = ' ') (hend : ∀ b ∈ (utf8 back).head?, b ≠ 32) :
    table.Skips gap back := by
  rw [List.eq_replicate_of_mem hgap]
  intro input hchars
  cases hlength : gap.length with
  | zero =>
    rw [hlength] at hchars
    exact ⟨input, rfl, hchars⟩
  | succ n =>
    rw [hlength] at hchars
    obtain ⟨rest, text, hfirst, hrest⟩ := first?_spaces hchars hend
    have hne : input.chars ≠ [] := by
      rw [hchars, List.replicate_succ, List.cons_append]
      exact List.cons_ne_nil _ _
    exact ⟨rest, LexTable.next_of_skip hne hfirst, hrest⟩

/-- **Spaces may stand between all tokens of the calculator.** -/
theorem separators : table.Separators (fun gap => ∀ c ∈ gap, c = ' ') fun _ _ => True where
  reads {kind front back gap rest} h _ hgap hapart _ := by
    have hhead := head?_of_spaces hgap hapart
    have hblank := h.consumed_eq_zero (table.rules.take 1) rfl (by decide)
      (.skip (.run (.ofChar ' '))) List.mem_cons_self
    have hne := utf8_ne_nil h.ne_nil
    have hcomment : (Matcher.between "/*" "*/").consumed (utf8 front ++ utf8 (gap ++ rest)) =
        (Matcher.between "/*" "*/").consumed (utf8 front) := by
      by_cases hopening : (utf8 "/*".toList).isPrefixOf (utf8 front ++ utf8 (gap ++ rest)) = true
      · obtain ⟨more, hmore⟩ := exists_of_opening hne hhead hopening
        exact (Matcher.consumedBetween_append _ _ _ _).resolve_right fun hnone =>
          comment_of_opening h hmore hnone.2
      · exact Matcher.consumedBetween_append_of_not_opened (Bool.eq_false_iff.mpr hopening)
    refine h.of_consumed fun r hr => ?_
    have hsplit : table.rules = .skip (.run (.ofChar ' ')) ::
        .emit (.between "/*" "*/") .comment :: table.rules.drop 2 := rfl
    rw [hsplit, List.mem_cons, List.mem_cons] at hr
    rcases hr with rfl | rfl | hr
    · have hzero := Matcher.consumed_run_append hne hblank
      have hfront := hzero []
      rw [List.append_nil] at hfront
      exact (hzero _).trans hfront.symm
    · exact hcomment
    · refine Matcher.consumed_append_of_uses fun b hb => ?_
      rw [hhead b hb]
      exact not_uses_space r hr
  skips {kind front back gap} h _ hgap := by
    have hblank := h.consumed_eq_zero (table.rules.take 1) rfl (by decide)
      (.skip (.run (.ofChar ' '))) List.mem_cons_self
    rw [← utf8_append] at hblank
    refine skips_of_spaces hgap fun b hb hspace => ?_
    have hstart := Matcher.contains_head_of_consumed_run hblank b hb
    rw [hspace] at hstart
    cases hstart
  skips_end hgap := skips_of_spaces hgap fun b hb => by cases hb

end Calc

/-! ## 5.  Pascal -/

/-- There is no byte to be found. -/
theorem firstOccurrence?_singleton_eq_none {p : UInt8} {bytes : List UInt8} (h : p ∉ bytes) :
    ∀ skipped, firstOccurrence? [p] bytes skipped = none := by
  induction bytes with
  | nil => exact fun _ => rfl
  | cons b bytes ih =>
    obtain ⟨hne, hbytes⟩ := List.ne_and_not_mem_of_not_mem_cons h
    intro skipped
    rw [firstOccurrence?, if_neg (by simp [hne]), ih hbytes]

namespace Pascal

theorem endsLow : ∀ rule ∈ table.rules, rule.matcher.endsLow = true :=
  List.all_eq_true.mp (by decide)

theorem not_uses_gap : ∀ rule ∈ table.rules.drop 2, ∀ b ∈ ([9, 10, 13, 32, 123] : List UInt8),
    rule.matcher.uses b = false := by
  have hall : ((table.rules.drop 2).all fun rule => ([9, 10, 13, 32, 123] : List UInt8).all
      fun b => !rule.matcher.uses b) = true := by decide
  intro rule hrule b hb
  have huses := List.all_eq_true.mp (List.all_eq_true.mp hall rule hrule) b hb
  rwa [Bool.not_eq_true'] at huses

variable {kind : Kind} {front back gap rest : List Char}

/-- The rules for blanks and comments take nothing off a piece. -/
theorem consumed_gap_rules (h : table.Reads kind front back) :
    (Matcher.run (.either .blank .newline)).consumed (utf8 front ++ utf8 back) = 0 ∧
      (Matcher.between "\x7b" "\x7d").consumed (utf8 front ++ utf8 back) = 0 := by
  have hzero := h.consumed_eq_zero (table.rules.take 2) rfl (by decide)
  exact ⟨hzero (.skip (.run (.either .blank .newline))) List.mem_cons_self,
    hzero (.skip (.between "\x7b" "\x7d")) (List.mem_cons_of_mem _ List.mem_cons_self)⟩

/-- A piece that starts with a brace is a brace that opens no comment. -/
theorem eq_brace_of_opening (h : table.Reads kind front back) {more : List UInt8}
    (hfront : utf8 front = 123 :: more) : kind = .unknown ∧ front = ['\x7b'] := by
  have hbrace : (123 : UInt8) ∈ utf8 front := hfront ▸ List.mem_cons_self
  cases h with
  | @rule before behind rule kind front back hrules hkind hne hbefore hrule =>
    have huses := rule.matcher.uses_of_consumed hrule (utf8_ne_nil hne) 123 hbrace
    have hmem : rule ∈ table.rules := hrules ▸ List.mem_append_right _ List.mem_cons_self
    have hsplit : table.rules = .skip (.run (.either .blank .newline)) ::
        .skip (.between "\x7b" "\x7d") :: table.rules.drop 2 := rfl
    rw [hsplit, List.mem_cons, List.mem_cons] at hmem
    rcases hmem with rfl | rfl | hmem
    · cases hkind
    · cases hkind
    · rw [not_uses_gap rule hmem 123 (by decide)] at huses
      cases huses
  | unknown _ =>
    exact ⟨rfl, eq_of_utf8_eq (by decide) (utf8_singleton_of_mem hbrace (by decide))⟩

/-- Behind a brace that opens no comment no brace is closed. -/
theorem not_mem_of_reads_brace (h : table.Reads .unknown ['\x7b'] back) : '\x7d' ∉ back := by
  intro hmem
  obtain ⟨body, behind, hback, hbody⟩ := List.eq_append_cons_of_mem hmem
  have hbytes : utf8 back = utf8 body ++ 125 :: utf8 behind := by
    rw [hback, utf8_append, utf8_cons]
    rfl
  have hzero : Matcher.consumedBetween [123] [125] (123 :: utf8 back) = 0 := (consumed_gap_rules h).2
  have hfind : firstOccurrence? [125] ((123 :: utf8 back).drop ([123] : List UInt8).length) 0 = _ :=
    hbytes ▸ firstOccurrence?_singleton (not_mem_utf8_of_not_mem hbody) (utf8 behind) 0
  rw [Matcher.consumedBetween, if_neg (by simp), hfind] at hzero
  cases hzero

/-- A brace is no comment before a text without a closing one. -/
theorem consumedBetween_unclosed {bytes : List UInt8} (h : 125 ∉ bytes) :
    Matcher.consumedBetween [123] [125] (123 :: bytes) = 0 := by
  have hfind : firstOccurrence? [125] ((123 :: bytes).drop ([123] : List UInt8).length) 0 = none :=
    firstOccurrence?_singleton_eq_none h 0
  rw [Matcher.consumedBetween, if_neg (by simp), hfind]

/-- **A piece is read before any gap**, unless it is a brace and there is one to close it. -/
theorem reads_before_gap {back' : List Char} (h : table.Reads kind front back)
    (hhead : Separated (utf8 back'))
    (hbrace : kind = .unknown → front = ['\x7b'] → '\x7d' ∉ back') :
    table.Reads kind front back' := by
  have hne := utf8_ne_nil h.ne_nil
  have hcomment : (Matcher.between "\x7b" "\x7d").consumed (utf8 front ++ utf8 back') =
      (Matcher.between "\x7b" "\x7d").consumed (utf8 front) := by
    by_cases hopening : (utf8 "\x7b".toList).isPrefixOf (utf8 front ++ utf8 back') = true
    · obtain ⟨more, hmore⟩ : ∃ more, utf8 front = 123 :: more := by
        cases hfront : utf8 front with
        | nil => exact absurd hfront hne
        | cons b more =>
          rw [hfront] at hopening
          have hfirst : (123 == b && List.isPrefixOf [] (more ++ utf8 back')) = true := hopening
          rw [← beq_iff_eq.mp (Bool.and_eq_true_iff.mp hfirst).1]
          exact ⟨more, rfl⟩
      obtain ⟨hkind, hfront⟩ := eq_brace_of_opening h hmore
      have hclosed := not_mem_utf8_of_not_mem (hbrace hkind hfront)
      rw [hfront]
      exact (consumedBetween_unclosed hclosed).trans
        (consumedBetween_unclosed List.not_mem_nil).symm
    · exact Matcher.consumedBetween_append_of_not_opened (Bool.eq_false_iff.mpr hopening)
  refine h.of_consumed fun r hr => ?_
  have hsplit : table.rules = .skip (.run (.either .blank .newline)) ::
      .skip (.between "\x7b" "\x7d") :: table.rules.drop 2 := rfl
  rw [hsplit, List.mem_cons, List.mem_cons] at hr
  rcases hr with rfl | rfl | hr
  · have hzero := Matcher.consumed_run_append hne (consumed_gap_rules h).1
    have hfront := hzero []
    rw [List.append_nil] at hfront
    exact (hzero _).trans hfront.symm
  · exact hcomment
  · exact Matcher.consumed_append_of_uses fun b hb => not_uses_gap r hr b (hhead b hb)

theorem separated_of_gaps (hgap : Gaps gap) (hapart : gap ≠ [] ∨ rest = []) :
    Separated (utf8 (gap ++ rest)) := by
  cases hgap with
  | nil =>
    rw [hapart.resolve_left (fun h => h rfl)]
    exact fun b hb => by cases hb
  | cons hfirst _ =>
    rw [List.append_assoc]
    exact hfirst.separated _

theorem gaps_of_blanks (hgap : ∀ c ∈ gap, isBlank c = true) : Gaps gap := by
  induction gap with
  | nil => exact .nil
  | cons c gap ih =>
    obtain ⟨hc, hgap⟩ := List.forall_mem_cons.mp hgap
    exact .cons (.blank hc) (ih hgap)

/-- **Blanks and comments may stand between all tokens** but braces that open no comment. -/
theorem separators_gaps :
    table.Separators Gaps fun kind front => ¬ (kind = .unknown ∧ front = ['\x7b']) where
  reads h hpiece hgap hapart _ :=
    reads_before_gap h (separated_of_gaps hgap hapart) fun hkind hfront =>
      absurd ⟨hkind, hfront⟩ hpiece
  skips {kind front back gap} h hpiece hgap input hchars := by
    refine next_gaps hgap hchars fun b hb hmem => ?_
    have hblank := (consumed_gap_rules h).1
    rw [← utf8_append] at hblank
    have hstart := Matcher.contains_head_of_consumed_run hblank b hb
    simp only [List.mem_cons, List.not_mem_nil, or_false] at hmem
    rcases hmem with rfl | rfl | rfl | rfl | rfl
    · cases hstart
    · cases hstart
    · cases hstart
    · cases hstart
    · rw [utf8_append, List.head?_append_of_ne_nil _ (utf8_ne_nil h.ne_nil)] at hb
      obtain ⟨more, hmore⟩ := List.head?_eq_some_iff.mp hb
      exact hpiece (eq_brace_of_opening h hmore)
  skips_end hgap input hchars := next_gaps hgap hchars fun b hb => by cases hb

/-- Blanks are skipped, if no blank comes next. -/
theorem skips_of_blanks (hgap : ∀ c ∈ gap, isBlank c = true)
    (hend : ∀ b ∈ (utf8 back).head?, (ByteClass.either .blank .newline).contains b = false) :
    table.Skips gap back := by
  intro input hchars
  by_cases hnil : gap = []
  · rw [hnil] at hchars
    exact ⟨input, rfl, hchars⟩
  · obtain ⟨rest, text, hfirst, hrest⟩ := first?_blanks hchars hnil hgap hend
    have hne : input.chars ≠ [] := by
      rw [hchars]
      exact List.append_ne_nil_of_left_ne_nil hnil _
    exact ⟨rest, LexTable.next_of_skip hne hfirst, hrest⟩

/-- **Blanks may stand between all tokens.** -/
theorem separators_blanks :
    table.Separators (fun gap => ∀ c ∈ gap, isBlank c = true) fun _ _ => True where
  reads {kind front back gap rest} h _ hgap hapart hchars := by
    refine reads_before_gap h (separated_of_gaps (gaps_of_blanks hgap) hapart) ?_
    rintro rfl rfl hmem
    rcases hchars _ hmem with hback | ⟨gap, hgap, hmem⟩
    · exact not_mem_of_reads_brace h hback
    · have hblank := hgap _ hmem
      revert hblank
      decide
  skips {kind front back gap} h _ hgap := by
    have hblank := (consumed_gap_rules h).1
    rw [← utf8_append] at hblank
    exact skips_of_blanks hgap (Matcher.contains_head_of_consumed_run hblank)
  skips_end hgap := skips_of_blanks hgap fun b hb => by cases hb

end Pascal

/-! ## 6.  Both languages -/

/-- **The gaps between tokens do not count**: the texts of the tokens of any source, written once more
with other gaps, are read as these tokens again.  For the calculator the gaps are spaces; for Pascal
they are blanks and line ends, and also comments, unless a brace is a token.  In particular the texts
may be joined by single spaces. -/
theorem spellings_respace (source : String) :
    (∀ gaps, Apart (fun gap => ∀ c ∈ gap, c = ' ') gaps (Calc.table.spellings source).length →
      Calc.table.spellings (respace gaps ((Calc.table.spellings source).map Prod.snd)) =
        Calc.table.spellings source) ∧
    Calc.table.spellings (" ".intercalate ((Calc.table.spellings source).map Prod.snd)) =
      Calc.table.spellings source ∧
    (∀ gaps, Apart (fun gap => ∀ c ∈ gap, Pascal.isBlank c = true) gaps
        (Pascal.table.spellings source).length →
      Pascal.table.spellings (respace gaps ((Pascal.table.spellings source).map Prod.snd)) =
        Pascal.table.spellings source) ∧
    (∀ gaps, Apart Pascal.Gaps gaps (Pascal.table.spellings source).length →
      (.unknown, "\x7b") ∉ Pascal.table.spellings source →
      Pascal.table.spellings (respace gaps ((Pascal.table.spellings source).map Prod.snd)) =
        Pascal.table.spellings source) ∧
    Pascal.table.spellings (" ".intercalate ((Pascal.table.spellings source).map Prod.snd)) =
      Pascal.table.spellings source := by
  have hcalc : ∀ gaps,
      Apart (fun gap => ∀ c ∈ gap, c = ' ') gaps (Calc.table.spellings source).length →
      Calc.table.spellings (respace gaps ((Calc.table.spellings source).map Prod.snd)) =
        Calc.table.spellings source := fun gaps hapart =>
    Calc.separators.spellings_respace_eq Calc.endsLow hapart fun _ _ => trivial
  have hblanks : ∀ gaps,
      Apart (fun gap => ∀ c ∈ gap, Pascal.isBlank c = true) gaps
        (Pascal.table.spellings source).length →
      Pascal.table.spellings (respace gaps ((Pascal.table.spellings source).map Prod.snd)) =
        Pascal.table.spellings source := fun gaps hapart =>
    Pascal.separators_blanks.spellings_respace_eq Pascal.endsLow hapart fun _ _ => trivial
  refine ⟨hcalc, ?_, hblanks, fun gaps hapart hbrace => ?_, ?_⟩
  · obtain ⟨gaps, hapart, heq⟩ :=
      exists_gaps_of_intercalate ((Calc.table.spellings source).map Prod.snd)
    rw [List.length_map] at hapart
    rw [← heq]
    exact hcalc gaps hapart
  · refine Pascal.separators_gaps.spellings_respace_eq Pascal.endsLow hapart ?_
    rintro ⟨kind, text⟩ hmem ⟨rfl, htext⟩
    rw [← String.ofList_toList (s := text), htext] at hmem
    exact hbrace hmem
  · obtain ⟨gaps, hapart, heq⟩ :=
      exists_gaps_of_intercalate ((Pascal.table.spellings source).map Prod.snd)
    rw [List.length_map] at hapart
    rw [← heq]
    exact hblanks gaps (hapart.mono fun gap hgap c hc => by rw [hgap c hc]; rfl)

theorem Calc.spellings_star_slash : table.spellings "*/2" =
    [(.multiply, "*"), (.divide, "/"), (.integer, "2")] := by
  refine LexTable.Woven.spellings
    (.cons [] (LexTable.skips_nil _)
      (.rule (table.rules.take 7) (table.rules.drop 8) rfl rfl ?_ ?_ ?_)
    (.cons [] (LexTable.skips_nil _)
      (.rule (table.rules.take 8) (table.rules.drop 9) rfl rfl ?_ ?_ ?_)
    (.cons [] (LexTable.skips_nil _)
      (.rule (table.rules.take 9) [] rfl rfl ?_ ?_ ?_)
    (.nil [] (LexTable.skips_nil _)))))
  all_goals decide

theorem Pascal.spellings_brace_end_name : table.spellings "\x7dENDx" =
    [(.unknown, "\x7d"), (.end, "END"), (.id, "x")] := by
  refine LexTable.Woven.spellings
    (.cons [] (LexTable.skips_nil _) (.unknown (c := '\x7d') ?_)
    (.cons [] (LexTable.skips_nil _)
      (.rule (table.rules.take 19) (table.rules.drop 20) rfl rfl ?_ ?_ ?_)
    (.cons [] (LexTable.skips_nil _)
      (.rule (table.rules.take 23) [] rfl rfl ?_ ?_ ?_)
    (.nil [] (LexTable.skips_nil _)))))
  all_goals decide

/-- Tokens that touched, some of them where no token belongs, with spaces, line ends and comments
between them. -/
theorem spellings_respace_touching :
    Calc.table.spellings (respace (fun _ => "  ") ["*", "/", "2"]) =
      [(.multiply, "*"), (.divide, "/"), (.integer, "2")] ∧
    Pascal.table.spellings (respace (fun _ => "\t\n") ["\x7d", "END", "x"]) =
      [(.unknown, "\x7d"), (.end, "END"), (.id, "x")] ∧
    Pascal.table.spellings (respace (fun _ => "\x7b*\x7d") ["\x7d", "END", "x"]) =
      [(.unknown, "\x7d"), (.end, "END"), (.id, "x")] := by
  have hcalc := spellings_respace "*/2"
  have hpascal := spellings_respace "\x7dENDx"
  rw [Calc.spellings_star_slash] at hcalc
  rw [Pascal.spellings_brace_end_name] at hpascal
  refine ⟨hcalc.1 _ ⟨fun _ _ => forall_eq_space (by decide), fun _ _ _ => by decide⟩,
    hpascal.2.2.1 _ ⟨fun _ _ => List.all_eq_true.mp (by decide), fun _ _ _ => by decide⟩,
    hpascal.2.2.2.1 _ ⟨fun _ _ => ?_, fun _ _ _ => by decide⟩ (by decide)⟩
  have hcomment : Pascal.Gap ('\x7b' :: (['*'] ++ ['\x7d'])) := .comment (by decide)
  exact .cons hcomment .nil

end GrammarKit
