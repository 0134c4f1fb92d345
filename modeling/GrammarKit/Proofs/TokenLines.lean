import GrammarKit.Language
import GrammarKit.Proofs.Pascal.Classification

/-!
# Tokens on lines

The tokens of a text are listed with a line feed behind each of them.  Split at the line feeds, the list
gives the tokens back, as long as no token has a line feed of its own.

In Pascal none has.  A line feed is skipped, alone or within a comment, and no rule that makes tokens
has a use for one.  The calculator skips spaces and nothing else.  So each line feed of its text is
part of a token, of a comment or of a token of its own.  It is listed as it is, and there are as many
lines too many as there are line feeds in the text.

* `splitLines`: a text cut at its line feeds.
* `splitLines_join_iff`: when entries are found again on lines of their own.
* `LexTable.Tiles.count_join_weave`: what is never dropped is counted in the tokens.
* `Language.tokenLines_iff`: when the tokens of a text are found again.
-/

namespace GrammarKit

/-! ## 1.  Lines -/

/-- The pieces of a text before each line feed, and the piece behind the last. -/
def splitLines (text : String) : List String := (text.toList.splitOn '\n').map String.ofList

theorem length_splitOn {α : Type} [BEq α] (a : α) : ∀ items : List α,
    (items.splitOn a).length = items.count a + 1
  | [] => by rw [List.splitOn_nil, List.count_nil, List.length_singleton]
  | item :: items => by
    rw [List.splitOn_cons_eq_if_modifyHead, List.count_cons]
    split
    · rw [List.length_cons, length_splitOn]
    · rw [List.length_modifyHead, length_splitOn, Nat.add_zero]

theorem length_splitLines (text : String) :
    (splitLines text).length = text.toList.count '\n' + 1 := by
  rw [splitLines, List.length_map, length_splitOn]

/-- Entries with a line feed behind each of them have these, and their own. -/
theorem count_join (entries : List String) :
    (String.join (entries.map (· ++ "\n"))).toList.count '\n' =
      entries.length + (entries.map fun entry => entry.toList.count '\n').sum := by
  induction entries with
  | nil => rfl
  | cons entry entries ih =>
    have hfeed : "\n".toList.count '\n' = 1 := by decide
    rw [List.map_cons, String.join_cons, String.toList_append, String.toList_append,
      List.count_append, List.count_append, ih, hfeed, List.map_cons, List.sum_cons, List.length_cons]
    omega

theorem splitLines_join {entries : List String} (h : ∀ entry ∈ entries, '\n' ∉ entry.toList) :
    splitLines (String.join (entries.map (· ++ "\n"))) = entries ++ [""] := by
  induction entries with
  | nil => rfl
  | cons entry entries ih =>
    obtain ⟨hentry, hentries⟩ := List.forall_mem_cons.mp h
    have hsplit : (String.join ((entry :: entries).map (· ++ "\n"))).toList =
        entry.toList ++ '\n' :: (String.join (entries.map (· ++ "\n"))).toList := by
      rw [List.map_cons, String.join_cons, String.toList_append, String.toList_append,
        List.append_assoc]
      rfl
    rw [splitLines, hsplit, List.splitOn_append_cons_self_of_not_mem hentry, List.map_cons,
      String.ofList_toList, List.cons_append]
    exact congrArg (entry :: ·) (ih hentries)

/-- **Entries are found again on lines of their own** if and only if none of them has a line feed. -/
theorem splitLines_join_iff (entries : List String) :
    splitLines (String.join (entries.map (· ++ "\n"))) = entries ++ [""] ↔
      (entries.map fun entry => entry.toList.count '\n').sum = 0 := by
  constructor
  · intro h
    have hlength := congrArg List.length h
    rw [length_splitLines, count_join, List.length_append, List.length_singleton] at hlength
    omega
  · intro h
    refine splitLines_join fun entry hentry => List.count_eq_zero.mp ?_
    exact List.sum_eq_zero_iff_forall_eq_nat.mp h _ (List.mem_map_of_mem hentry)

/-! ## 2.  Tokens as they are shown -/

variable {K : Type}

/-- A token is shown with the line feeds of its text, if the name of its kind has none. -/
theorem Token.count_label [TokenKind K] (token : Token K)
    (hname : '\n' ∉ (TokenKind.name token.kind).toList) :
    token.label.toList.count '\n' = token.text.toList.count '\n' := by
  have hzero := List.count_eq_zero.mpr hname
  have hopening : "Token(".toList.count '\n' = 0 := by decide
  have hcomma : ", ".toList.count '\n' = 0 := by decide
  have hclosing : ")".toList.count '\n' = 0 := by decide
  unfold label
  split
  · next hempty =>
    rw [String.isEmpty_iff.mp hempty]
    simp only [String.toList_append, List.count_append, hzero, hopening, hclosing]
    rfl
  · simp only [String.toList_append, List.count_append, hzero, hopening, hcomma, hclosing,
      Nat.zero_add, Nat.add_zero]

variable {table : LexTable K} {text : String}

/-- **What is never dropped is counted in the tokens.** -/
theorem LexTable.Tiles.count_join_weave {c : Char}
    (hdrop : ∀ front piece back : String, text = front ++ (piece ++ back) →
      table.Takes text front.utf8ByteSize none piece → c ∉ piece.toList)
    {start : Nat} {gaps : List (List String)} {tokens : List (Token K)}
    (h : table.Tiles text start gaps tokens) :
    (String.join (weave gaps tokens)).toList.count c =
      (tokens.map fun token => token.text.toList.count c).sum := by
  have hgap : ∀ {pieces : List String} {start stop : Nat}, table.Drops text start pieces stop →
      (String.join pieces).toList.count c = 0 := by
    intro pieces
    induction pieces with
    | nil => exact fun _ => rfl
    | cons piece pieces ih =>
      rintro start stop ⟨-, ⟨front, back, htext, rfl⟩, htakes, hrest⟩
      rw [String.append_assoc] at htext
      rw [String.join_cons, String.toList_append, List.count_append, ih hrest,
        List.count_eq_zero.mpr (hdrop front piece back htext htakes)]
  induction h with
  | @finish start gap hdrops =>
    have hweave : weave [gap] ([] : List (Token K)) = gap := List.flatten_singleton
    rw [hweave, hgap hdrops]
    rfl
  | token hdrops _ _ _ _ ih =>
    rw [weave, String.join_append, String.join_cons, String.toList_append, String.toList_append,
      List.count_append, List.count_append, hgap hdrops, ih, List.map_cons, List.sum_cons, Nat.zero_add]

/-! ## 3.  The two languages -/

theorem Calc.Kind.not_mem_name (kind : Calc.Kind) : '\n' ∉ kind.name.toList := by
  cases kind <;> decide

theorem Pascal.Kind.not_mem_name (kind : Pascal.Kind) : '\n' ∉ kind.name.toList := by
  cases kind <;> decide

/-- A matcher that takes a line feed has a use for it. -/
theorem Matcher.uses_lineFeed {m : Matcher} {front back : List Char}
    (h : m.consumed (utf8 front ++ utf8 back) = (utf8 front).length) (hmem : '\n' ∈ front) :
    m.uses 10 = true := by
  have hbyte : (10 : UInt8) ∈ utf8 front := List.mem_flatMap.mpr ⟨'\n', hmem, by decide⟩
  exact uses_of_consumed h (List.ne_nil_of_mem hbyte) 10 hbyte

/-- The tokens of the calculator have all the line feeds of the text. -/
theorem Calc.count_tokens (source : String) :
    ((Cursor.start Calc.table source).tokens.map fun token => token.text.toList.count '\n').sum =
      source.toList.count '\n' := by
  obtain ⟨-, -, -, gaps, htiles, hjoin⟩ := tokens_tile Calc.table source
  rw [← htiles.count_join_weave, hjoin]
  intro front piece back hsource htakes hmem
  rw [hsource] at htakes
  obtain ⟨before, rule, behind, hrules, hkind, -, hconsumed⟩ := htakes.exists_rule Calc.endsLow
  have hskip : ∀ rule ∈ Calc.table.rules, rule.kind? = none → rule.matcher.uses 10 = false := by decide
  have hnot := hskip rule (hrules ▸ List.mem_append_right _ List.mem_cons_self) hkind
  rw [Matcher.uses_lineFeed hconsumed hmem] at hnot
  cases hnot

/-- No token of Pascal has a line feed. -/
theorem Pascal.not_mem_text (source : String) :
    ∀ token ∈ (Cursor.start Pascal.table source).tokens, '\n' ∉ token.text.toList := by
  intro token htoken hmem
  obtain ⟨front, back, -, -, hreads, -⟩ := Pascal.exists_settled source token htoken
  by_cases hkind : token.kind = .unknown
  · rw [hkind] at hreads
    obtain ⟨c, hc, -, hplain, -⟩ := Pascal.exists_char_of_unknown hreads
    rw [hc, List.mem_singleton] at hmem
    exact hplain (hmem ▸ by decide)
  · obtain ⟨rule, hrule, hrulekind, hconsumed, -⟩ := hreads.exists_rule hkind
    have hmake : ∀ rule ∈ Pascal.table.rules, rule.kind? = none ∨ rule.matcher.uses 10 = false := by
      decide
    rcases hmake rule hrule with hnone | hnot
    · rw [hrulekind] at hnone
      cases hnone
    · rw [Matcher.uses_lineFeed hconsumed hmem] at hnot
      cases hnot

namespace Language

/-- The line feeds of a text that its tokens have. -/
def lineFeedsInTokens : Language → String → Nat
  | .calc, source => source.toList.count '\n'
  | .pascal, _ => 0

theorem sum_count_tokens (lang : Language) (source : String) :
    ((lang.tokens source).map fun entry => entry.toList.count '\n').sum =
      lang.lineFeedsInTokens source := by
  cases lang with
  | «calc» =>
    rw [tokens, List.map_map, lineFeedsInTokens, ← Calc.count_tokens]
    exact congrArg List.sum (List.map_congr_left fun token _ =>
      token.count_label (Calc.Kind.not_mem_name token.kind))
  | pascal =>
    rw [tokens, List.map_map, lineFeedsInTokens]
    refine List.sum_eq_zero_iff_forall_eq_nat.mpr (List.forall_mem_map.mpr fun token htoken => ?_)
    exact (token.count_label (Pascal.Kind.not_mem_name token.kind)).trans
      (List.count_eq_zero.mpr (Pascal.not_mem_text source token htoken))

/-- **Tokens on lines.**  The tokens of a text are listed with a line feed behind each.  In Pascal the
list, split at its line feeds, is the tokens again, and nothing behind the last line feed.  In the
calculator it is, unless there is a line feed in the text; in general there is one line too many for
each of these. -/
theorem tokenLines_iff (lang : Language) (source : String) :
    lang.tokenLines source = String.join ((lang.tokens source).map (· ++ "\n")) ∧
      (splitLines (lang.tokenLines source) = lang.tokens source ++ [""] ↔
        lang = .pascal ∨ '\n' ∉ source.toList) ∧
      (splitLines (lang.tokenLines source)).length =
        (lang.tokens source).length + lang.lineFeedsInTokens source + 1 := by
  refine ⟨rfl, ?_, ?_⟩
  · rw [tokenLines, splitLines_join_iff, sum_count_tokens]
    cases lang with
    | «calc» => rw [lineFeedsInTokens, List.count_eq_zero, or_iff_right (by decide)]
    | pascal => exact iff_of_true rfl (Or.inl rfl)
  · rw [length_splitLines, tokenLines, count_join, sum_count_tokens]

/-- A comment of the calculator that goes over two lines is one token, and is listed on two lines. -/
theorem tokenLines_comment :
    Language.calc.tokens "/*a\nb*/1" = ["Token(COMMENT, /*a\nb*/)", "Token(INTEGER, 1)"] ∧
      splitLines (Language.calc.tokenLines "/*a\nb*/1") =
        ["Token(COMMENT, /*a", "b*/)", "Token(INTEGER, 1)", ""] ∧
      splitLines (Language.calc.tokenLines "/*a\nb*/1") ≠
        Language.calc.tokens "/*a\nb*/1" ++ [""] := by
  refine ⟨?_, ?_, ?_⟩ <;> decide +kernel

end Language

end GrammarKit
