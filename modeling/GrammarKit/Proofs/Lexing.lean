import GrammarKit.Lexer.Cursor

/-!
# Reading one token

What a lexical table reads off a text is settled by bytes, and a statement about a text is one about
characters.  So a rule is described by the characters that it takes: their bytes are as many as the
rule counts.

* `Input.exists_take?`: whole characters can be read.
* `Matcher.opens`: the bytes that a matcher may start with.
* `LexTable.first?_of_split`: the rules before the one that applies take nothing.
* `LexTable.next_of_emit`, `next_of_skip`: what comes of the rule that applies.
-/

namespace GrammarKit

theorem splitBytes?_append (read front back : List Char) :
    splitBytes? read (front ++ back) (utf8 front).length = some (read.reverse ++ front, back) := by
  induction front generalizing read with
  | nil =>
    cases back <;> simp [splitBytes?]
  | cons c front ih =>
    have hpos := c.utf8Size_pos
    rw [utf8_cons, List.length_append, String.length_utf8EncodeChar, List.cons_append]
    obtain ⟨n, hn⟩ : ∃ n, c.utf8Size + (utf8 front).length = n + 1 :=
      ⟨c.utf8Size + (utf8 front).length - 1, by omega⟩
    rw [hn, splitBytes?, if_pos (by omega)]
    have hrest : n + 1 - c.utf8Size = (utf8 front).length := by omega
    rw [hrest, ih]
    simp

/-- Whole characters can be read off an input that starts with them. -/
theorem Input.exists_take? {input : Input} {front back : List Char}
    (h : input.chars = front ++ back) :
    ∃ rest, input.take? (utf8 front).length = some (String.ofList front, rest) ∧
      rest.chars = back := by
  have hsplit : splitBytes? [] input.chars (utf8 front).length = some (front, back) := by
    rw [h, splitBytes?_append]
    rfl
  unfold take?
  split
  · next hnone =>
    rw [hsplit] at hnone
    cases hnone
  · next front' back' hsome =>
    rw [hsplit] at hsome
    cases hsome
    exact ⟨_, rfl, rfl⟩

namespace Matcher

mutual

/-- The matcher may take something that starts with this byte. -/
def opens : Matcher → UInt8 → Bool
  | .char cls, b => cls.contains b
  | .run cls, b => cls.contains b
  | .literal text ignoreCase, b =>
    match text with
    | [] => false
    | first :: _ => if ignoreCase then foldCase first == foldCase b else first == b
  | .delimited opening _, b => opening.head? == some b
  | .sequence steps, b => opensFirst steps b

/-- The first of the steps may take something that starts with this byte. -/
def opensFirst : List Matcher → UInt8 → Bool
  | [], _ => false
  | step :: _, b => step.opens b

end

mutual

/-- A matcher takes nothing where it may not start. -/
theorem consumed_of_opens : ∀ {m : Matcher} {b : UInt8}, m.opens b = false →
    ∀ bytes : List UInt8, m.consumed (b :: bytes) = 0
  | .char cls, b, h, bytes => by
    have hb : cls.contains b = false := h
    rw [consumed]
    simp only [hb]
    rfl
  | .run cls, b, h, bytes => by
    have hb : cls.contains b = false := h
    rw [consumed, List.takeWhile_cons, hb]
    rfl
  | .literal [] ignoreCase, b, _, bytes => by
    rw [consumed]
    exact ite_self 0
  | .literal (first :: text) ignoreCase, b, h, bytes => by
    have hstarts : startsWith (first :: text) ignoreCase (b :: bytes) = false := by
      cases ignoreCase with
      | false =>
        have hb : (first == b) = false := h
        show (first == b && text.isPrefixOf bytes) = false
        rw [hb, Bool.false_and]
      | true =>
        have hb : (foldCase first == foldCase b) = false := h
        show (foldCase first == foldCase b && _) = false
        rw [hb, Bool.false_and]
    rw [consumed, hstarts]
    rfl
  | .delimited opening closing, b, h, bytes => by
    have hopening : (opening.isEmpty || !opening.isPrefixOf (b :: bytes)) = true := by
      cases opening with
      | nil => rfl
      | cons first opening =>
        have hb : (some first == some b) = false := h
        have hne : (first == b) = false := beq_eq_false_iff_ne.mpr fun heq =>
          beq_eq_false_iff_ne.mp hb (congrArg some heq)
        show (false || !(first == b && opening.isPrefixOf bytes)) = true
        rw [hne]
        rfl
    rw [consumed, consumedBetween, if_pos hopening]
  | .sequence steps, b, h, bytes => by
    rw [consumed]
    exact consumedByAll_of_opensFirst h bytes

/-- Nor do several matchers in turn. -/
theorem consumedByAll_of_opensFirst : ∀ {steps : List Matcher} {b : UInt8},
    opensFirst steps b = false → ∀ bytes : List UInt8, (consumedByAll steps (b :: bytes)).getD 0 = 0
  | [], _, _, _ => rfl
  | step :: steps, b, h, bytes => by
    have hstep : step.consumed (b :: bytes) = 0 := consumed_of_opens h bytes
    rw [consumedByAll, hstep]
    rfl

end

/-- A step that takes just this, and the steps behind it. -/
theorem consumedByAll_cons {step : Matcher} {front bytes : List UInt8}
    (h : step.consumed (front ++ bytes) = front.length) (hne : front ≠ []) (steps : List Matcher) :
    consumedByAll (step :: steps) (front ++ bytes) =
      (consumedByAll steps bytes).map (front.length + ·) := by
  obtain ⟨n, hn⟩ : ∃ n, front.length = n + 1 :=
    Nat.exists_eq_add_one.mpr (List.length_pos_iff.mpr hne)
  have hdrop : (front ++ bytes).drop (n + 1) = bytes := by rw [← hn, List.drop_left]
  rw [consumedByAll, h, hn]
  show (consumedByAll steps ((front ++ bytes).drop (n + 1))).map (n + 1 + ·) = _
  rw [hdrop]

/-- A step that takes nothing. -/
theorem consumedByAll_of_eq_zero {step : Matcher} {bytes : List UInt8}
    (h : step.consumed bytes = 0) (steps : List Matcher) :
    consumedByAll (step :: steps) bytes = none := by
  rw [consumedByAll, h]

end Matcher

namespace LexTable

variable {K : Type} {table : LexTable K} {input : Input}

/-- **The first rule that takes something decides.** -/
theorem first?_of_split (before : List (LexRule K)) {behind : List (LexRule K)} {rule : LexRule K}
    (hrules : table.rules = before ++ rule :: behind)
    (hbefore : ∀ r ∈ before, r.matcher.consumed input.bytes = 0) {front back : List Char}
    (hchars : input.chars = front ++ back) (hne : front ≠ [])
    (hrule : rule.matcher.consumed input.bytes = (utf8 front).length) :
    ∃ rest, table.first? input = some (rule.kind?, String.ofList front, rest) ∧
      rest.chars = back := by
  obtain ⟨rest, htake, hrest⟩ := Input.exists_take? hchars
  refine ⟨rest, ?_, hrest⟩
  have hpos : (utf8 front).length ≠ 0 := by
    cases front with
    | nil => exact absurd rfl hne
    | cons c front =>
      have := c.utf8Size_pos
      rw [utf8_cons, List.length_append, String.length_utf8EncodeChar]
      omega
  have hread : rule.read? input = some (String.ofList front, rest) := by
    unfold LexRule.read?
    rw [hrule]
    split
    · next hzero => exact absurd hzero hpos
    · next n hn =>
      have hlength : (utf8 front).length = n + 1 := hn
      rw [← hlength]
      exact htake
  have hnone : before.findSome? (fun rule => (rule.read? input).map fun read =>
      (rule.kind?, read)) = none := by
    refine List.findSome?_eq_none_iff.mpr fun r hr => ?_
    simp only [LexRule.read?, hbefore r hr, Option.map_none]
  unfold first?
  rw [hrules, List.findSome?_append, hnone, Option.none_or, List.findSome?_cons, hread]
  rfl

variable {kind : K} {text : String} {rest : Input}

theorem next_of_emit (hne : input.chars ≠ [])
    (h : table.first? input = some (some kind, text, rest)) :
    table.next input = (some ⟨kind, text, input.offset⟩, rest) := by
  rw [next]
  split
  · next hnil => exact absurd hnil hne
  · split
    · next hfirst =>
      rw [h] at hfirst
      cases hfirst
      rfl
    · next hfirst =>
      rw [h] at hfirst
      cases hfirst
    · next hfirst =>
      rw [h] at hfirst
      cases hfirst

theorem next_of_skip (hne : input.chars ≠ []) (h : table.first? input = some (none, text, rest)) :
    table.next input = table.next rest := by
  rw [next]
  split
  · next hnil => exact absurd hnil hne
  · split
    · next hfirst =>
      rw [h] at hfirst
      cases hfirst
    · next hfirst =>
      rw [h] at hfirst
      cases hfirst
      rfl
    · next hfirst =>
      rw [h] at hfirst
      cases hfirst

theorem next_of_nil (h : input.chars = []) : table.next input = (none, input) := by
  rw [next]
  split
  · rfl
  · next hcons =>
    rw [h] at hcons
    cases hcons

/-- A character that no rule takes is a token. -/
theorem next_of_unknown {c : Char} {tail : List Char} (hchars : input.chars = c :: tail)
    (hfirst : table.first? input = none) (htake : input.take? c.utf8Size = some (text, rest)) :
    table.next input = (some ⟨table.unknown, text, input.offset⟩, rest) := by
  rw [next]
  split
  · next hnil => rw [hchars] at hnil; cases hnil
  · next c' tail' hcons =>
    rw [hchars] at hcons
    cases hcons
    split
    · next hsome => rw [hfirst] at hsome; cases hsome
    · next hsome => rw [hfirst] at hsome; cases hsome
    · rw [htake]

end LexTable

end GrammarKit
