import GrammarKit.Proofs.Spelling

/-!
# How far a rule looks ahead

A rule looks at more than it takes.  So what stands behind a piece of text may change how the piece is
read: a rule may take more than the piece, or an earlier rule may take something where it took nothing.
Both take bytes from behind the piece.  Where a rule has no use for the first byte there, it takes the
same as if the text ended.

A text that is closed by a mark is the exception.  A rule that looks for the mark has a use for every
byte.

* `Matcher.consumed_append`: with more text behind, a matcher takes the same, or more than there was.
* `Matcher.uses`, `Matcher.consumed_append_of_uses`: bytes that a matcher has no use for.
* `Matcher.endsLow`: matchers that stop between two characters only.
* `LexTable.Reads`: a piece is read before what stands behind it.
* `LexTable.ReadOff`: the pieces of a text; `LexTable.Woven`: pieces with something to skip between
  them, which are read again.
-/

namespace GrammarKit

namespace Matcher

/-! ## 1.  More text behind -/

theorem isPrefixOf_append {text front : List UInt8} (h : text.length ≤ front.length)
    (back : List UInt8) : text.isPrefixOf (front ++ back) = text.isPrefixOf front := by
  rw [Bool.eq_iff_iff, List.isPrefixOf_iff_prefix, List.isPrefixOf_iff_prefix]
  exact ⟨fun hpre => List.prefix_of_prefix_length_le hpre (List.prefix_append _ _) h,
    fun hpre => hpre.trans (List.prefix_append _ _)⟩

theorem isPrefixOf_eq_false {text front : List UInt8} (h : front.length < text.length) :
    text.isPrefixOf front = false :=
  Bool.eq_false_iff.mpr fun hpre =>
    Nat.not_le_of_lt h (List.isPrefixOf_iff_prefix.mp hpre).length_le

theorem startsWith_append {text front : List UInt8} (ignoreCase : Bool)
    (h : text.length ≤ front.length) (back : List UInt8) :
    startsWith text ignoreCase (front ++ back) = startsWith text ignoreCase front := by
  cases ignoreCase with
  | false => exact isPrefixOf_append h back
  | true =>
    rw [startsWith, startsWith, if_pos rfl, if_pos rfl, List.take_append_of_le_length h]

/-- The first occurrence stays the first, or there was none, and now there is one that reaches into
what was added. -/
theorem firstOccurrence?_append (pattern back : List UInt8) :
    ∀ (front : List UInt8) (skipped : Nat),
      firstOccurrence? pattern (front ++ back) skipped = firstOccurrence? pattern front skipped ∨
        firstOccurrence? pattern front skipped = none ∧
          ∀ n, firstOccurrence? pattern (front ++ back) skipped = some n →
            skipped + front.length < n + pattern.length
  | [], skipped => by
    by_cases hempty : pattern = []
    · subst hempty
      refine Or.inl ?_
      cases back <;> rfl
    · have hnone : firstOccurrence? pattern [] skipped = none := by
        rw [firstOccurrence?, if_neg (by simpa using hempty)]
      refine Or.inr ⟨hnone, fun n hn => ?_⟩
      have hlow := (le_of_firstOccurrence? hn).1
      have hpos := List.length_pos_iff.mpr hempty
      rw [List.length_nil]
      omega
  | b :: front, skipped => by
    have hrest := firstOccurrence?_append pattern back front (skipped + 1)
    rw [List.cons_append, firstOccurrence?, firstOccurrence?]
    by_cases hle : pattern.length ≤ (b :: front).length
    · have hsame : pattern.isPrefixOf (b :: (front ++ back)) = pattern.isPrefixOf (b :: front) :=
        isPrefixOf_append hle back
      rw [hsame]
      split
      · exact Or.inl rfl
      · refine hrest.imp_right fun h => ⟨h.1, fun n hn => ?_⟩
        have hlt := h.2 n hn
        rw [List.length_cons]
        omega
    · have hlt : (b :: front).length < pattern.length := Nat.lt_of_not_le hle
      have hnone : firstOccurrence? pattern front (skipped + 1) = none := by
        refine Option.eq_none_iff_forall_ne_some.mpr fun n hn => ?_
        obtain ⟨hlow, hhigh⟩ := le_of_firstOccurrence? hn
        rw [List.length_cons] at hlt
        omega
      rw [isPrefixOf_eq_false hlt, if_neg Bool.false_ne_true, hnone]
      refine Or.inr ⟨rfl, fun n hn => ?_⟩
      have hlow : skipped ≤ n := by
        split at hn
        · cases hn
          exact Nat.le_refl _
        · exact Nat.le_of_succ_le (le_of_firstOccurrence? hn).1
      omega

/-- A closed text stays as long as it is, or there was none, and now there is one that reaches into
what was added. -/
theorem consumedBetween_append (opening closing front back : List UInt8) :
    consumedBetween opening closing (front ++ back) = consumedBetween opening closing front ∨
      front.length < consumedBetween opening closing (front ++ back) ∧
        consumedBetween opening closing front = 0 := by
  by_cases hle : opening.length ≤ front.length
  · simp only [consumedBetween, isPrefixOf_append hle back, List.drop_append_of_le_length hle]
    split
    · exact Or.inl rfl
    · rcases firstOccurrence?_append closing back (front.drop opening.length) 0 with
        hsame | ⟨hnone, hlt⟩
      · exact Or.inl (by rw [hsame])
      · rw [hnone]
        cases hbody : firstOccurrence? closing (front.drop opening.length ++ back) 0 with
        | none => exact Or.inl rfl
        | some body =>
          have hbody := hlt body hbody
          rw [List.length_drop] at hbody
          refine Or.inr ⟨?_, rfl⟩
          show front.length < opening.length + body + closing.length
          omega
  · have hfront : consumedBetween opening closing front = 0 := by
      rw [consumedBetween, isPrefixOf_eq_false (Nat.lt_of_not_le hle), Bool.not_false,
        Bool.or_true, if_pos rfl]
    rw [hfront]
    by_cases hzero : consumedBetween opening closing (front ++ back) = 0
    · exact Or.inl hzero
    · refine Or.inr ⟨?_, rfl⟩
      have hopening : opening.length ≤ consumedBetween opening closing (front ++ back) := by
        unfold consumedBetween at hzero ⊢
        split at hzero
        · exact absurd rfl hzero
        · next hstarts =>
          rw [if_neg hstarts]
          split at hzero
          · exact absurd rfl hzero
          · omega
      omega

theorem consumed_nil (m : Matcher) : m.consumed [] = 0 := Nat.le_zero.mp (m.consumed_le [])

/-- All the steps take at least what the first of them takes. -/
theorem consumed_le_of_consumedByAll {step : Matcher} {steps : List Matcher} {bytes : List UInt8}
    {n : Nat} (h : consumedByAll (step :: steps) bytes = some n) : step.consumed bytes ≤ n := by
  rw [consumedByAll] at h
  split at h
  · cases h
  · next first hstep =>
    obtain ⟨more, -, rfl⟩ := Option.map_eq_some_iff.mp h
    rw [hstep]
    exact Nat.le_add_right _ _

/-- Behind a step that takes nothing or all there is nothing left for another one. -/
theorem consumedByAll_of_takes_all {step : Matcher} {steps : List Matcher} {bytes : List UInt8}
    (h : step.consumed bytes = 0 ∨ step.consumed bytes = bytes.length) :
    consumedByAll (step :: steps) bytes = none ∨
      steps = [] ∧ consumedByAll (step :: steps) bytes = some bytes.length := by
  rw [consumedByAll]
  rcases h with hzero | hall
  · exact Or.inl (by rw [hzero])
  · rw [hall]
    cases hlength : bytes.length with
    | zero => exact Or.inl rfl
    | succ first =>
      dsimp only
      rw [← hlength, List.drop_length]
      cases steps with
      | nil => exact Or.inr ⟨rfl, by rw [consumedByAll]; rfl⟩
      | cons next steps =>
        exact Or.inl (by rw [consumedByAll_of_eq_zero next.consumed_nil]; rfl)

mutual

/-- **With more text behind, a matcher takes the same**, or it takes more than there was; and then it
took nothing or all. -/
theorem consumed_append : ∀ (m : Matcher) (front back : List UInt8),
    m.consumed (front ++ back) = m.consumed front ∨
      front.length < m.consumed (front ++ back) ∧
        (m.consumed front = 0 ∨ m.consumed front = front.length)
  | .char cls, [], back => by
    rw [consumed_nil, List.nil_append]
    exact (Nat.eq_zero_or_pos _).imp_right fun hpos => ⟨hpos, Or.inl rfl⟩
  | .char cls, b :: front, back => Or.inl rfl
  | .run cls, front, back => by
    rw [consumed, consumed, List.takeWhile_append]
    split
    · next hall =>
      rw [hall, List.length_append]
      rcases Nat.eq_zero_or_pos (back.takeWhile cls.contains).length with hzero | hpos
      · exact Or.inl (by rw [hzero, Nat.add_zero])
      · exact Or.inr ⟨Nat.lt_add_of_pos_right hpos, Or.inr rfl⟩
    · exact Or.inl rfl
  | .literal text ignoreCase, front, back => by
    rw [consumed, consumed]
    by_cases hle : text.length ≤ front.length
    · exact Or.inl (by rw [startsWith_append ignoreCase hle])
    · have hfront : ¬ startsWith text ignoreCase front = true := fun h =>
        hle (length_le_of_startsWith h)
      rw [if_neg hfront]
      split
      · exact Or.inr ⟨Nat.lt_of_not_le hle, Or.inl rfl⟩
      · exact Or.inl rfl
  | .delimited opening closing, front, back => by
    rw [consumed, consumed]
    exact (consumedBetween_append opening closing front back).imp_right
      fun h => ⟨h.1, Or.inl h.2⟩
  | .sequence steps, front, back => by
    rw [consumed, consumed]
    rcases consumedByAll_append steps front back with hsame | ⟨n, hn, hlt, hfront⟩
    · exact Or.inl (by rw [hsame])
    · rw [hn]
      refine Or.inr ⟨hlt, hfront.imp (fun h => ?_) (fun h => ?_)⟩ <;> rw [h] <;> rfl

theorem consumedByAll_append : ∀ (steps : List Matcher) (front back : List UInt8),
    consumedByAll steps (front ++ back) = consumedByAll steps front ∨
      ∃ n, consumedByAll steps (front ++ back) = some n ∧ front.length < n ∧
        (consumedByAll steps front = none ∨ consumedByAll steps front = some front.length)
  | [], _, _ => Or.inl rfl
  | step :: steps, front, back => by
    rcases consumed_append step front back with hsame | ⟨hlt, hfront⟩
    · -- The step takes the same, and the others go on behind it.
      rw [consumedByAll, consumedByAll, hsame]
      cases hstep : step.consumed front with
      | zero => exact Or.inl rfl
      | succ first =>
        have hle : first + 1 ≤ front.length := hstep ▸ step.consumed_le front
        have hdrop : (front ++ back).drop (first + 1) = front.drop (first + 1) ++ back :=
          List.drop_append_of_le_length hle
        dsimp only
        rw [hdrop]
        rcases consumedByAll_append steps (front.drop (first + 1)) back with
          hrest | ⟨n, hn, hlt, hrest⟩
        · exact Or.inl (by rw [hrest])
        · rw [List.length_drop] at hlt hrest
          refine Or.inr ⟨first + 1 + n, by rw [hn]; rfl, by omega, hrest.imp ?_ ?_⟩
          · intro h
            rw [h]
            rfl
          · intro h
            rw [h, Option.map_some]
            exact congrArg some (by omega)
    · -- The step takes more than there was; so without the text behind the others had nothing left.
      have hshort := @consumedByAll_of_takes_all step steps front hfront
      cases hboth : consumedByAll (step :: steps) (front ++ back) with
      | some n =>
        exact Or.inr ⟨n, rfl, Nat.lt_of_lt_of_le hlt (consumed_le_of_consumedByAll hboth),
          hshort.imp_right And.right⟩
      | none =>
        rcases hshort with hnone | ⟨rfl, -⟩
        · exact Or.inl hnone.symm
        · rw [consumedByAll] at hboth
          split at hboth
          · next hzero => omega
          · rw [consumedByAll] at hboth
            cases hboth

end

/-- What a matcher takes within a piece it also takes off the piece alone. -/
theorem consumed_of_le {m : Matcher} {front back : List UInt8}
    (h : m.consumed (front ++ back) ≤ front.length) :
    m.consumed front = m.consumed (front ++ back) :=
  ((m.consumed_append front back).resolve_right fun hmore => Nat.not_le_of_lt hmore.1 h).symm

/-! ## 2.  Bytes that are of no use -/

mutual

/-- The byte may be among those that a matcher takes. -/
def uses : Matcher → UInt8 → Bool
  | .char cls, b => cls.contains b
  | .run cls, b => cls.contains b
  | .literal text ignoreCase, b =>
    text.any fun other => if ignoreCase then foldCase other == foldCase b else other == b
  | .delimited _ _, _ => true
  | .sequence steps, b => usesAny steps b

/-- The byte may be among those that one of the steps takes. -/
def usesAny : List Matcher → UInt8 → Bool
  | [], _ => false
  | step :: steps, b => step.uses b || usesAny steps b

end

mutual

theorem uses_of_spells : ∀ (m : Matcher) {bytes : List UInt8}, m.Spells bytes →
    ∀ b ∈ bytes, m.uses b = true
  | .char cls, _, ⟨b, hb, rfl⟩, x, hx => List.mem_singleton.mp hx ▸ hb
  | .run cls, _, h, x, hx => h.2 x hx
  | .literal text ignoreCase, bytes, h, x, hx => by
    rw [uses, List.any_eq_true]
    cases ignoreCase with
    | false =>
      have hbytes : bytes = text := h
      exact ⟨x, hbytes ▸ hx, beq_self_eq_true x⟩
    | true =>
      have hbytes : bytes.map foldCase = text.map foldCase := h
      obtain ⟨other, hother, heq⟩ := List.mem_map.mp (hbytes ▸ List.mem_map_of_mem hx)
      exact ⟨other, hother, beq_iff_eq.mpr heq⟩
  | .delimited _ _, _, _, _, _ => rfl
  | .sequence steps, _, h, x, hx => usesAny_of_spellsAll steps h x hx

theorem usesAny_of_spellsAll : ∀ (steps : List Matcher) {bytes : List UInt8}, SpellsAll steps bytes →
    ∀ b ∈ bytes, usesAny steps b = true
  | [], bytes, h, x, hx => by
    have hbytes : bytes = [] := h
    rw [hbytes] at hx
    cases hx
  | step :: steps, _, ⟨front, back, rfl, hstep, hsteps⟩, x, hx => by
    rw [usesAny, Bool.or_eq_true]
    exact (List.mem_append.mp hx).imp (uses_of_spells step hstep x)
      (usesAny_of_spellsAll steps hsteps x)

end

/-- What a matcher takes off the front of a text may be taken by it. -/
theorem spells_front {m : Matcher} {front back : List UInt8}
    (h : m.consumed (front ++ back) = front.length) (hne : front ≠ []) : m.Spells front := by
  have hpos : m.consumed (front ++ back) ≠ 0 := by
    rw [h]
    exact fun hzero => hne (List.length_eq_zero_iff.mp hzero)
  have hspells := m.spells_of_consumed hpos
  rwa [h, List.take_left] at hspells

/-- What a matcher takes off the front of a text is made of bytes that it has a use for. -/
theorem uses_of_consumed {m : Matcher} {front back : List UInt8}
    (h : m.consumed (front ++ back) = front.length) (hne : front ≠ []) :
    ∀ b ∈ front, m.uses b = true := m.uses_of_spells (spells_front h hne)

/-- **Before a byte of no use a matcher takes the same as before the end.** -/
theorem consumed_append_of_uses {m : Matcher} {front back : List UInt8}
    (h : ∀ b ∈ back.head?, m.uses b = false) : m.consumed (front ++ back) = m.consumed front := by
  refine (m.consumed_append front back).resolve_right fun ⟨hlt, _⟩ => ?_
  cases back with
  | nil =>
    rw [List.append_nil] at hlt
    exact Nat.not_lt_of_le (m.consumed_le front) hlt
  | cons b back =>
    have hspells := m.spells_of_consumed (Nat.ne_of_gt (Nat.zero_lt_of_lt hlt))
    have hmem : b ∈ (front ++ b :: back).take (m.consumed (front ++ b :: back)) := by
      obtain ⟨n, hn⟩ := Nat.exists_eq_add_of_lt hlt
      rw [hn, Nat.add_assoc, List.take_length_add_append]
      exact List.mem_append_right _ List.mem_cons_self
    have huses := m.uses_of_spells hspells b hmem
    rw [h b rfl] at huses
    cases huses

/-! ## 3.  Stops between two characters -/

mutual

/-- What the matcher takes ends with a byte below 128. -/
def endsLow : Matcher → Bool
  | .char cls => cls.isLow
  | .run cls => cls.isLow
  | .literal text _ => text.all (foldCase · < 128)
  | .delimited opening closing => (opening ++ closing).all (· < 128) && !closing.isEmpty
  | .sequence steps => allEndLow steps

/-- The same for all the steps. -/
def allEndLow : List Matcher → Bool
  | [] => true
  | step :: steps => step.endsLow && allEndLow steps

end

mutual

theorem lt_of_getLast? : ∀ (m : Matcher), m.endsLow = true → ∀ {bytes : List UInt8},
    m.Spells bytes → ∀ b ∈ bytes.getLast?, b < 128
  | .char cls, h, _, ⟨x, hx, rfl⟩, b, hb => by
    cases hb
    exact cls.lt_of_contains h hx
  | .run cls, h, _, hspells, b, hb =>
    cls.lt_of_contains h (hspells.2 b (List.mem_of_getLast? hb))
  | .literal text ignoreCase, h, bytes, hspells, b, hb => by
    have hlow : ∀ x ∈ text, foldCase x < 128 := fun x hx =>
      of_decide_eq_true (List.all_eq_true.mp h x hx)
    refine lt_of_foldCase_lt ?_
    have hmem := List.mem_of_getLast? hb
    cases ignoreCase with
    | false =>
      have hbytes : bytes = text := hspells
      exact hlow b (hbytes ▸ hmem)
    | true =>
      have hbytes : bytes.map foldCase = text.map foldCase := hspells
      obtain ⟨x, hx, heq⟩ := List.mem_map.mp (hbytes ▸ List.mem_map_of_mem hmem)
      exact heq ▸ hlow x hx
  | .delimited opening closing, h, _, ⟨body, rfl⟩, b, hb => by
    rw [endsLow, Bool.and_eq_true, Bool.not_eq_true', List.isEmpty_eq_false_iff] at h
    rw [← List.append_assoc, List.getLast?_append, List.getLast?_eq_some_getLast h.2,
      Option.some_or] at hb
    cases hb
    exact of_decide_eq_true
      (List.all_eq_true.mp h.1 _ (List.mem_append_right _ (List.getLast_mem h.2)))
  | .sequence steps, h, _, hspells, b, hb => lt_of_getLast?_all steps h hspells b hb

theorem lt_of_getLast?_all : ∀ (steps : List Matcher), allEndLow steps = true →
    ∀ {bytes : List UInt8}, SpellsAll steps bytes → ∀ b ∈ bytes.getLast?, b < 128
  | [], _, bytes, hspells, b, hb => by
    have hbytes : bytes = [] := hspells
    rw [hbytes] at hb
    cases hb
  | step :: steps, h, _, ⟨front, back, rfl, hstep, hsteps⟩, b, hb => by
    rw [allEndLow, Bool.and_eq_true] at h
    rw [List.getLast?_append] at hb
    cases hback : back.getLast? with
    | some x =>
      rw [hback] at hb
      cases hb
      exact lt_of_getLast?_all steps h.2 hsteps b hback
    | none =>
      rw [hback] at hb
      exact lt_of_getLast? step h.1 hstep b hb

end

end Matcher

/-- Bytes off the front of a text that end with one below 128 are whole characters. -/
theorem exists_front_of_getLast?_lt : ∀ (chars : List Char) {n : Nat}, n ≤ (utf8 chars).length →
    (∀ b ∈ ((utf8 chars).take n).getLast?, b < 128) →
      ∃ front back, chars = front ++ back ∧ (utf8 front).length = n
  | [], n, hle, _ => ⟨[], [], rfl, (Nat.le_zero.mp hle).symm⟩
  | c :: chars, n, hle, hlast => by
    rcases Nat.eq_zero_or_pos n with rfl | hpos
    · exact ⟨[], c :: chars, rfl, rfl⟩
    rw [utf8_cons] at hle hlast
    rw [List.length_append] at hle
    by_cases hwithin : (String.utf8EncodeChar c).length ≤ n
    · obtain ⟨more, rfl⟩ := Nat.exists_eq_add_of_le hwithin
      rw [List.take_length_add_append] at hlast
      have hrest : ∀ b ∈ ((utf8 chars).take more).getLast?, b < 128 := by
        intro b hb
        refine hlast b ?_
        rw [List.getLast?_append, Option.mem_def.mp hb]
        rfl
      obtain ⟨front, back, rfl, hlength⟩ :=
        exists_front_of_getLast?_lt chars (n := more) (by omega) hrest
      exact ⟨c :: front, back, rfl, by rw [utf8_cons, List.length_append, hlength]⟩
    · -- The cut would be in the midst of a character, behind a byte that is not below 128.
      exfalso
      rw [List.take_append_of_le_length (Nat.le_of_not_le hwithin)] at hlast
      have hne : (String.utf8EncodeChar c).take n ≠ [] := by
        intro hnil
        have hlength := congrArg List.length hnil
        rw [List.length_take, List.length_nil] at hlength
        omega
      have hmem := List.mem_of_mem_take (List.getLast_mem hne)
      have hlow := hlast _ (List.getLast?_eq_some_getLast hne)
      have hhigh : 128 ≤ c.toNat := by
        refine Nat.le_of_not_lt fun hlt => hwithin ?_
        rw [utf8EncodeChar_of_lt hlt]
        exact hpos
      exact absurd hlow (UInt8.not_lt.mpr (le_of_mem_utf8EncodeChar hhigh _ hmem))

variable {K : Type}

/-- A rule that stops between two characters reads nothing only if it takes nothing. -/
theorem LexRule.consumed_of_read?_eq_none {rule : LexRule K} (hlow : rule.matcher.endsLow = true)
    {input : Input} (h : rule.read? input = none) : rule.matcher.consumed input.bytes = 0 := by
  unfold read? at h
  split at h
  · assumption
  · next n hn =>
    have hne : rule.matcher.consumed input.bytes ≠ 0 := by
      rw [hn]
      exact Nat.succ_ne_zero n
    have hlast := rule.matcher.lt_of_getLast? hlow (rule.matcher.spells_of_consumed hne)
    have hle := rule.matcher.consumed_le input.bytes
    rw [hn, input.bytes_eq] at hlast hle
    obtain ⟨front, back, hchars, hlength⟩ := exists_front_of_getLast?_lt input.chars hle hlast
    obtain ⟨rest, htake, -⟩ := Input.exists_take? hchars
    rw [hlength, h] at htake
    cases htake

/-- What a rule reads is as much as it takes. -/
theorem LexRule.consumed_of_read? {rule : LexRule K} {input rest : Input} {text : String}
    (h : rule.read? input = some (text, rest)) :
    rule.matcher.consumed input.bytes = (utf8 text.toList).length ∧ text.toList ≠ [] := by
  unfold read? at h
  split at h
  · cases h
  · next n hn =>
    have hlength := Input.utf8_length_of_take? h
    refine ⟨by rw [hn, hlength], fun hnil => ?_⟩
    rw [hnil] at hlength
    cases hlength

/-! ## 4.  Pieces of a text -/

namespace LexTable

variable {table : LexTable K} {kind : K} {front back : List Char}

/-- **A piece of a text is read before what stands behind it**: the first rule that takes something
takes just this, or no rule takes anything off a single character. -/
inductive Reads (table : LexTable K) : K → List Char → List Char → Prop where
  | rule (before behind : List (LexRule K)) {rule : LexRule K} {kind : K} {front back : List Char}
      (hrules : table.rules = before ++ rule :: behind) (hkind : rule.kind? = some kind)
      (hne : front ≠ [])
      (hbefore : ∀ r ∈ before, r.matcher.consumed (utf8 front ++ utf8 back) = 0)
      (hrule : rule.matcher.consumed (utf8 front ++ utf8 back) = (utf8 front).length) :
      Reads table kind front back
  | unknown {c : Char} {back : List Char}
      (hnone : ∀ r ∈ table.rules, r.matcher.consumed (utf8 [c] ++ utf8 back) = 0) :
      Reads table table.unknown [c] back

theorem Reads.ne_nil (h : table.Reads kind front back) : front ≠ [] := by
  cases h with
  | rule _ _ _ _ hne _ _ => exact hne
  | unknown _ => exact List.cons_ne_nil _ _

/-- Rules at the head of the table stand before one that is not among them. -/
theorem mem_before {rule : LexRule K} {before behind first rest : List (LexRule K)}
    (h : before ++ rule :: behind = first ++ rest) (hrule : rule ∉ first) :
    ∀ r ∈ first, r ∈ before := by
  rcases List.append_eq_append_iff.mp h with ⟨more, hmore, hbehind⟩ | ⟨more, hmore, -⟩
  · cases more with
    | nil =>
      rw [List.append_nil] at hmore
      exact fun r hr => hmore ▸ hr
    | cons other more =>
      cases hbehind
      exact absurd (hmore ▸ List.mem_append_right _ List.mem_cons_self) hrule
  · exact fun r hr => hmore ▸ List.mem_append_left _ hr

/-- Rules without a kind at the head of the table take nothing off a piece that is read. -/
theorem Reads.consumed_eq_zero (h : table.Reads kind front back) (first : List (LexRule K))
    {rest : List (LexRule K)} (hrules : table.rules = first ++ rest) (hfirst : ∀ r ∈ first, r.kind? = none) :
    ∀ r ∈ first, r.matcher.consumed (utf8 front ++ utf8 back) = 0 := by
  intro r hr
  cases h with
  | @rule before behind rule kind front back hsplit hkind hne hbefore hrule =>
    have hlater : rule ∉ first := fun hmem => by
      have hnone := hfirst rule hmem
      rw [hkind] at hnone
      cases hnone
    exact hbefore r (mem_before (hsplit.symm.trans hrules) hlater r hr)
  | unknown hnone => exact hnone r (hrules ▸ List.mem_append_left _ hr)

/-- What stands behind a piece does not count where the rules take the same as before the end. -/
theorem Reads.of_consumed {back' : List Char} (h : table.Reads kind front back)
    (hsame : ∀ r ∈ table.rules,
      r.matcher.consumed (utf8 front ++ utf8 back') = r.matcher.consumed (utf8 front)) :
    table.Reads kind front back' := by
  cases h with
  | @rule before behind rule kind front back hrules hkind hne hbefore hrule =>
    refine .rule _ _ hrules hkind hne (fun r hr => ?_) ?_
    · have hzero := hbefore r hr
      rw [hsame r (hrules ▸ List.mem_append_left _ hr),
        Matcher.consumed_of_le (by rw [hzero]; exact Nat.zero_le _), hzero]
    · rw [hsame rule (hrules ▸ List.mem_append_right _ List.mem_cons_self),
        Matcher.consumed_of_le (Nat.le_of_eq hrule), hrule]
  | unknown hnone =>
    refine .unknown fun r hr => ?_
    have hzero := hnone r hr
    rw [hsame r hr, Matcher.consumed_of_le (by rw [hzero]; exact Nat.zero_le _), hzero]

/-- A piece is read before a byte, if the rules that may start with it have no use for that byte. -/
theorem Reads.before {back' : List Char} {first : UInt8} {more : List UInt8}
    (h : table.Reads kind front back) (hfront : utf8 front = first :: more)
    (hback : ∀ b ∈ (utf8 back').head?, ∀ r ∈ table.rules,
      r.matcher.opens first = false ∨ r.matcher.uses b = false) :
    table.Reads kind front back' := by
  refine h.of_consumed fun r hr => ?_
  cases hbytes : utf8 back' with
  | nil => rw [List.append_nil]
  | cons b bytes =>
    rw [hbytes] at hback
    rcases hback b rfl r hr with hopens | huses
    · rw [hfront, List.cons_append, Matcher.consumed_of_opens hopens,
        Matcher.consumed_of_opens hopens]
    · refine Matcher.consumed_append_of_uses fun x hx => ?_
      cases hx
      exact huses

/-- A piece that is read is the next token. -/
theorem Reads.next (h : table.Reads kind front back) {input : Input}
    (hchars : input.chars = front ++ back) :
    ∃ rest, table.next input = (some ⟨kind, String.ofList front, input.offset⟩, rest) ∧
      rest.chars = back := by
  have hbytes : input.bytes = utf8 front ++ utf8 back := by
    rw [input.bytes_eq, hchars, utf8_append]
  cases h with
  | rule _ _ hrules hkind hne hbefore hrule =>
    rw [← hbytes] at hbefore hrule
    obtain ⟨rest, hfirst, hrest⟩ := first?_of_split _ hrules hbefore hchars hne hrule
    rw [hkind] at hfirst
    have hopen : input.chars ≠ [] := by
      rw [hchars]
      exact List.append_ne_nil_of_left_ne_nil hne back
    exact ⟨rest, next_of_emit hopen hfirst, hrest⟩
  | @unknown c back hnone =>
    have hfirst : table.first? input = none := by
      refine List.findSome?_eq_none_iff.mpr fun r hr => ?_
      have hzero : r.matcher.consumed input.bytes = 0 := hbytes ▸ hnone r hr
      simp only [LexRule.read?, hzero, Option.map_none]
    obtain ⟨rest, htake, hrest⟩ := Input.exists_take? hchars
    have hsize : (utf8 [c]).length = c.utf8Size := by simp
    rw [hsize] at htake
    exact ⟨rest, next_of_unknown hchars hfirst htake, hrest⟩

/-- **A token was read before what is left behind it**, if the rules stop between characters. -/
theorem reads_of_next (hlow : ∀ rule ∈ table.rules, rule.matcher.endsLow = true) (input : Input) :
    ∀ token, (table.next input).1 = some token →
      table.Reads token.kind token.text.toList (table.next input).2.chars ∧
        ∃ gap, input.chars = gap ++ (token.text.toList ++ (table.next input).2.chars) := by
  fun_induction table.next input with
  | case1 => intro token h; cases h
  | case2 input c tail hchars kind text rest hfirst =>
    intro token h
    cases h
    obtain ⟨before, rule, behind, hrules, hread, hbefore⟩ := List.findSome?_eq_some_iff.mp hfirst
    obtain ⟨read, hread, heq⟩ := Option.map_eq_some_iff.mp hread
    obtain ⟨hkind, rfl⟩ := Prod.mk.inj heq
    obtain ⟨hconsumed, hne⟩ := LexRule.consumed_of_read? hread
    have hsplit : input.chars = text.toList ++ rest.chars := by
      unfold LexRule.read? at hread
      split at hread
      · cases hread
      · exact Input.chars_of_take? hread
    have hbytes : input.bytes = utf8 text.toList ++ utf8 rest.chars := by
      rw [input.bytes_eq, hsplit, utf8_append]
    refine ⟨.rule _ _ hrules hkind hne (fun r hr => ?_) (hbytes ▸ hconsumed), [], hsplit⟩
    rw [← hbytes]
    exact LexRule.consumed_of_read?_eq_none
      (hlow r (hrules ▸ List.mem_append_left _ hr)) (Option.map_eq_none_iff.mp (hbefore r hr))
  | case3 input c tail hchars text rest hfirst ih =>
    intro token h
    obtain ⟨hreads, gap, hgap⟩ := ih token h
    obtain ⟨rule, -, hread⟩ := List.exists_of_findSome?_eq_some hfirst
    obtain ⟨read, hread, heq⟩ := Option.map_eq_some_iff.mp hread
    obtain ⟨-, rfl⟩ := Prod.mk.inj heq
    refine ⟨hreads, text.toList ++ gap, ?_⟩
    unfold LexRule.read? at hread
    split at hread
    · cases hread
    · rw [Input.chars_of_take? hread, hgap, List.append_assoc]
  | case4 input c tail hchars hfirst text rest htake =>
    intro token h
    cases h
    have hsplit := Input.chars_of_take? htake
    obtain ⟨rest', htake', hrest'⟩ := Input.exists_take? (show input.chars = [c] ++ tail from hchars)
    have hsize : (utf8 [c]).length = c.utf8Size := by simp
    rw [hsize, htake] at htake'
    cases htake'
    rw [String.toList_ofList]
    refine ⟨.unknown fun r hr => ?_, [], hchars.trans (by rw [hrest']; rfl)⟩
    have hread := Option.map_eq_none_iff.mp (List.findSome?_eq_none_iff.mp hfirst r hr)
    have hzero := LexRule.consumed_of_read?_eq_none (hlow r hr) hread
    rwa [input.bytes_eq, hsplit, utf8_append, String.toList_ofList] at hzero
  | case5 => intro token h; cases h

/-- What the first rule that applies takes is read. -/
theorem reads_of_first? (hlow : ∀ rule ∈ table.rules, rule.matcher.endsLow = true) {input rest : Input}
    {text : String} (hne : input.chars ≠ []) (h : table.first? input = some (some kind, text, rest)) :
    table.Reads kind text.toList rest.chars := by
  have hnext := next_of_emit hne h
  have hreads := (table.reads_of_next hlow input ⟨kind, text, input.offset⟩ (by rw [hnext])).1
  rwa [hnext] at hreads

/-- The tokens are read one after the other, each before what stands behind it. -/
inductive ReadOff (table : LexTable K) : List (Token K) → List Char → Prop where
  | nil {chars : List Char} : ReadOff table [] chars
  | cons {token : Token K} {tokens : List (Token K)} {gap chars : List Char}
      (hreads : table.Reads token.kind token.text.toList chars) (h : ReadOff table tokens chars) :
      ReadOff table (token :: tokens) (gap ++ (token.text.toList ++ chars))

/-- The characters of tokens are among those of the text that they are read off. -/
theorem ReadOff.mem_chars {tokens : List (Token K)} {chars : List Char}
    (h : table.ReadOff tokens chars) : ∀ token ∈ tokens, ∀ c ∈ token.text.toList, c ∈ chars := by
  induction h with
  | nil => exact fun _ htoken => absurd htoken List.not_mem_nil
  | cons _ _ ih =>
    refine List.forall_mem_cons.mpr ⟨fun c hc => ?_, fun token htoken c hc => ?_⟩
    · exact List.mem_append_right _ (List.mem_append_left _ hc)
    · exact List.mem_append_right _ (List.mem_append_right _ (ih token htoken c hc))

/-- **The tokens of a text are read off it.** -/
theorem readOff_collect (hlow : ∀ rule ∈ table.rules, rule.matcher.endsLow = true) (input : Input) :
    table.ReadOff (Cursor.collect table [] input) input.chars := by
  induction hn : input.chars.length using Nat.strongRecOn generalizing input with
  | _ n ih =>
    rcases hnext : table.next input with ⟨_ | token, rest⟩
    · rw [Cursor.collect_of_next_none hnext]
      exact .nil
    · have hlt := table.length_next_lt input token (by rw [hnext])
      obtain ⟨hreads, gap, hgap⟩ := table.reads_of_next hlow input token (by rw [hnext])
      rw [hnext] at hlt hreads hgap
      rw [hn] at hlt
      rw [Cursor.collect_of_next_some hnext, Cursor.collect_eq_append, hgap]
      exact .cons hreads (ih _ hlt rest rfl)

/-- Characters that are skipped before what stands behind them. -/
def Skips (table : LexTable K) (gap back : List Char) : Prop :=
  ∀ input : Input, input.chars = gap ++ back →
    ∃ rest : Input, table.next input = table.next rest ∧ rest.chars = back

theorem skips_nil (back : List Char) : table.Skips [] back :=
  fun input hchars => ⟨input, rfl, hchars⟩

/-- **Pieces with something to skip between them**, each read before what stands behind it. -/
inductive Woven (table : LexTable K) : List (K × String) → List Char → Prop where
  | nil (gap : List Char) (hgap : table.Skips gap []) : Woven table [] gap
  | cons {kind : K} {text : String} {pieces : List (K × String)} (gap : List Char)
      {chars : List Char}
      (hgap : table.Skips gap (text.toList ++ chars)) (hreads : table.Reads kind text.toList chars)
      (h : Woven table pieces chars) :
      Woven table ((kind, text) :: pieces) (gap ++ (text.toList ++ chars))

/-- **What is woven of pieces is read as these pieces.** -/
theorem Woven.collect {pieces : List (K × String)} {chars : List Char}
    (h : table.Woven pieces chars) : ∀ input : Input, input.chars = chars →
      (Cursor.collect table [] input).map (fun token => (token.kind, token.text)) = pieces := by
  induction h with
  | @nil gap hgap =>
    intro input hchars
    obtain ⟨rest, hnext, hrest⟩ := hgap input (by rw [hchars, List.append_nil])
    rw [next_of_nil hrest] at hnext
    rw [Cursor.collect_of_next_none hnext]
    rfl
  | @cons kind text pieces gap chars hgap hreads _ ih =>
    intro input hchars
    obtain ⟨middle, hskip, hmiddle⟩ := hgap input hchars
    obtain ⟨rest, hnext, hrest⟩ := hreads.next hmiddle
    rw [hnext] at hskip
    rw [Cursor.collect_of_next_some hskip, Cursor.collect_eq_append, List.map_append, ih rest hrest,
      String.ofList_toList]
    rfl

/-- Pieces with a space before each of them, before what goes on with a space or ends there. -/
theorem Woven.spaced {pieces more : List (K × String)} {tail : List Char}
    (hreads : ∀ piece ∈ pieces, ∀ back : List Char, (∀ c ∈ back.head?, c = ' ') →
      table.Reads piece.1 piece.2.toList back)
    (hskips : ∀ piece ∈ pieces, ∀ back, table.Skips [' '] (piece.2.toList ++ back))
    (htail : ∀ c ∈ tail.head?, c = ' ') (h : table.Woven more tail) :
    table.Woven (pieces ++ more) (pieces.flatMap (fun piece => ' ' :: piece.2.toList) ++ tail) := by
  induction pieces with
  | nil => exact h
  | cons piece pieces ih =>
    obtain ⟨hfirst, hreads⟩ := List.forall_mem_cons.mp hreads
    obtain ⟨hskip, hskips⟩ := List.forall_mem_cons.mp hskips
    have hhead : ∀ c ∈ (pieces.flatMap (fun piece => ' ' :: piece.2.toList) ++ tail).head?,
        c = ' ' := by
      cases pieces with
      | nil => exact htail
      | cons next pieces =>
        intro c hc
        cases hc
        rfl
    rw [List.flatMap_cons, List.append_assoc, List.cons_append]
    exact .cons [' '] (hskip _) (hfirst _ hhead) (ih hreads hskips)

/-- The kinds and the texts of the tokens of a text. -/
def spellings (table : LexTable K) (source : String) : List (K × String) :=
  (Cursor.start table source).tokens.map fun token => (token.kind, token.text)

theorem Woven.spellings {pieces : List (K × String)} {source : String}
    (h : table.Woven pieces source.toList) : table.spellings source = pieces := by
  rw [LexTable.spellings, Cursor.start, Cursor.tokens_atNext]
  exact h.collect (Input.ofString source) rfl

end LexTable

end GrammarKit
