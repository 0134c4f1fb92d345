import GrammarKit.Proofs.Lookahead
import Mathlib.Data.List.Forall2

/-!
# What a matcher takes, exactly

The answer of a matcher is a number of bytes, and `0` stands for two things: nothing matches, or what
matches is empty.  A caller cannot tell them apart.  So the empty text and the empty run are never
matched, and a sequence with such a step takes nothing at all.

What is taken otherwise is described here without the function that finds it.  The bytes taken do not
settle it by themselves: a run goes on as long as it can, and a closed text ends as soon as it can.
So the description speaks of the bytes taken and of those behind them.

* `Matcher.CutsOff`: what a matcher cuts off the front of a text.
* `Matcher.consumed_eq_length_iff`: it takes that, and nothing else.
* `Matcher.Climbs`: the ends at which the steps of a sequence arrive.
* `Matcher.Unnested`: a sequence in a sequence is replaced by its steps.
* `Matcher.matchEnd_exact`: where a match that starts at a given byte ends.
-/

namespace GrammarKit

/-! ## 1.  Letters -/

/-- The same byte, or the two forms of an ASCII letter, which are 32 apart. -/
def SameLetter (a b : UInt8) : Prop :=
  a = b ∨ (ByteClass.isLetter a = true ∧ ByteClass.isLetter b = true ∧ (a + 32 = b ∨ b + 32 = a))

theorem toNat_foldCase (b : UInt8) :
    (foldCase b).toNat = if 65 ≤ b.toNat ∧ b.toNat ≤ 90 then b.toNat + 32 else b.toNat := by
  simp only [foldCase, Bool.and_eq_true, decide_eq_true_eq, UInt8.le_iff_toNat_le,
    UInt8.reduceToNat]
  split
  · next h =>
    have hsum : b.toNat + 32 < 256 := by omega
    rw [UInt8.toNat_add]
    exact Nat.mod_eq_of_lt hsum
  · rfl

theorem foldCase_eq_foldCase_iff (a b : UInt8) : foldCase a = foldCase b ↔ SameLetter a b := by
  have ha := a.toNat_lt
  have hb := b.toNat_lt
  simp only [SameLetter, ByteClass.isLetter, ← UInt8.toNat_inj, toNat_foldCase, UInt8.toNat_add,
    Bool.or_eq_true, Bool.and_eq_true, decide_eq_true_eq, UInt8.le_iff_toNat_le, UInt8.reduceToNat]
  split <;> split <;> omega

/-- Two texts are folded alike if they are the same letter for letter. -/
theorem map_foldCase_eq_map_foldCase_iff {bytes text : List UInt8} :
    bytes.map foldCase = text.map foldCase ↔ List.Forall₂ SameLetter bytes text := by
  rw [← List.forall₂_eq_eq_eq, List.forall₂_map_left_iff, List.forall₂_map_right_iff]
  simp only [foldCase_eq_foldCase_iff]

namespace Matcher

/-! ## 2.  The description -/

/-- `taken` is a run of bytes of the class, and no longer one starts where it does. -/
def IsLongestRun (cls : ByteClass) (taken behind : List UInt8) : Prop :=
  (∀ b ∈ taken, cls.contains b = true) ∧
    ∀ other, other <+: taken ++ behind → (∀ b ∈ other, cls.contains b = true) →
      other.length ≤ taken.length

/-- `taken` is the opening text with the shortest continuation that ends with the closing text. -/
def ClosesFirst (opening closing taken behind : List UInt8) : Prop :=
  ∃ body, taken = opening ++ body ∧ closing <:+ body ∧
    ∀ other, opening ++ other <+: taken ++ behind → closing <:+ other → body.length ≤ other.length

mutual

/-- The matcher cuts `taken` off the front of `taken ++ behind`. -/
def CutsOff : Matcher → (taken behind : List UInt8) → Prop
  | .char cls, taken, _ => ∃ b, taken = [b] ∧ cls.contains b = true
  | .run cls, taken, behind => taken ≠ [] ∧ IsLongestRun cls taken behind
  | .literal text ignoreCase, taken, _ =>
    text ≠ [] ∧ if ignoreCase then List.Forall₂ SameLetter taken text else taken = text
  | .delimited opening closing, taken, behind =>
    opening ≠ [] ∧ ClosesFirst opening closing taken behind
  | .sequence steps, taken, behind => steps ≠ [] ∧ AllCutOff steps taken behind

/-- The steps in turn cut off parts of at least one byte each, which together are `taken`. -/
def AllCutOff : List Matcher → (taken behind : List UInt8) → Prop
  | [], taken, _ => taken = []
  | step :: steps, taken, behind => ∃ front back, taken = front ++ back ∧ front ≠ [] ∧
    step.CutsOff front (back ++ behind) ∧ AllCutOff steps back behind

end

/-! ## 3.  Runs, literals and closed texts -/

section Leaves

variable {taken behind : List UInt8}

theorem length_takeWhile_eq_iff {cls : ByteClass} :
    ((taken ++ behind).takeWhile cls.contains).length = taken.length ↔
      IsLongestRun cls taken behind := by
  have hlongest : ∀ other, other <+: taken ++ behind → (∀ b ∈ other, cls.contains b = true) →
      other.length ≤ ((taken ++ behind).takeWhile cls.contains).length := by
    rintro other ⟨more, hmore⟩ hall
    rw [← hmore, List.takeWhile_append_of_pos hall, List.length_append]
    exact Nat.le_add_right _ _
  have hrun := List.takeWhile_prefix cls.contains (l := taken ++ behind)
  constructor
  · intro hlength
    have htaken : (taken ++ behind).takeWhile cls.contains = taken :=
      (List.prefix_of_prefix_length_le hrun (List.prefix_append _ _) hlength.le).eq_of_length hlength
    refine ⟨fun b hb => ?_, fun other hother hall => hlength ▸ hlongest other hother hall⟩
    rw [← htaken] at hb
    exact List.mem_takeWhile_imp hb
  · rintro ⟨hall, hleast⟩
    exact Nat.le_antisymm (hleast _ hrun fun b hb => List.mem_takeWhile_imp hb)
      (hlongest taken (List.prefix_append _ _) hall)

theorem startsWith_iff_of_length_eq {text : List UInt8} {ignoreCase : Bool}
    (hlength : text.length = taken.length) :
    startsWith text ignoreCase (taken ++ behind) = true ↔
      if ignoreCase then List.Forall₂ SameLetter taken text else taken = text := by
  rw [startsWith_append ignoreCase hlength.le]
  have htake : taken.take text.length = taken := by rw [hlength, List.take_length]
  cases ignoreCase with
  | false =>
    refine ⟨fun h => ?_, fun h => ?_⟩
    · exact htake.symm.trans (take_of_startsWith h)
    · have hsame : taken = text := h
      rw [hsame]
      exact List.isPrefixOf_iff_prefix.mpr (List.prefix_refl text)
  | true =>
    rw [if_pos rfl, ← map_foldCase_eq_map_foldCase_iff, startsWith, if_pos rfl, htake,
      List.isPrefixOf_iff_prefix]
    refine ⟨fun h => (h.eq_of_length ?_).symm, fun h => h ▸ List.prefix_refl _⟩
    rw [List.length_map, List.length_map, hlength]

/-- Wherever the pattern occurs, its first occurrence is no further on. -/
theorem exists_firstOccurrence?_le {pattern : List UInt8} :
    ∀ {front bytes : List UInt8} (skipped : Nat), front ++ pattern <+: bytes →
      ∃ n, firstOccurrence? pattern bytes skipped = some n ∧ n ≤ skipped + front.length
  | front, [], skipped, h => by
    obtain ⟨rfl, rfl⟩ := List.append_eq_nil_iff.mp (List.prefix_nil.mp h)
    exact ⟨skipped, rfl, Nat.le_refl _⟩
  | front, b :: bytes, skipped, h => by
    rw [firstOccurrence?]
    by_cases hhere : pattern.isPrefixOf (b :: bytes) = true
    · rw [if_pos hhere]
      exact ⟨skipped, rfl, Nat.le_add_right _ _⟩
    · rw [if_neg hhere]
      cases front with
      | nil => exact absurd (List.isPrefixOf_iff_prefix.mpr h) hhere
      | cons c front =>
        obtain ⟨n, hn, hle⟩ :=
          exists_firstOccurrence?_le (skipped + 1) (List.cons_prefix_cons.mp h).2
        refine ⟨n, hn, ?_⟩
        rw [List.length_cons]
        omega

/-- **The first occurrence** is one, and there is none before it. -/
theorem firstOccurrence?_eq_some_iff {pattern bytes : List UInt8} {n : Nat} :
    firstOccurrence? pattern bytes 0 = some n ↔
      (∃ front, front.length = n ∧ front ++ pattern <+: bytes) ∧
        ∀ other, other ++ pattern <+: bytes → n ≤ other.length := by
  constructor
  · intro h
    obtain ⟨front, hn, hfront⟩ := exists_body_of_firstOccurrence? h
    refine ⟨⟨front, (hn.trans (Nat.zero_add _)).symm, hfront⟩, fun other hother => ?_⟩
    obtain ⟨n', hn', hle⟩ := exists_firstOccurrence?_le 0 hother
    cases h.symm.trans hn'
    omega
  · rintro ⟨⟨front, rfl, hfront⟩, hleast⟩
    obtain ⟨n, hn, hle⟩ := exists_firstOccurrence?_le 0 hfront
    obtain ⟨other, hother, hoccurs⟩ := exists_body_of_firstOccurrence? hn
    have hge := hleast other hoccurs
    rw [hn]
    exact congrArg some (by omega)

/-- The continuation is the shortest one if the closing text occurs in it at its end first. -/
theorem closesFirst_iff {opening closing : List UInt8} :
    ClosesFirst opening closing taken behind ↔
      ∃ front, taken = opening ++ (front ++ closing) ∧
        firstOccurrence? closing (front ++ closing ++ behind) 0 = some front.length := by
  have hcancel : ∀ body other : List UInt8,
      opening ++ other <+: opening ++ body ++ behind ↔ other <+: body ++ behind := by
    intro body other
    rw [List.append_assoc, List.prefix_append_right_inj]
  constructor
  · rintro ⟨_, rfl, ⟨front, rfl⟩, hleast⟩
    refine ⟨front, rfl, firstOccurrence?_eq_some_iff.mpr
      ⟨⟨front, rfl, List.prefix_append _ _⟩, fun other hother => ?_⟩⟩
    have hlength := hleast _ ((hcancel _ _).mpr hother) (List.suffix_append _ _)
    simpa using hlength
  · rintro ⟨front, rfl, hfront⟩
    refine ⟨front ++ closing, rfl, List.suffix_append _ _, ?_⟩
    rintro _ hother ⟨other, rfl⟩
    have hle := (firstOccurrence?_eq_some_iff.mp hfront).2 other ((hcancel _ _).mp hother)
    simpa using hle

theorem consumedBetween_opening {opening : List UInt8} (hne : opening ≠ [])
    (closing rest : List UInt8) :
    consumedBetween opening closing (opening ++ rest) =
      (firstOccurrence? closing rest 0).elim 0 fun n => opening.length + n + closing.length := by
  have hstarts : ¬ (opening.isEmpty || !opening.isPrefixOf (opening ++ rest)) = true := by
    simpa using hne
  rw [consumedBetween, if_neg hstarts, List.drop_left]
  cases firstOccurrence? closing rest 0 <;> rfl

theorem consumedBetween_eq_length_iff {opening closing : List UInt8} (hne : taken ≠ []) :
    consumedBetween opening closing (taken ++ behind) = taken.length ↔
      opening ≠ [] ∧ ClosesFirst opening closing taken behind := by
  rw [closesFirst_iff]
  constructor
  · intro h
    have hpos : consumedBetween opening closing (taken ++ behind) ≠ 0 := by
      rw [h]
      exact fun hzero => hne (List.length_eq_zero_iff.mp hzero)
    have hopening : opening ≠ [] := by
      rintro rfl
      exact hpos rfl
    obtain ⟨front, hfront⟩ := exists_body_of_consumedBetween hpos
    rw [h, List.take_left] at hfront
    subst hfront
    refine ⟨hopening, front, rfl, ?_⟩
    rw [List.append_assoc, consumedBetween_opening hopening] at h hpos
    cases hfirst : firstOccurrence? closing (front ++ closing ++ behind) 0 with
    | none =>
      rw [hfirst] at hpos
      exact absurd rfl hpos
    | some n =>
      rw [hfirst, Option.elim_some] at h
      simp only [List.length_append] at h
      exact congrArg some (by omega)
  · rintro ⟨hopening, front, rfl, hfront⟩
    rw [List.append_assoc, consumedBetween_opening hopening, hfront]
    simp [Nat.add_assoc]

end Leaves

/-! ## 4.  All matchers -/

/-- Steps take so much in turn if the first one takes something and the others take what is missing. -/
theorem consumedByAll_cons_eq_some_iff {step : Matcher} {steps : List Matcher} {bytes : List UInt8}
    {n : Nat} :
    consumedByAll (step :: steps) bytes = some n ↔
      0 < step.consumed bytes ∧ ∃ more,
        consumedByAll steps (bytes.drop (step.consumed bytes)) = some more ∧
          step.consumed bytes + more = n := by
  rw [consumedByAll]
  cases step.consumed bytes with
  | zero => simp
  | succ first => simp

mutual

/-- **A matcher takes what it is described to cut off**, and nothing else. -/
theorem consumed_eq_length_iff : ∀ (m : Matcher) {taken : List UInt8} (behind : List UInt8),
    taken ≠ [] → (m.consumed (taken ++ behind) = taken.length ↔ m.CutsOff taken behind)
  | .char cls, [], _, hne => absurd rfl hne
  | .char cls, b :: taken, behind, _ => by
    show (if cls.contains b = true then 1 else 0) = taken.length + 1 ↔
      ∃ x, b :: taken = [x] ∧ cls.contains x = true
    split
    · next hb =>
      refine ⟨fun h => ?_, ?_⟩
      · have htaken : taken = [] := List.length_eq_zero_iff.mp (by omega)
        exact ⟨b, by rw [htaken], hb⟩
      · rintro ⟨x, hx, -⟩
        cases hx
        rfl
    · next hb =>
      refine ⟨fun h => by omega, ?_⟩
      rintro ⟨x, hx, hmem⟩
      cases hx
      exact absurd hmem hb
  | .run cls, taken, behind, hne => by
    rw [consumed, CutsOff, length_takeWhile_eq_iff]
    exact (and_iff_right hne).symm
  | .literal text ignoreCase, taken, behind, hne => by
    rw [consumed, CutsOff]
    constructor
    · intro h
      split at h
      · next hstarts =>
        refine ⟨fun hnil => hne ?_, (startsWith_iff_of_length_eq h).mp hstarts⟩
        rw [hnil] at h
        exact List.length_eq_zero_iff.mp h.symm
      · exact absurd (List.length_eq_zero_iff.mp h.symm) hne
    · rintro ⟨-, hsame⟩
      have hlength : text.length = taken.length := by
        cases ignoreCase with
        | false => exact (congrArg List.length hsame).symm
        | true => exact (List.Forall₂.length_eq hsame).symm
      rw [if_pos ((startsWith_iff_of_length_eq hlength).mpr hsame), hlength]
  | .delimited opening closing, taken, behind, hne => by
    rw [consumed, CutsOff]
    exact consumedBetween_eq_length_iff hne
  | .sequence steps, taken, behind, hne => by
    rw [consumed, CutsOff, ← consumedByAll_eq_length_iff steps]
    constructor
    · intro h
      cases hsteps : consumedByAll steps (taken ++ behind) with
      | none =>
        rw [hsteps] at h
        exact absurd (List.length_eq_zero_iff.mp h.symm) hne
      | some n =>
        rw [hsteps] at h
        refine ⟨fun hnil => hne ?_, congrArg some h⟩
        rw [hnil] at hsteps
        cases hsteps
        exact List.length_eq_zero_iff.mp h.symm
    · rintro ⟨-, hsteps⟩
      rw [hsteps]
      rfl

/-- The same for several matchers in turn. -/
theorem consumedByAll_eq_length_iff : ∀ (steps : List Matcher) {taken : List UInt8}
    (behind : List UInt8),
    consumedByAll steps (taken ++ behind) = some taken.length ↔ AllCutOff steps taken behind
  | [], taken, behind => by
    rw [consumedByAll, AllCutOff, Option.some_inj, eq_comm, List.length_eq_zero_iff]
  | step :: steps, taken, behind => by
    rw [AllCutOff]
    constructor
    · intro h
      obtain ⟨hpos, more, hmore, hlength⟩ := consumedByAll_cons_eq_some_iff.mp h
      obtain ⟨front, back, rfl, hfront⟩ : ∃ front back, taken = front ++ back ∧
          front.length = step.consumed (taken ++ behind) :=
        ⟨_, _, (List.take_append_drop (step.consumed (taken ++ behind)) taken).symm,
          List.length_take_of_le (by omega)⟩
      have hne : front ≠ [] := List.length_pos_iff.mp (hfront ▸ hpos)
      rw [← hfront, List.append_assoc, List.drop_left] at hmore
      rw [← hfront, List.length_append, Nat.add_left_cancel_iff] at hlength
      refine ⟨front, back, rfl, hne, ?_, ?_⟩
      · rw [← consumed_eq_length_iff step _ hne, ← List.append_assoc, hfront]
      · rw [← consumedByAll_eq_length_iff steps, hmore, hlength]
    · rintro ⟨front, back, rfl, hne, hstep, hsteps⟩
      rw [← consumed_eq_length_iff step _ hne] at hstep
      rw [← consumedByAll_eq_length_iff steps] at hsteps
      rw [List.append_assoc, consumedByAll_cons hstep hne, hsteps, List.length_append]
      rfl

end

/-! ## 5.  Sequences -/

/-- Starting from byte `start` each step arrives at a larger end than the one before, and the last
one at `stop`. -/
def Climbs (bytes : List UInt8) : List Matcher → (start stop : Nat) → Prop
  | [], start, stop => start = stop
  | step :: steps, start, stop =>
    start < step.matchEnd bytes start ∧ Climbs bytes steps (step.matchEnd bytes start) stop

theorem climbs_iff (bytes : List UInt8) : ∀ (steps : List Matcher) (start stop : Nat),
    Climbs bytes steps start stop ↔
      ∃ n, consumedByAll steps (bytes.drop start) = some n ∧ start + n = stop
  | [], start, stop => by simp [Climbs, consumedByAll]
  | step :: steps, start, stop => by
    simp only [Climbs, climbs_iff bytes steps, matchEnd, consumedByAll_cons_eq_some_iff,
      List.drop_drop]
    constructor
    · rintro ⟨hlt, n, hn, rfl⟩
      exact ⟨_, ⟨by omega, n, hn, rfl⟩, (Nat.add_assoc _ _ _).symm⟩
    · rintro ⟨_, ⟨hpos, n, hn, rfl⟩, rfl⟩
      exact ⟨by omega, n, hn, Nat.add_assoc _ _ _⟩

/-- Steps behind other steps go on where those have arrived. -/
theorem consumedByAll_append_steps : ∀ (before after : List Matcher) (bytes : List UInt8),
    consumedByAll (before ++ after) bytes =
      (consumedByAll before bytes).bind fun n =>
        (consumedByAll after (bytes.drop n)).map (n + ·)
  | [], after, bytes => by simp [consumedByAll]
  | step :: before, after, bytes => by
    rw [List.cons_append, consumedByAll, consumedByAll]
    cases step.consumed bytes with
    | zero => rfl
    | succ n =>
      dsimp only
      rw [consumedByAll_append_steps before after]
      simp [Option.map_bind, Option.bind_map, Function.comp_def, Nat.add_assoc]

/-- A sequence takes as a step what its steps take. -/
theorem consumedByAll_unnest {steps : List Matcher} (hne : steps ≠ []) (after : List Matcher)
    (bytes : List UInt8) :
    consumedByAll (.sequence steps :: after) bytes = consumedByAll (steps ++ after) bytes := by
  rw [consumedByAll_append_steps, consumedByAll, consumed]
  cases hsteps : consumedByAll steps bytes with
  | none => rfl
  | some n =>
    cases n with
    | zero =>
      -- A step takes at least one byte, so only the empty sequence could take none.
      cases steps with
      | nil => exact absurd rfl hne
      | cons step steps =>
        obtain ⟨hpos, more, -, hmore⟩ := consumedByAll_cons_eq_some_iff.mp hsteps
        omega
    | succ n => rfl

/-- Somewhere in the first matcher, which is a sequence, there is a sequence among the steps of a
sequence; in the second one its own steps stand there instead. -/
inductive Unnested : Matcher → Matcher → Prop where
  | here (before : List Matcher) {steps : List Matcher} (after : List Matcher) (hne : steps ≠ []) :
      Unnested (.sequence (before ++ .sequence steps :: after))
        (.sequence (before ++ (steps ++ after)))
  | inside (before : List Matcher) {step step' : Matcher} (after : List Matcher)
      (h : Unnested step step') :
      Unnested (.sequence (before ++ step :: after)) (.sequence (before ++ step' :: after))

/-- **Nesting makes no difference.** -/
theorem Unnested.consumed_eq {m m' : Matcher} (h : m.Unnested m') (bytes : List UInt8) :
    m'.consumed bytes = m.consumed bytes := by
  induction h generalizing bytes with
  | here before after hne =>
    simp only [consumed, consumedByAll_append_steps before, consumedByAll_unnest hne]
  | inside before after _ ih =>
    simp only [consumed, consumedByAll_append_steps before, consumedByAll, ih]

/-- A sequence without steps may not be left out: it takes nothing, so the whole takes nothing. -/
example :
    (sequence [.ofChar 'a', .sequence []]).matchEnd (utf8 ['a']) 0 = 0 ∧
      (sequence [.ofChar 'a']).matchEnd (utf8 ['a']) 0 = 1 := by
  decide +kernel

/-! ## 6.  Ends of matches -/

/-- A match that starts at byte `start` ends there, or further on but within the bytes. -/
theorem matchEnd_eq_or_lt (m : Matcher) (bytes : List UInt8) (start : Nat) :
    m.matchEnd bytes start = start ∨
      start < m.matchEnd bytes start ∧ m.matchEnd bytes start ≤ bytes.length := by
  have hle := m.consumed_le (bytes.drop start)
  rw [List.length_drop] at hle
  unfold matchEnd
  omega

theorem matchEnd_eq_iff_cutsOff (m : Matcher) {bytes : List UInt8} {start stop : Nat}
    (hlt : start < stop) (hle : stop ≤ bytes.length) :
    m.matchEnd bytes start = stop ↔ m.CutsOff (bytes.extract start stop) (bytes.drop stop) := by
  have hlength : (bytes.extract start stop).length = stop - start := by
    rw [List.length_take_of_le]
    rw [List.length_drop]
    omega
  have hne : bytes.extract start stop ≠ [] := by
    intro hnil
    rw [hnil, List.length_nil] at hlength
    omega
  have hsplit : bytes.extract start stop ++ bytes.drop stop = bytes.drop start := by
    have hdrop : bytes.drop stop = (bytes.drop start).drop (stop - start) := by
      rw [List.drop_drop, Nat.add_sub_cancel' hlt.le]
    rw [hdrop, List.take_append_drop]
  rw [← consumed_eq_length_iff m _ hne, hsplit, hlength, matchEnd]
  omega

theorem matchEnd_sequence_eq_iff {steps : List Matcher} {bytes : List UInt8} {start stop : Nat}
    (hlt : start < stop) :
    (sequence steps).matchEnd bytes start = stop ↔ steps ≠ [] ∧ Climbs bytes steps start stop := by
  rw [climbs_iff, matchEnd, consumed]
  cases hsteps : consumedByAll steps (bytes.drop start) with
  | none => simpa using hlt.ne
  | some n =>
    have hne : start + n = stop → steps ≠ [] := by
      rintro hstop rfl
      cases hsteps
      omega
    simpa using hne

/-- **The end of a match.**  Whatever the matcher is made of, and wherever in the bytes or behind them
it is asked, it answers the byte it was asked at, or an end further on within the bytes.  It answers an
end further on just if the bytes up to there are what it is described to cut off: one byte of the
class; the longest run of the class; the text, its letters in either case where case is ignored; the
opening text with the shortest continuation that ends with the closing text; or what the steps of the
sequence cut off in turn.  None of these is empty, nor is the text, the opening text or the sequence.
A sequence arrives at an end just if its steps climb up to it, each answering a larger end than the
one before.  And if a sequence in a sequence, however deep, has steps and is replaced by them, the
answer stays the same. -/
theorem matchEnd_exact (m : Matcher) (bytes : List UInt8) (start : Nat) :
    (m.matchEnd bytes start = start ∨
      start < m.matchEnd bytes start ∧ m.matchEnd bytes start ≤ bytes.length) ∧
    (∀ stop, start < stop → stop ≤ bytes.length →
      (m.matchEnd bytes start = stop ↔ m.CutsOff (bytes.extract start stop) (bytes.drop stop))) ∧
    (∀ steps, m = .sequence steps → ∀ stop, start < stop →
      (m.matchEnd bytes start = stop ↔ steps ≠ [] ∧ Climbs bytes steps start stop)) ∧
    ∀ m', m.Unnested m' → m'.matchEnd bytes start = m.matchEnd bytes start := by
  refine ⟨m.matchEnd_eq_or_lt bytes start, fun stop hlt hle => m.matchEnd_eq_iff_cutsOff hlt hle,
    ?_, fun m' h => ?_⟩
  · rintro steps rfl stop hlt
    exact matchEnd_sequence_eq_iff hlt
  · rw [matchEnd, matchEnd, h.consumed_eq]

/-- Two letters, digits and a comment, nested and not.  The comment does not end with its third byte,
which is a part of the opening text already. -/
theorem matchEnd_exact_comment :
    let comment : Matcher := .between "/*" "*/"
    let nested : Matcher := .sequence [.keyword "ab", .sequence [.run .digit, comment]]
    let flat : Matcher := .sequence [.keyword "ab", .run .digit, comment]
    let bytes := utf8 "-Ab12/*/*/-".toList
    1 < 10 ∧ 10 ≤ bytes.length ∧ nested.Unnested flat ∧
      nested.CutsOff (utf8 "Ab12/*/*/".toList) (utf8 "-".toList) ∧
      Climbs bytes [.keyword "ab", .sequence [.run .digit, comment]] 1 10 ∧
      flat.matchEnd bytes 1 = 10 := by
  intro comment nested flat bytes
  have hle : 10 ≤ bytes.length := by decide +kernel
  have hend : nested.matchEnd bytes 1 = 10 := by decide +kernel
  have hflat : nested.Unnested flat := .here [.keyword "ab"] [] (List.cons_ne_nil _ _)
  obtain ⟨-, hcuts, hclimbs, hsame⟩ := nested.matchEnd_exact bytes 1
  exact ⟨by decide, hle, hflat, (hcuts 10 (by decide) hle).mp hend,
    ((hclimbs _ rfl 10 (by decide)).mp hend).2, (hsame flat hflat).trans hend⟩

end Matcher

end GrammarKit
