import GrammarKit.Proofs.Tiling
import Mathlib.Order.Monotone.Basic
import Mathlib.Tactic.TFAE
import Mathlib.Tactic.WLOG

/-!
# The places of a cursor

A cursor that is moved along a text comes to one place for each token and then to the end.  How the
end is told, by a position, a kind and an empty text, holds for every table: no rule makes an empty
token, so a token of the end kind is never taken for the end, and what is dropped behind the last
token is read with it.

Cursors are compared without their offsets.  That is enough, for a cursor that came by moving keeps
the offset of its token in the place where it reads on.

* `Cursor.after`: the cursor on a text after a number of moves; `tokens_after` is what it has ahead.
* `eq_atEnd_of_isAtEnd`: there is but one end.
* `eq_of_offset_after_eq`, `eq_of_beq_after`: a place is known by its offset, and by comparison.
* `length_tokens_le`: there are no more tokens than characters.
* `moves_through_places`: all of this about every cursor that a text has.
-/

namespace GrammarKit

variable {K : Type}

/-! ## 1.  Reading on -/

/-- What the chosen rule read lies between the two inputs. -/
theorem LexTable.offset_of_first? {table : LexTable K} {input rest : Input} {kind? : Option K}
    {text : String} (h : table.first? input = some (kind?, text, rest)) :
    rest.offset = input.offset + text.utf8ByteSize := by
  obtain ⟨rule, -, hrule⟩ := List.exists_of_findSome?_eq_some h
  obtain ⟨read, hread, heq⟩ := Option.map_eq_some_iff.mp hrule
  cases heq
  unfold LexRule.read? at hread
  split at hread
  · cases hread
  · rw [Input.offset_of_take? hread, ← utf8_length, Input.utf8_length_of_take? hread]

/-- The next reading starts where the token ends. -/
theorem LexTable.offset_next_eq_token_stop (table : LexTable K) (input : Input) :
    ∀ token, (table.next input).1 = some token → (table.next input).2.offset = token.stop := by
  fun_induction table.next input with
  | case1 => intro token h; cases h
  | case2 input c tail hchars kind text rest hfirst =>
    intro token h
    cases h
    exact offset_of_first? hfirst
  | case3 input c tail hchars text rest hfirst ih => exact ih
  | case4 input c tail hchars hfirst text rest htake =>
    intro token h
    cases h
    rw [Token.stop, Input.offset_of_take? htake, ← utf8_length, Input.utf8_length_of_take? htake]
  | case5 => intro token h; cases h

/-- At the end of a text no character is left. -/
theorem Input.eq_finish_of_offset_eq_stop {input : Input} (h : input.offset = input.stop) :
    input = input.finish := by
  have hbytes : utf8 input.chars = [] := by
    have hlength := input.stop_eq
    rw [← input.bytes_eq]
    exact List.eq_nil_of_length_eq_zero (by omega)
  refine Input.ext ?_ h
  cases hchars : input.chars with
  | nil => rfl
  | cons c chars =>
    have hpos := c.utf8Size_pos
    have hlength := congrArg List.length hbytes
    rw [hchars, utf8_cons, List.length_append, String.length_utf8EncodeChar] at hlength
    simp only [List.length_nil] at hlength
    omega

/-- What is left of a text is found again by its place. -/
theorem Input.IsRest.dropTo {text : String} {input : Input} (h : input.IsRest text) :
    Input.dropTo text input.offset = input := by
  obtain ⟨front, htext, hoffset⟩ := h
  obtain ⟨rest, htake, hchars⟩ :=
    Input.exists_take? (show (Input.ofString text).chars = front.toList ++ input.chars from htext)
  rw [utf8_length, hoffset] at htake
  have hrest : rest.offset = input.offset := by
    rw [Input.offset_of_take? htake]
    exact Nat.zero_add _
  simp only [Input.dropTo, htake]
  exact Input.ext hchars hrest

/-- Reading a token leaves what is left of the text. -/
theorem Input.IsRest.next {text : String} {input : Input} (h : input.IsRest text)
    (table : LexTable K) : (table.next input).2.IsRest text := by
  fun_induction table.next input with
  | case1 => exact h
  | case2 input c tail hchars kind piece rest hfirst => exact (LexTable.takes_of_first? h hfirst).2.1
  | case3 input c tail hchars piece rest hfirst ih => exact ih (LexTable.takes_of_first? h hfirst).2.1
  | case4 input c tail hchars hfirst piece rest htake => exact (h.take? htake).1
  | case5 input c tail hchars hfirst htake =>
    obtain ⟨front, htext, hoffset⟩ := h
    refine ⟨text, by simp [Input.finish], ?_⟩
    show text.utf8ByteSize = input.stop
    rw [input.stop_eq, input.bytes_eq, ← utf8_length, htext, utf8_append, List.length_append,
      utf8_length, hoffset]

namespace Cursor

/-! ## 2.  Moving a cursor -/

/-- The cursor on a text after `k` moves. -/
def after (table : LexTable K) (text : String) (k : Nat) : Cursor K :=
  advance^[k] (start table text)

variable (table : LexTable K) (text : String)

theorem after_succ (k : Nat) : after table text (k + 1) = (after table text k).advance :=
  Function.iterate_succ_apply' _ _ _

/-- A cursor moves by reading on, also at the end. -/
theorem advance_atNext (input : Input) :
    (atNext table input).advance = atNext table (table.next input).2 := by
  cases htoken : (table.next input).1 with
  | none =>
    have hchars : (table.next input).2.chars = [] :=
      congrArg Input.chars (Input.eq_finish_of_offset_eq_stop
        (offset_next_eq_stop table input htoken))
    rw [advance_eq_self htoken, atNext, atNext, LexTable.next_of_nil hchars, htoken]
  | some token => simp only [advance, atNext, htoken]

/-- Each place was come to by reading on from somewhere in the text. -/
theorem exists_after_eq_atNext (k : Nat) :
    ∃ input : Input, input.IsRest text ∧ after table text k = atNext table input := by
  induction k with
  | zero => exact ⟨Input.ofString text, .start text, rfl⟩
  | succ k ih =>
    obtain ⟨input, hinput, heq⟩ := ih
    refine ⟨(table.next input).2, hinput.next table, ?_⟩
    rw [after_succ, heq, advance_atNext]

/-- The token of a cursor, or the end token, ends where the cursor reads on. -/
theorem stop_token_atNext (input : Input) :
    (atNext table input).token.stop = (atNext table input).rest.offset := by
  cases htoken : (table.next input).1 with
  | none => simp [token, atNext, htoken, LexTable.endToken, Token.stop]
  | some found =>
    simp only [token, atNext, htoken, Option.getD_some]
    exact (table.offset_next_eq_token_stop input found htoken).symm

theorem stop_token_after (k : Nat) :
    (after table text k).token.stop = (after table text k).rest.offset := by
  obtain ⟨input, -, heq⟩ := exists_after_eq_atNext table text k
  rw [heq]
  exact stop_token_atNext table input

theorem isAtEnd_iff_tokens_eq_nil (c : Cursor K) : c.isAtEnd = true ↔ c.tokens = [] := by
  cases htoken : c.token? with
  | none => simp [isAtEnd, tokens, htoken]
  | some token => simp [isAtEnd, tokens_of_token? htoken, htoken]

/-- **A move drops one token.** -/
theorem tokens_advance (c : Cursor K) : c.advance.tokens = c.tokens.drop 1 := by
  cases htoken : c.token? with
  | none =>
    have hnil : c.tokens = [] := by simp [tokens, htoken]
    rw [advance_eq_self htoken, hnil, List.drop_nil]
  | some token => rw [tokens_of_token? htoken, List.drop_one, List.tail_cons]

/-- After `k` moves all but the first `k` tokens are ahead. -/
theorem tokens_after (k : Nat) : (after table text k).tokens = (start table text).tokens.drop k := by
  induction k with
  | zero => rfl
  | succ k ih => rw [after_succ, tokens_advance, ih, List.drop_drop]

/-- The end is come to after as many moves as there are tokens. -/
theorem isAtEnd_after_iff (k : Nat) :
    (after table text k).isAtEnd = true ↔ (start table text).tokens.length ≤ k := by
  rw [isAtEnd_iff_tokens_eq_nil, tokens_after, List.drop_eq_nil_iff]

/-! ## 3.  The end -/

/-- **There is but one end.** -/
theorem eq_atEnd_of_isAtEnd {k : Nat} (h : (after table text k).isAtEnd = true) :
    after table text k = atEnd table text := by
  obtain ⟨input, hinput, heq⟩ := exists_after_eq_atNext table text k
  rw [heq] at h ⊢
  have hnone : (table.next input).1 = none := Option.isNone_iff_eq_none.mp h
  have hfinish : (table.next input).2 = (Input.ofString text).finish := by
    have hoffset := offset_next_eq_stop table input hnone
    have hchars : (table.next input).2.chars = [] :=
      congrArg Input.chars (Input.eq_finish_of_offset_eq_stop hoffset)
    obtain ⟨front, htext, hfront⟩ := hinput.next table
    refine Input.ext hchars ?_
    show (table.next input).2.offset = (utf8 text.toList).length
    rw [hoffset, (table.next input).2.stop_eq, (table.next input).2.bytes_eq, htext, utf8_append,
      List.length_append, utf8_length, hfront]
  rw [atNext, hnone, hfinish]
  rfl

theorem text_token_after_ne_empty {k : Nat} (h : (after table text k).isAtEnd = false) :
    (after table text k).token.text ≠ "" := by
  obtain ⟨input, -, heq⟩ := exists_after_eq_atNext table text k
  rw [heq] at h ⊢
  obtain ⟨found, htoken⟩ := Option.isSome_iff_exists.mp (Option.isNone_eq_false_iff.mp h)
  rw [token, htoken]
  exact text_token_next table input found htoken

/-- The end is told by where the cursor reads on, by the kind of its token and by the empty text. -/
theorem isAtEnd_after_eq [BEq K] [ReflBEq K] (k : Nat) :
    (after table text k).isAtEnd =
      ((after table text k).rest.offset == text.utf8ByteSize &&
        (after table text k).token.kind == table.endOfText &&
        (after table text k).token.text.isEmpty) := by
  cases hend : (after table text k).isAtEnd with
  | true =>
    have hplace : (Input.ofString text).finish.offset = text.utf8ByteSize := utf8_length text
    rw [eq_atEnd_of_isAtEnd table text hend]
    simp [atEnd, token, LexTable.endToken, hplace]
  | false =>
    have htext : (after table text k).token.text.isEmpty = false := by
      simpa using text_token_after_ne_empty table text hend
    rw [htext, Bool.and_false]

/-- The end compares equal to nothing else. -/
theorem isAtEnd_of_beq_atEnd [BEq K] {k : Nat}
    (h : (after table text k == atEnd table text) = true) : (after table text k).isAtEnd = true := by
  obtain ⟨-, htoken⟩ := Bool.and_eq_true_iff.mp h
  rw [Token.beq_eq] at htoken
  have htext : (after table text k).token.text = "" :=
    eq_of_beq (Bool.and_eq_true_iff.mp htoken).2
  by_contra hend
  exact text_token_after_ne_empty table text (Bool.eq_false_iff.mpr hend) htext

/-- A cursor reads on from what is left of the text. -/
theorem advance_after (k : Nat) :
    (after table text k).rest.IsRest text ∧
      (after table text k).advance = atNext table (after table text k).rest := by
  obtain ⟨input, hinput, heq⟩ := exists_after_eq_atNext table text k
  rw [heq]
  exact ⟨hinput.next table, advance_atNext table input⟩

/-- **A move reads the table again** at the byte behind the token. -/
theorem token_advance_after (k : Nat) :
    ((after table text k).advance.token, (after table text k).advance.rest.offset) =
      table.tokenAt text (after table text k).rest.offset := by
  obtain ⟨hrest, hadvance⟩ := advance_after table text k
  rw [hadvance, LexTable.tokenAt, hrest.dropTo]
  rcases hnext : table.next (after table text k).rest with ⟨_ | found, rest⟩
  · simp [token, atNext, hnext]
  · simp [token, atNext, hnext]

/-! ## 4.  Comparing places -/

/-- Offsets never go back. -/
theorem monotone_offset_after : Monotone fun k => (after table text k).offset := by
  refine monotone_nat_of_le_succ fun k => ?_
  by_cases hend : (after table text k).token? = none
  · rw [after_succ, advance_eq_self hend]
  · exact Nat.le_of_lt (offsetsGrow_start table text k hend)

theorem offset_after_lt {j k : Nat} (hend : (after table text j).isAtEnd = false) (hlt : j < k) :
    (after table text j).offset < (after table text k).offset := by
  have htoken : (after table text j).token? ≠ none := by
    rw [isAtEnd] at hend
    exact Option.isSome_iff_ne_none.mp (Option.isNone_eq_false_iff.mp hend)
  exact Nat.lt_of_lt_of_le (offsetsGrow_start table text j htoken)
    (monotone_offset_after table text hlt)

theorem after_eq_of_isAtEnd {j k : Nat} (hend : (after table text j).isAtEnd = true) (hle : j ≤ k) :
    after table text j = after table text k := by
  have hlength := (isAtEnd_after_iff table text j).mp hend
  rw [eq_atEnd_of_isAtEnd table text hend, eq_atEnd_of_isAtEnd table text
    ((isAtEnd_after_iff table text k).mpr (Nat.le_trans hlength hle))]

/-- **A place is known by its offset.** -/
theorem eq_of_offset_after_eq {j k : Nat}
    (h : (after table text j).offset = (after table text k).offset) :
    after table text j = after table text k := by
  wlog hle : j ≤ k generalizing j k
  · exact (this h.symm (Nat.le_of_not_le hle)).symm
  cases hend : (after table text j).isAtEnd with
  | true => exact after_eq_of_isAtEnd table text hend hle
  | false =>
    rcases Nat.lt_or_eq_of_le hle with hlt | rfl
    · exact absurd h (Nat.ne_of_lt (offset_after_lt table text hend hlt))
    · rfl

/-- A place is known by the number of tokens ahead. -/
theorem eq_of_length_tokens_after_eq {j k : Nat}
    (h : (after table text j).tokens.length = (after table text k).tokens.length) :
    after table text j = after table text k := by
  wlog hle : j ≤ k generalizing j k
  · exact (this h.symm (Nat.le_of_not_le hle)).symm
  cases hend : (after table text j).isAtEnd with
  | true => exact after_eq_of_isAtEnd table text hend hle
  | false =>
    have hmore := (isAtEnd_after_iff table text j).not.mp (by simp [hend])
    rw [tokens_after, tokens_after, List.length_drop, List.length_drop] at h
    rw [show j = k by omega]

/-- **Comparison tells places apart**, though it leaves out the offsets. -/
theorem eq_of_beq_after [BEq K] {j k : Nat}
    (h : (after table text j == after table text k) = true) :
    after table text j = after table text k := by
  obtain ⟨hrest, htoken⟩ := Bool.and_eq_true_iff.mp h
  have htext : (after table text j).token.text = (after table text k).token.text := by
    rw [Token.beq_eq] at htoken
    exact eq_of_beq (Bool.and_eq_true_iff.mp htoken).2
  have hj := stop_token_after table text j
  have hk := stop_token_after table text k
  rw [eq_of_beq hrest, ← hk, Token.stop, Token.stop, htext] at hj
  exact eq_of_offset_after_eq table text (Nat.add_right_cancel hj)

instance [BEq K] [ReflBEq K] : ReflBEq (Token K) := ⟨by simp [Token.beq_eq]⟩

instance [BEq K] [ReflBEq K] : ReflBEq (Cursor K) := ⟨fun {c} => by
  show (c.rest.offset == c.rest.offset && c.token == c.token) = true
  rw [beq_self_eq_true, beq_self_eq_true, Bool.and_self]⟩

/-! ## 5.  The number of tokens -/

/-- There are no more tokens than characters. -/
theorem length_collect_le (input : Input) :
    (collect table [] input).length ≤ input.chars.length := by
  induction hn : input.chars.length using Nat.strongRecOn generalizing input with
  | _ n ih =>
    rcases hnext : table.next input with ⟨_ | token, rest⟩
    · rw [collect_of_next_none hnext]
      exact Nat.zero_le _
    · have hlt := table.length_next_lt input token (by rw [hnext])
      rw [hnext, hn] at hlt
      have hrest := ih _ hlt rest rfl
      rw [collect_of_next_some hnext, collect_eq_append, List.length_append]
      exact Nat.le_trans (Nat.add_le_add_left hrest 1) (by omega)

theorem length_tokens_le : (start table text).tokens.length ≤ text.length := by
  rw [start, tokens_atNext]
  exact length_collect_le table (Input.ofString text)

end Cursor

/-! ## 6.  All places -/

/-- **The places of a text**, whatever the table is.  Let a cursor be moved any number of times from
the start.  A move reads the table again at the byte behind the token, and whether the text is used up
shows in that byte, in the kind and in the text of the token.  It is used up if and only if the cursor
compares equal to the one at the end, and that is so after as many moves as there are tokens, of which
there are no more than characters.  From there a move leads nowhere; before, the token has a text and a
move leads to a larger offset.  Two such cursors are the same, compare equal, stand at one offset and
have the same tokens ahead, all or none. -/
theorem moves_through_places [BEq K] [ReflBEq K] (table : LexTable K) (text : String) :
    let count := (Cursor.start table text).tokens.length
    (∀ k, let c := Cursor.after table text k
      (c.advance.token, c.advance.rest.offset) = table.tokenAt text c.rest.offset ∧
      c.isAtEnd = (c.rest.offset == text.utf8ByteSize && c.token.kind == table.endOfText &&
        c.token.text.isEmpty) ∧
      (c.isAtEnd = true ↔ (c == Cursor.atEnd table text) = true) ∧
      (c.isAtEnd = true ↔ count ≤ k) ∧
      (c.isAtEnd = true → c.advance = c) ∧
      (c.isAtEnd = false → c.token.text ≠ "" ∧ c.offset < c.advance.offset)) ∧
    (∀ j k, List.TFAE [
      Cursor.after table text j = Cursor.after table text k,
      (Cursor.after table text j == Cursor.after table text k) = true,
      (Cursor.after table text j).offset = (Cursor.after table text k).offset,
      (Cursor.after table text j).tokens = (Cursor.after table text k).tokens,
      ((Cursor.after table text j).tokens == (Cursor.after table text k).tokens) = true]) ∧
    count ≤ text.length := by
  refine ⟨fun k => ⟨?_, Cursor.isAtEnd_after_eq table text k, ⟨fun hend => ?_, fun hend => ?_⟩,
    Cursor.isAtEnd_after_iff table text k, fun hend => ?_, fun hend => ⟨?_, ?_⟩⟩, fun j k => ?_,
    Cursor.length_tokens_le table text⟩
  · exact Cursor.token_advance_after table text k
  · rw [Cursor.eq_atEnd_of_isAtEnd table text hend]
    exact beq_self_eq_true _
  · exact Cursor.isAtEnd_of_beq_atEnd table text hend
  · exact Cursor.advance_eq_self (Option.isNone_iff_eq_none.mp hend)
  · exact Cursor.text_token_after_ne_empty table text hend
  · rw [← Cursor.after_succ]
    exact Cursor.offset_after_lt table text hend (Nat.lt_succ_self k)
  · tfae_have 1 → 2 := fun h => by rw [h]; exact beq_self_eq_true _
    tfae_have 2 → 3 := fun h => congrArg Cursor.offset (Cursor.eq_of_beq_after table text h)
    tfae_have 3 → 1 := Cursor.eq_of_offset_after_eq table text
    tfae_have 1 → 4 := fun h => congrArg Cursor.tokens h
    tfae_have 4 → 5 := fun h => by rw [h]; exact beq_self_eq_true _
    tfae_have 5 → 1 := fun h =>
      Cursor.eq_of_length_tokens_after_eq table text (List.length_eq_of_beq h)
    tfae_finish

/-- A table that makes a token of the end kind: the second cursor stands on one, and only the third,
behind the space that is dropped, is at the end. -/
theorem moves_through_places_end_kind :
    let table : LexTable Bool := ⟨[.skip (.ofChar ' '), .emit (.ofChar 'a') true], false, true⟩
    (Cursor.after table "b a " 1).token.kind = table.endOfText ∧
      (Cursor.after table "b a " 1 == Cursor.atEnd table "b a ") = false ∧
      (Cursor.after table "b a " 2 == Cursor.atEnd table "b a ") = true ∧
      (Cursor.start table "b a ").tokens.length ≤ "b a ".length := by
  intro table
  have hcount : (Cursor.start table "b a ").tokens.length = 2 := by decide +kernel
  obtain ⟨hplaces, -, hlength⟩ := moves_through_places table "b a "
  obtain ⟨-, -, hend, hmoves, -⟩ := hplaces 1
  obtain ⟨-, -, hend', hmoves', -⟩ := hplaces 2
  refine ⟨by decide +kernel, Bool.eq_false_iff.mpr fun heq => ?_, hend'.mp (hmoves'.mpr ?_), hlength⟩
  · have hle := hmoves.mp (hend.mpr heq)
    omega
  · omega

end GrammarKit
