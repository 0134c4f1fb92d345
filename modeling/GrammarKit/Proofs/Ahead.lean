import GrammarKit.Stream
import Mathlib.Logic.Function.Iterate

/-!
# The tokens ahead of a stream

However a stream gets hold of its tokens, what a parser can learn from it is the list of the tokens
ahead.  `Ahead s tokens` says that reading on from `s` gives `tokens` and then the end.

A list of tokens is itself a stream, the plainest one there is: a place in it is what is left of it.

* `exists_ahead`: whatever a stream promises, that is so of some list.
* `Ahead.iterate_advance`, `Ahead.remaining_lt`: reading `k` tokens drops them from the list, and is
  seen in `remaining`.
* `TokenArray.ahead_ahead`, `Cursor.ahead_tokens`: an array and a cursor read the tokens that they
  list.
* `OffsetsGrow`: a move is also seen in the offset, for `TokenArray.offsetsGrow` and
  `Cursor.offsetsGrow_start` always.
-/

namespace GrammarKit

variable {S T K : Type}

/-! ## Lists as streams -/

/-- Tokens held in a list.  What was read is forgotten, and with it the offset. -/
instance : TokenStream (List T) T where
  peek tokens := tokens.head?
  advance tokens := tokens.tail
  offset _ := 0
  remaining tokens := tokens.length

namespace TokenStream

@[simp] theorem peek_list (tokens : List T) : peek tokens = tokens.head? := rfl

@[simp] theorem advance_list (tokens : List T) : advance tokens = tokens.tail := rfl

@[simp] theorem remaining_list (tokens : List T) : remaining tokens = tokens.length := rfl

@[simp] theorem atEnd_nil : atEnd ([] : List T) = true := rfl

@[simp] theorem atEnd_cons (token : T) (tokens : List T) : atEnd (token :: tokens) = false := rfl

theorem atEnd_of_ne_nil {tokens : List T} (h : tokens ≠ []) : atEnd tokens = false := by
  cases tokens with
  | nil => exact absurd rfl h
  | cons token tokens => rfl

/-- Moving on in a list drops what was read. -/
theorem iterate_advance_list (tokens : List T) (k : Nat) :
    advance^[k] tokens = tokens.drop k := by
  induction k generalizing tokens with
  | zero => rfl
  | succ k ih => rw [Function.iterate_succ_apply, ih, advance_list, List.drop_tail]

end TokenStream

instance : LawfulTokenStream (List T) where
  advance_of_peek_eq_none tokens h := by
    cases tokens with
    | nil => rfl
    | cons token tokens => cases h
  remaining_advance_lt tokens h := by
    cases tokens with
    | nil => exact absurd rfl h
    | cons token tokens => exact Nat.lt_succ_self _

/-! ## Reading on -/

section Ahead

variable [TokenStream S T]

/-- Reading on from a place of a stream gives these tokens, and then the end. -/
def Ahead : S → List T → Prop
  | s, [] => TokenStream.peek s = none
  | s, token :: tokens => TokenStream.peek s = some token ∧ Ahead (TokenStream.advance s) tokens

theorem Ahead.peek {s : S} {tokens : List T} (h : Ahead s tokens) :
    TokenStream.peek s = tokens.head? := by
  cases tokens with
  | nil => exact h
  | cons token tokens => exact h.1

theorem Ahead.atEnd {s : S} {tokens : List T} (h : Ahead s tokens) :
    TokenStream.atEnd s = TokenStream.atEnd tokens := by
  rw [TokenStream.atEnd, h.peek]
  rfl

/-- A list holds what is ahead of it. -/
theorem ahead_list : ∀ tokens : List T, Ahead tokens tokens
  | [] => rfl
  | _ :: tokens => ⟨rfl, ahead_list tokens⟩

theorem Ahead.iterate_advance {s : S} {tokens : List T} (h : Ahead s tokens) {k : Nat}
    (hk : k ≤ tokens.length) : Ahead (TokenStream.advance^[k] s) (tokens.drop k) := by
  induction k generalizing s tokens with
  | zero => exact h
  | succ k ih =>
    cases tokens with
    | nil => simp at hk
    | cons token tokens =>
      rw [Function.iterate_succ_apply, List.drop_succ_cons]
      exact ih h.2 (by simpa using hk)

/-- There is but one list of tokens ahead. -/
theorem Ahead.unique {s : S} {tokens tokens' : List T} (h : Ahead s tokens)
    (h' : Ahead s tokens') : tokens = tokens' := by
  induction tokens generalizing s tokens' with
  | nil => exact (List.head?_eq_none_iff.mp (h'.peek.symm.trans h)).symm
  | cons token tokens ih =>
    cases tokens' with
    | nil => cases h.1.symm.trans h'
    | cons token' tokens' =>
      obtain rfl : token = token' := Option.some_inj.mp (h.1.symm.trans h'.1)
      rw [ih h.2 h'.2]

/-- Different numbers of tokens lead to different places. -/
theorem Ahead.eq_of_iterate_eq {s : S} {tokens : List T} (h : Ahead s tokens) {j j' : Nat}
    (hj : j ≤ tokens.length) (hj' : j' ≤ tokens.length)
    (heq : TokenStream.advance^[j] s = TokenStream.advance^[j'] s) : j = j' := by
  have hsame := (h.iterate_advance hj).unique (heq ▸ h.iterate_advance hj')
  have hlength := congrArg List.length hsame
  rw [List.length_drop, List.length_drop] at hlength
  omega

/-- Where there is a token, a move leaves one token fewer. -/
theorem remaining_advance_lt_of_peek [LawfulTokenStream S] {s : S} {token : T}
    (h : TokenStream.peek s = some token) :
    TokenStream.remaining (TokenStream.advance s) < TokenStream.remaining s :=
  LawfulTokenStream.remaining_advance_lt s (by rw [h]; exact Option.some_ne_none _)

/-- A stream comes to its end. -/
theorem exists_ahead [LawfulTokenStream S] (s : S) : ∃ tokens : List T, Ahead s tokens := by
  induction hn : TokenStream.remaining s using Nat.strongRecOn generalizing s with
  | _ n ih =>
    subst hn
    cases hpeek : TokenStream.peek s with
    | none => exact ⟨[], hpeek⟩
    | some token =>
      obtain ⟨tokens, htokens⟩ :=
        ih _ (remaining_advance_lt_of_peek hpeek) (TokenStream.advance s) rfl
      exact ⟨token :: tokens, hpeek, htokens⟩

/-- Moving on over some tokens leaves fewer of them. -/
theorem Ahead.remaining_lt [LawfulTokenStream S] {s : S} {tokens : List T} (h : Ahead s tokens)
    {k : Nat} (hpos : 0 < k) (hk : k ≤ tokens.length) :
    TokenStream.remaining (TokenStream.advance^[k] s) < TokenStream.remaining s := by
  induction k generalizing s tokens with
  | zero => omega
  | succ k ih =>
    cases tokens with
    | nil => simp at hk
    | cons token tokens =>
      have hstep : TokenStream.remaining (TokenStream.advance s) < TokenStream.remaining s :=
        remaining_advance_lt_of_peek h.1
      rw [Function.iterate_succ_apply]
      by_cases hzero : k = 0
      · rw [hzero]
        exact hstep
      · exact Nat.lt_trans (ih h.2 (by omega) (by simpa using hk)) hstep

/-- **The offset grows** whenever the stream moves on from here. -/
def OffsetsGrow (s : S) : Prop :=
  ∀ k, TokenStream.peek (TokenStream.advance^[k] s) ≠ none →
    TokenStream.offset (TokenStream.advance^[k] s) <
      TokenStream.offset (TokenStream.advance^[k + 1] s)

theorem OffsetsGrow.iterate_advance {s : S} (h : OffsetsGrow s) (j : Nat) :
    OffsetsGrow (TokenStream.advance^[j] s) := by
  intro k
  rw [← Function.iterate_add_apply, ← Function.iterate_add_apply, Nat.add_right_comm]
  exact h (k + j)

end Ahead

/-! ## Tokens in memory -/

namespace TokenArray

theorem ahead_ahead (s : TokenArray T) : Ahead s s.ahead := by
  induction hn : s.ahead generalizing s with
  | nil =>
    have hle : s.tokens.toList.length ≤ s.position := List.drop_eq_nil_iff.mp hn
    exact Array.getElem?_eq_none (by simpa using hle)
  | cons token tokens ih =>
    have hpeek : s.tokens.toList[s.position]? = some token := by
      rw [← List.head?_drop]
      exact congrArg List.head? hn
    have hrest : s.advance.ahead = tokens := by
      rw [ahead_advance, hn, List.drop_one, List.tail_cons]
    rw [Array.getElem?_toList] at hpeek
    exact ⟨hpeek, ih s.advance hrest⟩

theorem offsetsGrow (s : TokenArray T) : OffsetsGrow s := by
  intro k hpeek
  rw [Function.iterate_succ_apply']
  generalize TokenStream.advance^[k] s = s at hpeek ⊢
  have hlt : s.position < s.tokens.size :=
    Nat.lt_of_not_le fun hle => hpeek (Array.getElem?_eq_none hle)
  have hadvance : TokenStream.advance s = { s with position := s.position + 1 } := if_pos hlt
  rw [hadvance]
  exact Nat.lt_succ_self _

end TokenArray

/-! ## Cursors -/

theorem Input.text_ne_empty_of_take? {input rest : Input} {n : Nat} {text : String}
    (h : input.take? n = some (text, rest)) (hn : n ≠ 0) : text ≠ "" := by
  rintro rfl
  exact hn (Input.utf8_length_of_take? h).symm

theorem LexTable.text_ne_empty_of_first? {table : LexTable K} {input rest : Input}
    {kind? : Option K} {text : String} (h : table.first? input = some (kind?, text, rest)) :
    text ≠ "" := by
  obtain ⟨rule, -, hrule⟩ := List.exists_of_findSome?_eq_some h
  obtain ⟨read, hread, heq⟩ := Option.map_eq_some_iff.mp hrule
  cases heq
  unfold LexRule.read? at hread
  split at hread
  · cases hread
  · exact Input.text_ne_empty_of_take? hread (Nat.succ_ne_zero _)

namespace Cursor

theorem collect_of_next_none {table : LexTable K} {input rest : Input}
    (h : table.next input = (none, rest)) (collected : List (Token K)) :
    collect table collected input = collected.reverse := by
  rw [collect]
  split
  · rfl
  · next hnext => rw [h] at hnext; cases hnext

theorem collect_of_next_some {table : LexTable K} {input rest : Input} {token : Token K}
    (h : table.next input = (some token, rest)) (collected : List (Token K)) :
    collect table collected input = collect table (token :: collected) rest := by
  rw [collect]
  split
  · next hnext => rw [h] at hnext; cases hnext
  · next hnext => rw [h] at hnext; cases hnext; rfl

/-- Tokens collected before stay in front. -/
theorem collect_eq_append (table : LexTable K) (input : Input) (collected : List (Token K)) :
    collect table collected input = collected.reverse ++ collect table [] input := by
  induction hn : input.chars.length using Nat.strongRecOn generalizing input collected with
  | _ n ih =>
    rcases hnext : table.next input with ⟨_ | token, rest⟩
    · rw [collect_of_next_none hnext, collect_of_next_none hnext]
      simp
    · have hlt : rest.chars.length < n := by
        have := table.length_next_lt input token (by rw [hnext])
        rwa [hnext, hn] at this
      rw [collect_of_next_some hnext, collect_of_next_some hnext,
        ih _ hlt rest (token :: collected) rfl, ih _ hlt rest [token] rfl]
      simp

/-- The tokens from the next one of an input on. -/
theorem tokens_atNext (table : LexTable K) (input : Input) :
    (atNext table input).tokens = collect table [] input := by
  rcases hnext : table.next input with ⟨_ | token, rest⟩
  · rw [collect_of_next_none hnext]
    simp [tokens, atNext, hnext]
  · rw [collect_of_next_some hnext]
    simp [tokens, atNext, hnext]

theorem tokens_of_token? {c : Cursor K} {token : Token K} (h : c.token? = some token) :
    c.tokens = token :: c.advance.tokens := by
  obtain ⟨table, token?, rest⟩ := c
  cases h
  show collect table [token] rest = token :: (atNext table rest).tokens
  rw [collect_eq_append, tokens_atNext]
  rfl

/-- **A cursor reads the tokens that it lists.** -/
theorem ahead_tokens (c : Cursor K) : Ahead c c.tokens := by
  generalize hn : c.remaining = n
  induction n using Nat.strongRecOn generalizing c with
  | _ n ih =>
    cases htoken : c.token? with
    | none =>
      have hnil : c.tokens = [] := by simp [tokens, htoken]
      rw [hnil]
      exact htoken
    | some token =>
      rw [tokens_of_token? htoken]
      have hlt : c.advance.remaining < c.remaining :=
        remaining_advance_lt (by rw [htoken]; exact Option.some_ne_none _)
      exact ⟨htoken, ih _ (hn ▸ hlt) c.advance rfl⟩

/-- A cursor stands at the offset of the token ahead. -/
theorem offset_of_ahead {c : Cursor K} {token : Token K} {tokens : List (Token K)}
    (h : Ahead c (token :: tokens)) : TokenStream.offset c = token.offset := by
  have htoken : c.token? = some token := h.1
  show (c.token?.getD _).offset = token.offset
  rw [htoken]
  rfl

/-- A token lies between where its reading starts and where the next one's does. -/
theorem offset_token_next (table : LexTable K) (input : Input) :
    ∀ token, (table.next input).1 = some token →
      input.offset ≤ token.offset ∧ token.offset < (table.next input).2.offset := by
  fun_induction table.next input with
  | case1 => intro token h; cases h
  | case2 input c tail hchars kind text rest hfirst =>
    intro token h
    cases h
    exact ⟨Nat.le_refl _, (LexTable.offset_lt_of_first? hfirst).1⟩
  | case3 input c tail hchars text rest hfirst ih =>
    intro token h
    obtain ⟨hle, hlt⟩ := ih token h
    exact ⟨Nat.le_trans (Nat.le_of_lt (LexTable.offset_lt_of_first? hfirst).1) hle, hlt⟩
  | case4 input c tail hchars hfirst text rest htake =>
    intro token h
    cases h
    rw [Input.offset_of_take? htake]
    exact ⟨Nat.le_refl _, Nat.lt_add_of_pos_right c.utf8Size_pos⟩
  | case5 => intro token h; cases h

/-- A token has a text. -/
theorem text_token_next (table : LexTable K) (input : Input) :
    ∀ token, (table.next input).1 = some token → token.text ≠ "" := by
  fun_induction table.next input with
  | case1 => intro token h; cases h
  | case2 input c tail hchars kind text rest hfirst =>
    intro token h
    cases h
    exact LexTable.text_ne_empty_of_first? hfirst
  | case3 input c tail hchars text rest hfirst ih => exact ih
  | case4 input c tail hchars hfirst text rest htake =>
    intro token h
    cases h
    exact Input.text_ne_empty_of_take? htake (Nat.ne_of_gt c.utf8Size_pos)
  | case5 => intro token h; cases h

/-- Where there is no token the whole text is read. -/
theorem offset_next_eq_stop (table : LexTable K) (input : Input) :
    (table.next input).1 = none → (table.next input).2.offset = (table.next input).2.stop := by
  fun_induction table.next input with
  | case1 input hchars =>
    intro _
    rw [input.stop_eq, input.bytes_eq, hchars]
    rfl
  | case2 => intro h; cases h
  | case3 input c tail hchars text rest hfirst ih => exact ih
  | case4 => intro h; cases h
  | case5 => intro _; rfl

/-- The end shows in the token: the text is read, and the token is an empty one of the end kind.  A
table may have rules that make tokens of this kind, but those are not empty. -/
theorem isAtEnd_atNext_iff (table : LexTable K) (input : Input) :
    (atNext table input).isAtEnd = true ↔
      (atNext table input).rest.offset = (atNext table input).rest.stop ∧
        (atNext table input).token.kind = table.endOfText ∧
        (atNext table input).token.text = "" := by
  cases htoken : (table.next input).1 with
  | none =>
    have hoffset := offset_next_eq_stop table input htoken
    simp [isAtEnd, Cursor.token, atNext, htoken, hoffset, LexTable.endToken]
  | some token =>
    have htext := text_token_next table input token htoken
    simp [isAtEnd, Cursor.token, atNext, htoken, htext]

/-- A cursor stands at or behind the place where it was asked to read on. -/
theorem offset_le_offset_atNext (table : LexTable K) (input : Input) :
    input.offset ≤ (atNext table input).offset := by
  cases htoken : (table.next input).1 with
  | none =>
    simp only [offset, token, atNext, htoken, Option.getD_none, LexTable.endToken]
    exact (table.offset_next input).1
  | some token =>
    simp only [offset, Cursor.token, atNext, htoken, Option.getD_some]
    exact (offset_token_next table input token htoken).1

/-- A cursor that came by reading on moves to a larger offset. -/
theorem offset_atNext_lt {table : LexTable K} {input : Input}
    (h : (atNext table input).token? ≠ none) :
    (atNext table input).offset < (atNext table input).advance.offset := by
  cases htoken : (table.next input).1 with
  | none => exact absurd htoken h
  | some token =>
    have hadvance : (atNext table input).advance = atNext table (table.next input).2 := by
      simp only [advance, atNext, htoken]
    have hoffset : (atNext table input).offset = token.offset := by
      simp only [offset, Cursor.token, atNext, htoken, Option.getD_some]
    rw [hadvance, hoffset]
    exact Nat.lt_of_lt_of_le (offset_token_next table input token htoken).2
      (offset_le_offset_atNext table _)

theorem exists_iterate_eq_atNext (table : LexTable K) (input : Input) (k : Nat) :
    ∃ input', TokenStream.advance^[k] (atNext table input) = atNext table input' := by
  induction k with
  | zero => exact ⟨input, rfl⟩
  | succ k ih =>
    obtain ⟨input', heq⟩ := ih
    rw [Function.iterate_succ_apply', heq]
    cases htoken : (table.next input').1 with
    | none =>
      refine ⟨input', ?_⟩
      exact LawfulTokenStream.advance_of_peek_eq_none (atNext table input') htoken
    | some token =>
      refine ⟨(table.next input').2, ?_⟩
      show (atNext table input').advance = _
      simp only [advance, atNext, htoken]

/-- **The offsets of a text grow** from its start on. -/
theorem offsetsGrow_start (table : LexTable K) (text : String) :
    OffsetsGrow (start table text) := by
  intro k hpeek
  obtain ⟨input, heq⟩ := exists_iterate_eq_atNext table (Input.ofString text) k
  rw [Function.iterate_succ_apply', start, heq]
  rw [start, heq] at hpeek
  exact offset_atNext_lt hpeek

end Cursor

end GrammarKit
