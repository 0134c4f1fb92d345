import GrammarKit.Proofs.WholeText

/-!
# Only what is left is read

A rule is asked at a place of a text, and what it answers is a place again.  It is given the whole text,
but what stands before the place plays no part: reading at a place is reading what is left there.  So if
another text is put in front, the same is read as before, further on by the length of that text.

The cursor that was moved along a text may therefore forget what lies behind it.  It may also forget
what was dropped just before its token: a reading that starts at the token finds the same token, since
whatever was dropped was dropped by the rules that apply before it.

* `Input.moved`, `Token.moved`: the same input and the same token, further on.
* `LexTable.next_moved`: the same token is read.
* `LexTable.matchNext_append`: and so it is at a place of the whole text.
* `LexTable.exists_rest_at_token`: a reading may start at the token.
* `reads_only_what_is_left`: all of this at any place of a text, and for all cursors on it.
-/

namespace GrammarKit

/-! ## 1.  Further on -/

/-- The same input, with `n` more bytes before it. -/
def Input.moved (n : Nat) (input : Input) : Input where
  chars := input.chars
  bytes := input.bytes
  offset := n + input.offset
  stop := n + input.stop
  bytes_eq := input.bytes_eq
  stop_eq := by rw [input.stop_eq, Nat.add_assoc]

/-- The same token, with `n` more bytes before it. -/
def Token.moved {K : Type} (n : Nat) (token : Token K) : Token K :=
  { token with offset := n + token.offset }

theorem Input.take?_moved (n : Nat) (input : Input) (count : Nat) :
    (input.moved n).take? count =
      (input.take? count).map fun (text, rest) => (text, rest.moved n) := by
  cases htake : input.take? count with
  | some read =>
    obtain ⟨text, rest⟩ := read
    have hchars : input.chars = text.toList ++ rest.chars := chars_of_take? htake
    obtain ⟨rest', htake', hrest⟩ :=
      exists_take? (show (input.moved n).chars = text.toList ++ rest.chars from hchars)
    rw [utf8_length_of_take? htake] at htake'
    have hmoved : rest' = rest.moved n := by
      refine Input.ext hrest ?_
      rw [offset_of_take? htake']
      show n + input.offset + count = n + rest.offset
      rw [offset_of_take? htake, Nat.add_assoc]
    rw [htake', hmoved, String.ofList_toList]
    rfl
  | none =>
    refine Option.eq_none_iff_forall_ne_some.mpr fun read htake' => ?_
    obtain ⟨text, rest⟩ := read
    have hchars : (input.moved n).chars = text.toList ++ rest.chars := chars_of_take? htake'
    obtain ⟨_, hread, -⟩ :=
      exists_take? (show input.chars = text.toList ++ rest.chars from hchars)
    rw [utf8_length_of_take? htake', htake] at hread
    cases hread

variable {K : Type}

theorem LexTable.first?_moved (table : LexTable K) (n : Nat) (input : Input) :
    table.first? (input.moved n) =
      (table.first? input).map fun (kind?, text, rest) => (kind?, text, rest.moved n) := by
  have hread : ∀ rule : LexRule K, rule.read? (input.moved n) =
      (rule.read? input).map fun (text, rest) => (text, rest.moved n) := by
    intro rule
    have hbytes : (input.moved n).bytes = input.bytes := rfl
    unfold LexRule.read?
    rw [hbytes]
    cases rule.matcher.consumed input.bytes with
    | zero => rfl
    | succ count => exact Input.take?_moved n input (count + 1)
  unfold first?
  rw [List.map_findSome?]
  congr 1
  funext rule
  rw [hread, Option.map_map, Function.comp_apply, Option.map_map]
  rfl

/-- **The same token is read**, and the same is left. -/
theorem LexTable.next_moved (table : LexTable K) (n : Nat) (input : Input) :
    table.next (input.moved n) =
      ((table.next input).1.map (Token.moved n), (table.next input).2.moved n) := by
  fun_induction table.next input with
  | case1 input hchars => exact next_of_nil hchars
  | case2 input c tail hchars kind text rest hfirst =>
    have hopen : (input.moved n).chars ≠ [] := fun hnil => by cases hchars.symm.trans hnil
    refine next_of_emit hopen ?_
    rw [first?_moved, hfirst]
    rfl
  | case3 input c tail hchars text rest hfirst ih =>
    have hopen : (input.moved n).chars ≠ [] := fun hnil => by cases hchars.symm.trans hnil
    have hskip : table.first? (input.moved n) = some (none, text, rest.moved n) := by
      rw [first?_moved, hfirst]
      rfl
    rw [← ih]
    exact next_of_skip hopen hskip
  | case4 input c tail hchars hfirst text rest htake =>
    refine next_of_unknown hchars ?_ ?_
    · rw [first?_moved, hfirst]
      rfl
    · rw [Input.take?_moved, htake]
      rfl
  | case5 input c tail hchars hfirst htake =>
    -- The character at the front can always be read.
    obtain ⟨rest, htake', -⟩ := Input.exists_take? (show input.chars = [c] ++ tail from hchars)
    have hlength : (utf8 [c]).length = c.utf8Size := by simp
    rw [hlength, htake] at htake'
    cases htake'

theorem Cursor.collect_moved (table : LexTable K) (n : Nat) (input : Input) :
    collect table [] (input.moved n) = (collect table [] input).map (Token.moved n) := by
  induction hn : input.chars.length using Nat.strongRecOn generalizing input with
  | _ length ih =>
    have hmoved := table.next_moved n input
    rcases hnext : table.next input with ⟨_ | token, rest⟩
    · rw [hnext] at hmoved
      rw [collect_of_next_none hnext, collect_of_next_none hmoved]
      rfl
    · rw [hnext] at hmoved
      have hlt := table.length_next_lt input token (by rw [hnext])
      rw [hnext, hn] at hlt
      rw [collect_of_next_some hnext, collect_of_next_some hmoved, collect_eq_append,
        collect_eq_append table rest, ih _ hlt rest rfl, List.map_append]
      rfl

/-! ## 2.  Another text in front -/

variable {text : String} {input : Input}

/-- What is left of a text is all of another one, further on. -/
theorem Input.IsRest.exists_moved (h : input.IsRest text) :
    ∃ front back : String, text = front ++ back ∧ front.utf8ByteSize = input.offset ∧
      input = (Input.ofString back).moved input.offset := by
  obtain ⟨front, htext, hoffset⟩ := h
  refine ⟨front, String.ofList input.chars, ?_, hoffset, ?_⟩
  · rw [← String.toList_inj, String.toList_append, String.toList_ofList, htext]
  · exact Input.ext (String.toList_ofList.symm) (Nat.add_zero _).symm

/-- Behind another text the place is further on. -/
theorem Input.dropTo_append (before : String) {start : Nat}
    (hstart : String.Pos.Raw.IsValid text ⟨start⟩) :
    Input.dropTo (before ++ text) (before.utf8ByteSize + start) =
      (Input.dropTo text start).moved before.utf8ByteSize := by
  obtain ⟨front, back, rfl, hplace⟩ := String.Pos.Raw.isValid_iff_exists_append.mp hstart
  have hsize : front.utf8ByteSize = start := (congrArg String.Pos.Raw.byteIdx hplace).symm
  subst hsize
  have hrest : ((Input.ofString back).moved front.utf8ByteSize).IsRest (front ++ back) :=
    ⟨front, String.toList_append, (Nat.add_zero _).symm⟩
  have hrest' : (((Input.ofString back).moved front.utf8ByteSize).moved before.utf8ByteSize).IsRest
      (before ++ (front ++ back)) := by
    refine ⟨before ++ front, ?_, ?_⟩
    · rw [← String.append_assoc, String.toList_append]
      rfl
    · rw [String.utf8ByteSize_append]
      exact congrArg (before.utf8ByteSize + ·) (Nat.add_zero _).symm
  have hdrop := hrest.dropTo
  have hdrop' := hrest'.dropTo
  exact hdrop'.trans (congrArg (Input.moved before.utf8ByteSize) hdrop.symm)

/-- The reading at a place of a text is the one further on, with another text in front. -/
theorem LexTable.tokenAt_append (table : LexTable K) (before : String) {start : Nat}
    (hstart : String.Pos.Raw.IsValid text ⟨start⟩) :
    table.tokenAt (before ++ text) (before.utf8ByteSize + start) =
      ((table.tokenAt text start).1.moved before.utf8ByteSize,
        before.utf8ByteSize + (table.tokenAt text start).2) := by
  rw [tokenAt, tokenAt, Input.dropTo_append before hstart, next_moved]
  rcases table.next (Input.dropTo text start) with ⟨_ | token, rest⟩ <;> rfl

/-- **The whole text may have another one in front.**  What is read at a place is the same, further
on. -/
theorem LexTable.matchNext_append (table : LexTable K) (before : String) {start : Nat}
    (hstart : String.Pos.Raw.IsValid text ⟨start⟩) :
    table.matchNext (before ++ text) (before.utf8ByteSize + start) =
      ((table.matchNext text start).1.moved before.utf8ByteSize,
        before.utf8ByteSize + (table.matchNext text start).2) := by
  have hbehind : String.Pos.Raw.IsValid (before ++ text) ⟨before.utf8ByteSize + start⟩ := by
    obtain ⟨front, back, rfl, hplace⟩ := String.Pos.Raw.isValid_iff_exists_append.mp hstart
    have hsize : start = front.utf8ByteSize := congrArg String.Pos.Raw.byteIdx hplace
    refine String.Pos.Raw.isValid_iff_exists_append.mpr ⟨before ++ front, back, ?_, ?_⟩
    · rw [String.append_assoc]
    · rw [String.Pos.Raw.ext_iff, String.byteIdx_rawEndPos, String.utf8ByteSize_append, hsize]
  rw [table.matchNext_eq_tokenAt hbehind, table.matchNext_eq_tokenAt hstart,
    table.tokenAt_append before hstart]

/-! ## 3.  Cursors on a text -/

/-- The first token is read at the first byte of the text. -/
theorem Cursor.token_start (table : LexTable K) (text : String) :
    ((start table text).token, (start table text).rest.offset) = table.matchNext text 0 :=
  (table.matchNext_offset (Input.IsRest.start text)).symm

/-- The next token is read at the byte where the cursor reads on. -/
theorem Cursor.token_advance (table : LexTable K) (text : String) (k : Nat) :
    let c := after table text k
    (c.advance.token, c.advance.rest.offset) = table.matchNext text c.rest.offset := by
  intro c
  obtain ⟨hrest, hadvance⟩ := advance_after table text k
  rw [hadvance, table.matchNext_offset hrest]

/-- **A reading may start at the token**: what was dropped before it need not be read again. -/
theorem LexTable.exists_rest_at_token (table : LexTable K) (input : Input) (h : input.IsRest text) :
    ∀ token, (table.next input).1 = some token →
      ∃ input' : Input, input'.IsRest text ∧ input'.offset = token.offset ∧
        table.next input' = table.next input := by
  fun_induction table.next input with
  | case1 => intro token htoken; cases htoken
  | case2 input c tail hchars kind piece rest hfirst =>
    intro token htoken
    cases htoken
    have hopen : input.chars ≠ [] := fun hnil => by cases hchars.symm.trans hnil
    exact ⟨input, h, rfl, next_of_emit hopen hfirst⟩
  | case3 input c tail hchars piece rest hfirst ih => exact ih (takes_of_first? h hfirst).2.1
  | case4 input c tail hchars hfirst piece rest htake =>
    intro token htoken
    cases htoken
    exact ⟨input, h, rfl, next_of_unknown hchars hfirst htake⟩
  | case5 => intro token htoken; cases htoken

/-- **A cursor has the tokens of the text ahead that starts at its token.** -/
theorem Cursor.exists_tokens_after_eq (table : LexTable K) (text : String) (k : Nat) :
    let c := after table text k
    ∃ front back : String, text = front ++ back ∧ front.utf8ByteSize = c.offset ∧
      c.tokens = (start table back).tokens.map (Token.moved c.offset) := by
  intro c
  obtain ⟨input, hinput, hc⟩ := exists_after_eq_atNext table text k
  rcases hnext : table.next input with ⟨_ | token, rest⟩
  · have hend : (after table text k).isAtEnd = true := by
      rw [hc, isAtEnd, atNext, hnext]
      rfl
    have hatEnd : c = atEnd table text := eq_atEnd_of_isAtEnd table text hend
    have hempty : (start table "").tokens = [] := by
      rw [start, tokens_atNext, collect_of_next_none (LexTable.next_of_nil rfl)]
      rfl
    refine ⟨text, "", String.append_empty.symm, ?_, ?_⟩
    · rw [hatEnd]
      exact (utf8_length text).symm
    · rw [hempty, hatEnd]
      rfl
  · obtain ⟨input', hinput', hplace, hsame⟩ :=
      table.exists_rest_at_token input hinput token (by rw [hnext])
    obtain ⟨front, back, htext, hfront, hmoved⟩ := hinput'.exists_moved
    have hoffset : c.offset = token.offset := by
      show (after table text k).offset = token.offset
      rw [hc, Cursor.offset, Cursor.token, atNext, hnext]
      rfl
    have htokens : c.tokens = collect table [] input' := by
      show (after table text k).tokens = _
      rw [hc, tokens_atNext, collect_of_next_some hnext, collect_of_next_some (hsame.trans hnext)]
    refine ⟨front, back, htext, hfront.trans (hplace.trans hoffset.symm), ?_⟩
    rw [htokens, hmoved, collect_moved, hoffset, hplace, start, tokens_atNext]

/-- **Only what is left of a text is read**, whatever the table is.  At any place between two characters,
reading the whole text comes to the token of what is left there.  With another text in front, it comes to a
token of the same kind with the same text, and the token and the place behind it are further on by the
length of the text in front.  This is how a cursor reads, at the first byte and then at the byte behind its
token.  So after any number of moves it has the tokens of the text but for so many ahead, and they are
the tokens of the text that starts where its token does, further on by the length of what was cut off. -/
theorem reads_only_what_is_left (table : LexTable K) :
    (∀ (before text : String) (start : Nat), String.Pos.Raw.IsValid text ⟨start⟩ →
      table.matchNext text start = table.tokenAt text start ∧
      table.matchNext (before ++ text) (before.utf8ByteSize + start) =
        ((table.matchNext text start).1.moved before.utf8ByteSize,
          before.utf8ByteSize + (table.matchNext text start).2)) ∧
    ∀ text : String,
      ((Cursor.start table text).token, (Cursor.start table text).rest.offset) =
        table.matchNext text 0 ∧
      ∀ k, let c := Cursor.after table text k
        (c.advance.token, c.advance.rest.offset) = table.matchNext text c.rest.offset ∧
        c.tokens = (Cursor.start table text).tokens.drop k ∧
          ∃ front back : String, text = front ++ back ∧ front.utf8ByteSize = c.offset ∧
            c.tokens = (Cursor.start table back).tokens.map (Token.moved c.offset) :=
  ⟨fun before _ _ hstart =>
      ⟨table.matchNext_eq_tokenAt hstart, table.matchNext_append before hstart⟩,
    fun text => ⟨Cursor.token_start table text, fun k => ⟨Cursor.token_advance table text k,
      Cursor.tokens_after table text k, Cursor.exists_tokens_after_eq table text k⟩⟩⟩

/-- Behind a letter of two bytes a space is dropped and a token is read, and so it is with another such
letter in front. -/
theorem reads_only_what_is_left_accents :
    let table : LexTable Bool := ⟨[.skip (.ofChar ' '), .emit (.ofChar 'a') true], false, true⟩
    String.Pos.Raw.IsValid "é a" ⟨2⟩ ∧
      let (token, behind) := table.matchNext ("è" ++ "é a") (2 + 2)
      token.kind = true ∧ token.text = "a" ∧ token.offset = 5 ∧ behind = 6 := by
  intro table
  have hvalid : String.Pos.Raw.IsValid "é a" ⟨2⟩ := by decide +kernel
  obtain ⟨hleft, hmoved⟩ := (reads_only_what_is_left table).1 "è" "é a" 2 hvalid
  have hbefore : table.matchNext ("è" ++ "é a") (2 + 2) =
      ((table.tokenAt "é a" 2).1.moved 2, 2 + (table.tokenAt "é a" 2).2) := by
    rw [← hleft]
    exact hmoved
  rw [hbefore]
  exact ⟨hvalid, by decide +kernel⟩

end GrammarKit
