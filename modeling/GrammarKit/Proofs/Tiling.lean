import GrammarKit.Proofs.Ahead
import GrammarKit.Proofs.Lexing

/-!
# The tokens tile the text

A table reads a text from its start to its end and leaves nothing out.  Each byte of the text belongs
to one token or to one piece that was dropped, and what was read where is settled by the first rule
that applies there.

Rules look at bytes and may stop in the midst of a character.  Such a rule does not apply, and the
next one has its turn; so tokens and dropped pieces are always whole characters, whatever the table
is.

* `LexRule.AppliesAt`, `LexTable.Takes`: a rule of a table applies at a place, and it is the first.
* `LexTable.Drops`, `LexTable.Makes`: what becomes of a piece of text.
* `LexTable.Tiles`: dropped pieces and tokens in turn, up to the end of the text.
* `Input.IsRest`: an input is what is left of a text; reading keeps it one.
* `tokens_tile`: the tokens of a text and what is dropped between them tile the text.
-/

namespace GrammarKit

/-! ## 1.  Places in a text -/

/-- The text has this piece at byte `start`.  The piece begins and ends between two characters, or at
an end of the text. -/
def HoldsAt (text : String) (start : Nat) (piece : String) : Prop :=
  ∃ front back, text = front ++ piece ++ back ∧ front.utf8ByteSize = start

/-- A piece goes on from where a front part of the text ends. -/
theorem HoldsAt.exists_append {text piece : String} {start : Nat} (h : HoldsAt text start piece)
    {front back : String} (htext : text = front ++ back) (hfront : front.utf8ByteSize = start) :
    ∃ back', back = piece ++ back' := by
  obtain ⟨front', back', htext', hfront'⟩ := h
  have hsame : front ++ back = front' ++ (piece ++ back') := by
    rw [← htext, htext', String.append_assoc]
  rw [← String.toByteArray_inj, String.toByteArray_append, String.toByteArray_append,
    ByteArray.append_eq_append_iff_of_size_eq_left (hfront.trans hfront'.symm)] at hsame
  exact ⟨back', String.toByteArray_inj.mp hsame.2⟩

theorem utf8_length (text : String) : (utf8 text.toList).length = text.utf8ByteSize := by
  have hsize : (String.ofList text.toList).utf8ByteSize = (utf8 text.toList).length := by
    rw [← String.size_toByteArray, String.toByteArray_ofList, List.utf8Encode,
      List.size_toByteArray]
    rfl
  rw [← hsize, String.ofList_toList]

/-- A front part that is no longer in bytes is a front part of the other. -/
theorem exists_append_of_utf8_length_le {front front' back back' : List Char}
    (h : front ++ back = front' ++ back') (hle : (utf8 front).length ≤ (utf8 front').length) :
    ∃ taken, front' = front ++ taken ∧ back = taken ++ back' := by
  rcases List.append_eq_append_iff.mp h with hfront | ⟨more, rfl, hback⟩
  · exact hfront
  · have hmore : more = [] := by
      rw [utf8_append, List.length_append] at hle
      cases more with
      | nil => rfl
      | cons c more =>
        have hpos := c.utf8Size_pos
        rw [utf8_cons, List.length_append, String.length_utf8EncodeChar] at hle
        omega
    subst hmore
    exact ⟨[], by simp, by simpa using hback.symm⟩

/-- Where a token ends, in bytes. -/
def Token.stop {K : Type} (token : Token K) : Nat := token.offset + token.text.utf8ByteSize

/-! ## 2.  Rules at a place -/

variable {K : Type}

/-- The rule applies at byte `start` of a text and stops at `stop`: it takes at least one byte, and
it stops between two characters or at the end of the text. -/
structure LexRule.AppliesAt (rule : LexRule K) (text : String) (start stop : Nat) : Prop where
  matchEnd_eq : rule.matcher.matchEnd (utf8 text.toList) start = stop
  lt : start < stop
  isValid : String.Pos.Raw.IsValid text ⟨stop⟩

namespace LexTable

/-- No rule of the list applies at byte `start` of the text. -/
def NoneApplies (rules : List (LexRule K)) (text : String) (start : Nat) : Prop :=
  ∀ rule ∈ rules, ∀ stop, ¬ rule.AppliesAt text start stop

/-- The first rule that applies at byte `start` takes this piece, and says this of the kind. -/
def Takes (table : LexTable K) (text : String) (start : Nat) (kind? : Option K) (piece : String) :
    Prop :=
  ∃ before rule behind, table.rules = before ++ rule :: behind ∧ NoneApplies before text start ∧
    rule.AppliesAt text start (start + piece.utf8ByteSize) ∧ rule.kind? = kind?

/-- From `start` to `stop` the text is made of these pieces, none of which is empty, and each is
taken by a rule that drops what it takes. -/
def Drops (table : LexTable K) (text : String) : (start : Nat) → List String → (stop : Nat) → Prop
  | start, [], stop => start = stop
  | start, piece :: pieces, stop =>
    piece ≠ "" ∧ HoldsAt text start piece ∧ table.Takes text start none piece ∧
      Drops table text (start + piece.utf8ByteSize) pieces stop

/-- The token is what the table makes of the text at its offset: the piece that the first rule that
applies takes, with the kind of the rule, or one character where no rule applies. -/
def Makes (table : LexTable K) (text : String) (token : Token K) : Prop :=
  table.Takes text token.offset (some token.kind) token.text ∨
    NoneApplies table.rules text token.offset ∧ token.kind = table.unknown ∧
      ∃ c, token.text = String.singleton c

/-- **From `start` on the text is made of these tokens** and of the dropped pieces before each of them
and behind the last. -/
inductive Tiles (table : LexTable K) (text : String) :
    (start : Nat) → List (List String) → List (Token K) → Prop
  | finish {start : Nat} {gap : List String} (hgap : table.Drops text start gap text.utf8ByteSize) :
    Tiles table text start [gap] []
  | token {start : Nat} {gap : List String} {gaps : List (List String)} {token : Token K}
    {tokens : List (Token K)} (hgap : table.Drops text start gap token.offset)
    (hne : token.text ≠ "") (hholds : HoldsAt text token.offset token.text)
    (hmakes : table.Makes text token) (hrest : Tiles table text token.stop gaps tokens) :
    Tiles table text start (gap :: gaps) (token :: tokens)

/-- Dropped pieces and tokens in turn. -/
def weave : List (List String) → List (Token K) → List String
  | gap :: gaps, token :: tokens => gap ++ token.text :: weave gaps tokens
  | gaps, _ => gaps.flatten

variable {table : LexTable K} {text : String}

theorem Drops.le {start stop : Nat} {pieces : List String} (h : table.Drops text start pieces stop) :
    start ≤ stop := by
  induction pieces generalizing start with
  | nil => exact Nat.le_of_eq h
  | cons piece pieces ih => exact Nat.le_trans (Nat.le_add_right _ _) (ih h.2.2.2)

/-- A token of a tiling stands at or behind its start, and is not empty. -/
theorem Tiles.of_mem {start : Nat} {gaps : List (List String)} {tokens : List (Token K)}
    (h : table.Tiles text start gaps tokens) :
    ∀ token ∈ tokens, start ≤ token.offset ∧ token.text ≠ "" ∧
      HoldsAt text token.offset token.text ∧ table.Makes text token := by
  induction h with
  | finish => exact fun token htoken => absurd htoken List.not_mem_nil
  | token hgap hne hholds hmakes _ ih =>
    refine List.forall_mem_cons.mpr ⟨⟨hgap.le, hne, hholds, hmakes⟩, fun token htoken => ?_⟩
    obtain ⟨hle, htoken⟩ := ih token htoken
    exact ⟨Nat.le_trans (Nat.le_trans hgap.le (Nat.le_add_right _ _)) hle, htoken⟩

/-- **The tokens of a tiling follow one another** without overlap. -/
theorem Tiles.pairwise {start : Nat} {gaps : List (List String)} {tokens : List (Token K)}
    (h : table.Tiles text start gaps tokens) :
    tokens.Pairwise fun token later => token.offset < later.offset ∧ token.stop ≤ later.offset := by
  induction h with
  | finish => exact .nil
  | @token _ _ _ first _ _ hne _ _ hrest ih =>
    have hpos : 0 < first.text.utf8ByteSize :=
      Nat.pos_of_ne_zero fun hzero => hne (String.utf8ByteSize_eq_zero_iff.mp hzero)
    refine List.pairwise_cons.mpr ⟨fun later hlater => ?_, ih⟩
    have hle : first.stop ≤ later.offset := (hrest.of_mem later hlater).1
    rw [Token.stop] at hle ⊢
    omega

/-- What is dropped is what the text has there. -/
theorem Drops.exists_append {start stop : Nat} {pieces : List String}
    (h : table.Drops text start pieces stop) {front back : String} (htext : text = front ++ back)
    (hfront : front.utf8ByteSize = start) :
    ∃ back', back = String.join pieces ++ back' ∧
      (front ++ String.join pieces).utf8ByteSize = stop := by
  induction pieces generalizing start front back with
  | nil => exact ⟨back, by simp, by rw [← h, ← hfront]; simp⟩
  | cons piece pieces ih =>
    obtain ⟨-, hholds, -, hrest⟩ := h
    obtain ⟨rest, rfl⟩ := hholds.exists_append htext hfront
    rw [← String.append_assoc] at htext
    obtain ⟨back', rfl, hstop⟩ := ih hrest htext (by rw [String.utf8ByteSize_append, hfront])
    exact ⟨back', by simp [String.append_assoc], by rw [← hstop]; simp [String.append_assoc]⟩

/-- **Dropped pieces and tokens in turn are the rest of the text.** -/
theorem Tiles.join_weave {start : Nat} {gaps : List (List String)} {tokens : List (Token K)}
    (h : table.Tiles text start gaps tokens) :
    ∀ {front back : String}, text = front ++ back → front.utf8ByteSize = start →
      String.join (weave gaps tokens) = back := by
  induction h with
  | @finish start gap hgap =>
    intro front back htext hfront
    obtain ⟨back', rfl, hstop⟩ := hgap.exists_append htext hfront
    have hnil : back'.utf8ByteSize = 0 := by
      have hsize := congrArg String.utf8ByteSize htext
      rw [← String.append_assoc, String.utf8ByteSize_append, hstop] at hsize
      omega
    rw [String.utf8ByteSize_eq_zero_iff.mp hnil]
    simp [weave]
  | @token start gap gaps token tokens hgap _ hholds _ _ ih =>
    intro front back htext hfront
    obtain ⟨rest, rfl, hstop⟩ := hgap.exists_append htext hfront
    rw [← String.append_assoc] at htext
    obtain ⟨back', rfl⟩ := hholds.exists_append htext hstop
    rw [← String.append_assoc] at htext
    have hback := ih htext (by rw [String.utf8ByteSize_append, hstop, Token.stop])
    rw [weave, ← hback]
    simp

end LexTable

/-! ## 3.  What is left of a text -/

/-- The input is what is left of the text behind its first bytes. -/
def Input.IsRest (text : String) (input : Input) : Prop :=
  ∃ front : String, text.toList = front.toList ++ input.chars ∧ front.utf8ByteSize = input.offset

namespace Input.IsRest

variable {text : String} {input rest : Input}

theorem start (text : String) : (Input.ofString text).IsRest text := ⟨"", rfl, rfl⟩

/-- The bytes of the text from the place of the input on are those of the input. -/
theorem drop_utf8 (h : input.IsRest text) : (utf8 text.toList).drop input.offset = input.bytes := by
  obtain ⟨front, htext, hoffset⟩ := h
  rw [htext, utf8_append, ← hoffset, ← utf8_length, List.drop_left, input.bytes_eq]

/-- Where nothing is left, the input is at the end of the text. -/
theorem offset_of_nil (h : input.IsRest text) (hnil : input.chars = []) :
    input.offset = text.utf8ByteSize := by
  obtain ⟨front, htext, hoffset⟩ := h
  rw [hnil, List.append_nil, String.toList_inj] at htext
  rw [htext, hoffset]

/-- What is read off an input stands in the text at its place. -/
theorem take? (h : input.IsRest text) {n : Nat} {piece : String}
    (htake : input.take? n = some (piece, rest)) :
    rest.IsRest text ∧ HoldsAt text input.offset piece ∧
      rest.offset = input.offset + piece.utf8ByteSize := by
  obtain ⟨front, htext, hoffset⟩ := h
  have hsize : n = piece.utf8ByteSize := by rw [← utf8_length, Input.utf8_length_of_take? htake]
  have hrest : rest.offset = input.offset + piece.utf8ByteSize := by
    rw [Input.offset_of_take? htake, hsize]
  have hchars : text.toList = front.toList ++ (piece.toList ++ rest.chars) := by
    rw [htext, Input.chars_of_take? htake]
  refine ⟨⟨front ++ piece, ?_, ?_⟩, ⟨front, String.ofList rest.chars, ?_, hoffset⟩, hrest⟩
  · rw [String.toList_append, List.append_assoc, hchars]
  · rw [String.utf8ByteSize_append, hoffset, hrest]
  · rw [← String.toList_inj, String.toList_append, String.toList_append, String.toList_ofList,
      List.append_assoc, hchars]

/-- A piece can be read off an input up to any place between two characters. -/
theorem exists_take? (h : input.IsRest text) {n : Nat}
    (hvalid : String.Pos.Raw.IsValid text ⟨input.offset + n⟩) :
    ∃ piece rest, input.take? n = some (piece, rest) := by
  obtain ⟨front, htext, hoffset⟩ := h
  obtain ⟨front', back', rfl, hplace⟩ := String.Pos.Raw.isValid_iff_exists_append.mp hvalid
  have hsize : input.offset + n = (utf8 front'.toList).length := by
    rw [utf8_length]
    exact congrArg String.Pos.Raw.byteIdx hplace
  rw [String.toList_append] at htext
  have hle : (utf8 front.toList).length ≤ (utf8 front'.toList).length := by
    rw [utf8_length front, hoffset, ← hsize]
    exact Nat.le_add_right _ _
  obtain ⟨taken, hfront, hchars⟩ := exists_append_of_utf8_length_le htext.symm hle
  have hn : n = (utf8 taken).length := by
    rw [hfront, utf8_append, List.length_append, utf8_length, hoffset] at hsize
    exact Nat.add_left_cancel hsize
  obtain ⟨rest, htake, -⟩ := Input.exists_take? hchars
  exact ⟨_, rest, hn ▸ htake⟩

end Input.IsRest

/-! ## 4.  Reading -/

section Reading

variable {text : String} {input rest : Input} {piece : String}

/-- **A rule reads a piece where it applies**, and only there. -/
theorem LexRule.appliesAt_of_read? (h : input.IsRest text) {rule : LexRule K}
    (hread : rule.read? input = some (piece, rest)) :
    rule.AppliesAt text input.offset (input.offset + piece.utf8ByteSize) ∧
      rest.IsRest text ∧ HoldsAt text input.offset piece ∧
      rest.offset = input.offset + piece.utf8ByteSize := by
  unfold read? at hread
  split at hread
  · cases hread
  · next n hconsumed =>
    obtain ⟨hrest, hholds, hoffset⟩ := h.take? hread
    have hsize : n + 1 = piece.utf8ByteSize := by rw [← utf8_length, Input.utf8_length_of_take? hread]
    refine ⟨⟨?_, by omega, ?_⟩, hrest, hholds, hoffset⟩
    · rw [Matcher.matchEnd, h.drop_utf8, hconsumed, ← hsize]
    · obtain ⟨front, back, rfl, hfront⟩ := hholds
      refine String.Pos.Raw.isValid_iff_exists_append.mpr ⟨front ++ piece, back, rfl, ?_⟩
      rw [String.Pos.Raw.ext_iff, String.byteIdx_rawEndPos, String.utf8ByteSize_append, hfront]

theorem LexRule.not_appliesAt_of_read? (h : input.IsRest text) {rule : LexRule K}
    (hread : rule.read? input = none) (stop : Nat) : ¬ rule.AppliesAt text input.offset stop := by
  rintro ⟨rfl, hlt, hvalid⟩
  rw [Matcher.matchEnd, h.drop_utf8] at hlt hvalid
  unfold read? at hread
  split at hread
  · next hzero => omega
  · next n hconsumed =>
    rw [hconsumed] at hvalid
    obtain ⟨piece, rest, htake⟩ := h.exists_take? hvalid
    rw [htake] at hread
    cases hread

namespace LexTable

variable {table : LexTable K}

/-- **The table chooses the first rule that applies.** -/
theorem takes_of_first? (h : input.IsRest text) {kind? : Option K}
    (hfirst : table.first? input = some (kind?, piece, rest)) :
    table.Takes text input.offset kind? piece ∧ rest.IsRest text ∧
      HoldsAt text input.offset piece ∧ rest.offset = input.offset + piece.utf8ByteSize := by
  obtain ⟨before, rule, behind, hrules, hrule, hbefore⟩ := List.findSome?_eq_some_iff.mp hfirst
  obtain ⟨read, hread, heq⟩ := Option.map_eq_some_iff.mp hrule
  obtain ⟨hkind, rfl⟩ := Prod.mk.inj heq
  obtain ⟨happlies, hrest⟩ := LexRule.appliesAt_of_read? h hread
  refine ⟨⟨before, rule, behind, hrules, fun other hother => ?_, happlies, hkind⟩, hrest⟩
  exact LexRule.not_appliesAt_of_read? h (Option.map_eq_none_iff.mp (hbefore other hother))

theorem noneApplies_of_first? (h : input.IsRest text) (hfirst : table.first? input = none) :
    NoneApplies table.rules text input.offset := fun rule hrule =>
  LexRule.not_appliesAt_of_read? h
    (Option.map_eq_none_iff.mp (List.findSome?_eq_none_iff.mp hfirst rule hrule))

/-- What reading one token leaves behind: the pieces dropped before the token, and the token; or, if
there is none, the pieces up to the end of the text. -/
def Progress (table : LexTable K) (text : String) (start : Nat) : Option (Token K) × Input → Prop
  | (some token, rest) =>
    (∃ gap, table.Drops text start gap token.offset) ∧ token.text ≠ "" ∧
      HoldsAt text token.offset token.text ∧ table.Makes text token ∧ rest.IsRest text ∧
      rest.offset = token.stop
  | (none, _) => ∃ gap, table.Drops text start gap text.utf8ByteSize

/-- A piece that is dropped is one more before the token. -/
theorem Progress.drop {start : Nat} {piece : String} (hne : piece ≠ "")
    (hholds : HoldsAt text start piece) (htakes : table.Takes text start none piece)
    {result : Option (Token K) × Input}
    (h : table.Progress text (start + piece.utf8ByteSize) result) :
    table.Progress text start result := by
  rcases result with ⟨_ | token, rest⟩
  · obtain ⟨gap, hgap⟩ := h
    exact ⟨piece :: gap, hne, hholds, htakes, hgap⟩
  · obtain ⟨⟨gap, hgap⟩, htoken⟩ := h
    exact ⟨⟨piece :: gap, hne, hholds, htakes, hgap⟩, htoken⟩

/-- **Reading one token** leaves out nothing but dropped pieces. -/
theorem progress_next (table : LexTable K) (input : Input) (h : input.IsRest text) :
    table.Progress text input.offset (table.next input) := by
  fun_induction table.next input with
  | case1 input hnil => exact ⟨[], h.offset_of_nil hnil⟩
  | case2 input c tail hchars kind piece rest hfirst =>
    obtain ⟨htakes, hrest, hholds, hoffset⟩ := takes_of_first? h hfirst
    exact ⟨⟨[], rfl⟩, text_ne_empty_of_first? hfirst, hholds, Or.inl htakes, hrest, hoffset⟩
  | case3 input c tail hchars piece rest hfirst ih =>
    obtain ⟨htakes, hrest, hholds, hoffset⟩ := takes_of_first? h hfirst
    have hmore := ih hrest
    rw [hoffset] at hmore
    exact hmore.drop (text_ne_empty_of_first? hfirst) hholds htakes
  | case4 input c tail hchars hfirst piece rest htake =>
    obtain ⟨hrest, hholds, hoffset⟩ := h.take? htake
    have hne : piece ≠ "" := Input.text_ne_empty_of_take? htake (Nat.ne_of_gt c.utf8Size_pos)
    have hsingle : piece = String.singleton c := by
      obtain ⟨rest', htake', -⟩ := Input.exists_take? (show input.chars = [c] ++ tail from hchars)
      have hlength : (utf8 [c]).length = c.utf8Size := by simp
      rw [hlength, htake] at htake'
      exact (Prod.mk.inj (Option.some.inj htake')).1
    exact ⟨⟨[], rfl⟩, hne, hholds, Or.inr ⟨noneApplies_of_first? h hfirst, rfl, c, hsingle⟩, hrest,
      hoffset⟩
  | case5 input c tail hchars hfirst htake =>
    -- The character at the front can always be read.
    obtain ⟨rest, htake', -⟩ := Input.exists_take? (show input.chars = [c] ++ tail from hchars)
    have hlength : (utf8 [c]).length = c.utf8Size := by simp
    rw [hlength, htake] at htake'
    cases htake'

/-- What is collected from an input on tiles the rest of the text. -/
theorem exists_tiles (table : LexTable K) (h : input.IsRest text) :
    ∃ gaps, table.Tiles text input.offset gaps (Cursor.collect table [] input) := by
  induction hn : input.chars.length using Nat.strongRecOn generalizing input with
  | _ n ih =>
    have hprogress := progress_next table input h
    rcases hnext : table.next input with ⟨_ | token, rest⟩
    · rw [hnext] at hprogress
      obtain ⟨gap, hgap⟩ := hprogress
      rw [Cursor.collect_of_next_none hnext]
      exact ⟨[gap], .finish hgap⟩
    · rw [hnext] at hprogress
      obtain ⟨⟨gap, hgap⟩, hne, hholds, hmakes, hrest, hoffset⟩ := hprogress
      have hlt := table.length_next_lt input token (by rw [hnext])
      rw [hnext, hn] at hlt
      obtain ⟨gaps, htiles⟩ := ih _ hlt hrest rfl
      rw [hoffset] at htiles
      rw [Cursor.collect_of_next_some hnext, Cursor.collect_eq_append]
      exact ⟨gap :: gaps, .token hgap hne hholds hmakes htiles⟩

end LexTable

end Reading

/-! ## 5.  The whole text -/

/-- **The tokens tile the text**, whatever the table is.  There are finitely many: the cursor at the
start comes by them one after the other, and then by the end.  Each token is a piece of the text and
not empty, it is what the first rule that applies at its offset makes, or one character where no rule
applies, and it lies behind the tokens before it.  All the rest of the text was dropped: before each
token and behind the last there are pieces, none of them empty, each taken by the first rule that
applies, and this one drops what it takes.  With the tokens in between they are the text. -/
theorem tokens_tile (table : LexTable K) (text : String) :
    let tokens := (Cursor.start table text).tokens
    Ahead (Cursor.start table text) tokens ∧
      (∀ token ∈ tokens, token.text ≠ "" ∧ HoldsAt text token.offset token.text ∧
        table.Makes text token) ∧
      tokens.Pairwise (fun token later =>
        token.offset < later.offset ∧ token.stop ≤ later.offset) ∧
      ∃ gaps, table.Tiles text 0 gaps tokens ∧ String.join (LexTable.weave gaps tokens) = text := by
  intro tokens
  obtain ⟨gaps, htiles⟩ := table.exists_tiles (Input.IsRest.start text)
  have hcollect : tokens = Cursor.collect table [] (Input.ofString text) :=
    Cursor.tokens_atNext table (Input.ofString text)
  rw [← hcollect] at htiles
  refine ⟨Cursor.ahead_tokens _, fun token htoken => (htiles.of_mem token htoken).2,
    htiles.pairwise, gaps, htiles, ?_⟩
  exact htiles.join_weave (String.empty_append).symm rfl

/-- A rule that takes the first half of a character does not apply there. -/
example :
    (Cursor.start ⟨[.emit (.char (.byte 0xC3)) 1, .skip (.ofChar ' ')], 0, 2⟩ " é").tokens.map
      (fun token => (token.kind, token.text, token.offset)) = [(0, "é", 1)] := by
  decide +kernel

end GrammarKit
