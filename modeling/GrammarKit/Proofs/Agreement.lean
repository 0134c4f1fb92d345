import GrammarKit.Proofs.Calc.Custody
import GrammarKit.Proofs.Embedding
import GrammarKit.Proofs.Pascal.Printing
import GrammarKit.Proofs.Transcription

/-!
# Both languages agree on expressions

A list of numerals, signs and parentheses is an expression of the calculator, or it is none, and in
Pascal it may stand on the right of an assignment, with the word `DIV` for a division, or it may not.
These are the same lists, and the two parsers build the same tree.

The two grammars were written apart: Pascal has more operators and more factors, and in another order.
So each is embedded in the other, as far as these lists go.  What Pascal adds has no word without a
token that the calculator does not have.

* `SameLexeme`: the tokens that one lexeme is read as in the two languages.
* `Calc.toPascal`, `Pascal.toCalc`: the two embeddings.
* `Pascal.Framed.derives_expr`: a program with just this frame assigns an expression.
* `SameExpression`: the same tree in two arenas.
* `parsers_agree`: the answers of the two parsers.
-/

namespace GrammarKit

/-! ## 1.  The same lexemes -/

/-- The tokens are what one lexeme is read as in the two languages. -/
def SameLexeme (token : Token Calc.Kind) (token' : Token Pascal.Kind) : Prop :=
  ∃ l : Calc.Lexeme, Calc.spelling token = l.spelling ∧ Pascal.spelling token' = l.toPascal.spelling

/-- The kinds that belong together. -/
def kindPairs : List (Calc.Kind × Pascal.Kind) :=
  [(.integer, .integerConst), (.plus, .plus), (.minus, .minus), (.multiply, .multiply),
    (.divide, .integerDiv), (.lParens, .lParens), (.rParens, .rParens)]

variable {token : Token Calc.Kind} {token' : Token Pascal.Kind}

theorem SameLexeme.mem_kindPairs (h : SameLexeme token token') :
    (token.kind, token'.kind) ∈ kindPairs := by
  obtain ⟨l, hcalc, hpascal⟩ := h
  rw [(Prod.mk.inj hcalc).1, (Prod.mk.inj hpascal).1]
  cases l with
  | number n => exact List.mem_cons_self
  | sign s => cases s <;> decide

/-- Texts that are written from one list have tokens that belong together. -/
theorem forall₂_sameLexeme {lexemes : List Calc.Lexeme} {tokens : List (Token Calc.Kind)}
    {tokens' : List (Token Pascal.Kind)}
    (h : tokens.map Calc.spelling = lexemes.map Calc.Lexeme.spelling)
    (h' : tokens'.map Pascal.spelling =
      (lexemes.map Calc.Lexeme.toPascal).map Pascal.Lexeme.spelling) :
    List.Forall₂ SameLexeme tokens tokens' := by
  induction lexemes generalizing tokens tokens' with
  | nil =>
    rw [List.map_eq_nil_iff.mp h, List.map_eq_nil_iff.mp h']
    exact .nil
  | cons l lexemes ih =>
    obtain ⟨token, rest, rfl, htoken, hrest⟩ := List.map_eq_cons_iff.mp h
    obtain ⟨token', rest', rfl, htoken', hrest'⟩ := List.map_eq_cons_iff.mp h'
    exact .cons ⟨l, htoken, htoken'⟩ (ih hrest hrest')

theorem Calc.kind_ne_semi {lexemes : List Calc.Lexeme} {tokens : List (Token Pascal.Kind)}
    (h : tokens.map Pascal.spelling =
      (lexemes.map Calc.Lexeme.toPascal).map Pascal.Lexeme.spelling) :
    ∀ token ∈ tokens, token.kind ≠ .semi := by
  intro token htoken
  have hmem : Pascal.spelling token ∈
      (lexemes.map Calc.Lexeme.toPascal).map Pascal.Lexeme.spelling :=
    h ▸ List.mem_map_of_mem htoken
  rw [List.map_map] at hmem
  obtain ⟨l, -, hl⟩ := List.mem_map.mp hmem
  rw [← (Prod.mk.inj hl).1]
  cases l with
  | number n => exact Pascal.Kind.noConfusion
  | sign s => cases s <;> exact Pascal.Kind.noConfusion

/-! ## 2.  The calculator in Pascal -/

namespace Calc

theorem embeds_kind {k : Kind} {k' : Pascal.Kind} {carried : RuleId → Prop} {ρ : RuleId → RuleId}
    (h : kindPairs.all (fun pair => pair.1 != k || pair.2 == k') = true) :
    Expr.Embeds grammar.productions SameLexeme carried ρ (kind k) (Pascal.kind k') :=
  .term fun _ _ hsame hkind => by
    have hpair := List.all_eq_true.mp h _ hsame.mem_kindPairs
    rwa [bne, hkind] at hpair

/-- **The calculator is found in Pascal**: its rules are the last but one there. -/
def toPascal : Embedding grammar Pascal.grammar SameLexeme where
  carried r := r = expr ∨ r = term ∨ r = factor
  rename r := ⟨r.index + 10⟩
  exists_rule := by
    rintro r (rfl | rfl | rfl) rule hrule
    · cases hrule
      refine ⟨_, rfl, List.forall_mem_singleton.mpr (Expr.Embeds.found 0 rfl rfl (.chain ?_ (by simp)))⟩
      exact .choiceCons (List.mem_of_getElem? (i := 0) rfl) (embeds_kind rfl)
        (.choiceCons (List.mem_of_getElem? (i := 1) rfl) (embeds_kind rfl) .choiceNil)
    · cases hrule
      refine ⟨_, rfl, List.forall_mem_singleton.mpr (Expr.Embeds.found 0 rfl rfl (.chain ?_ (by simp)))⟩
      exact .choiceCons (List.mem_of_getElem? (i := 0) rfl) (embeds_kind rfl)
        (.choiceCons (List.mem_of_getElem? (i := 1) rfl) (embeds_kind rfl) .choiceNil)
    · cases hrule
      refine ⟨_, rfl, List.forall_mem_cons.mpr ⟨Expr.Embeds.found 0 rfl rfl ?_, List.forall_mem_cons.mpr
        ⟨Expr.Embeds.found 1 rfl rfl ?_, List.forall_mem_cons.mpr ⟨Expr.Embeds.found 4 rfl rfl ?_,
          List.forall_mem_singleton.mpr (Expr.Embeds.found 2 rfl rfl (embeds_kind rfl))⟩⟩⟩⟩
      · exact .seqCons (embeds_kind rfl) (.seqCons (.nonterm (by simp)) .seqNil)
      · exact .seqCons (embeds_kind rfl) (.seqCons (.nonterm (by simp)) .seqNil)
      · exact .seqCons (embeds_kind rfl) (.seqCons (.nonterm (by simp))
          (.seqCons (embeds_kind rfl) .seqNil))

/-- The operator in Pascal. -/
def Operator.toPascal : Operator → Pascal.Operator
  | .add => .add
  | .sub => .sub
  | .mul => .mul
  | .div => .intDiv

/-- The expression in Pascal. -/
def Arith.toPascal : Arith → Pascal.Expression
  | .literal n => .number (.integer n)
  | .unary op operand => .unary op operand.toPascal
  | .binary op left right => .binary op.toPascal left.toPascal right.toPascal

/-- What is read by the calculator as an expression is read in Pascal as the same expression. -/
def SameReading (value : Option Arith) (value' : Option Pascal.Part) : Prop :=
  ∀ t, value = some t → value' = some (.expression t.toPascal)

/-- A numeral is the same numeral in Pascal. -/
theorem number?_of_sameLexeme (h : SameLexeme token token') (hkind : token.kind = .integer)
    (hdigits : Decimal.isNumeral token.text.toList = true) :
    Pascal.number? token' = some (.integer ⟨token.text.toList, hdigits⟩) := by
  obtain ⟨l, hcalc, hpascal⟩ := h
  obtain ⟨hcalckind, hcalctext⟩ := Prod.mk.inj hcalc
  rw [hkind] at hcalckind
  cases l with
  | number n =>
    obtain ⟨hkind', htext'⟩ := Prod.mk.inj hpascal
    refine Pascal.number?_eq_some hkind' (htext'.trans ?_)
    rw [Pascal.Number.text, Pascal.Number.chars, String.ofList_toList, hcalctext]
    rfl
  | sign s => cases s <;> cases hcalckind

/-- A sign in front of an operand is the same sign in Pascal. -/
theorem unary_of_sameLexeme (h : SameLexeme token token') {op : UnaryOp}
    (hop : unaryOp? token.kind = some op) :
    Pascal.unaryOp? token'.kind = some op ∧ token'.text = op.symbol := by
  obtain ⟨l, hcalc, hpascal⟩ := h
  obtain ⟨hkind', htext'⟩ := Prod.mk.inj hpascal
  rw [(Prod.mk.inj hcalc).1] at hop
  rw [hkind', htext']
  cases l with
  | number n => cases hop
  | sign s => cases s <;> cases hop <;> exact ⟨rfl, rfl⟩

theorem of_binaryOp?_eq_some {rule : RuleId} {k : Kind} {op : Operator}
    (h : binaryOp? rule k = some op.op) : rule = op.rule ∧ k = op.sign.kind := by
  unfold binaryOp? at h
  split at h
  · next hrule =>
    cases hrule
    cases op <;> cases k <;> first | exact ⟨rfl, rfl⟩ | cases h
  · split at h
    · next hrule =>
      cases hrule
      cases op <;> cases k <;> first | exact ⟨rfl, rfl⟩ | cases h
    · cases h

theorem prints_toPascal (op : Operator) :
    op.toPascal.Prints (Lexeme.sign op.sign).toPascal := by
  cases op with
  | add => exact .add
  | sub => exact .sub
  | mul => exact .mul
  | div => exact .intDiv _

/-- An operator between operands is its partner in Pascal. -/
theorem operator?_of_sameLexeme (h : SameLexeme token token') {rule : RuleId} {op : Operator}
    (hop : operator? rule token = some op) :
    Pascal.operator? ⟨rule.index + 10⟩ token' = some op.toPascal := by
  obtain ⟨l, hcalc, hpascal⟩ := h
  obtain ⟨rfl, hkind⟩ := of_binaryOp?_eq_some (of_operator?_eq_some hop).1
  rw [(Prod.mk.inj hcalc).1] at hkind
  have hsign : l = .sign op.sign := by
    cases l with
    | number n => cases op <;> cases hkind
    | sign s => cases s <;> cases op <;> first | rfl | cases hkind
  subst hsign
  obtain ⟨hkind', htext'⟩ := (prints_toPascal op).spelling_eq hpascal
  have hrule : (⟨op.rule.index + 10⟩ : RuleId) = op.toPascal.rule := by cases op <;> rfl
  rw [hrule]
  exact Pascal.operator?_eq_some hkind' htext'

/-- **The two readings keep expressions together.** -/
theorem keeps_reading : toPascal.Keeps SameReading reading Pascal.reading := by
  intro reduction t ht
  cases reduction with
  | term rule pair =>
    simp only [Reduction.translate, reading] at ht
    split at ht
    · next hnumeral =>
      cases ht
      obtain ⟨rfl, hkind, hdigits⟩ := hnumeral
      show Pascal.reading (.term Pascal.factor pair.target) = _
      rw [Pascal.reading, if_neg (by decide), if_pos rfl,
        number?_of_sameLexeme pair.holds hkind hdigits]
      rfl
    · cases ht
  | termNonterm rule pair operand =>
    simp only [Reduction.translate, reading] at ht
    split at ht
    · next hrule =>
      subst hrule
      split at ht
      · next op hop =>
        split at ht
        · obtain ⟨e, he, rfl⟩ := Option.map_eq_some_iff.mp ht
          obtain ⟨hop', htext'⟩ := unary_of_sameLexeme pair.holds hop
          show Pascal.reading (.termNonterm Pascal.factor pair.target operand.target) = _
          rw [operand.holds e he, Pascal.reading, if_pos rfl, hop']
          exact if_pos htext'
        · cases ht
      · cases ht
    · cases ht
  | nontermTermNonterm rule left pair right =>
    simp only [Reduction.translate, reading] at ht
    split at ht
    · next op a b hop hleft hright =>
      cases ht
      have hrule : (⟨rule.index + 10⟩ : RuleId) ≠ Pascal.assignmentStatement := by
        intro h
        have := congrArg RuleId.index h
        simp [Pascal.assignmentStatement] at this
      show Pascal.reading (.nontermTermNonterm ⟨rule.index + 10⟩ left.target pair.target right.target)
        = _
      rw [left.holds a hleft, right.holds b hright]
      simp only [Pascal.reading, if_neg hrule, operator?_of_sameLexeme pair.holds hop,
        Option.map_some, Arith.toPascal]
    · cases ht
  | _ => cases ht

end Calc

/-! ## 3.  Pascal in the calculator -/

namespace Pascal

theorem embeds_kind {k : Kind} {k' : Calc.Kind} {carried : RuleId → Prop} {ρ : RuleId → RuleId}
    (h : kindPairs.all (fun pair => pair.2 != k || pair.1 == k') = true) :
    Expr.Embeds grammar.productions (flip SameLexeme) carried ρ (kind k) (Calc.kind k') :=
  .term fun _ _ (hsame : SameLexeme _ _) hkind => by
    have hpair := List.all_eq_true.mp h _ hsame.mem_kindPairs
    rwa [bne, hkind] at hpair

theorem derives_kind_iff {k : Kind} {word : List (Token Kind)} :
    Expr.Derives grammar.productions (kind k) word ↔ ∃ token, token.kind = k ∧ word = [token] := by
  rw [kind, Expr.derives_term_iff]
  simp only [beq_iff_eq]

theorem derives_variableUse_iff {word : List (Token Kind)} :
    Expr.Derives grammar.productions (.nonterm variableUse) word ↔
      ∃ token, token.kind = .id ∧ word = [token] :=
  (Grammar.derives_nonterm_singleton_iff rfl rfl).trans derives_kind_iff

/-- A token of another kind has no partner. -/
theorem barren_kind {k : Kind} (h : kindPairs.all (fun pair => pair.2 != k) = true) :
    (kind k).Barren grammar.productions (flip SameLexeme) := by
  intro pairs hderives
  obtain ⟨token, hkind, hpairs⟩ := derives_kind_iff.mp hderives
  obtain ⟨pair, rfl, rfl⟩ := List.map_eq_singleton_iff.mp hpairs
  exact bne_iff_ne.mp (List.all_eq_true.mp h _ (SameLexeme.mem_kindPairs pair.holds)) hkind

theorem barren_variableUse :
    (Expr.nonterm variableUse).Barren grammar.productions (flip SameLexeme) :=
  fun pairs hderives => barren_kind rfl pairs
    (derives_kind_iff.mpr (derives_variableUse_iff.mp hderives))

/-- **Pascal is found in the calculator**, as far as expressions go: a division that keeps the fraction,
a number with a point and a variable are barren. -/
def toCalc : Embedding grammar Calc.grammar (flip SameLexeme) where
  carried r := r = expr ∨ r = term ∨ r = factor
  rename r := ⟨r.index - 10⟩
  exists_rule := by
    rintro r (rfl | rfl | rfl) rule hrule
    · cases hrule
      refine ⟨_, rfl, List.forall_mem_singleton.mpr
        (Expr.Embeds.found 0 rfl rfl (.chain ?_ (by simp)))⟩
      exact .choiceCons (List.mem_of_getElem? (i := 0) rfl) (embeds_kind rfl)
        (.choiceCons (List.mem_of_getElem? (i := 1) rfl) (embeds_kind rfl) .choiceNil)
    · cases hrule
      refine ⟨_, rfl, List.forall_mem_singleton.mpr
        (Expr.Embeds.found 0 rfl rfl (.chain ?_ (by simp)))⟩
      exact .choiceCons (List.mem_of_getElem? (i := 0) rfl) (embeds_kind rfl)
        (.choiceCons (List.mem_of_getElem? (i := 1) rfl) (embeds_kind rfl)
          (.choiceBarren (barren_kind rfl) .choiceNil))
    · cases hrule
      refine ⟨_, rfl, List.forall_mem_cons.mpr ⟨Expr.Embeds.found 0 rfl rfl ?_,
        List.forall_mem_cons.mpr ⟨Expr.Embeds.found 1 rfl rfl ?_, List.forall_mem_cons.mpr
          ⟨Expr.Embeds.found 3 rfl rfl (embeds_kind rfl), List.forall_mem_cons.mpr
            ⟨Or.inl (barren_kind rfl), List.forall_mem_cons.mpr
              ⟨Expr.Embeds.found 2 rfl rfl ?_,
                List.forall_mem_singleton.mpr (Or.inl barren_variableUse)⟩⟩⟩⟩⟩⟩
      · exact .seqCons (embeds_kind rfl) (.seqCons (.nonterm (by simp)) .seqNil)
      · exact .seqCons (embeds_kind rfl) (.seqCons (.nonterm (by simp)) .seqNil)
      · exact .seqCons (embeds_kind rfl) (.seqCons (.nonterm (by simp))
          (.seqCons (embeds_kind rfl) .seqNil))

/-! ## 4.  The frame -/

variable {inner : List (Token Kind)}

/-- What stands between the semicolon and the dot is a block. -/
theorem derives_block_of_program {first name semi dot : Token Kind}
    (h : Expr.Derives grammar.productions (.nonterm program)
      (first :: name :: semi :: (inner ++ [dot]))) :
    Expr.Derives grammar.productions (.nonterm block) inner := by
  have hbody := (Grammar.derives_nonterm_singleton_iff rfl rfl).mp h
  simp only [Expr.derives_seq_cons_iff, derives_kind_iff, derives_variableUse_iff,
    Expr.derives_seq_nil_iff] at hbody
  obtain ⟨_, _, ⟨_, -, rfl⟩, ⟨_, _, ⟨_, -, rfl⟩, ⟨_, _, ⟨_, -, rfl⟩, ⟨word, _, hblock,
    ⟨_, _, ⟨last, -, rfl⟩, rfl, rfl⟩, rfl⟩, rfl⟩, rfl⟩, hword⟩ := hbody
  have htail : inner ++ [dot] = word ++ [last] :=
    (List.cons.inj (List.cons.inj (List.cons.inj hword).2).2).2
  rwa [(List.append_inj' htail rfl).1]

/-- Declarations are empty, or they begin with `VAR`. -/
theorem kind_of_derives_declarations {word : List (Token Kind)}
    (h : Expr.Derives grammar.productions (.nonterm declarations) word) :
    word = [] ∨ ∃ token rest, word = token :: rest ∧ token.kind = .var := by
  have hbody := (Grammar.derives_nonterm_singleton_iff rfl rfl).mp h
  obtain ⟨item, hmem, hitem⟩ := Expr.derives_choice_iff.mp hbody
  rcases List.mem_pair.mp hmem with rfl | rfl
  · simp only [Expr.derives_seq_cons_iff, derives_kind_iff] at hitem
    obtain ⟨_, rest, ⟨token, hkind, rfl⟩, -, rfl⟩ := hitem
    exact Or.inr ⟨token, rest, rfl, hkind⟩
  · have hempty := (Grammar.derives_nonterm_singleton_iff rfl rfl).mp hitem
    cases hempty
    exact Or.inl rfl

/-- What stands between `BEGIN` and `END` is a list of statements. -/
theorem derives_statementList_of_compound {first last : Token Kind}
    (h : Expr.Derives grammar.productions (.nonterm compoundStatement)
      (first :: (inner ++ [last]))) :
    Expr.Derives grammar.productions (.nonterm statementList) inner := by
  have hbody := (Grammar.derives_nonterm_singleton_iff rfl rfl).mp h
  simp only [Expr.derives_seq_cons_iff, derives_kind_iff, Expr.derives_seq_nil_iff] at hbody
  obtain ⟨_, _, ⟨_, -, rfl⟩, ⟨word, _, hlist, ⟨_, _, ⟨last', -, rfl⟩, rfl, rfl⟩, rfl⟩, hword⟩ := hbody
  have htail : inner ++ [last] = word ++ [last'] := (List.cons.inj hword).2
  rwa [(List.append_inj' htail rfl).1]

/-- A block that begins with `BEGIN` has no declarations. -/
theorem derives_compound_of_block {first : Token Kind} (hfirst : first.kind = .begin)
    (h : Expr.Derives grammar.productions (.nonterm block) (first :: inner)) :
    Expr.Derives grammar.productions (.nonterm compoundStatement) (first :: inner) := by
  have hbody := (Grammar.derives_nonterm_singleton_iff rfl rfl).mp h
  simp only [Expr.derives_seq_cons_iff, Expr.derives_seq_nil_iff] at hbody
  obtain ⟨front, _, hfront, ⟨back, _, hback, rfl, rfl⟩, hword⟩ := hbody
  rw [List.append_nil] at hword
  rcases kind_of_derives_declarations hfront with rfl | ⟨token, rest, rfl, hkind⟩
  · rwa [hword]
  · rw [(List.cons.inj hword).1, hkind] at hfirst
    cases hfirst

/-- Without a semicolon there is a single statement. -/
theorem derives_statement_of_statementList (hinner : ∀ token ∈ inner, token.kind ≠ .semi)
    (h : Expr.Derives grammar.productions (.nonterm statementList) inner) :
    Expr.Derives grammar.productions (.nonterm statement) inner := by
  have hbody := (Grammar.derives_nonterm_singleton_iff rfl rfl).mp h
  simp only [Expr.derives_seq_cons_iff, Expr.derives_seq_nil_iff] at hbody
  obtain ⟨front, _, hfront, ⟨back, _, hback, rfl, rfl⟩, rfl⟩ := hbody
  rcases Expr.derives_zeroOrMore_iff.mp hback with rfl | ⟨round, rest, hround, -, rfl⟩
  · rwa [List.append_nil, List.append_nil]
  · simp only [Expr.derives_seq_cons_iff, derives_kind_iff] at hround
    obtain ⟨_, _, ⟨semi, hsemi, rfl⟩, -, rfl⟩ := hround
    exact absurd hsemi (hinner semi (by simp))

/-- A statement that begins with a name is an assignment. -/
theorem derives_expr_of_statement {target becomes : Token Kind} (htarget : target.kind = .id)
    (h : Expr.Derives grammar.productions (.nonterm statement) (target :: becomes :: inner)) :
    Expr.Derives grammar.productions (.nonterm expr) inner := by
  have hrule : grammar.rule? statement = some grammar.rules[7] := rfl
  obtain ⟨alternative, hmem, h⟩ := (Grammar.derives_nonterm_iff hrule).mp h
  rcases List.mem_cons.mp hmem with rfl | hmem
  · have hbody := (Grammar.derives_nonterm_singleton_iff rfl rfl).mp h
    simp only [Expr.derives_seq_cons_iff, derives_kind_iff] at hbody
    obtain ⟨_, _, ⟨first, hfirst, rfl⟩, -, hword⟩ := hbody
    rw [(List.cons.inj hword).1, hfirst] at htarget
    cases htarget
  · rcases List.mem_pair.mp hmem with rfl | rfl
    · have hbody := (Grammar.derives_nonterm_singleton_iff rfl rfl).mp h
      simp only [Expr.derives_seq_cons_iff, derives_kind_iff, derives_variableUse_iff,
        Expr.derives_seq_nil_iff] at hbody
      obtain ⟨_, _, ⟨_, -, rfl⟩, ⟨_, _, ⟨_, -, rfl⟩, ⟨value, _, hvalue, rfl, rfl⟩, rfl⟩, hword⟩ := hbody
      rw [List.append_nil] at hword
      rwa [(List.cons.inj (List.cons.inj hword).2).2]
    · have hempty := (Grammar.derives_nonterm_singleton_iff rfl rfl).mp h
      cases hempty

/-- **The tokens of a program that has just one assignment**, with these on the right of it. -/
inductive Framed (inner : List (Token Kind)) : List (Token Kind) → Prop where
  | mk {first name semi start target becomes last dot : Token Kind} (hfirst : first.kind = .program)
      (hname : spelling name = (Lexeme.name programName).spelling) (hsemi : semi.kind = .semi)
      (hstart : start.kind = .begin)
      (htarget : spelling target = (Lexeme.name variableName).spelling)
      (hbecomes : spelling becomes = (Lexeme.sign .assign).spelling)
      (hlast : last.kind = .end) (hdot : dot.kind = .dot) :
      Framed inner
        (first :: name :: semi :: (start :: ((target :: becomes :: inner) ++ [last]) ++ [dot]))

theorem exists_framed {tokens : List (Token Kind)} {lexemes : List Lexeme}
    (h : tokens.map spelling = (opening ++ (lexemes ++ closing)).map Lexeme.spelling) :
    ∃ inner, inner.map spelling = lexemes.map Lexeme.spelling ∧ Framed inner tokens := by
  rw [List.map_append, List.map_append] at h
  obtain ⟨first, tokens, rfl, hfirst, h⟩ := List.map_eq_cons_iff.mp h
  obtain ⟨name, tokens, rfl, hname, h⟩ := List.map_eq_cons_iff.mp h
  obtain ⟨semi, tokens, rfl, hsemi, h⟩ := List.map_eq_cons_iff.mp h
  obtain ⟨start, tokens, rfl, hstart, h⟩ := List.map_eq_cons_iff.mp h
  obtain ⟨target, tokens, rfl, htarget, h⟩ := List.map_eq_cons_iff.mp h
  obtain ⟨becomes, tokens, rfl, hbecomes, h⟩ := List.map_eq_cons_iff.mp h
  have h : tokens.map spelling = lexemes.map Lexeme.spelling ++ closing.map Lexeme.spelling := h
  obtain ⟨inner, tokens, rfl, hinner, h⟩ := List.map_eq_append_iff.mp h
  obtain ⟨last, tokens, rfl, hlast, h⟩ := List.map_eq_cons_iff.mp h
  obtain ⟨dot, tokens, rfl, hdot, h⟩ := List.map_eq_cons_iff.mp h
  rw [List.map_eq_nil_iff.mp h]
  have hframed : Framed inner
      (first :: name :: semi :: (start :: ((target :: becomes :: inner) ++ [last]) ++ [dot])) :=
    .mk (Prod.mk.inj hfirst).1 hname (Prod.mk.inj hsemi).1 (Prod.mk.inj hstart).1 htarget hbecomes
      (Prod.mk.inj hlast).1 (Prod.mk.inj hdot).1
  refine ⟨inner, hinner, ?_⟩
  rwa [List.cons_append, List.append_assoc] at hframed

/-- A program with just this frame assigns an expression. -/
theorem Framed.derives_expr {tokens : List (Token Kind)} (hframed : Framed inner tokens)
    (hinner : ∀ token ∈ inner, token.kind ≠ .semi)
    (h : Expr.Derives grammar.productions (.nonterm program) tokens) :
    Expr.Derives grammar.productions (.nonterm expr) inner := by
  obtain ⟨-, -, -, hstart, htarget, hbecomes, -, -⟩ := hframed
  have hcompound := derives_compound_of_block hstart (derives_block_of_program h)
  refine derives_expr_of_statement (Prod.mk.inj htarget).1
    (derives_statement_of_statementList ?_ (derives_statementList_of_compound hcompound))
  refine List.forall_mem_cons.mpr ⟨?_, List.forall_mem_cons.mpr ⟨?_, hinner⟩⟩
  · rw [(Prod.mk.inj htarget).1]
    exact Kind.noConfusion
  · rw [(Prod.mk.inj hbecomes).1]
    exact Kind.noConfusion

/-- An expression in the frame is read as a program. -/
theorem Framed.reads {tokens : List (Token Kind)} (hframed : Framed inner tokens) {e : Expression}
    (h : Reads expr (.expression e) inner) :
    Reads program (.program ⟨programName, [], [.assign variableName e]⟩) tokens := by
  obtain ⟨hfirst, hname, hsemi, hstart, htarget, hbecomes, hlast, hdot⟩ := hframed
  have hstatement : Reads statement (.statement (.assign variableName e)) _ :=
    reads_of_alternative 1 rfl rfl (reads_assign htarget hbecomes h) rfl
  have hcompound := reads_between hstart hlast (.single hstatement)
  have hnothing : Reads declarations (.declarations []) [] := PrintsDeclarations.nothing.reads rfl
  exact reads_program (p := ⟨programName, [], [.assign variableName e]⟩) hfirst hname hsemi hnothing
    hcompound hdot

/-- **The tree is a program with just one assignment**, and this node is on the right of it. -/
def Assigns (tree : Tree) (value : NodeId) : Prop :=
  ∃ name block body statement target, tree.arena.get tree.root = .ok (.program name block) ∧
    tree.arena.get name = .ok (.var "p") ∧ tree.arena.get block = .ok (.block [] body) ∧
    tree.arena.get body = .ok (.compound [statement]) ∧
    tree.arena.get statement = .ok (.binary .assign ":=" target value) ∧
    tree.arena.get target = .ok (.var "x")

theorem exists_assigns {tree : Tree} {e : Expression}
    (h : Program.Stored tree.arena ⟨programName, [], [.assign variableName e]⟩ tree.root) :
    ∃ value, Assigns tree value ∧ e.Stored tree.arena value := by
  have hprogram : programName.folded = "p" :=
    toLower_eq_iff.mpr (congrArg (List.map Char.toLower) String.toList_ofList)
  have hvariable : variableName.folded = "x" :=
    toLower_eq_iff.mpr (congrArg (List.map Char.toLower) String.toList_ofList)
  obtain ⟨name, block, hroot, hname, ids, body, hblock, hids, hbody⟩ := h
  cases List.forall₂_nil_left_iff.mp hids
  rw [Statement.Stored] at hbody
  obtain ⟨statements, hbody, hall⟩ := hbody
  rcases statements with _ | ⟨statement, _ | ⟨next, rest⟩⟩
  · exact hall.elim
  · rw [Statement.StoredAll, Statement.Stored] at hall
    obtain ⟨⟨target, value, hstatement, htarget, hvalue⟩, -⟩ := hall
    exact ⟨value, ⟨name, block, body, statement, target, hroot, hprogram ▸ hname, hblock, hbody,
      hstatement, hvariable ▸ htarget⟩, hvalue⟩
  · rw [Statement.StoredAll] at hall
    exact hall.2.elim

end Pascal

/-! ## 5.  Both parsers -/

/-- **The nodes are the tops of the same tree**, each in an arena of its own: numbers of the same sort
with the same text, and the same operators with the same operands. -/
inductive SameExpression (arena arena' : Arena) : NodeId → NodeId → Prop where
  | const {id id' : NodeId} {kind : NumberKind} {text : String}
      (h : arena.get id = .ok (.const kind text)) (h' : arena'.get id' = .ok (.const kind text)) :
      SameExpression arena arena' id id'
  | unary {id id' operand operand' : NodeId} {op : UnaryOp} {symbol : String}
      (h : arena.get id = .ok (.unary op symbol operand))
      (h' : arena'.get id' = .ok (.unary op symbol operand'))
      (hoperand : SameExpression arena arena' operand operand') : SameExpression arena arena' id id'
  | binary {id id' left left' right right' : NodeId} {op : BinaryOp} {symbol symbol' : String}
      (h : arena.get id = .ok (.binary op symbol left right))
      (h' : arena'.get id' = .ok (.binary op symbol' left' right'))
      (hleft : SameExpression arena arena' left left')
      (hright : SameExpression arena arena' right right') : SameExpression arena arena' id id'

theorem Calc.Arith.Stored.same {arena arena' : Arena} {t : Arith} {id id' : NodeId}
    (h : t.Stored arena id) (h' : t.toPascal.Stored arena' id') :
    SameExpression arena arena' id id' := by
  induction t generalizing id id' with
  | literal n => exact .const h h'
  | unary op operand ih =>
    obtain ⟨child, hget, hchild⟩ := h
    obtain ⟨child', hget', hchild'⟩ := h'
    exact .unary hget hget' (ih hchild hchild')
  | binary op left right ihleft ihright =>
    obtain ⟨i, j, hget, hleft, hright⟩ := h
    obtain ⟨symbol, i', j', hget', -, hleft', hright'⟩ := h'
    have hop : op.toPascal.op = op.op := by cases op <;> rfl
    rw [hop] at hget'
    exact .binary hget hget' (ihleft hleft hleft') (ihright hright hright')

/-- A text that derives from the rule of expressions is parsed. -/
theorem Calc.exists_tree_of_derives {source : String}
    (h : Expr.Derives grammar.productions (.nonterm expr) (Cursor.start table source).tokens) :
    ∃ tree t, parse source = .ok tree ∧ Reads expr t (Cursor.start table source).tokens ∧
      t.Stored tree.arena tree.root := by
  obtain ⟨pieces, hyields⟩ := Grammar.exists_yields reading h
  obtain ⟨value, rfl⟩ := hyields.exists_value
  obtain ⟨t, rfl⟩ := grammar_sorted.of_yields hyields fun token htoken =>
    wellSpelled_of_spelled (Cursor.spelled_of_mem_tokens table source token htoken)
  obtain ⟨tree, htree, hstored, -⟩ := exists_tree_of_reads hyields
  exact ⟨tree, t, htree, hyields, hstored⟩

theorem Calc.derives_of_parse {source : String} {tree : Tree} (h : parse source = .ok tree) :
    Expr.Derives grammar.productions (.nonterm expr) (Cursor.start table source).tokens := by
  have hrecognises := grammar.parse_recognises (w := .empty) outlook_fits productions_grammar rfl
    (Or.inr fun _ => rfl) (Models.trivial build) True.intro (Cursor.start table source)
  have hmap := hrecognises.map fun root =>
    (⟨(grammar.parse build .empty (Cursor.start table source)).2, root⟩ : Tree)
  rw [parse_eq_map] at h
  have hkinds := hmap.ok_iff.mp ⟨tree, h⟩
  exact productions_grammar ▸ Expr.derives_comap_iff.mpr hkinds

/-- The numerals, signs and parentheses are an expression, by the context-free grammar of the
calculator. -/
def Calc.IsExpr (lexemes : List Lexeme) : Prop :=
  Expr.Derives productions (.nonterm expr) (lexemes.map fun l => l.spelling.1)

theorem Calc.derives_iff_isExpr {lexemes : List Lexeme} {tokens : List (Token Kind)}
    (h : tokens.map spelling = lexemes.map Lexeme.spelling) :
    Expr.Derives grammar.productions (.nonterm expr) tokens ↔ IsExpr lexemes := by
  have hkinds : tokens.map Token.kind = lexemes.map fun l => l.spelling.1 := by
    have hfirst := congrArg (List.map Prod.fst) h
    rwa [List.map_map, List.map_map] at hfirst
  rw [IsExpr, ← hkinds, productions_grammar]
  exact Expr.derives_comap_iff (e := .nonterm expr)

/-- **The two languages agree on expressions.**  Numerals, signs and parentheses, in whatever order, are
parsed by both if they are an expression, and then the two trees are the same; otherwise they are
refused by both. -/
theorem parsers_agree (lexemes : List Calc.Lexeme) :
    (Calc.IsExpr lexemes ∧ ∃ tree tree' value,
        Calc.parse (Calc.sourceOf lexemes) = .ok tree ∧
        Pascal.parse (Pascal.sourceOf lexemes) = .ok tree' ∧ Pascal.Assigns tree' value ∧
        SameExpression tree.arena tree'.arena tree.root value) ∨
      (¬ Calc.IsExpr lexemes ∧ ∃ why why',
        Calc.parse (Calc.sourceOf lexemes) = .error why ∧
        Pascal.parse (Pascal.sourceOf lexemes) = .error why') := by
  have htokens := Calc.spellings_sourceOf lexemes
  obtain ⟨inner, hinner, hframed⟩ := Pascal.exists_framed (Pascal.spellings_sourceOf lexemes)
  have hsame := forall₂_sameLexeme htokens hinner
  rw [← Calc.derives_iff_isExpr htokens]
  by_cases hderives : Expr.Derives Calc.grammar.productions (.nonterm Calc.expr)
      (Cursor.start Calc.table (Calc.sourceOf lexemes)).tokens
  · obtain ⟨tree, t, htree, hreads, hstored⟩ := Calc.exists_tree_of_derives hderives
    obtain ⟨value', hvalue, hyields⟩ :=
      Embedding.exists_value Calc.keeps_reading (Or.inl rfl) hsame hreads
    rw [hvalue t rfl] at hyields
    obtain ⟨tree', htree', hstored'⟩ := Pascal.exists_tree_of_reads (hframed.reads hyields)
    obtain ⟨value, hassigns, hvalue'⟩ := Pascal.exists_assigns hstored'
    exact Or.inl ⟨hderives, tree, tree', value, htree, htree', hassigns, hstored.same hvalue'⟩
  · refine Or.inr ⟨hderives, ?_⟩
    cases hcalc : Calc.parse (Calc.sourceOf lexemes) with
    | ok tree => exact absurd (Calc.derives_of_parse hcalc) hderives
    | error why =>
      cases hpascal : Pascal.parse (Pascal.sourceOf lexemes) with
      | error why' => exact ⟨why, why', rfl, rfl⟩
      | ok tree' =>
        -- The program assigns an expression, which the calculator would have read as well.
        obtain ⟨p, hyields, -⟩ := Pascal.exists_yields_of_parse hpascal
        have hexpr := hframed.derives_expr (Calc.kind_ne_semi hinner) hyields.derives
        exact absurd (Pascal.toCalc.derives (Or.inl rfl) hsame.flip hexpr) hderives

end GrammarKit
