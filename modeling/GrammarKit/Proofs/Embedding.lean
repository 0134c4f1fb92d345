import GrammarKit.Proofs.Translation

/-!
# One grammar inside another

A part of one grammar may be found in another one: its rules have partners there, and so have the
tokens that matter.  The partners may stand in another order, and either grammar may say more.  What it
says beyond that does no harm, if no word whose tokens have partners comes of it.

A word of the one grammar then becomes a word of the other, token by token, and the values of both
words belong together if the two algebras keep them together.

* `Matched`: a token or a value with its partner.
* `Expr.Embeds`: an expression that is found in another one, up to items that are `Expr.Barren`.
* `Embedding`, `Embedding.yields`: grammars, and their words.
-/

namespace GrammarKit

variable {T T' X X' : Type}

/-! ## 1.  Partners -/

/-- Two things that belong together. -/
structure Matched (R : T → T' → Prop) where
  /-- The thing at hand. -/
  source : T
  /-- Its partner. -/
  target : T'
  holds : R source target

/-- Lists whose items belong together are lists of things with their partners. -/
theorem exists_matched {R : T → T' → Prop} {xs : List T} {ys : List T'}
    (h : List.Forall₂ R xs ys) :
    ∃ pairs : List (Matched R), pairs.map Matched.source = xs ∧ pairs.map Matched.target = ys := by
  induction h with
  | nil => exact ⟨[], rfl, rfl⟩
  | cons hfirst _ ih =>
    obtain ⟨pairs, rfl, rfl⟩ := ih
    exact ⟨⟨_, _, hfirst⟩ :: pairs, rfl, rfl⟩

/-! ## 2.  Rules under other names -/

/-- The reduction of a rule under another name. -/
def Reduction.rename (ρ : RuleId → RuleId) : Reduction T X → Reduction T X
  | .null => .null
  | .empty rule => .empty (ρ rule)
  | .term rule token => .term (ρ rule) token
  | .nonterm rule node => .nonterm (ρ rule) node
  | .termNonterm rule token node => .termNonterm (ρ rule) token node
  | .nontermNonterm rule left right => .nontermNonterm (ρ rule) left right
  | .nontermTermNonterm rule left token right => .nontermTermNonterm (ρ rule) left token right
  | .nontermList rule nodes => .nontermList (ρ rule) nodes
  | .termNontermList rule tokens nodes => .termNontermList (ρ rule) tokens nodes

/-- A rule under another name has the value that an algebra gives it which knows that name. -/
theorem Shape.value_rename (ρ : RuleId → RuleId) (algebra : Reduction T X → X) (shape : Shape)
    (rule : RuleId) (pieces : Pieces T X) :
    shape.value algebra (ρ rule) pieces =
      shape.value (fun reduction => algebra (reduction.rename ρ)) rule pieces := by
  cases shape <;> simp only [value, Production.record, Production.start, Production.reduce] <;> rfl

/-! ## 3.  Expressions -/

namespace Expr

/-- No word of the expression has a partner for each of its tokens. -/
def Barren (productions : Productions T) (R : T → T' → Prop) (e : Expr T) : Prop :=
  ∀ pairs : List (Matched R), ¬ Derives productions e (pairs.map Matched.source)

/-- **The expression is found in another one**: terms that accept a token accept its partner, rules
are carried over by `ρ`, and each item of a choice is barren or found among the other items. -/
inductive Embeds (productions : Productions T) (R : T → T' → Prop) (carried : RuleId → Prop)
    (ρ : RuleId → RuleId) : Expr T → Expr T' → Prop where
  | empty : Embeds productions R carried ρ .empty .empty
  | term {accepts : T → Bool} {accepts' : T' → Bool}
      (h : ∀ token token', R token token' → accepts token = true → accepts' token' = true) :
      Embeds productions R carried ρ (.term accepts) (.term accepts')
  | nonterm {rule : RuleId} (h : carried rule) :
      Embeds productions R carried ρ (.nonterm rule) (.nonterm (ρ rule))
  | seqNil : Embeds productions R carried ρ (.seq []) (.seq [])
  | seqCons {item : Expr T} {item' : Expr T'} {items : List (Expr T)} {items' : List (Expr T')}
      (hitem : Embeds productions R carried ρ item item')
      (hitems : Embeds productions R carried ρ (.seq items) (.seq items')) :
      Embeds productions R carried ρ (.seq (item :: items)) (.seq (item' :: items'))
  | choiceNil {items' : List (Expr T')} :
      Embeds productions R carried ρ (.choice []) (.choice items')
  | choiceCons {item : Expr T} {item' : Expr T'} {items : List (Expr T)} {items' : List (Expr T')}
      (hmem : item' ∈ items') (hitem : Embeds productions R carried ρ item item')
      (hitems : Embeds productions R carried ρ (.choice items) (.choice items')) :
      Embeds productions R carried ρ (.choice (item :: items)) (.choice items')
  | choiceBarren {item : Expr T} {items : List (Expr T)} {items' : List (Expr T')}
      (hitem : Barren productions R item)
      (hitems : Embeds productions R carried ρ (.choice items) (.choice items')) :
      Embeds productions R carried ρ (.choice (item :: items)) (.choice items')
  | rep {least : Nat} {body : Expr T} {body' : Expr T'}
      (h : Embeds productions R carried ρ body body') :
      Embeds productions R carried ρ (.rep least body) (.rep least body')
  | opt {body : Expr T} {body' : Expr T'} (h : Embeds productions R carried ρ body body') :
      Embeds productions R carried ρ (.opt body) (.opt body')

variable {productions : Productions T} {R : T → T' → Prop} {carried : RuleId → Prop}
  {ρ : RuleId → RuleId}

theorem Embeds.of_mem {items : List (Expr T)} {items' : List (Expr T')}
    (h : Embeds productions R carried ρ (.choice items) (.choice items')) {item : Expr T}
    (hmem : item ∈ items) :
    Barren productions R item ∨ ∃ item' ∈ items', Embeds productions R carried ρ item item' := by
  induction items with
  | nil => exact absurd hmem List.not_mem_nil
  | cons first items ih =>
    cases h with
    | choiceCons hfirst hitem hitems =>
      rcases List.mem_cons.mp hmem with rfl | hmem
      · exact Or.inr ⟨_, hfirst, hitem⟩
      · exact ih hitems hmem
    | choiceBarren hitem hitems =>
      rcases List.mem_cons.mp hmem with rfl | hmem
      · exact Or.inl hitem
      · exact ih hitems hmem

/-- A chain of operands is found in a chain of their partners, if its operators are. -/
theorem Embeds.chain {operators : List (Expr T)} {operators' : List (Expr T')} {operand : RuleId}
    (hoperators : Embeds productions R carried ρ (.choice operators) (.choice operators'))
    (hoperand : carried operand) :
    Embeds productions R carried ρ (.chain operators operand) (.chain operators' (ρ operand)) :=
  .seqCons (.nonterm hoperand)
    (.seqCons (.rep (.seqCons hoperators (.seqCons (.nonterm hoperand) .seqNil))) .seqNil)

end Expr

/-- An alternative is found at this place of the others. -/
theorem Expr.Embeds.found {productions : Productions T} {R : T → T' → Prop}
    {carried : RuleId → Prop} {ρ : RuleId → RuleId} {alternative : Alternative T}
    {alternative' : Alternative T'} {alternatives' : List (Alternative T')} (i : Nat)
    (hi : alternatives'[i]? = some alternative') (hshape : alternative'.shape = alternative.shape)
    (h : Embeds productions R carried ρ alternative.expr alternative'.expr) :
    alternative.expr.Barren productions R ∨ ∃ alternative' ∈ alternatives',
      alternative'.shape = alternative.shape ∧
        Embeds productions R carried ρ alternative.expr alternative'.expr :=
  Or.inr ⟨alternative', List.mem_of_getElem? hi, hshape, h⟩

/-! ## 4.  Grammars -/

/-- **Some rules of a grammar are found in another one**, each under another name: every alternative is
barren, or it is found in an alternative of the same shape. -/
structure Embedding (g : Grammar T) (g' : Grammar T') (R : T → T' → Prop) where
  /-- The rules that are found. -/
  carried : RuleId → Prop
  /-- Their names in the other grammar. -/
  rename : RuleId → RuleId
  exists_rule : ∀ r, carried r → ∀ rule, g.rule? r = some rule →
    ∃ rule', g'.rule? (rename r) = some rule' ∧ ∀ alternative ∈ rule.alternatives,
      alternative.expr.Barren g.productions R ∨
        ∃ alternative' ∈ rule'.alternatives, alternative'.shape = alternative.shape ∧
          Expr.Embeds g.productions R carried rename alternative.expr alternative'.expr

namespace Embedding

variable {g : Grammar T} {g' : Grammar T'} {R : T → T' → Prop} {M : X → X' → Prop}
  {algebra : Reduction T X → X} {algebra' : Reduction T' X' → X'}

/-- The algebras keep values together: where tokens and values have partners, the values of the two
reductions are partners. -/
def Keeps (c : Embedding g g' R) (M : X → X' → Prop) (algebra : Reduction T X → X)
    (algebra' : Reduction T' X' → X') : Prop :=
  ∀ reduction : Reduction (Matched R) (Matched M),
    M (algebra (reduction.translate Matched.source Matched.source))
      (algebra' ((reduction.translate Matched.target Matched.target).rename c.rename))

/-- The value of a reduction with its partner. -/
def pairedAlgebra {c : Embedding g g' R} (h : c.Keeps M algebra algebra') :
    Reduction (Matched R) (Matched M) → Matched M :=
  fun reduction => ⟨_, _, h reduction⟩

theorem value_source {c : Embedding g g' R} (h : c.Keeps M algebra algebra') (shape : Shape)
    (rule : RuleId) (pieces : Pieces (Matched R) (Matched M)) :
    shape.value algebra rule (pieces.translate Matched.source Matched.source) =
      (shape.value (pairedAlgebra h) rule pieces).source := by
  have hom : ∀ reduction, algebra (reduction.translate Matched.source Matched.source) =
      (pairedAlgebra h reduction).source := fun _ => rfl
  exact Shape.value_translate hom shape rule pieces

theorem value_target {c : Embedding g g' R} (h : c.Keeps M algebra algebra') (shape : Shape)
    (rule : RuleId) (pieces : Pieces (Matched R) (Matched M)) :
    shape.value algebra' (c.rename rule) (pieces.translate Matched.target Matched.target) =
      (shape.value (pairedAlgebra h) rule pieces).target := by
  have hom : ∀ reduction,
      algebra' ((reduction.translate Matched.target Matched.target).rename c.rename) =
        (pairedAlgebra h reduction).target := fun _ => rfl
  rw [Shape.value_rename]
  exact Shape.value_translate hom shape rule pieces

/-- **A word whose tokens have partners becomes a word of the other grammar**, and what is recorded of
it becomes what is recorded there. -/
theorem yields {c : Embedding g g' R} (hkeeps : c.Keeps M algebra algebra') {e : Expr T}
    {word : List T} {pieces : Pieces T X} (h : g.Yields algebra e word pieces) :
    ∀ {e' : Expr T'} (pairs : List (Matched R)), pairs.map Matched.source = word →
      Expr.Embeds g.productions R c.carried c.rename e e' →
      ∃ both : Pieces (Matched R) (Matched M),
        both.translate Matched.source Matched.source = pieces ∧
        g'.Yields algebra' e' (pairs.map Matched.target)
          (both.translate Matched.target Matched.target) := by
  induction h with
  | empty =>
    intro e' pairs hpairs he
    rw [List.map_eq_nil_iff.mp hpairs]
    cases he
    exact ⟨.nil, rfl, .empty⟩
  | term haccepts =>
    intro e' pairs hpairs he
    obtain ⟨pair, rfl, rfl⟩ := List.map_eq_singleton_iff.mp hpairs
    cases he with
    | term h => exact ⟨.ofTerm pair, rfl, .term (h _ _ pair.holds haccepts)⟩
  | @nonterm r rule alternative word pieces hrule hmem hyields ih =>
    intro e' pairs hpairs he
    cases he with
    | nonterm hcarried =>
      obtain ⟨rule', hrule', hall⟩ := c.exists_rule _ hcarried _ hrule
      rcases hall _ hmem with hbarren | ⟨alternative', hmem', hshape, hembeds⟩
      · exact absurd (hpairs ▸ hyields.derives) (hbarren pairs)
      · obtain ⟨both, rfl, hyields'⟩ := ih pairs hpairs hembeds
        refine ⟨.ofValue (alternative.shape.value (pairedAlgebra hkeeps) r both), ?_, ?_⟩
        · rw [value_source hkeeps]
          rfl
        · have hvalue := Grammar.Yields.nonterm hrule' hmem' hyields'
          rw [hshape, value_target hkeeps] at hvalue
          exact hvalue
  | seqNil =>
    intro e' pairs hpairs he
    rw [List.map_eq_nil_iff.mp hpairs]
    cases he
    exact ⟨.nil, rfl, .seqNil⟩
  | seqCons _ _ ihitem ihitems =>
    intro e' pairs hpairs he
    obtain ⟨front, back, rfl, hfront, hback⟩ := List.map_eq_append_iff.mp hpairs
    cases he with
    | seqCons hitem hitems =>
      obtain ⟨first, rfl, hfirst⟩ := ihitem front hfront hitem
      obtain ⟨second, rfl, hsecond⟩ := ihitems back hback hitems
      refine ⟨first ++ second, Pieces.translate_append _ _ _ _, ?_⟩
      rw [List.map_append, Pieces.translate_append]
      exact .seqCons hfirst hsecond
  | choice hmem hyields ih =>
    intro e' pairs hpairs he
    have hchoice : ∃ items', e' = .choice items' := by
      cases he <;> exact ⟨_, rfl⟩
    obtain ⟨items', rfl⟩ := hchoice
    rcases he.of_mem hmem with hbarren | ⟨item', hmem', hitem⟩
    · exact absurd (hpairs ▸ hyields.derives) (hbarren pairs)
    · obtain ⟨both, hboth, hyields'⟩ := ih pairs hpairs hitem
      exact ⟨both, hboth, .choice hmem' hyields'⟩
  | repStop =>
    intro e' pairs hpairs he
    rw [List.map_eq_nil_iff.mp hpairs]
    cases he
    exact ⟨.nil, rfl, .repStop⟩
  | repMore _ _ ihbody ihrest =>
    intro e' pairs hpairs he
    obtain ⟨front, back, rfl, hfront, hback⟩ := List.map_eq_append_iff.mp hpairs
    cases he with
    | rep hbody =>
      obtain ⟨first, rfl, hfirst⟩ := ihbody front hfront hbody
      obtain ⟨second, rfl, hsecond⟩ := ihrest back hback (.rep hbody)
      refine ⟨first ++ second, Pieces.translate_append _ _ _ _, ?_⟩
      rw [List.map_append, Pieces.translate_append]
      exact .repMore hfirst hsecond
  | optNone =>
    intro e' pairs hpairs he
    rw [List.map_eq_nil_iff.mp hpairs]
    cases he
    exact ⟨.nil, rfl, .optNone⟩
  | optSome _ ih =>
    intro e' pairs hpairs he
    cases he with
    | opt hbody =>
      obtain ⟨both, hboth, hyields'⟩ := ih pairs hpairs hbody
      exact ⟨both, hboth, .optSome hyields'⟩

/-- **A word of a carried rule is one of its partner, with the partner of its value.** -/
theorem exists_value {c : Embedding g g' R} (hkeeps : c.Keeps M algebra algebra') {r : RuleId}
    (hcarried : c.carried r) {word : List T} {word' : List T'} (hword : List.Forall₂ R word word')
    {value : X} (h : g.Yields algebra (.nonterm r) word (.ofValue value)) :
    ∃ value', M value value' ∧
      g'.Yields algebra' (.nonterm (c.rename r)) word' (.ofValue value') := by
  obtain ⟨pairs, hsource, rfl⟩ := exists_matched hword
  obtain ⟨both, hboth, hyields⟩ := yields hkeeps h pairs hsource (.nonterm hcarried)
  obtain ⟨terms, values⟩ := both
  have hterms : terms.map Matched.source = [] := (Pieces.mk.inj hboth).1
  have hvalues : values.map Matched.source = [value] := (Pieces.mk.inj hboth).2
  obtain ⟨pair, rfl, rfl⟩ := List.map_eq_singleton_iff.mp hvalues
  obtain rfl := List.map_eq_nil_iff.mp hterms
  exact ⟨pair.target, pair.holds, hyields⟩

/-- Without values: the words of a carried rule are words of its partner. -/
theorem derives (c : Embedding g g' R) {r : RuleId} (hcarried : c.carried r) {word : List T}
    {word' : List T'} (hword : List.Forall₂ R word word')
    (h : Expr.Derives g.productions (.nonterm r) word) :
    Expr.Derives g'.productions (.nonterm (c.rename r)) word' := by
  have hkeeps : c.Keeps (fun _ _ => True) (fun _ => ()) fun _ => () := fun _ => trivial
  obtain ⟨pieces, hyields⟩ := Grammar.exists_yields (fun _ : Reduction T Unit => ()) h
  obtain ⟨value, rfl⟩ := hyields.exists_value
  obtain ⟨value', -, hyields'⟩ := exists_value hkeeps hcarried hword hyields
  exact hyields'.derives

end Embedding

end GrammarKit
