import GrammarKit.Calc.Syntax
import GrammarKit.Proofs.Acceptance

/-!
# The context-free grammar of the calculator

The rules of the calculator, read as a context-free grammar over kinds of tokens, and what the
parser makes of a text: it finds the longest prefix of the tokens that is an expression.

No rule of the calculator may be empty, and one token tells the alternatives of a factor apart.  An
operator does not have to be followed by an operand, though: behind a text such as `1 + )` the
operator is given back, and the expression ends before it.
-/

namespace GrammarKit.Calc

/-- The kinds are finitely many. -/
instance : Fintype Kind := ⟨⟨Kind.all, by decide⟩, Kind.mem_all⟩

/-- The kind `k`. -/
def exactly (k : Kind) : Expr Kind := .term (· == k)

/-- The rules of the calculator, over kinds of tokens. -/
def productions : Productions Kind :=
  [ (expr,
      [.seq [.nonterm term,
        .zeroOrMore (.seq [.choice [exactly .plus, exactly .minus], .nonterm term])]]),
    (term,
      [.seq [.nonterm factor,
        .zeroOrMore (.seq [.choice [exactly .multiply, exactly .divide], .nonterm factor])]]),
    (factor,
      [ .seq [exactly .plus, .nonterm factor],
        .seq [exactly .minus, .nonterm factor],
        .seq [exactly .lParens, .nonterm expr, exactly .rParens],
        exactly .integer ]) ]

theorem productions_grammar :
    grammar.productions = Expr.comapProductions Token.kind productions := rfl

/-- What is known of the rules of the calculator before anything is read. -/
def outlook : Outlook Kind where
  nullable _ := false
  rank r := 2 - r.index
  starts _ ahead := ahead.any fun k => k ∈ [.plus, .minus, .lParens, .integer]
  follows r ahead :=
    if r = expr then ahead.all (· = .rParens)
    else if r = term then ahead.all (· ∈ [.plus, .minus, .rParens])
    else true

theorem outlook_fits : outlook.Fits productions := by decide +kernel

/-- The rules of the calculator have ranks. -/
theorem ranked_grammar :
    grammar.Ranked (outlook.comap Token.kind).nullable (outlook.comap Token.kind).rank :=
  Outlook.Fits.ranked (productions_grammar ▸ outlook_fits.comap Token.kind)

/-- The answer of the parser is that of the grammar. -/
theorem parse_eq_map (source : String) :
    parse source =
      (grammar.parse build .empty (Cursor.start table source)).1.map fun root =>
        ⟨(grammar.parse build .empty (Cursor.start table source)).2, root⟩ := by
  unfold parse
  rcases grammar.parse build .empty (Cursor.start table source) with ⟨_ | _, _⟩ <;> rfl

/-- **The calculator's parser finds the longest expression.**  Which of the four answers it gives
depends on the kinds of the tokens alone, by the context-free grammar. -/
theorem parse_finds_longest (source : String) :
    let tokens := (Cursor.start table source).tokens
    let isExpr := fun word : List (Token Kind) =>
      Expr.Derives productions (.nonterm expr) (word.map Token.kind)
    ((∃ tree, parse source = .ok tree) ↔ isExpr tokens) ∧
    ((∃ why, parse source = .error (.failed why)) ↔ tokens = []) ∧
    (∀ offset, parse source = .error (.tokensLeft offset) ↔
      ∃ word next post, tokens = word ++ next :: post ∧ word ≠ [] ∧ isExpr word ∧
        (∀ word', word' <+: tokens → isExpr word' → word'.length ≤ word.length) ∧
        offset = next.offset) ∧
    (parse source = .error .noMatch ↔
      tokens ≠ [] ∧ ∀ word, word <+: tokens → ¬ isExpr word) := by
  intro tokens isExpr
  have hrecognises := grammar.parse_recognises (w := .empty) outlook_fits productions_grammar rfl
    (Or.inr fun _ => rfl) (Models.trivial build) True.intro (Cursor.start table source)
  rw [parse_eq_map]
  have hmap := hrecognises.map fun root =>
    (⟨(grammar.parse build .empty (Cursor.start table source)).2, root⟩ : Tree)
  exact ⟨hmap.ok_iff, hmap.failed_iff, hmap.tokensLeft_iff, hmap.noMatch_iff⟩

end GrammarKit.Calc
