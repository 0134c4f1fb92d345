import GrammarKit.Proofs.Acceptance

/-!
# Other tokens for the same word

Tokens may be changed into others that the terms of a grammar cannot tell from them.  A word is then
changed into one of the same shape.  What it is made into is changed as well, and if the algebra does
the same to a node as to its pieces, what becomes of the new word is the changed value of the old one.

* `Reduction.translate`, `Pieces.translate`: the tokens and the values changed one by one.
* `Shape.value_translate`: the value of the changed pieces.
* `Grammar.Yields.translate`: the value of the changed word.
* `Recognises.of_map`, `Recognises.same_answer`: if kinds and places stay, so does the reason for which
  a text is refused.
-/

namespace GrammarKit

variable {S T X Y : Type}

/-! ## 1.  Pieces -/

/-- The reduction with its tokens and its nodes changed. -/
def Reduction.translate (f : T → S) (φ : X → Y) : Reduction T X → Reduction S Y
  | .null => .null
  | .empty rule => .empty rule
  | .term rule token => .term rule (f token)
  | .nonterm rule node => .nonterm rule (φ node)
  | .termNonterm rule token node => .termNonterm rule (f token) (φ node)
  | .nontermNonterm rule left right => .nontermNonterm rule (φ left) (φ right)
  | .nontermTermNonterm rule left token right =>
    .nontermTermNonterm rule (φ left) (f token) (φ right)
  | .nontermList rule nodes => .nontermList rule (nodes.map φ)
  | .termNontermList rule tokens nodes => .termNontermList rule (tokens.map f) (nodes.map φ)

/-- The pieces, each of them changed. -/
def Pieces.translate (f : T → S) (φ : X → Y) (pieces : Pieces T X) : Pieces S Y :=
  ⟨pieces.terms.map f, pieces.values.map φ⟩

theorem Pieces.translate_append (f : T → S) (φ : X → Y) (p q : Pieces T X) :
    (p ++ q).translate f φ = p.translate f φ ++ q.translate f φ := by
  rw [translate, terms_append, values_append, List.map_append, List.map_append]
  rfl

/-! ## 2.  Values -/

variable {f : T → S} {φ : X → Y} {algebra : Reduction T X → X} {algebra' : Reduction S Y → Y}

/-- A chain of changed operands is folded to the changed value. -/
theorem Production.foldChain_translate
    (hom : ∀ reduction, algebra' (reduction.translate f φ) = φ (algebra reduction)) (rule : RuleId)
    (first : X) (links : List (T × X)) :
    (foldChain (algebraBuilder algebra') rule (φ first) (links.map (Prod.map f φ)) ()).1 =
      φ (foldChain (algebraBuilder algebra) rule first links ()).1 := by
  induction links generalizing first with
  | nil => rfl
  | cons link links ih =>
    obtain ⟨token, right⟩ := link
    have hstep := hom (.nontermTermNonterm rule first token right)
    rw [Reduction.translate] at hstep
    have hrest := ih (algebra (.nontermTermNonterm rule first token right))
    rw [← hstep] at hrest
    exact hrest

/-- **The changed pieces have the changed value.** -/
theorem Shape.value_translate
    (hom : ∀ reduction, algebra' (reduction.translate f φ) = φ (algebra reduction)) (shape : Shape)
    (rule : RuleId) (pieces : Pieces T X) :
    shape.value algebra' rule (pieces.translate f φ) = φ (shape.value algebra rule pieces) := by
  obtain ⟨terms, values⟩ := pieces
  have hback : ∀ {α : Type} (xs : List α), xs.toArray.back? = xs.getLast? := by
    intro α xs
    simp
  have hnull : algebra' .null = φ (algebra .null) := hom .null
  cases shape <;>
    simp only [value, Production.record, Production.start, Production.reduce, Pieces.translate,
      keepsTerms, keepsNonterms, Array.empty_append, hback, List.getLast?_map, if_true,
      algebraBuilder, Bool.false_eq_true, if_false]
  case empty => exact hom (.empty rule)
  case term =>
    cases terms.getLast? with
    | none => exact hnull
    | some token => exact hom (.term rule token)
  case nonterm =>
    cases values.getLast? with
    | none => exact hnull
    | some node => exact hom (.nonterm rule node)
  case termNonterm =>
    cases terms.getLast? with
    | none => exact hnull
    | some token =>
      cases values.getLast? with
      | none => exact hnull
      | some node => exact hom (.termNonterm rule token node)
  case nontermNonterm =>
    rcases values with _ | ⟨left, _ | ⟨right, more⟩⟩
    · exact hnull
    · exact hnull
    · exact hom (.nontermNonterm rule left right)
  case nontermTermNonterm =>
    rcases values with _ | ⟨left, _ | ⟨right, more⟩⟩
    · exact hnull
    · exact hnull
    · cases terms.getLast? with
      | none => exact hnull
      | some token => exact hom (.nontermTermNonterm rule left token right)
  case chain =>
    cases values with
    | nil => exact hnull
    | cons first operands =>
      have hchain := Production.foldChain_translate hom rule first (terms.zip operands)
      rw [← List.zip_map] at hchain
      exact hchain
  case nontermList => exact hom (.nontermList rule values)
  case termNontermList => exact hom (.termNontermList rule terms values)
  case bypass =>
    cases values.getLast? with
    | none => exact hnull
    | some node => rfl

/-! ## 3.  Words -/

/-- If no term of the list sees the change, none of its items does. -/
theorem Expr.comap_eq_of_mem {f : T → T} {items : List (Expr T)} (h : comapAll f items = items)
    {item : Expr T} (hmem : item ∈ items) : item.comap f = item := by
  rw [comapAll_eq_map] at h
  exact List.map_eq_map_iff.mp (h.trans (List.map_id items).symm) item hmem

namespace Grammar

variable {g : Grammar T} {f : T → T} {algebra' : Reduction T Y → Y}

/-- If no term of the grammar sees the change, none of an alternative does. -/
theorem comap_expr_eq (h : Expr.comapProductions f g.productions = g.productions) {r : RuleId}
    {rule : Rule T} (hrule : g.rule? r = some rule) {alternative : Alternative T}
    (hmem : alternative ∈ rule.alternatives) : alternative.expr.comap f = alternative.expr := by
  have hproduction : (r, rule.alternatives.map Alternative.expr) ∈ g.productions :=
    mem_productions.mpr ⟨rule, hrule, rfl⟩
  rw [Expr.comapProductions] at h
  have hsame := List.map_eq_map_iff.mp (h.trans (List.map_id _).symm) _ hproduction
  exact Expr.comap_eq_of_mem (Prod.ext_iff.mp hsame).2 (List.mem_map_of_mem hmem)

/-- **The changed word has the changed value**, if the terms of the grammar see no change. -/
theorem Yields.translate (hblind : Expr.comapProductions f g.productions = g.productions)
    (hom : ∀ reduction, algebra' (reduction.translate f φ) = φ (algebra reduction)) {e : Expr T}
    {word : List T} {pieces : Pieces T X} (he : e.comap f = e)
    (h : g.Yields algebra e word pieces) :
    g.Yields algebra' e (word.map f) (pieces.translate f φ) := by
  induction h with
  | empty => exact .empty
  | @term accepts token h =>
    have hsame : accepts (f token) = accepts token := congrFun (Expr.term.inj he) token
    exact .term (hsame.trans h)
  | nonterm hrule hmem _ ih =>
    have hyields := Yields.nonterm hrule hmem (ih (comap_expr_eq hblind hrule hmem))
    rwa [Shape.value_translate hom] at hyields
  | seqNil => exact .seqNil
  | seqCons _ _ ihitem ihitems =>
    rw [Expr.comap] at he
    obtain ⟨hitem, hitems⟩ := List.cons.inj (Expr.seq.inj he)
    rw [List.map_append, Pieces.translate_append]
    refine .seqCons (ihitem hitem) (ihitems ?_)
    rw [Expr.comap, hitems]
  | choice hmem _ ih =>
    rw [Expr.comap] at he
    exact .choice hmem (ih (Expr.comap_eq_of_mem (Expr.choice.inj he) hmem))
  | repStop => exact .repStop
  | repMore _ _ ihbody ihrest =>
    rw [Expr.comap] at he
    have hbody := (Expr.rep.inj he).2
    rw [List.map_append, Pieces.translate_append]
    refine .repMore (ihbody hbody) (ihrest ?_)
    rw [Expr.comap, hbody]
  | optNone => exact .optNone
  | optSome _ ih =>
    rw [Expr.comap] at he
    exact .optSome (ih (Expr.opt.inj he))

end Grammar

/-! ## 4.  Answers -/

section Answers

variable {K N : Type} {language : List K → Prop} {tokens : List (Token K)}

/-- **An answer to changed tokens is one to the tokens**, if kinds and places stay. -/
theorem Recognises.of_map {f : Token K → Token K} (hkind : ∀ token, (f token).kind = token.kind)
    (hoffset : ∀ token, (f token).offset = token.offset) {answer : Except ParseError Y}
    (h : Recognises language (tokens.map f) answer) : Recognises language tokens answer := by
  have hkinds : ∀ word : List (Token K), (word.map f).map Token.kind = word.map Token.kind := by
    intro word
    rw [List.map_map]
    exact List.map_congr_left fun token _ => hkind token
  refine ⟨?_, h.failed_iff.trans List.map_eq_nil_iff, fun offset => ?_, ?_⟩
  · rw [← hkinds]
    exact h.ok_iff
  · rw [h.tokensLeft_iff]
    constructor
    · rintro ⟨word', next', post', htokens, hne, hword, hlongest, rfl⟩
      obtain ⟨word, rest, rfl, rfl, hrest⟩ := List.map_eq_append_iff.mp htokens
      obtain ⟨next, post, rfl, rfl, -⟩ := List.map_eq_cons_iff.mp hrest
      rw [hkinds] at hword
      refine ⟨word, next, post, rfl, fun hnil => hne (by rw [hnil]; rfl), hword, ?_, hoffset next⟩
      intro other hpre hother
      rw [← hkinds] at hother
      have hle := hlongest (other.map f) (hpre.map f) hother
      rwa [List.length_map, List.length_map] at hle
    · rintro ⟨word, next, post, rfl, hne, hword, hlongest, rfl⟩
      rw [← hkinds] at hword
      refine ⟨word.map f, f next, post.map f, ?_, ?_, hword, ?_, (hoffset next).symm⟩
      · rw [List.map_append, List.map_cons]
      · exact fun hnil => hne (List.map_eq_nil_iff.mp hnil)
      · rintro other' ⟨rest', hsplit⟩ hother
        obtain ⟨other, rest, heq, rfl, -⟩ := List.map_eq_append_iff.mp hsplit.symm
        rw [hkinds] at hother
        have hle := hlongest other ⟨rest, heq.symm⟩ hother
        rwa [List.length_map, List.length_map]
  · rw [h.noMatch_iff, Ne, List.map_eq_nil_iff]
    refine and_congr_right fun _ => ⟨fun hnone word hpre hword => ?_, ?_⟩
    · rw [← hkinds] at hword
      exact hnone (word.map f) (hpre.map f) hword
    · rintro hnone word' ⟨rest', hsplit⟩ hword
      obtain ⟨word, rest, heq, rfl, -⟩ := List.map_eq_append_iff.mp hsplit.symm
      rw [hkinds] at hword
      exact hnone word ⟨rest, heq.symm⟩ hword

/-- Of two answers to the same tokens both or none are a tree, and they give the same reason unless
there are no tokens. -/
theorem Recognises.same_answer {answer : Except ParseError Y} {answer' : Except ParseError N}
    (h : Recognises language tokens answer) (h' : Recognises language tokens answer') :
    (∃ y y', answer = .ok y ∧ answer' = .ok y') ∨ tokens = [] ∨
      ∃ why, answer = .error why ∧ answer' = .error why := by
  cases answer with
  | ok y =>
    obtain ⟨y', hy'⟩ := h'.ok_iff.mpr (h.ok_iff.mp ⟨y, rfl⟩)
    exact Or.inl ⟨y, y', rfl, hy'⟩
  | error why =>
    refine Or.inr ?_
    cases why with
    | failed why => exact Or.inl (h.failed_iff.mp ⟨why, rfl⟩)
    | noMatch => exact Or.inr ⟨_, rfl, h'.noMatch_iff.mpr (h.noMatch_iff.mp rfl)⟩
    | tokensLeft offset =>
      exact Or.inr ⟨_, rfl, (h'.tokensLeft_iff offset).mpr ((h.tokensLeft_iff offset).mp rfl)⟩

end Answers

end GrammarKit
