import GrammarKit.Proofs.Calc.Printing
import GrammarKit.Proofs.Ownership
import GrammarKit.Proofs.Sorts
import GrammarKit.Proofs.Spelling

/-!
# What the calculator builds

Whatever the parser tries on the way, the nodes that it keeps store expressions and share nothing.
Nothing else can be asked for: tokens are spelled like their kinds, so each rule has pieces that mean
an expression.

* `WellSpelled`: the spelling of the tokens that end up in a tree.
* `grammar_sorted`: the pieces of each rule mean an expression.
* `custody`: the nodes that are held store their expressions and share nothing.
* `exists_arith_of_parse`: so does the root.
-/

namespace GrammarKit.Calc

/-! ## Tokens -/

/-- Integers are numerals, and signs are what they are. -/
structure WellSpelled (token : Token Kind) : Prop where
  integer : token.kind = .integer → Decimal.isNumeral token.text.toList = true
  sign : ∀ s : Sign, token.kind = s.kind → token.text = String.ofList [s.char]

theorem eq_emit_of_kind? (s : Sign) : ∀ rule ∈ table.rules, rule.kind? = some s.kind →
    rule = .emit (.ofChar s.char) s.kind := by
  cases s <;> simp [table, LexRule.emit, LexRule.skip, Sign.kind, Sign.char]

theorem eq_emit_integer : ∀ rule ∈ table.rules, rule.kind? = some .integer →
    rule = .emit (.run .digit) .integer := by
  simp [table, LexRule.emit, LexRule.skip]

theorem wellSpelled_of_spelled {token : Token Kind} (h : table.Spelled token) :
    WellSpelled token := by
  rcases h with hunknown | ⟨rule, hrule, hkind, hspells⟩
  · have hunknown : token.kind = .unknown := hunknown
    constructor
    · intro hinteger
      rw [hunknown] at hinteger
      cases hinteger
    · intro s hsign
      rw [hunknown] at hsign
      cases s <;> cases hsign
  · constructor
    · intro hinteger
      rw [hinteger] at hkind
      rw [eq_emit_integer rule hrule hkind] at hspells
      exact Matcher.isNumeral_of_spells hspells
    · intro s hsign
      rw [hsign] at hkind
      rw [eq_emit_of_kind? s rule hrule hkind] at hspells
      have hascii : s.char.toNat < 128 := by cases s <;> decide
      rw [← Matcher.eq_singleton_of_spells hascii hspells, String.ofList_toList]

/-! ## Pieces -/

/-- A value is right if it is an expression. -/
def Meant (value : Option Arith) : Prop := ∃ t, value = some t

/-- The pieces of an alternative mean expressions. -/
def Sensible (rule : RuleId) (alternative : Alternative (Token Kind)) : Prop :=
  ∀ pieces, alternative.expr.Fills WellSpelled (fun _ => Meant) pieces →
    Meant (alternative.shape.made reading rule pieces).1 ∧
      ∀ reduction ∈ (alternative.shape.made reading rule pieces).2, Meant (reading reduction)

/-- Operators of the rule have operands on both sides. -/
theorem sensible_chain {rule operand : RuleId} {operators : List (Expr (Token Kind))}
    (hoperators : ∀ operator ∈ operators, ∃ op : Operator, op.rule = rule ∧
      operator = kind op.sign.kind) : Sensible rule ⟨.chain, .chain operators operand⟩ := by
  intro pieces hfills
  have hop : ∀ operator ∈ operators, ∀ pieces,
      operator.Fills WellSpelled (fun _ => Meant) pieces →
        ∃ token, (∃ op, operator? rule token = some op) ∧ pieces = .ofTerm token := by
    intro operator hmem pieces h
    obtain ⟨op, hrule, rfl⟩ := hoperators operator hmem
    obtain ⟨token, haccepts, hspelled, rfl⟩ := Expr.fills_term_iff.mp h
    have hkind : token.kind = op.sign.kind := beq_iff_eq.mp haccepts
    have hspelling : spelling token = (Lexeme.sign op.sign).spelling :=
      Prod.ext hkind (hspelled.sign _ hkind)
    exact ⟨token, ⟨op, hrule ▸ operator?_of_spelling hspelling⟩, rfl⟩
  obtain ⟨first, operands, hvalues, hfirst, hoperands, hterms⟩ := hfills.exists_operands hop
  refine Shape.made_chain hvalues hfirst hoperands hterms fun left token right hleft htoken hright => ?_
  obtain ⟨a, rfl⟩ := hleft
  obtain ⟨op, hop⟩ := htoken
  obtain ⟨b, rfl⟩ := hright
  exact ⟨.binary op a b, by simp only [reading, hop]⟩

/-- A sign has an operand. -/
theorem sensible_sign (op : UnaryOp) :
    Sensible factor ⟨.termNonterm, .seq [kind (signOf op).kind, .nonterm factor]⟩ := by
  intro pieces hfills
  simp only [kind, Expr.fills_seq_cons_iff, Expr.fills_term_iff, Expr.fills_nonterm_iff,
    Expr.fills_seq_nil_iff] at hfills
  obtain ⟨-, -, ⟨token, haccepts, hspelled, rfl⟩, ⟨-, -, ⟨-, ⟨t, rfl⟩, rfl⟩, rfl, rfl⟩, rfl⟩ := hfills
  have hkind : token.kind = (signOf op).kind := beq_iff_eq.mp haccepts
  have htext := hspelled.sign _ hkind
  have hvalue : reading (.termNonterm factor token (some t)) = some (.unary op t) := by
    rw [reading, if_pos rfl, hkind, htext]
    cases op <;> rfl
  exact ⟨⟨_, hvalue⟩, List.forall_mem_singleton.mpr ⟨_, hvalue⟩⟩

/-- What is in parentheses is an expression. -/
theorem sensible_parens :
    Sensible factor ⟨.bypass, .seq [kind .lParens, .nonterm expr, kind .rParens]⟩ := by
  intro pieces hfills
  simp only [kind, Expr.fills_seq_cons_iff, Expr.fills_term_iff, Expr.fills_nonterm_iff,
    Expr.fills_seq_nil_iff] at hfills
  obtain ⟨-, -, ⟨-, -, -, rfl⟩, ⟨-, -, ⟨value, hvalue, rfl⟩, ⟨-, -, ⟨-, -, -, rfl⟩, rfl, rfl⟩,
    rfl⟩, rfl⟩ := hfills
  exact ⟨hvalue, fun _ h => absurd h List.not_mem_nil⟩

/-- An integer is a numeral. -/
theorem sensible_integer : Sensible factor ⟨.term, kind .integer⟩ := by
  intro pieces hfills
  obtain ⟨token, haccepts, hspelled, rfl⟩ := Expr.fills_term_iff.mp hfills
  have hkind : token.kind = .integer := beq_iff_eq.mp haccepts
  have hvalue : Meant (reading (.term factor token)) := by
    rw [reading, dif_pos ⟨rfl, hkind, hspelled.integer hkind⟩]
    exact ⟨_, rfl⟩
  exact ⟨hvalue, List.forall_mem_singleton.mpr hvalue⟩

/-- **Each rule is given pieces that mean an expression.** -/
theorem grammar_sorted : grammar.Sorted reading WellSpelled (fun _ => Meant) Meant := by
  have hexpr : Sensible expr ⟨.chain, .chain [kind .plus, kind .minus] term⟩ :=
    sensible_chain (List.forall_mem_cons.mpr ⟨⟨.add, rfl, rfl⟩,
      List.forall_mem_singleton.mpr ⟨.sub, rfl, rfl⟩⟩)
  have hterm : Sensible term ⟨.chain, .chain [kind .multiply, kind .divide] factor⟩ :=
    sensible_chain (List.forall_mem_cons.mpr ⟨⟨.mul, rfl, rfl⟩,
      List.forall_mem_singleton.mpr ⟨.div, rfl, rfl⟩⟩)
  refine List.forall_mem_cons.mpr ⟨?_, List.forall_mem_cons.mpr ⟨?_, List.forall_mem_singleton.mpr ?_⟩⟩
  · exact List.forall_mem_singleton.mpr hexpr
  · exact List.forall_mem_singleton.mpr hterm
  · exact List.forall_mem_cons.mpr ⟨sensible_sign .plus, List.forall_mem_cons.mpr
      ⟨sensible_sign .minus, List.forall_mem_cons.mpr
        ⟨sensible_parens, List.forall_mem_singleton.mpr sensible_integer⟩⟩⟩

/-! ## Nodes -/

/-- The way down from the top of an expression is no longer than the number of nodes made up to
there. -/
theorem depth_le_of_stored {arena : Arena} (htidy : arena.Tidy) {t : Arith} {id : NodeId}
    (h : t.Stored arena id) : t.depth ≤ id.index + 1 := by
  have hdown : ∀ {id child node}, arena.get id = .ok node → child ∈ node.links →
      child.index < id.index := fun hget hchild => htidy.link_lt _ _ hget _ hchild
  induction t generalizing id with
  | literal n => exact Nat.le_add_left _ _
  | unary op operand ih =>
    obtain ⟨child, hget, hchild⟩ := h
    have hlt := hdown hget List.mem_cons_self
    have := ih hchild
    rw [Arith.depth]
    omega
  | binary op left right ihleft ihright =>
    obtain ⟨i, j, hget, hleft, hright⟩ := h
    have hlt := hdown hget List.mem_cons_self
    have hlt' := hdown hget (List.mem_cons_of_mem _ List.mem_cons_self)
    have := ihleft hleft
    have := ihright hright
    rw [Arith.depth]
    omega

/-- A node that means an expression is a new one, which keeps just the nodes that it is made of. -/
theorem build_of_reading {reduction : Reduction (Token Kind) (NodeId × Option Arith)} {t : Arith}
    (h : reading (reduction.map Prod.snd) = some t) (arena : Arena) :
    ∃ made : Node, build (reduction.map Prod.fst) arena = arena.alloc made ∧ made ≠ .null ∧
      made.links = reduction.nodes.map Prod.fst := by
  cases reduction with
  | term rule token =>
    simp only [Reduction.map, reading] at h
    split at h
    · next hnumeral =>
      refine ⟨.const .integer token.text, ?_, Node.noConfusion, rfl⟩
      simp only [Reduction.map, build, node, if_pos (And.intro hnumeral.1 hnumeral.2.1)]
    · cases h
  | termNonterm rule token operand =>
    simp only [Reduction.map, reading] at h
    split at h
    · next hrule =>
      split at h
      · next op hop =>
        refine ⟨.unary op token.text operand.1, ?_, Node.noConfusion, rfl⟩
        simp only [Reduction.map, build, node, if_pos hrule, hop]
      · cases h
    · cases h
  | nontermTermNonterm rule left token right =>
    simp only [Reduction.map, reading] at h
    split at h
    · next op _ _ hop _ _ =>
      refine ⟨.binary op.op token.text left.1 right.1, ?_, Node.noConfusion, rfl⟩
      simp only [Reduction.map, build, node, (of_operator?_eq_some hop).1]
    · cases h
  | _ => cases h

theorem lasting_stored : Arena.Lasting Arith.Stored := fun _ _ _ _ hgrows h => h.grows hgrows

/-- **The nodes that are held store their expressions and share nothing.** -/
def custody : Custody grammar build reading WellSpelled where
  holds := Arena.Keeps Arith.Stored
  drop h hkept := h.mono hkept
  make reduction {arena frame} hasks h := by
    obtain ⟨t, ht⟩ := grammar_sorted.of_asks hasks
    obtain ⟨made, hbuild, hnull, hlinks⟩ := build_of_reading ht arena
    have halike : (reduction.map Prod.fst).Alike (Means arena) (reduction.map Prod.snd) := by
      refine Reduction.alike_map fun entry hentry => ?_
      obtain ⟨part, hpart, hstored⟩ := h.stored entry (List.mem_append_left frame hentry)
      rw [hpart]
      rintro _ ⟨⟩
      exact ⟨hstored, depth_le_of_stored h.apart.tidy hstored⟩
    have hstored := ((means_build halike).2 t ht).1
    rw [hbuild] at hstored
    rw [hbuild, ht]
    exact h.alloc lasting_stored hnull (hlinks ▸ List.Sublist.refl _) hstored

/-- **The tree of a text stores an expression**, and its nodes share nothing. -/
theorem exists_arith_of_parse {source : String} {tree : Tree} (h : parse source = .ok tree) :
    ∃ t : Arith, t.Stored tree.arena tree.root ∧ tree.arena.Apart [tree.root] := by
  have hahead := Cursor.ahead_tokens (Cursor.start table source)
  have hclean : Clean WellSpelled (Cursor.start table source) :=
    hahead.clean fun token htoken =>
      wellSpelled_of_spelled (Cursor.spelled_of_mem_tokens table source token htoken)
  unfold parse at h
  split at h
  · next root arena hparse =>
    cases h
    obtain ⟨value, hyields, hkeeps⟩ := custody.parse_keeps hahead hclean .empty hparse
    obtain ⟨t, -, hstored⟩ := hkeeps.stored _ List.mem_cons_self
    exact ⟨t, hstored, hkeeps.apart⟩
  · cases h

end GrammarKit.Calc
