import GrammarKit.Proofs.Calc.Evaluation
import GrammarKit.Proofs.Calc.Grammar
import Mathlib.Data.List.Chain

/-!
# Printing expressions and reading them back

An expression may be printed in many ways: any part of it may be put in parentheses, and some parts
have to be, because an operator binds its operands less tightly than the place asks for.  However it
is printed, the calculator reads the expression itself.

The grammar has no rule that is recursive on the left, and chains of operators are grouped while they
are reduced.  A printed operand on the left is a chain of its own level already, so an operator adds
one link to the chain.

* `Prints`: the ways to print an expression where operators of some precedence and above may stand
  bare.
* `Prints.operand`: what is printed does not run together.
* `reading`: what the nodes of the calculator mean as expressions; `readingModel`: the nodes are
  stored that way.
* `Prints.readsAt`: what is printed derives from the grammar, and means the expression.
* `parse_eval_of_prints`: parsing and evaluating what is printed.
-/

namespace GrammarKit.Calc

/-! ## Printing -/

/-- The ways to print an expression, where an operator that binds with `level` or more may stand
without parentheses.  The left operand may bind as its operator does, the right one has to bind more
tightly, and the operand of a sign is as tight as that. -/
inductive Prints : Nat → Arith → List Lexeme → Prop where
  | literal (level : Nat) (n : Numeral) : Prints level (.literal n) [.number n]
  | unary (level : Nat) (op : UnaryOp) {operand : Arith} {lexemes : List Lexeme}
      (h : Prints 3 operand lexemes) :
      Prints level (.unary op operand) (.sign (signOf op) :: lexemes)
  | binary {level : Nat} {op : Operator} {left right : Arith} {front back : List Lexeme}
      (hlevel : level ≤ op.precedence) (hleft : Prints op.precedence left front)
      (hright : Prints (op.precedence + 1) right back) :
      Prints level (.binary op left right) (front ++ .sign op.sign :: back)
  | parens (level : Nat) {t : Arith} {lexemes : List Lexeme} (h : Prints 1 t lexemes) :
      Prints level t (.sign .opening :: (lexemes ++ [.sign .closing]))

namespace Lexeme

/-- An operand may start with this lexeme. -/
def opens : Lexeme → Bool
  | .number _ => true
  | .sign s => s ∈ [.plus, .minus, .opening]

/-- An operand may end with this lexeme. -/
def closes : Lexeme → Bool
  | .number _ => true
  | .sign s => s = .closing

theorem mayPrecede_of_opens {l : Lexeme} (h : l.opens = true) (s : Sign) :
    (sign s).mayPrecede l = true := by
  cases l with
  | number n => cases s <;> rfl
  | sign s' => cases s <;> cases s' <;> first | rfl | cases h

theorem mayPrecede_of_closes {l : Lexeme} (h : l.closes = true) (s : Sign) :
    l.mayPrecede (sign s) = true := by
  cases l with
  | number n => rfl
  | sign s' => cases s <;> cases s' <;> first | rfl | cases h

end Lexeme

/-- Lexemes that do not run together, and that start and end as an operand does. -/
structure Operand (lexemes : List Lexeme) : Prop where
  isChain : lexemes.IsChain fun l l' => l.mayPrecede l' = true
  opens : ∃ l, lexemes.head? = some l ∧ l.opens = true
  closes : ∃ l, lexemes.getLast? = some l ∧ l.closes = true

namespace Operand

variable {front back lexemes : List Lexeme}

/-- A sign in front. -/
theorem isChain_cons (h : Operand lexemes) (s : Sign) :
    (Lexeme.sign s :: lexemes).IsChain fun l l' => l.mayPrecede l' = true := by
  obtain ⟨l, hl, hopens⟩ := h.opens
  refine List.isChain_cons.mpr ⟨fun y hy => ?_, h.isChain⟩
  rw [hl] at hy
  cases hy
  exact Lexeme.mayPrecede_of_opens hopens s

theorem getLast?_cons (h : Operand lexemes) (s : Sign) :
    (Lexeme.sign s :: lexemes).getLast? = lexemes.getLast? := by
  obtain ⟨l, hl, -⟩ := h.closes
  rw [List.getLast?_cons, hl]
  rfl

theorem prefixed (h : Operand lexemes) {s : Sign} (hs : (Lexeme.sign s).opens = true) :
    Operand (.sign s :: lexemes) := by
  refine ⟨h.isChain_cons s, ⟨_, rfl, hs⟩, ?_⟩
  rw [h.getLast?_cons]
  exact h.closes

/-- A sign behind, with what may come behind that. -/
theorem isChain_append (h : Operand front) {s : Sign} {behind : List Lexeme}
    (hbehind : (Lexeme.sign s :: behind).IsChain fun l l' => l.mayPrecede l' = true) :
    (front ++ .sign s :: behind).IsChain fun l l' => l.mayPrecede l' = true := by
  obtain ⟨l, hl, hcloses⟩ := h.closes
  refine List.isChain_append.mpr ⟨h.isChain, hbehind, fun x hx y hy => ?_⟩
  rw [hl] at hx
  cases hx
  cases hy
  exact Lexeme.mayPrecede_of_closes hcloses s

theorem head?_append (h : Operand front) (behind : List Lexeme) :
    ∃ l, (front ++ behind).head? = some l ∧ l.opens = true := by
  obtain ⟨l, hl, hopens⟩ := h.opens
  refine ⟨l, ?_, hopens⟩
  rw [List.head?_append, hl]
  rfl

theorem joined (hfront : Operand front) (hback : Operand back) (s : Sign) :
    Operand (front ++ .sign s :: back) := by
  refine ⟨hfront.isChain_append (hback.isChain_cons s), hfront.head?_append _, ?_⟩
  obtain ⟨l, hl, hcloses⟩ := hback.closes
  refine ⟨l, ?_, hcloses⟩
  rw [List.getLast?_append, hback.getLast?_cons, hl]
  rfl

theorem enclosed (h : Operand lexemes) :
    Operand (.sign .opening :: (lexemes ++ [.sign .closing])) := by
  have hinner : (lexemes ++ [Lexeme.sign .closing]).IsChain fun l l' => l.mayPrecede l' = true :=
    h.isChain_append (List.isChain_singleton _)
  obtain ⟨l, hl, hopens⟩ := h.head?_append [.sign .closing]
  refine ⟨List.isChain_cons.mpr ⟨fun y hy => ?_, hinner⟩, ⟨_, rfl, rfl⟩, .sign .closing, ?_, rfl⟩
  · rw [hl] at hy
    cases hy
    exact Lexeme.mayPrecede_of_opens hopens .opening
  · rw [List.getLast?_cons, List.getLast?_append]
    rfl

end Operand

theorem Prints.operand {level : Nat} {t : Arith} {lexemes : List Lexeme}
    (h : Prints level t lexemes) : Operand lexemes := by
  induction h with
  | literal level n => exact ⟨List.isChain_singleton _, ⟨_, rfl, rfl⟩, ⟨_, rfl, rfl⟩⟩
  | unary level op _ ih => exact ih.prefixed (by cases op <;> rfl)
  | binary _ _ _ ihleft ihright => exact ihleft.joined ihright _
  | parens level _ ih => exact ih.enclosed

/-! ## What nodes mean -/

/-- The operator that a token in a chain of this rule is read as. -/
def operator? (rule : RuleId) (token : Token Kind) : Option Operator :=
  [.add, .sub, .mul, .div].find? fun op =>
    binaryOp? rule token.kind == some op.op && token.text == String.ofList [op.sign.char]

/-- The expression that a node means, if its parts mean some. -/
def reading : Reduction (Token Kind) (Option Arith) → Option Arith
  | .term rule token =>
    if h : rule = factor ∧ token.kind = .integer ∧ Decimal.isNumeral token.text.toList then
      some (.literal ⟨token.text.toList, h.2.2⟩)
    else none
  | .termNonterm rule token operand =>
    if rule = factor then
      match unaryOp? token.kind with
      | some op => if token.text = op.symbol then operand.map (.unary op) else none
      | none => none
    else none
  | .nontermTermNonterm rule left token right =>
    match operator? rule token, left, right with
    | some op, some left, some right => some (.binary op left right)
    | _, _, _ => none
  | _ => none

/-- The rule whose chains the operator links. -/
def Operator.rule : Operator → RuleId
  | .add | .sub => expr
  | .mul | .div => term

theorem operator?_of_spelling {op : Operator} {token : Token Kind}
    (h : spelling token = (Lexeme.sign op.sign).spelling) : operator? op.rule token = some op := by
  obtain ⟨hkind, htext⟩ := Prod.mk.inj h
  rw [operator?, hkind, htext]
  cases op <;> rfl

/-- An operator is read from a token that is written as it is. -/
theorem of_operator?_eq_some {rule : RuleId} {token : Token Kind} {op : Operator}
    (h : operator? rule token = some op) :
    binaryOp? rule token.kind = some op.op ∧ token.text = String.ofList [op.sign.char] := by
  have hboth := List.find?_some h
  rw [Bool.and_eq_true] at hboth
  exact ⟨beq_iff_eq.mp hboth.1, beq_iff_eq.mp hboth.2⟩

/-- An expression is stored, and the way down from its top is no longer than the number of nodes made
up to there. -/
def Means (arena : Arena) (id : NodeId) (meaning : Option Arith) : Prop :=
  ∀ t, meaning = some t → t.Stored arena id ∧ t.depth ≤ id.index + 1

theorem means_none (arena : Arena) (id : NodeId) : Means arena id none :=
  fun _ h => by cases h

theorem Means.grows {before after : Arena} {id : NodeId} {meaning : Option Arith}
    (h : Means before id meaning) (hgrows : before.Grows after) : Means after id meaning :=
  fun t ht => ⟨(h t ht).1.grows hgrows, (h t ht).2⟩

/-- An operand is stored for good, and its way down is no longer than the arena was. -/
theorem Means.operand {arena : Arena} {id : NodeId} {t : Arith} (h : Means arena id (some t))
    (made : Node) : t.Stored (arena.alloc made).2 id ∧ t.depth ≤ arena.size := by
  obtain ⟨hstored, hdepth⟩ := h t rfl
  have hindex : id.index < arena.size := hstored.inRange
  exact ⟨hstored.grows (arena.grows_alloc made), by omega⟩

/-- A new node means an expression if it stores it and its operands are shallow enough. -/
theorem means_alloc_of_stored {arena : Arena} {made : Node} {t : Arith}
    (h : t.Stored (arena.alloc made).2 (arena.alloc made).1) (hdepth : t.depth ≤ arena.size + 1) :
    Means (arena.alloc made).2 (arena.alloc made).1 (some t) := by
  rintro _ ⟨⟩
  exact ⟨h, hdepth⟩

variable {arena : Arena}

theorem means_literal (rule : RuleId) (token : Token Kind) :
    Means (arena.alloc (node (.term rule token))).2 (arena.alloc (node (.term rule token))).1
      (reading (.term rule token)) := by
  rw [reading]
  by_cases h : rule = factor ∧ token.kind = .integer ∧ Decimal.isNumeral token.text.toList = true
  · rw [dif_pos h, node, if_pos ⟨h.1, h.2.1⟩]
    refine means_alloc_of_stored ?_ (Nat.le_add_left _ _)
    show (arena.alloc (.const .integer token.text)).2.get _ = _
    rw [Arena.get_alloc_self, String.ofList_toList]
  · rw [dif_neg h]
    exact means_none _ _

theorem means_unary (rule : RuleId) (token : Token Kind) {child : NodeId} {meaning : Option Arith}
    (hchild : Means arena child meaning) :
    Means (arena.alloc (node (.termNonterm rule token child))).2
      (arena.alloc (node (.termNonterm rule token child))).1
      (reading (.termNonterm rule token meaning)) := by
  rw [reading, node]
  by_cases hrule : rule = factor
  · rw [if_pos hrule, if_pos hrule]
    cases unaryOp? token.kind with
    | none => exact means_none _ _
    | some op =>
      dsimp only
      by_cases htext : token.text = op.symbol
      · rw [if_pos htext, htext]
        cases meaning with
        | none => exact means_none _ _
        | some operand =>
          obtain ⟨hstored, hdepth⟩ := hchild.operand (.unary op op.symbol child)
          refine means_alloc_of_stored ⟨child, Arena.get_alloc_self _ _, hstored⟩ ?_
          exact Nat.succ_le_succ hdepth
      · rw [if_neg htext]
        exact means_none _ _
  · rw [if_neg hrule, if_neg hrule]
    exact means_none _ _

theorem means_binary (rule : RuleId) (token : Token Kind) {i j : NodeId}
    {left right : Option Arith} (hleft : Means arena i left) (hright : Means arena j right) :
    Means (arena.alloc (node (.nontermTermNonterm rule i token j))).2
      (arena.alloc (node (.nontermTermNonterm rule i token j))).1
      (reading (.nontermTermNonterm rule left token right)) := by
  intro t ht
  have hdecoded : ∃ op a b, operator? rule token = some op ∧ left = some a ∧ right = some b ∧
      t = .binary op a b := by
    simp only [reading] at ht
    split at ht
    · next op a b hop => exact ⟨op, a, b, hop, rfl, rfl, (Option.some.inj ht).symm⟩
    · cases ht
  obtain ⟨op, a, b, hop, rfl, rfl, rfl⟩ := hdecoded
  obtain ⟨hkind, htext⟩ := of_operator?_eq_some hop
  have hfirst := hleft.operand (node (.nontermTermNonterm rule i token j))
  have hsecond := hright.operand (node (.nontermTermNonterm rule i token j))
  refine ⟨⟨i, j, ?_, hfirst.1, hsecond.1⟩, Nat.succ_le_succ (Nat.max_le.mpr ⟨hfirst.2, hsecond.2⟩)⟩
  rw [Arena.get_alloc_self, node, hkind, htext]

/-- The node that is made for a rule means what the parts say. -/
theorem means_build {reduction : Reduction (Token Kind) NodeId}
    {reduction' : Reduction (Token Kind) (Option Arith)}
    (h : reduction.Alike (Means arena) reduction') :
    arena.Grows (build reduction arena).2 ∧
      Means (build reduction arena).2 (build reduction arena).1 (reading reduction') := by
  cases h with
  | term rule token => exact ⟨arena.grows_alloc _, means_literal rule token⟩
  | termNonterm rule token hoperand => exact ⟨arena.grows_alloc _, means_unary rule token hoperand⟩
  | nontermTermNonterm rule token hleft hright =>
    exact ⟨arena.grows_alloc _, means_binary rule token hleft hright⟩
  | nontermNonterm rule _ _ => exact ⟨.refl arena, means_none _ _⟩
  | null => exact ⟨arena.grows_alloc _, means_none _ _⟩
  | empty rule => exact ⟨arena.grows_alloc _, means_none _ _⟩
  | nonterm rule _ => exact ⟨arena.grows_alloc _, means_none _ _⟩
  | nontermList rule _ => exact ⟨arena.grows_alloc _, means_none _ _⟩
  | termNontermList rule tokens _ => exact ⟨arena.grows_alloc _, means_none _ _⟩

/-- The calculator makes nodes that store what is read. -/
def readingModel : Models build reading where
  good _ := True
  grows := Arena.Grows
  means := Means
  refl := Arena.Grows.refl
  trans := Arena.Grows.trans
  mono hgrows hmeans := hmeans.grows hgrows
  sound _ h := ⟨True.intro, (means_build h).1, (means_build h).2⟩

/-! ## Deriving what is printed -/

/-- The tokens derive from a rule, and mean an expression. -/
def Reads (r : RuleId) (t : Arith) (tokens : List (Token Kind)) : Prop :=
  grammar.Yields reading (.nonterm r) tokens (.ofValue (some t))

/-- The tokens are an operand with links of the same level behind it, and mean an expression when
they are grouped to the left. -/
def Chained (rule operand : RuleId) (signs : List (Expr (Token Kind))) (t : Arith)
    (tokens : List (Token Kind)) : Prop :=
  grammar.Chained reading rule operand signs (some t) tokens

variable {rule operand : RuleId} {signs : List (Expr (Token Kind))} {t : Arith}
  {tokens : List (Token Kind)}

/-- A chain may be a single operand. -/
theorem Chained.start (h : Reads operand t tokens) : Chained rule operand signs t tokens :=
  Grammar.Chained.start h

/-- A chain may end with one more link. -/
theorem Chained.snoc {op : Operator} {left right : Arith} {front back : List (Token Kind)}
    {token : Token Kind} (hleft : Chained rule operand signs left front)
    (hright : Reads operand right back) (hop : operator? rule token = some op)
    (hsign : kind op.sign.kind ∈ signs) (hkind : token.kind = op.sign.kind) :
    Chained rule operand signs (.binary op left right) (front ++ token :: back) := by
  have hterm : grammar.Yields reading (kind op.sign.kind) [token] (.ofTerm token) :=
    .term (beq_iff_eq.mpr hkind)
  have hvalue : reading (.nontermTermNonterm rule (some left) token (some right)) =
      some (.binary op left right) := by
    simp only [reading, hop]
  rw [Chained, ← hvalue]
  exact Grammar.Chained.snoc hleft hright hsign hterm

/-- What a rule means whose alternative is a chain. -/
theorem Chained.reads {r : Rule (Token Kind)} (h : Chained rule operand signs t tokens)
    (hrule : grammar.rule? rule = some r)
    (hmem : ⟨.chain, .chain signs operand⟩ ∈ r.alternatives) : Reads rule t tokens :=
  Grammar.Chained.yields h hrule hmem

/-- The tokens are read as an expression where operators of that precedence may stand bare. -/
def ReadsAt : (level : Nat) → Arith → List (Token Kind) → Prop
  | 0 | 1 => Chained expr term [kind .plus, kind .minus]
  | 2 => Chained term factor [kind .multiply, kind .divide]
  | _ => Reads factor

theorem reads_expr (h : ReadsAt 1 t tokens) : Reads expr t tokens :=
  Chained.reads h rfl (List.mem_cons_self)

theorem reads_term (h : ReadsAt 2 t tokens) : Reads term t tokens :=
  Chained.reads h rfl (List.mem_cons_self)

/-- What is read where the operators are tight is read elsewhere, too. -/
theorem ReadsAt.mono {level level' : Nat} (h : ReadsAt level' t tokens) (hle : level ≤ level') :
    ReadsAt level t tokens := by
  have hterm : ReadsAt 2 t tokens → ReadsAt 1 t tokens := fun h => Chained.start (reads_term h)
  have hfactor : Reads factor t tokens → ReadsAt 2 t tokens := Chained.start
  match level, level' with
  | 0, 0 | 0, 1 | 1, 1 | 2, 2 => exact h
  | 0, 2 | 1, 2 => exact hterm h
  | 0, _ + 3 | 1, _ + 3 => exact hterm (hfactor h)
  | 2, _ + 3 => exact hfactor h
  | _ + 3, _ + 3 => exact h
  | _ + 1, 0 | _ + 2, 1 | _ + 3, 2 => omega

/-- An operator between operands is read. -/
theorem readsAt_binary {op : Operator} {left right : Arith} {front back : List (Token Kind)}
    {token : Token Kind} (hleft : ReadsAt op.precedence left front)
    (hright : ReadsAt (op.precedence + 1) right back)
    (h : spelling token = (Lexeme.sign op.sign).spelling) :
    ReadsAt op.precedence (.binary op left right) (front ++ token :: back) := by
  have hop := operator?_of_spelling h
  have hkind : token.kind = op.sign.kind := (Prod.mk.inj h).1
  cases op with
  | add => exact Chained.snoc hleft (reads_term hright) hop List.mem_cons_self hkind
  | sub =>
    exact Chained.snoc hleft (reads_term hright) hop (List.mem_cons_of_mem _ List.mem_cons_self)
      hkind
  | mul => exact Chained.snoc hleft hright hop List.mem_cons_self hkind
  | div => exact Chained.snoc hleft hright hop (List.mem_cons_of_mem _ List.mem_cons_self) hkind

/-- What is read by an alternative of a factor. -/
theorem reads_factor (i : Nat) {alternative : Alternative (Token Kind)}
    {pieces : Pieces (Token Kind) (Option Arith)}
    (hi : grammar.rules[2].alternatives[i]? = some alternative)
    (h : grammar.Yields reading alternative.expr tokens pieces)
    (hvalue : alternative.shape.value reading factor pieces = some t) : Reads factor t tokens := by
  have hrule : grammar.rule? factor = some grammar.rules[2] := rfl
  have hyields := Grammar.Yields.nonterm hrule (List.mem_of_getElem? hi) h
  rwa [hvalue] at hyields

/-- A numeral is read. -/
theorem reads_literal {n : Numeral} {token : Token Kind}
    (h : spelling token = (Lexeme.number n).spelling) : Reads factor (.literal n) [token] := by
  obtain ⟨hkind, htext⟩ := Prod.mk.inj h
  have hvalue : reading (.term factor token) = some (.literal n) := by
    have hdigits : token.text.toList = n.digits := by rw [htext, String.toList_ofList]
    have hnumeral : factor = factor ∧ token.kind = .integer ∧
        Decimal.isNumeral token.text.toList = true := ⟨rfl, hkind, hdigits ▸ n.isNumeral⟩
    rw [reading, dif_pos hnumeral]
    simp only [hdigits]
  exact reads_factor 3 rfl (.term (beq_iff_eq.mpr hkind)) hvalue

/-- A sign in front of an operand is read. -/
theorem reads_unary {op : UnaryOp} {token : Token Kind}
    (h : spelling token = (Lexeme.sign (signOf op)).spelling) (hoperand : Reads factor t tokens) :
    Reads factor (.unary op t) (token :: tokens) := by
  obtain ⟨hkind, htext⟩ := Prod.mk.inj h
  have hvalue : reading (.termNonterm factor token (some t)) = some (.unary op t) := by
    rw [reading, if_pos rfl, hkind, htext]
    cases op <;> rfl
  have hyields : grammar.Yields reading (.seq [kind (signOf op).kind, .nonterm factor])
      ([token] ++ tokens) (.ofTerm token ++ .ofValue (some t)) :=
    .seqCons (.term (beq_iff_eq.mpr hkind)) hoperand.seq_singleton
  cases op with
  | plus => exact reads_factor 0 rfl hyields hvalue
  | minus => exact reads_factor 1 rfl hyields hvalue

/-- Parentheses are read, and leave no trace. -/
theorem reads_parens {opening closing : Token Kind}
    (hopening : spelling opening = (Lexeme.sign .opening).spelling)
    (hclosing : spelling closing = (Lexeme.sign .closing).spelling) (h : Reads expr t tokens) :
    Reads factor t (opening :: (tokens ++ [closing])) := by
  have hclose : grammar.Yields reading (kind .rParens) [closing] (.ofTerm closing) :=
    .term (beq_iff_eq.mpr (Prod.mk.inj hclosing).1)
  have hyields : grammar.Yields reading (.seq [kind .lParens, .nonterm expr, kind .rParens])
      ([opening] ++ (tokens ++ [closing]))
      (.ofTerm opening ++ (.ofValue (some t) ++ .ofTerm closing)) :=
    .seqCons (.term (beq_iff_eq.mpr (Prod.mk.inj hopening).1))
      (.seqCons h hclose.seq_singleton)
  exact reads_factor 2 rfl hyields rfl

/-- **What is printed is read.** -/
theorem Prints.readsAt {level : Nat} {t : Arith} {lexemes : List Lexeme}
    (h : Prints level t lexemes) :
    ∀ tokens : List (Token Kind), tokens.map spelling = lexemes.map Lexeme.spelling →
      ReadsAt level t tokens := by
  have hanywhere : ∀ {t tokens} (level : Nat), Reads factor t tokens → ReadsAt level t tokens :=
    fun level h => ReadsAt.mono (show ReadsAt (level + 3) _ _ from h) (Nat.le_add_right level 3)
  induction h with
  | literal level n =>
    intro tokens htokens
    obtain ⟨token, rest, rfl, htoken, hrest⟩ := List.map_eq_cons_iff.mp htokens
    rw [List.map_eq_nil_iff.mp hrest]
    exact hanywhere level (reads_literal htoken)
  | unary level op _ ih =>
    intro tokens htokens
    obtain ⟨token, rest, rfl, htoken, hrest⟩ := List.map_eq_cons_iff.mp htokens
    exact hanywhere level (reads_unary htoken (ih rest hrest))
  | binary hlevel _ _ ihleft ihright =>
    intro tokens htokens
    rw [List.map_append, List.map_cons] at htokens
    obtain ⟨front, behind, rfl, hfront, hbehind⟩ := List.map_eq_append_iff.mp htokens
    obtain ⟨token, back, rfl, htoken, hback⟩ := List.map_eq_cons_iff.mp hbehind
    exact (readsAt_binary (ihleft front hfront) (ihright back hback) htoken).mono hlevel
  | parens level _ ih =>
    intro tokens htokens
    rw [List.map_cons, List.map_append] at htokens
    obtain ⟨opening, behind, rfl, hopening, hbehind⟩ := List.map_eq_cons_iff.mp htokens
    obtain ⟨inner, last, rfl, hinner, hlast⟩ := List.map_eq_append_iff.mp hbehind
    obtain ⟨closing, rest, rfl, hclosing, hrest⟩ := List.map_eq_cons_iff.mp hlast
    rw [List.map_eq_nil_iff.mp hrest]
    exact hanywhere level (reads_parens hopening hclosing (reads_expr (ih inner hinner)))

/-! ## Parsing and evaluating what is printed -/

/-- A text that is read as an expression is parsed into it. -/
theorem exists_tree_of_reads {text : String} {t : Arith}
    (h : Reads expr t (Cursor.start table text).tokens) :
    ∃ tree, parse text = .ok tree ∧ t.Stored tree.arena tree.root ∧ t.depth ≤ tree.height := by
  have hfits : (outlook.comap Token.kind).Fits grammar.productions :=
    productions_grammar ▸ outlook_fits.comap Token.kind
  have hverdict := grammar.parse_verdict (w := .empty) hfits rfl (Or.inr fun _ => rfl)
    readingModel True.intro (Cursor.start table text)
  obtain ⟨root, arena, hparse, hmeans⟩ := hverdict.exists_node hfits rfl rfl h
  obtain ⟨hstored, hdepth⟩ := hmeans t rfl
  have hroot : root.index < arena.size := hstored.inRange
  refine ⟨⟨arena, root⟩, ?_, hstored, ?_⟩
  · rw [parse, hparse]
  · show t.depth ≤ arena.size + 1
    omega

/-- **An expression is parsed as it was printed, and evaluated as it is meant**, wherever there are
parentheses and spaces that nobody asked for. -/
theorem parse_eval_of_prints {t : Arith} {lexemes : List Lexeme} {text : String}
    (hprints : Prints 1 t lexemes) (hspaced : Spaced lexemes text.toList) :
    ∃ tree, parse text = .ok tree ∧ t.Stored tree.arena tree.root ∧ eval tree = t.outcome := by
  have htokens := spelling_of_spaced hprints.operand.isChain hspaced
  obtain ⟨tree, hparse, hstored, hdepth⟩ :=
    exists_tree_of_reads (reads_expr (hprints.readsAt _ htokens))
  exact ⟨tree, hparse, hstored, hstored.evalNode_eq hdepth⟩

/-- Differences group to the left, and bind less tightly than products. -/
theorem parse_eval_differences :
    let two : Numeral := ⟨['2'], rfl⟩
    let three : Numeral := ⟨['3'], rfl⟩
    let four : Numeral := ⟨['4'], rfl⟩
    let product : Arith := .binary .mul (.literal two) (.literal three)
    let t : Arith := .binary .sub (.binary .sub (.literal four) product) (.literal two)
    let lexemes : List Lexeme := [.number four, .sign .minus, .number two, .sign .times,
      .sign .opening, .number three, .sign .closing, .sign .minus, .number two]
    Prints 1 t lexemes ∧ Spaced lexemes "4- 2*(3 ) -  2 ".toList ∧
      ∃ tree, parse "4- 2*(3 ) -  2 " = .ok tree ∧ t.Stored tree.arena tree.root ∧
        eval tree = .ok (-4) := by
  intro two three four product t lexemes
  have hfactor : Prints 3 (.literal three) [.sign .opening, .number three, .sign .closing] :=
    .parens 3 (.literal 1 three)
  have hproduct : Prints 2 product ([.number two] ++ .sign Operator.mul.sign ::
      [.sign .opening, .number three, .sign .closing]) :=
    .binary (Nat.le_refl 2) (.literal 2 two) hfactor
  have hdifference : Prints 1 (.binary .sub (.literal four) product) ([.number four] ++
      .sign Operator.sub.sign :: _) :=
    .binary (Nat.le_refl 1) (.literal 1 four) hproduct
  have hprints : Prints 1 t (_ ++ .sign Operator.sub.sign :: [.number two]) :=
    .binary (Nat.le_refl 1) hdifference (.literal 2 two)
  have hspaced : Spaced lexemes "4- 2*(3 ) -  2 ".toList := by
    have htext : "4- 2*(3 ) -  2 ".toList =
        ['4', '-', ' ', '2', '*', '(', '3', ' ', ')', ' ', '-', ' ', ' ', '2', ' '] := rfl
    rw [htext]
    exact .cons 0 _ (.cons 0 _ (.cons 1 _ (.cons 0 _ (.cons 0 _ (.cons 0 _ (.cons 1 _ (.cons 1 _
      (.cons 2 _ (.nil 1)))))))))
  have houtcome : t.outcome = .ok (-4) := by decide
  rw [← houtcome]
  exact ⟨hprints, hspaced, parse_eval_of_prints hprints hspaced⟩

end GrammarKit.Calc
