import GrammarKit.Proofs.Pascal.Custody

/-!
# Printing programs and reading them back

A program may be printed in many ways: words with a meaning in capital or small letters, anything that
is skipped between two lexemes, and parentheses around any part of an expression.  Some parts have to
be in parentheses, because an operator binds its operands less tightly than the place asks for.
However it is printed, the parser stores the program itself.

A line of declarations gives one node for each name, so lines leave no trace but the order of the
names.  A compound statement has at least one statement, which is the empty one if nothing is written.

* `Expression.Prints`, `Statement.Prints`, `Program.Prints`: the ways to print.
* `Expression.Prints.readsAt`, `Statement.Prints.reads`, `Program.Prints.reads`: what is printed derives
  from the grammar, and means what was printed.
* `parse_of_prints`: parsing what is printed.
-/

namespace GrammarKit.Pascal

/-! ## Printing -/

/-- The ways to print an operator. -/
inductive Operator.Prints : Operator → Lexeme → Prop where
  | add : Operator.Prints .add (.sign .plus)
  | sub : Operator.Prints .sub (.sign .minus)
  | mul : Operator.Prints .mul (.sign .times)
  | intDiv (w : Word .div) : Operator.Prints .intDiv (.word w)
  | floatDiv : Operator.Prints .floatDiv (.sign .slash)

/-- The ways to print an expression, where an operator that binds with `level` or more may stand
without parentheses.  The left operand may bind as its operator does, the right one has to bind more
tightly, and the operand of a sign is as tight as that. -/
inductive Expression.Prints : Nat → Expression → List Lexeme → Prop where
  | number (level : Nat) (n : Number) : Expression.Prints level (.number n) [.number n]
  | var (level : Nat) (name : Name) : Expression.Prints level (.var name) [.name name]
  | unary (level : Nat) (op : UnaryOp) {operand : Expression} {lexemes : List Lexeme}
      (h : Expression.Prints 3 operand lexemes) :
      Expression.Prints level (.unary op operand) (.sign (signOf op) :: lexemes)
  | binary {level : Nat} {op : Operator} {l : Lexeme} {left right : Expression}
      {front back : List Lexeme} (hlevel : level ≤ op.precedence) (hop : op.Prints l)
      (hleft : Expression.Prints op.precedence left front)
      (hright : Expression.Prints (op.precedence + 1) right back) :
      Expression.Prints level (.binary op left right) (front ++ l :: back)
  | parens (level : Nat) {e : Expression} {lexemes : List Lexeme}
      (h : Expression.Prints 1 e lexemes) :
      Expression.Prints level e (.sign .opening :: (lexemes ++ [.sign .closing]))

mutual

/-- The ways to print a statement. -/
inductive Statement.Prints : Statement → List Lexeme → Prop where
  | compound {ss : List Statement} {lexemes : List Lexeme} (first : Word .begin)
      (last : Word .end) (h : Statement.PrintsAll ss lexemes) :
      Statement.Prints (.compound ss) (.word first :: (lexemes ++ [.word last]))
  | assign (name : Name) {value : Expression} {lexemes : List Lexeme}
      (h : Expression.Prints 1 value lexemes) :
      Statement.Prints (.assign name value) (.name name :: .sign .assign :: lexemes)
  | empty : Statement.Prints .empty []

/-- The ways to print statements, of which there is at least one, with semicolons between them. -/
inductive Statement.PrintsAll : List Statement → List Lexeme → Prop where
  | single {s : Statement} {lexemes : List Lexeme} (h : Statement.Prints s lexemes) :
      Statement.PrintsAll [s] lexemes
  | cons {s : Statement} {ss : List Statement} {front back : List Lexeme}
      (h : Statement.Prints s front) (hrest : Statement.PrintsAll ss back) :
      Statement.PrintsAll (s :: ss) (front ++ .sign .semi :: back)

end

/-- How a type is written. -/
def TypeName.lexeme : TypeName → Lexeme
  | .integer word => .word word
  | .real word => .word word

/-- How a line of declarations is written. -/
def Declaration.lexemes (d : Declaration) : List Lexeme :=
  .name d.first :: (d.others.flatMap (fun name => [.sign .comma, .name name]) ++
    [.sign .colon, d.type.lexeme])

/-- The ways to print the lines of declarations: nothing if there are none, and otherwise the word `VAR`
and the lines, with a semicolon behind each. -/
inductive PrintsDeclarations : List Declaration → List Lexeme → Prop where
  | nothing : PrintsDeclarations [] []
  | lines {ds : List Declaration} (hne : ds ≠ []) (word : Word .var) :
      PrintsDeclarations ds (.word word :: ds.flatMap fun d => d.lexemes ++ [.sign .semi])

/-- The ways to print a program. -/
inductive Program.Prints : Program → List Lexeme → Prop where
  | mk {p : Program} {front back : List Lexeme} (word : Word .program)
      (hdeclarations : PrintsDeclarations p.declarations front)
      (hbody : (Statement.compound p.body).Prints back) :
      Program.Prints p
        (.word word :: .name p.name :: .sign .semi :: (front ++ back ++ [.sign .dot]))

/-! ## Names -/

/-- The names in an expression. -/
def Expression.names : Expression → List Name
  | .number _ => []
  | .var name => [name]
  | .unary _ operand => operand.names
  | .binary _ left right => left.names ++ right.names

mutual

/-- The names in a statement. -/
def Statement.names : Statement → List Name
  | .compound ss => Statement.namesAll ss
  | .assign name value => name :: value.names
  | .empty => []

/-- The names in some statements. -/
def Statement.namesAll : List Statement → List Name
  | [] => []
  | s :: ss => s.names ++ Statement.namesAll ss

end

/-- The names in a program. -/
def Program.names (p : Program) : List Name :=
  p.name :: (p.declarations.flatMap (fun d => d.first :: d.others) ++ Statement.namesAll p.body)

/-- An expression is printed with its own names. -/
theorem Expression.Prints.free {level : Nat} {e : Expression} {lexemes : List Lexeme}
    (h : e.Prints level lexemes) (hfree : ∀ name ∈ e.names, name.Free) :
    ∀ l ∈ lexemes, l.Free := by
  induction h with
  | number level n => exact List.forall_mem_singleton.mpr True.intro
  | var level name => exact List.forall_mem_singleton.mpr (hfree name List.mem_cons_self)
  | unary level op _ ih => exact List.forall_mem_cons.mpr ⟨True.intro, ih hfree⟩
  | binary _ hop _ _ ihleft ihright =>
    obtain ⟨hleft, hright⟩ := List.forall_mem_append.mp hfree
    refine List.forall_mem_append.mpr ⟨ihleft hleft, List.forall_mem_cons.mpr ⟨?_, ihright hright⟩⟩
    cases hop <;> exact True.intro
  | parens level _ ih =>
    exact List.forall_mem_cons.mpr ⟨True.intro, List.forall_mem_append.mpr
      ⟨ih hfree, List.forall_mem_singleton.mpr True.intro⟩⟩

mutual

/-- A statement is printed with its own names. -/
theorem Statement.Prints.free : ∀ {s : Statement} {lexemes : List Lexeme}, s.Prints lexemes →
    (∀ name ∈ s.names, name.Free) → ∀ l ∈ lexemes, l.Free
  | _, _, .compound _ _ h, hfree => by
    rw [Statement.names] at hfree
    exact List.forall_mem_cons.mpr ⟨True.intro, List.forall_mem_append.mpr
      ⟨Statement.PrintsAll.free h hfree, List.forall_mem_singleton.mpr True.intro⟩⟩
  | _, _, .assign _ h, hfree => by
    rw [Statement.names] at hfree
    obtain ⟨hname, hvalue⟩ := List.forall_mem_cons.mp hfree
    exact List.forall_mem_cons.mpr ⟨hname, List.forall_mem_cons.mpr ⟨True.intro, h.free hvalue⟩⟩
  | _, _, .empty, _ => fun _ hl => absurd hl List.not_mem_nil

theorem Statement.PrintsAll.free : ∀ {ss : List Statement} {lexemes : List Lexeme},
    Statement.PrintsAll ss lexemes → (∀ name ∈ Statement.namesAll ss, name.Free) →
      ∀ l ∈ lexemes, l.Free
  | _, _, .single h, hfree => by
    rw [Statement.namesAll] at hfree
    exact Statement.Prints.free h (List.forall_mem_append.mp hfree).1
  | _, _, .cons h hrest, hfree => by
    rw [Statement.namesAll] at hfree
    obtain ⟨hs, hss⟩ := List.forall_mem_append.mp hfree
    exact List.forall_mem_append.mpr ⟨Statement.Prints.free h hs,
      List.forall_mem_cons.mpr ⟨True.intro, Statement.PrintsAll.free hrest hss⟩⟩

end

theorem TypeName.free_lexeme (t : TypeName) : t.lexeme.Free := by
  cases t <;> exact True.intro

theorem Declaration.free {d : Declaration} (hfree : ∀ name ∈ d.first :: d.others, name.Free) :
    ∀ l ∈ d.lexemes, l.Free := by
  obtain ⟨hfirst, hothers⟩ := List.forall_mem_cons.mp hfree
  refine List.forall_mem_cons.mpr ⟨hfirst, List.forall_mem_append.mpr ⟨?_, ?_⟩⟩
  · intro l hl
    obtain ⟨name, hname, hl⟩ := List.mem_flatMap.mp hl
    rcases List.mem_pair.mp hl with rfl | rfl
    · exact True.intro
    · exact hothers name hname
  · exact List.forall_mem_cons.mpr ⟨True.intro, List.forall_mem_singleton.mpr d.type.free_lexeme⟩

theorem PrintsDeclarations.free {ds : List Declaration} {lexemes : List Lexeme}
    (h : PrintsDeclarations ds lexemes)
    (hfree : ∀ name ∈ ds.flatMap (fun d => d.first :: d.others), name.Free) :
    ∀ l ∈ lexemes, l.Free := by
  cases h with
  | nothing => exact fun _ hl => absurd hl List.not_mem_nil
  | lines _ word =>
    refine List.forall_mem_cons.mpr ⟨True.intro, fun l hl => ?_⟩
    obtain ⟨d, hd, hl⟩ := List.mem_flatMap.mp hl
    rcases List.mem_append.mp hl with hl | hl
    · exact Declaration.free (fun name hname => hfree name (List.mem_flatMap.mpr ⟨d, hd, hname⟩)) l hl
    · rw [List.mem_singleton.mp hl]
      exact True.intro

/-- A program is printed with its own names. -/
theorem Program.Prints.free {p : Program} {lexemes : List Lexeme} (h : p.Prints lexemes)
    (hfree : ∀ name ∈ p.names, name.Free) : ∀ l ∈ lexemes, l.Free := by
  obtain ⟨word, hdeclarations, hbody⟩ := h
  obtain ⟨hname, hrest⟩ := List.forall_mem_cons.mp hfree
  obtain ⟨hds, hss⟩ := List.forall_mem_append.mp hrest
  have hinner := List.forall_mem_append.mpr
    ⟨hdeclarations.free hds, hbody.free (by rw [Statement.names]; exact hss)⟩
  exact List.forall_mem_cons.mpr ⟨True.intro, List.forall_mem_cons.mpr ⟨hname,
    List.forall_mem_cons.mpr ⟨True.intro, List.forall_mem_append.mpr
      ⟨hinner, List.forall_mem_singleton.mpr True.intro⟩⟩⟩⟩

/-! ## Expressions are read -/

/-- The tokens derive from a rule, and mean a part of a program. -/
def Reads (r : RuleId) (part : Part) (tokens : List (Token Kind)) : Prop :=
  grammar.Yields reading (.nonterm r) tokens (.ofValue (some part))

variable {tokens front back : List (Token Kind)} {token : Token Kind} {e : Expression}

/-- What is read by an alternative of a rule. -/
theorem reads_of_alternative {r : RuleId} {part : Part} (i : Nat) {rule : Rule (Token Kind)}
    {alternative : Alternative (Token Kind)} {pieces : Pieces (Token Kind) (Option Part)}
    (hrule : grammar.rule? r = some rule) (hi : rule.alternatives[i]? = some alternative)
    (h : grammar.Yields reading alternative.expr tokens pieces)
    (hvalue : alternative.shape.value reading r pieces = some part) : Reads r part tokens := by
  have hyields := Grammar.Yields.nonterm hrule (List.mem_of_getElem? hi) h
  rwa [hvalue] at hyields

/-- A token of that kind is taken by its term. -/
theorem yields_kind {k : Kind} (h : token.kind = k) :
    grammar.Yields reading (kind k) [token] (.ofTerm token) :=
  .term (beq_iff_eq.mpr h)

/-- The tokens are read as an expression where operators of that precedence may stand bare. -/
def ReadsAt : (level : Nat) → Expression → List (Token Kind) → Prop
  | 0, e, tokens | 1, e, tokens =>
    grammar.Chained reading expr term [kind .plus, kind .minus] (some (.expression e)) tokens
  | 2, e, tokens =>
    grammar.Chained reading term factor [kind .multiply, kind .integerDiv, kind .floatDiv]
      (some (.expression e)) tokens
  | _, e, tokens => Reads factor (.expression e) tokens

theorem reads_expr (h : ReadsAt 1 e tokens) : Reads expr (.expression e) tokens :=
  Grammar.Chained.yields h rfl List.mem_cons_self

theorem reads_term (h : ReadsAt 2 e tokens) : Reads term (.expression e) tokens :=
  Grammar.Chained.yields h rfl List.mem_cons_self

theorem ReadsAt.lower {level : Nat} (h : ReadsAt (level + 1) e tokens) : ReadsAt level e tokens := by
  rcases level with _ | _ | _ | level
  · exact h
  · exact .start (reads_term h)
  · exact .start h
  · exact h

/-- What is read where the operators are tight is read elsewhere, too. -/
theorem ReadsAt.mono {level level' : Nat} (h : ReadsAt level' e tokens) (hle : level ≤ level') :
    ReadsAt level e tokens := by
  induction hle with
  | refl => exact h
  | step _ ih => exact ih h.lower

/-- What is a factor is read anywhere. -/
theorem readsAt_of_factor (level : Nat) (h : Reads factor (.expression e) tokens) :
    ReadsAt level e tokens :=
  ReadsAt.mono (show ReadsAt (level + 3) e tokens from h) (Nat.le_add_right level 3)

theorem Operator.Prints.spelling_eq {op : Operator} {l : Lexeme} (hop : op.Prints l)
    (h : spelling token = l.spelling) : token.kind = op.kind ∧ token.text.toLower = op.op.symbol := by
  obtain ⟨hkind, htext⟩ := Prod.mk.inj h
  rw [toLower_eq_iff, htext, String.toList_ofList, hkind]
  cases hop with
  | intDiv w => exact ⟨rfl, w.isWord⟩
  | _ => exact ⟨rfl, rfl⟩

/-- An operator between operands is read. -/
theorem readsAt_binary {op : Operator} {l : Lexeme} {left right : Expression} (hop : op.Prints l)
    (hleft : ReadsAt op.precedence left front) (hright : ReadsAt (op.precedence + 1) right back)
    (h : spelling token = l.spelling) :
    ReadsAt op.precedence (.binary op left right) (front ++ token :: back) := by
  obtain ⟨hkind, htext⟩ := hop.spelling_eq h
  have hvalue : reading (.nontermTermNonterm op.rule (some (.expression left)) token
      (some (.expression right))) = some (.expression (.binary op left right)) := by
    have hrule : op.rule ≠ assignmentStatement := by cases op <;> decide
    simp only [reading, if_neg hrule, operator?_eq_some hkind htext, Option.map_some]
  have hoperator := yields_kind hkind
  cases op with
  | add =>
    show grammar.Chained reading expr term _ _ _
    rw [← hvalue]
    exact .snoc hleft (reads_term hright) List.mem_cons_self hoperator
  | sub =>
    show grammar.Chained reading expr term _ _ _
    rw [← hvalue]
    exact .snoc hleft (reads_term hright) (List.mem_cons_of_mem _ List.mem_cons_self) hoperator
  | mul =>
    show grammar.Chained reading term factor _ _ _
    rw [← hvalue]
    exact .snoc hleft hright List.mem_cons_self hoperator
  | intDiv =>
    show grammar.Chained reading term factor _ _ _
    rw [← hvalue]
    exact .snoc hleft hright (List.mem_cons_of_mem _ List.mem_cons_self) hoperator
  | floatDiv =>
    show grammar.Chained reading term factor _ _ _
    rw [← hvalue]
    exact .snoc hleft hright
      (List.mem_cons_of_mem _ (List.mem_cons_of_mem _ List.mem_cons_self)) hoperator

/-- A number is read. -/
theorem reads_number {n : Number} (h : spelling token = (Lexeme.number n).spelling) :
    Reads factor (.expression (.number n)) [token] := by
  obtain ⟨hkind, htext⟩ := Prod.mk.inj h
  have hkind : token.kind = n.tokenKind := hkind
  have hvalue : reading (.term factor token) = some (.expression (.number n)) := by
    rw [reading, if_neg (by decide), if_pos rfl, number?_eq_some hkind htext]
    rfl
  cases n with
  | integer n => exact reads_of_alternative 2 rfl rfl (yields_kind hkind) hvalue
  | real whole fraction => exact reads_of_alternative 3 rfl rfl (yields_kind hkind) hvalue

/-- A name in use is read. -/
theorem reads_name {name : Name} (h : spelling token = (Lexeme.name name).spelling) :
    Reads variableUse (.expression (.var name)) [token] := by
  obtain ⟨hkind, htext⟩ := Prod.mk.inj h
  have hvalue : reading (.term variableUse token) = some (.expression (.var name)) := by
    rw [reading, if_neg (by decide), if_neg (by decide), if_pos rfl, name?_eq_some htext]
    rfl
  exact reads_of_alternative 0 rfl rfl (yields_kind hkind) hvalue

/-- A sign in front of an operand is read. -/
theorem reads_unary {op : UnaryOp} (h : spelling token = (Lexeme.sign (signOf op)).spelling)
    (hoperand : Reads factor (.expression e) tokens) :
    Reads factor (.expression (.unary op e)) (token :: tokens) := by
  obtain ⟨hkind, htext⟩ := Prod.mk.inj h
  have hvalue : reading (.termNonterm factor token (some (.expression e))) =
      some (.expression (.unary op e)) := by
    rw [reading, if_pos rfl, hkind, htext]
    cases op <;> rfl
  have hyields : grammar.Yields reading (.seq [kind (signOf op).kind, .nonterm factor])
      ([token] ++ tokens) (.ofTerm token ++ .ofValue (some (.expression e))) :=
    .seqCons (yields_kind hkind) hoperand.seq_singleton
  cases op with
  | plus => exact reads_of_alternative 0 rfl rfl hyields hvalue
  | minus => exact reads_of_alternative 1 rfl rfl hyields hvalue

/-- Parentheses are read, and leave no trace. -/
theorem reads_parens {opening closing : Token Kind}
    (hopening : spelling opening = (Lexeme.sign .opening).spelling)
    (hclosing : spelling closing = (Lexeme.sign .closing).spelling)
    (h : Reads expr (.expression e) tokens) :
    Reads factor (.expression e) (opening :: (tokens ++ [closing])) := by
  have hyields : grammar.Yields reading (.seq [kind .lParens, .nonterm expr, kind .rParens])
      ([opening] ++ (tokens ++ [closing]))
      (.ofTerm opening ++ (.ofValue (some (.expression e)) ++ .ofTerm closing)) :=
    .seqCons (yields_kind (Prod.mk.inj hopening).1)
      (.seqCons h (yields_kind (Prod.mk.inj hclosing).1).seq_singleton)
  exact reads_of_alternative 4 rfl rfl hyields rfl

/-- **An expression that is printed is read.** -/
theorem Expression.Prints.readsAt {level : Nat} {lexemes : List Lexeme} (h : e.Prints level lexemes) :
    ∀ tokens : List (Token Kind), tokens.map spelling = lexemes.map Lexeme.spelling →
      ReadsAt level e tokens := by
  induction h with
  | number level n =>
    intro tokens htokens
    obtain ⟨token, rest, rfl, htoken, hrest⟩ := List.map_eq_cons_iff.mp htokens
    rw [List.map_eq_nil_iff.mp hrest]
    exact readsAt_of_factor level (reads_number htoken)
  | var level name =>
    intro tokens htokens
    obtain ⟨token, rest, rfl, htoken, hrest⟩ := List.map_eq_cons_iff.mp htokens
    rw [List.map_eq_nil_iff.mp hrest]
    exact readsAt_of_factor level (reads_of_alternative 5 rfl rfl (reads_name htoken) rfl)
  | unary level op _ ih =>
    intro tokens htokens
    obtain ⟨token, rest, rfl, htoken, hrest⟩ := List.map_eq_cons_iff.mp htokens
    exact readsAt_of_factor level (reads_unary htoken (ih rest hrest))
  | binary hlevel hop _ _ ihleft ihright =>
    intro tokens htokens
    rw [List.map_append, List.map_cons] at htokens
    obtain ⟨front, behind, rfl, hfront, hbehind⟩ := List.map_eq_append_iff.mp htokens
    obtain ⟨token, back, rfl, htoken, hback⟩ := List.map_eq_cons_iff.mp hbehind
    exact (readsAt_binary hop (ihleft front hfront) (ihright back hback) htoken).mono hlevel
  | parens level _ ih =>
    intro tokens htokens
    rw [List.map_cons, List.map_append] at htokens
    obtain ⟨opening, behind, rfl, hopening, hbehind⟩ := List.map_eq_cons_iff.mp htokens
    obtain ⟨inner, last, rfl, hinner, hlast⟩ := List.map_eq_append_iff.mp hbehind
    obtain ⟨closing, rest, rfl, hclosing, hrest⟩ := List.map_eq_cons_iff.mp hlast
    rw [List.map_eq_nil_iff.mp hrest]
    exact readsAt_of_factor level (reads_parens hopening hclosing (reads_expr (ih inner hinner)))

/-! ## Statements are read -/

/-- The tokens are statements with semicolons between them. -/
def ReadsAll (ss : List Statement) (tokens : List (Token Kind)) : Prop :=
  ∃ pieces, grammar.Yields reading
    (.seq [.nonterm statement, .zeroOrMore (.seq [kind .semi, .nonterm statement])]) tokens pieces ∧
    pieces.values = ss.map fun s => some (.statement s)

theorem ReadsAll.single {s : Statement} (h : Reads statement (.statement s) tokens) :
    ReadsAll [s] tokens := by
  have hnone : grammar.Yields reading (.zeroOrMore (.seq [kind .semi, .nonterm statement])) [] .nil :=
    .repStop
  have hyields := Grammar.Yields.seqCons h hnone.seq_singleton
  rw [List.append_nil] at hyields
  exact ⟨_, hyields, rfl⟩

theorem ReadsAll.cons {s : Statement} {ss : List Statement}
    (h : Reads statement (.statement s) front) (hsemi : token.kind = .semi)
    (hrest : ReadsAll ss back) : ReadsAll (s :: ss) (front ++ token :: back) := by
  obtain ⟨_, hback, hvalues⟩ := hrest
  cases hback with
  | @seqCons _ _ first others p q hfirst hothers =>
    have hlink : grammar.Yields reading (.seq [kind .semi, .nonterm statement]) ([token] ++ first)
        (.ofTerm token ++ p) := .seqCons (yields_kind hsemi) hfirst.seq_singleton
    cases hothers with
    | @seqCons _ _ others nothing q q' hothers hnothing =>
      cases hnothing
      have hyields := Grammar.Yields.seqCons h (hlink.rep_cons hothers).seq_singleton
      rw [List.append_nil]
      refine ⟨_, hyields, ?_⟩
      rw [List.map_cons, ← hvalues]
      show _ :: (p.values ++ q.values) = _ :: (p.values ++ (q.values ++ []))
      rw [List.append_nil]

theorem ReadsAll.reads {ss : List Statement} (h : ReadsAll ss tokens) :
    Reads statementList (.statements ss) tokens := by
  obtain ⟨pieces, hyields, hvalues⟩ := h
  refine reads_of_alternative 0 rfl rfl hyields ?_
  have hall : (ss.map fun s => some (Part.statement s)).mapM statement? = some ss := by
    rw [mapM_eq_some_iff, List.forall₂_map_left_iff]
    exact List.forall₂_same.mpr fun s _ => rfl
  rw [Shape.value_nontermList, hvalues, reading, if_neg (by decide), if_pos rfl, hall]
  rfl

/-- An assignment is read. -/
theorem reads_assign {name : Name} {target becomes : Token Kind}
    (htarget : spelling target = (Lexeme.name name).spelling)
    (hbecomes : spelling becomes = (Lexeme.sign .assign).spelling)
    (h : Reads expr (.expression e) tokens) :
    Reads assignmentStatement (.statement (.assign name e)) (target :: becomes :: tokens) := by
  obtain ⟨hkind, htext⟩ := Prod.mk.inj hbecomes
  have hyields : grammar.Yields reading (.seq [.nonterm variableUse, kind .assign, .nonterm expr])
      ([target] ++ ([becomes] ++ tokens)) (.ofValue (some (.expression (.var name))) ++
        (.ofTerm becomes ++ .ofValue (some (.expression e)))) :=
    .seqCons (reads_name htarget) (.seqCons (yields_kind hkind) h.seq_singleton)
  have hvalue : reading (.nontermTermNonterm assignmentStatement (some (.expression (.var name)))
      becomes (some (.expression e))) = some (.statement (.assign name e)) := by
    rw [reading, if_pos rfl]
    exact if_pos ⟨hkind, htext⟩
  exact reads_of_alternative 0 rfl rfl hyields hvalue

/-- Statements between `BEGIN` and `END` are read. -/
theorem reads_between {ss : List Statement} {opening closing : Token Kind}
    (hopening : opening.kind = .begin) (hclosing : closing.kind = .end) (h : ReadsAll ss tokens) :
    Reads compoundStatement (.statement (.compound ss)) (opening :: (tokens ++ [closing])) := by
  have hyields : grammar.Yields reading (.seq [kind .begin, .nonterm statementList, kind .end])
      ([opening] ++ (tokens ++ [closing]))
      (.ofTerm opening ++ (.ofValue (some (.statements ss)) ++ .ofTerm closing)) :=
    .seqCons (yields_kind hopening) (.seqCons h.reads (yields_kind hclosing).seq_singleton)
  exact reads_of_alternative 0 rfl rfl hyields rfl

theorem reads_compound {ss : List Statement} {lexemes : List Lexeme} {first : Word .begin}
    {last : Word .end}
    (h : ∀ inner : List (Token Kind), inner.map spelling = lexemes.map Lexeme.spelling →
      ReadsAll ss inner)
    (htokens : tokens.map spelling =
      (Lexeme.word first :: (lexemes ++ [.word last])).map Lexeme.spelling) :
    Reads compoundStatement (.statement (.compound ss)) tokens := by
  rw [List.map_cons, List.map_append] at htokens
  obtain ⟨opening, behind, rfl, hopening, hbehind⟩ := List.map_eq_cons_iff.mp htokens
  obtain ⟨inner, tail, rfl, hinner, htail⟩ := List.map_eq_append_iff.mp hbehind
  obtain ⟨closing, rest, rfl, hclosing, hrest⟩ := List.map_eq_cons_iff.mp htail
  rw [List.map_eq_nil_iff.mp hrest]
  exact reads_between (Prod.mk.inj hopening).1 (Prod.mk.inj hclosing).1 (h inner hinner)

/-- The empty statement is read where nothing is. -/
theorem reads_nothing : Reads empty (.statement .empty) [] :=
  reads_of_alternative 0 rfl rfl .empty rfl

mutual

/-- **A statement that is printed is read.** -/
theorem Statement.Prints.reads : ∀ {s : Statement} {lexemes : List Lexeme}, s.Prints lexemes →
    ∀ tokens : List (Token Kind), tokens.map spelling = lexemes.map Lexeme.spelling →
      Reads statement (.statement s) tokens
  | _, _, .compound _ _ h, tokens, htokens => by
    have hcompound := reads_compound (Statement.PrintsAll.readsAll h) htokens
    exact reads_of_alternative 0 rfl rfl hcompound rfl
  | _, _, .assign _ h, tokens, htokens => by
    rw [List.map_cons, List.map_cons] at htokens
    obtain ⟨target, behind, rfl, htarget, hbehind⟩ := List.map_eq_cons_iff.mp htokens
    obtain ⟨becomes, rest, rfl, hbecomes, hrest⟩ := List.map_eq_cons_iff.mp hbehind
    have hassign := reads_assign htarget hbecomes (reads_expr (h.readsAt rest hrest))
    exact reads_of_alternative 1 rfl rfl hassign rfl
  | _, _, .empty, tokens, htokens => by
    rw [List.map_eq_nil_iff.mp htokens]
    exact reads_of_alternative 2 rfl rfl reads_nothing rfl

theorem Statement.PrintsAll.readsAll : ∀ {ss : List Statement} {lexemes : List Lexeme},
    Statement.PrintsAll ss lexemes →
    ∀ tokens : List (Token Kind), tokens.map spelling = lexemes.map Lexeme.spelling →
      ReadsAll ss tokens
  | _, _, .single h, tokens, htokens => .single (Statement.Prints.reads h tokens htokens)
  | _, _, .cons h hrest, tokens, htokens => by
    rw [List.map_append, List.map_cons] at htokens
    obtain ⟨front, behind, rfl, hfront, hbehind⟩ := List.map_eq_append_iff.mp htokens
    obtain ⟨semi, back, rfl, hsemi, hback⟩ := List.map_eq_cons_iff.mp hbehind
    exact .cons (Statement.Prints.reads h front hfront) (Prod.mk.inj hsemi).1
      (Statement.PrintsAll.readsAll hrest back hback)

end

/-! ## Declarations are read -/

/-- The names behind the first one are read, and only names count. -/
theorem yields_others {others : List Name} {tokens : List (Token Kind)}
    (htokens : tokens.map spelling =
      (others.flatMap fun name => [Lexeme.sign .comma, .name name]).map Lexeme.spelling) :
    grammar.Yields reading (.zeroOrMore (.seq [kind .comma, kind .id])) tokens ⟨tokens, []⟩ ∧
      List.Forall₂ (fun token name => name? token = some name)
        (tokens.filter (·.kind == .id)) others := by
  induction others generalizing tokens with
  | nil =>
    rw [List.map_eq_nil_iff.mp htokens]
    exact ⟨.repStop, .nil⟩
  | cons name others ih =>
    rw [List.flatMap_cons, List.map_append, List.map_cons, List.map_cons] at htokens
    obtain ⟨comma, behind, rfl, hcomma, hbehind⟩ := List.map_eq_cons_iff.mp htokens
    obtain ⟨token, rest, rfl, htoken, hrest⟩ := List.map_eq_cons_iff.mp hbehind
    obtain ⟨hyields, hnames⟩ := ih hrest
    have hcomma : comma.kind = .comma := (Prod.mk.inj hcomma).1
    obtain ⟨hkind, htext⟩ := Prod.mk.inj htoken
    have hround : grammar.Yields reading (.seq [kind .comma, kind .id]) ([comma] ++ [token])
        (.ofTerm comma ++ .ofTerm token) :=
      .seqCons (yields_kind hcomma) (yields_kind hkind).seq_singleton
    have hkind : token.kind = .id := hkind
    refine ⟨hround.rep_cons hyields, ?_⟩
    rw [List.filter_cons_of_neg (by simp [hcomma]), List.filter_cons_of_pos (by simp [hkind])]
    exact .cons (name?_eq_some htext) hnames

theorem reads_type {t : TypeName} (h : spelling token = t.lexeme.spelling) :
    Reads typeSpec (.type t) [token] := by
  obtain ⟨hkind, htext⟩ := Prod.mk.inj h
  have hread : type? token = some t := by
    cases t <;> exact type?_eq_some hkind htext
  have hyields : grammar.Yields reading (.choice [kind .integer, kind .real]) [token]
      (.ofTerm token) := by
    cases t with
    | integer word => exact .choice List.mem_cons_self (yields_kind hkind)
    | real word => exact .choice (List.mem_cons_of_mem _ List.mem_cons_self) (yields_kind hkind)
  have hvalue : reading (.term typeSpec token) = some (.type t) := by
    rw [reading, if_pos rfl, hread]
    rfl
  exact reads_of_alternative 0 rfl rfl hyields hvalue

/-- A line of declarations is read. -/
theorem Declaration.reads {d : Declaration}
    (htokens : tokens.map spelling = d.lexemes.map Lexeme.spelling) :
    Reads variableDeclaration (.declarations [d]) tokens := by
  rw [Declaration.lexemes, List.map_cons, List.map_append, List.map_cons] at htokens
  obtain ⟨first, behind, rfl, hfirst, hbehind⟩ := List.map_eq_cons_iff.mp htokens
  obtain ⟨others, tail, rfl, hothers, htail⟩ := List.map_eq_append_iff.mp hbehind
  obtain ⟨colon, rest, rfl, hcolon, hrest⟩ := List.map_eq_cons_iff.mp htail
  obtain ⟨type, rest, rfl, htype, hrest⟩ := List.map_eq_cons_iff.mp hrest
  rw [List.map_eq_nil_iff.mp hrest]
  obtain ⟨hyields, hnames⟩ := yields_others hothers
  have hcolon : colon.kind = .colon := (Prod.mk.inj hcolon).1
  obtain ⟨hkind, htext⟩ := Prod.mk.inj hfirst
  have hline : grammar.Yields reading (.seq [kind .id, .zeroOrMore (.seq [kind .comma, kind .id]),
      kind .colon, .nonterm typeSpec]) ([first] ++ (others ++ ([colon] ++ [type])))
      (.ofTerm first ++ (⟨others, []⟩ ++ (.ofTerm colon ++ .ofValue (some (.type d.type))))) :=
    .seqCons (yields_kind hkind) (.seqCons hyields (.seqCons (yields_kind hcolon)
      (reads_type htype).seq_singleton))
  refine reads_of_alternative 0 rfl rfl hline ?_
  have hkind : first.kind = .id := hkind
  have hfilter : (first :: (others ++ [colon])).filter (·.kind == .id) =
      first :: others.filter (·.kind == .id) := by
    rw [List.filter_cons_of_pos (by simp [hkind]), List.filter_append,
      List.filter_cons_of_neg (by simp [hcolon]), List.filter_nil, List.append_nil]
  have hall : (first :: others.filter (·.kind == .id)).mapM name? = some (d.first :: d.others) :=
    mapM_eq_some_iff.mpr (.cons (name?_eq_some htext) hnames)
  rw [Shape.value_termNontermList]
  show reading (.termNontermList variableDeclaration (first :: (others ++ [colon]))
    [some (.type d.type)]) = _
  rw [reading, if_pos rfl, hfilter, hall]
  rfl

/-- A line is read with the semicolon behind it. -/
theorem yields_line {d : Declaration}
    (htokens : tokens.map spelling = (d.lexemes ++ [Lexeme.sign .semi]).map Lexeme.spelling) :
    ∃ pieces, grammar.Yields reading (.seq [.nonterm variableDeclaration, kind .semi]) tokens pieces ∧
      pieces.values = [some (.declarations [d])] := by
  rw [List.map_append] at htokens
  obtain ⟨line, tail, rfl, hline, htail⟩ := List.map_eq_append_iff.mp htokens
  obtain ⟨semi, rest, rfl, hsemi, hrest⟩ := List.map_eq_cons_iff.mp htail
  rw [List.map_eq_nil_iff.mp hrest]
  have hsemi : semi.kind = .semi := (Prod.mk.inj hsemi).1
  exact ⟨_, .seqCons (Declaration.reads hline) (yields_kind hsemi).seq_singleton, rfl⟩

/-- Lines are read, one after the other. -/
theorem yields_lines {ds : List Declaration} {tokens : List (Token Kind)}
    (htokens : tokens.map spelling =
      (ds.flatMap fun d => d.lexemes ++ [.sign .semi]).map Lexeme.spelling) :
    ∃ pieces, grammar.Yields reading
      (.zeroOrMore (.seq [.nonterm variableDeclaration, kind .semi])) tokens pieces ∧
      pieces.values = ds.map fun d => some (.declarations [d]) := by
  induction ds generalizing tokens with
  | nil =>
    rw [List.map_eq_nil_iff.mp htokens]
    exact ⟨_, .repStop, rfl⟩
  | cons d ds ih =>
    rw [List.flatMap_cons, List.map_append] at htokens
    obtain ⟨front, back, rfl, hfront, hback⟩ := List.map_eq_append_iff.mp htokens
    obtain ⟨first, hfirst, hvalue⟩ := yields_line hfront
    obtain ⟨pieces, hyields, hvalues⟩ := ih hback
    refine ⟨_, hfirst.rep_cons hyields, ?_⟩
    rw [Pieces.values_append, hvalue, hvalues]
    rfl

/-- **Declarations that are printed are read.** -/
theorem PrintsDeclarations.reads {ds : List Declaration} {lexemes : List Lexeme}
    (h : PrintsDeclarations ds lexemes)
    (htokens : tokens.map spelling = lexemes.map Lexeme.spelling) :
    Reads declarations (.declarations ds) tokens := by
  cases h with
  | nothing =>
    rw [List.map_eq_nil_iff.mp htokens]
    have hyields : grammar.Yields reading (.choice [.seq [kind .var,
        .oneOrMore (.seq [.nonterm variableDeclaration, kind .semi])], .nonterm empty]) []
        (.ofValue (some (.statement .empty))) :=
      .choice (List.mem_cons_of_mem _ List.mem_cons_self) reads_nothing
    exact reads_of_alternative 0 rfl rfl hyields rfl
  | lines hne word =>
    obtain ⟨d, ds, rfl⟩ := List.exists_cons_of_ne_nil hne
    rw [List.map_cons, List.flatMap_cons, List.map_append] at htokens
    obtain ⟨var, rest, rfl, hvar, hrest⟩ := List.map_eq_cons_iff.mp htokens
    obtain ⟨front, back, rfl, hfront, hback⟩ := List.map_eq_append_iff.mp hrest
    obtain ⟨first, hfirst, hvalue⟩ := yields_line hfront
    obtain ⟨others, hothers, hvalues⟩ := yields_lines hback
    have hlines : grammar.Yields reading (.choice [.seq [kind .var,
        .oneOrMore (.seq [.nonterm variableDeclaration, kind .semi])], .nonterm empty])
        ([var] ++ (front ++ back)) (.ofTerm var ++ (first ++ others)) :=
      .choice List.mem_cons_self
        (.seqCons (yields_kind (Prod.mk.inj hvar).1) (.seq_singleton (.repMore hfirst hothers)))
    refine reads_of_alternative 0 rfl rfl hlines ?_
    have hall : ((d :: ds).map fun d => some (Part.declarations [d])).mapM declarations? =
        some ((d :: ds).map fun d => [d]) := by
      rw [mapM_eq_some_iff, List.forall₂_map_left_iff, List.forall₂_map_right_iff]
      exact List.forall₂_same.mpr fun d _ => rfl
    have hsame : ((d :: ds).map fun d => [d]).flatten = d :: ds := by
      rw [← List.flatMap_def]
      exact List.flatMap_singleton' _
    rw [Shape.value_nontermList]
    show reading (.nontermList declarations (first.values ++ others.values)) = _
    rw [hvalue, hvalues]
    show reading (.nontermList declarations ((d :: ds).map fun d => some (.declarations [d]))) = _
    rw [reading, if_pos rfl, hall, Option.map_some, hsame]

/-! ## Programs are read -/

/-- Declarations and statements are read in the frame of a program. -/
theorem reads_program {p : Program} {opening name semi dot : Token Kind}
    (hopening : opening.kind = .program)
    (hname : spelling name = (Lexeme.name p.name).spelling) (hsemi : semi.kind = .semi)
    (hdeclarations : Reads declarations (.declarations p.declarations) front)
    (hbody : Reads compoundStatement (.statement (.compound p.body)) back)
    (hdot : dot.kind = .dot) :
    Reads program (.program p) (opening :: name :: semi :: (front ++ back ++ [dot])) := by
  have hinner : grammar.Yields reading
      (.seq [.nonterm Pascal.declarations, .nonterm compoundStatement]) (front ++ back)
      (.ofValue (some (.declarations p.declarations)) ++ .ofValue (some (.statement (.compound p.body)))) :=
    .seqCons hdeclarations hbody.seq_singleton
  have hblock : Reads block (.block p.declarations p.body) (front ++ back) :=
    reads_of_alternative 0 rfl rfl hinner rfl
  have hyields : grammar.Yields reading (.seq [kind .program, .nonterm variableUse, kind .semi,
      .nonterm block, kind .dot]) ([opening] ++ ([name] ++ ([semi] ++ (front ++ back ++ [dot]))))
      (.ofTerm opening ++ (.ofValue (some (.expression (.var p.name))) ++ (.ofTerm semi ++
        (.ofValue (some (.block p.declarations p.body)) ++ .ofTerm dot)))) :=
    .seqCons (yields_kind hopening) (.seqCons (reads_name hname) (.seqCons (yields_kind hsemi)
      (.seqCons hblock (yields_kind hdot).seq_singleton)))
  exact reads_of_alternative 0 rfl rfl hyields rfl

/-- **A program that is printed is read.** -/
theorem Program.Prints.reads {p : Program} {lexemes : List Lexeme} (h : p.Prints lexemes)
    (htokens : tokens.map spelling = lexemes.map Lexeme.spelling) :
    Reads program (.program p) tokens := by
  obtain ⟨word, hdeclarations, hbody⟩ := h
  rw [List.map_cons, List.map_cons, List.map_cons, List.map_append, List.map_append] at htokens
  obtain ⟨opening, rest, rfl, hopening, hrest⟩ := List.map_eq_cons_iff.mp htokens
  obtain ⟨name, rest, rfl, hname, hrest⟩ := List.map_eq_cons_iff.mp hrest
  obtain ⟨semi, rest, rfl, hsemi, hrest⟩ := List.map_eq_cons_iff.mp hrest
  obtain ⟨inner, tail, rfl, hinner, htail⟩ := List.map_eq_append_iff.mp hrest
  obtain ⟨front, back, rfl, hfront, hback⟩ := List.map_eq_append_iff.mp hinner
  obtain ⟨dot, rest, rfl, hdot, hrest⟩ := List.map_eq_cons_iff.mp htail
  rw [List.map_eq_nil_iff.mp hrest]
  have hcompound : Reads compoundStatement (.statement (.compound p.body)) back := by
    cases hbody with
    | compound _ _ h => exact reads_compound h.readsAll hback
  exact reads_program (Prod.mk.inj hopening).1 hname (Prod.mk.inj hsemi).1
    (hdeclarations.reads hfront) hcompound (Prod.mk.inj hdot).1

/-- A text that is read as a program is parsed into it. -/
theorem exists_tree_of_reads {p : Program} {text : String}
    (h : Reads program (.program p) (Cursor.start table text).tokens) :
    ∃ tree, parse text = .ok tree ∧ p.Stored tree.arena tree.root := by
  have htree : ∃ tree, parse text = .ok tree := by
    obtain ⟨answer, hanswer, hrecognises⟩ := exists_answer text
    obtain ⟨tree, rfl⟩ := hrecognises.ok_iff.mpr ((derives_program_iff _).mp h.derives)
    exact ⟨tree, hanswer⟩
  obtain ⟨tree, htree⟩ := htree
  obtain ⟨p', hreads, hstored, -⟩ := exists_yields_of_parse htree
  -- The text is read in one way only, so what is stored is the program that was printed.
  have hvalue : some (Part.program p) = some (.program p') :=
    tokens_outlook_fits.value_unique grammar.start_mem_ids rfl rfl h hreads
  cases hvalue
  exact ⟨tree, htree, hstored⟩

/-- **A program is parsed as it was printed**, in whatever letters its words are written, whatever
stands between the lexemes, and wherever there are parentheses that nobody asked for. -/
theorem parse_of_prints {p : Program} {lexemes : List Lexeme} {text : String}
    (hprints : p.Prints lexemes) (hfree : ∀ name ∈ p.names, name.Free)
    (hlaid : LaidOut lexemes text.toList) :
    ∃ tree, parse text = .ok tree ∧ p.Stored tree.arena tree.root :=
  exists_tree_of_reads (hprints.reads (spelling_of_laidOut (hprints.free hfree) hlaid))

/-- Two variables on a line, parentheses that are needed, and an empty statement at the end. -/
theorem parse_of_prints_quotient :
    let main : Name := ⟨"Main".toList, rfl⟩
    let a : Name := ⟨"A".toList, rfl⟩
    let b : Name := ⟨"b".toList, rfl⟩
    let two : Number := .integer ⟨"2".toList, rfl⟩
    let half : Number := .real ⟨"0".toList, rfl⟩ ⟨"5".toList, rfl⟩
    let int : TypeName := .integer ⟨"Integer".toList, rfl⟩
    let value : Expression := .binary .intDiv (.number two) (.binary .add (.var b) (.number half))
    let p : Program := ⟨main, [⟨a, [b], int⟩], [.assign a value, .empty]⟩
    let text := "PROGRAM Main ; \x7btwo\x7d Var A , b : Integer ; begin A := 2 Div ( b + 0.5 ) ; END ."
    let lexemes : List Lexeme := [.word (⟨"PROGRAM".toList, rfl⟩ : Word .program), .name main,
      .sign .semi, .word (⟨"Var".toList, rfl⟩ : Word .var), .name a, .sign .comma, .name b,
      .sign .colon, int.lexeme, .sign .semi, .word (⟨"begin".toList, rfl⟩ : Word .begin), .name a,
      .sign .assign, .number two, .word (⟨"Div".toList, rfl⟩ : Word .div), .sign .opening, .name b,
      .sign .plus, .number half, .sign .closing, .sign .semi,
      .word (⟨"END".toList, rfl⟩ : Word .end), .sign .dot]
    p.Prints lexemes ∧ (∀ name ∈ p.names, name.Free) ∧ LaidOut lexemes text.toList ∧
      ∃ tree, parse text = .ok tree ∧ p.Stored tree.arena tree.root := by
  intro main a b two half int value p text lexemes
  have hvalue : value.Prints 1 ([.number two] ++ .word (⟨"Div".toList, rfl⟩ : Word .div) ::
      (.sign .opening :: ([.name b] ++ .sign .plus :: [.number half] ++ [.sign .closing]))) :=
    .binary (by decide) (.intDiv _) (.number 2 two)
      (.parens 3 (.binary (by decide) .add (.var 1 b) (.number 2 half)))
  have hdeclarations : PrintsDeclarations p.declarations _ :=
    .lines (List.cons_ne_nil _ _) ⟨"Var".toList, rfl⟩
  have hbody : (Statement.compound p.body).Prints _ :=
    .compound ⟨"begin".toList, rfl⟩ ⟨"END".toList, rfl⟩ (.cons (.assign a hvalue) (.single .empty))
  have hprints : p.Prints lexemes := .mk (p := p) ⟨"PROGRAM".toList, rfl⟩ hdeclarations hbody
  have hfree : ∀ name ∈ p.names, name.Free := by
    intro name hname k
    fin_cases hname <;> cases k <;> decide
  have hblank : Gap [' '] := .blank rfl
  have htwo : Gap ('\x7b' :: (['t', 'w', 'o'] ++ ['\x7d'])) := .comment (by decide)
  have hone : ∀ {l lexemes chars}, Behind lexemes chars →
      Behind (l :: lexemes) ([' '] ++ [] ++ (l.chars ++ chars)) := .cons hblank .nil
  obtain ⟨chars, hlaid, hchars⟩ : ∃ chars, LaidOut lexemes chars ∧ chars = text.toList :=
    ⟨_, .cons .nil (hone (hone (.cons hblank (.cons htwo (.cons hblank .nil)) (hone (hone (hone
      (hone (hone (hone (hone (hone (hone (hone (hone (hone (hone (hone (hone (hone (hone (hone
        (hone (.nil .nil))))))))))))))))))))))), by decide⟩
  have htext : LaidOut lexemes text.toList := hchars ▸ hlaid
  exact ⟨hprints, hfree, htext, parse_of_prints hprints hfree htext⟩

end GrammarKit.Pascal
