import GrammarKit.Pascal.Syntax
import GrammarKit.Proofs.Acceptance
import GrammarKit.Proofs.Making

/-!
# The context-free grammar of the Pascal subset

The rules of the Pascal subset, read as a context-free grammar over kinds of tokens, and what the
parser makes of a text: at most one prefix of the tokens is a program, and it is found.

Statements and declarations may be empty, and the empty statement is what the parser falls back on
where a compound statement or an assignment breaks off.  It does so in vain: a word that starts like
one of them cannot go on behind an empty statement, since what follows a statement is a semicolon or
`END`.

A program is built bottom-up, and the nodes of its parts are looked at on the way.  They are always
there, so a text is never refused because of its tree.
-/

namespace GrammarKit.Pascal

/-! ## The grammar -/

/-- The kinds are finitely many. -/
instance : Fintype Kind := ⟨⟨Kind.all, by decide⟩, Kind.mem_all⟩

/-- The kind `k`. -/
def exactly (k : Kind) : Expr Kind := .term (· == k)

/-- The rules of the Pascal subset, over kinds of tokens. -/
def productions : Productions Kind :=
  [ (program,
      [.seq [exactly .program, .nonterm variableUse, exactly .semi, .nonterm block, exactly .dot]]),
    (block, [.seq [.nonterm declarations, .nonterm compoundStatement]]),
    (declarations,
      [.choice
        [ .seq [exactly .var, .oneOrMore (.seq [.nonterm variableDeclaration, exactly .semi])],
          .nonterm empty ]]),
    (variableDeclaration,
      [.seq
        [ exactly .id, .zeroOrMore (.seq [exactly .comma, exactly .id]), exactly .colon,
          .nonterm typeSpec ]]),
    (typeSpec, [.choice [exactly .integer, exactly .real]]),
    (compoundStatement, [.seq [exactly .begin, .nonterm statementList, exactly .end]]),
    (statementList,
      [.seq [.nonterm statement, .zeroOrMore (.seq [exactly .semi, .nonterm statement])]]),
    (statement, [.nonterm compoundStatement, .nonterm assignmentStatement, .nonterm empty]),
    (assignmentStatement, [.seq [.nonterm variableUse, exactly .assign, .nonterm expr]]),
    (empty, [.empty]),
    (expr,
      [.seq [.nonterm term,
        .zeroOrMore (.seq [.choice [exactly .plus, exactly .minus], .nonterm term])]]),
    (term,
      [.seq [.nonterm factor,
        .zeroOrMore (.seq
          [.choice [exactly .multiply, exactly .integerDiv, exactly .floatDiv],
            .nonterm factor])]]),
    (factor,
      [ .seq [exactly .plus, .nonterm factor],
        .seq [exactly .minus, .nonterm factor],
        exactly .integerConst,
        exactly .realConst,
        .seq [exactly .lParens, .nonterm expr, exactly .rParens],
        .nonterm variableUse ]),
    (variableUse, [exactly .id]) ]

theorem productions_grammar :
    grammar.productions = Expr.comapProductions Token.kind productions := rfl

/-- The rules that may match without taking a token. -/
def nullable (r : RuleId) : Bool := r ∈ [declarations, statementList, statement, empty]

/-- How far a rule is from a token: a block starts with declarations, these with a declaration. -/
def rank (r : RuleId) : Nat :=
  if r ∈ [block, statementList, expr] then 3
  else if r ∈ [declarations, statement, term] then 2
  else if r ∈ [assignmentStatement, factor] then 1
  else 0

/-- The kinds that a rule may start with. -/
def starts (r : RuleId) (k : Kind) : Bool :=
  if r = program then k = .program
  else if r = block then k ∈ [.var, .begin]
  else if r = declarations then k = .var
  else if r = typeSpec then k ∈ [.integer, .real]
  else if r = compoundStatement then k = .begin
  else if r = statementList then k ∈ [.begin, .id, .semi]
  else if r = statement then k ∈ [.begin, .id]
  else if r ∈ [variableDeclaration, assignmentStatement, variableUse] then k = .id
  else if r = empty then false
  else k ∈ [.plus, .minus, .integerConst, .realConst, .lParens, .id]

/-- The kinds that may follow a rule.  Every rule but the first is followed by something. -/
def follows (r : RuleId) (k : Kind) : Bool :=
  if r = block then k = .dot
  else if r = declarations then k = .begin
  else if r ∈ [variableDeclaration, typeSpec] then k = .semi
  else if r = compoundStatement then k ∈ [.dot, .semi, .end]
  else if r = statementList then k = .end
  else if r ∈ [statement, assignmentStatement] then k ∈ [.semi, .end]
  else if r = empty then k ∈ [.begin, .semi, .end]
  else if r = expr then k ∈ [.semi, .end, .rParens]
  else if r = term then k ∈ [.plus, .minus, .semi, .end, .rParens]
  else true

/-- What is known of the rules of the Pascal subset before anything is read. -/
def outlook : Outlook Kind where
  nullable := nullable
  rank := rank
  starts r ahead := ahead.any (starts r)
  follows r ahead := r = program || ahead.any (follows r)

theorem outlook_fits : outlook.Fits productions := by decide +kernel

/-! ## The nodes are always there -/

variable {arena : Arena}

theorem inRange_of_forall₂ {nodes : List NodeId} {values : List Unit}
    (h : List.Forall₂ (fun id _ => arena.InRange id) nodes values) :
    ∀ id ∈ nodes, arena.InRange id := by
  induction h with
  | nil => exact fun id hid => absurd hid List.not_mem_nil
  | cons hfirst _ ih => exact List.forall_mem_cons.mpr ⟨hfirst, ih⟩

/-- **A node is made of nodes that are there**, and then it is there itself. -/
theorem builds_of_inRange {reduction : Reduction (Token Kind) NodeId}
    {reduction' : Reduction (Token Kind) Unit}
    (h : reduction.Alike (fun id _ => arena.InRange id) reduction') :
    Builds arena (adds arena reduction) (build reduction arena) := by
  refine builds_of_looksAt fun id hid => ?_
  cases h with
  | nonterm rule hchild => rwa [List.mem_singleton.mp hid]
  | nontermNonterm rule hleft hright =>
    rw [looksAt] at hid
    split at hid
    · rwa [List.mem_singleton.mp hid]
    · exact absurd hid List.not_mem_nil
  | nontermList rule hnodes =>
    rw [looksAt] at hid
    split at hid
    · exact inRange_of_forall₂ hnodes id hid
    · exact absurd hid List.not_mem_nil
  | termNontermList rule tokens hnodes =>
    rw [looksAt] at hid
    split at hid
    · exact inRange_of_forall₂ hnodes id (List.mem_of_mem_take hid)
    · exact absurd hid List.not_mem_nil
  | _ => exact absurd hid List.not_mem_nil

/-- **The builder never gets to a fault**: all numbers that it makes lead to nodes. -/
def inRangeModel : Models builder fun _ => () where
  good world := ∃ arena, world = .ok arena
  grows world world' := ∀ arena, world = .ok arena →
    ∃ arena', world' = .ok arena' ∧ arena.Grows arena'
  means world id _ := ∃ arena, world = .ok arena ∧ arena.InRange id
  refl _ arena h := ⟨arena, h, .refl arena⟩
  trans h h' arena harena := by
    obtain ⟨next, hnext, hgrows⟩ := h arena harena
    obtain ⟨last, hlast, hmore⟩ := h' next hnext
    exact ⟨last, hlast, hgrows.trans hmore⟩
  mono h hmeans := by
    obtain ⟨arena, harena, hid⟩ := hmeans
    obtain ⟨arena', harena', hgrows⟩ := h arena harena
    exact ⟨arena', harena', hgrows.inRange hid⟩
  sound hgood h := by
    obtain ⟨arena, rfl⟩ := hgood
    have hinRange := h.mono fun id _ hid => by
      obtain ⟨arena', harena', hid⟩ := hid
      cases harena'
      exact hid
    obtain ⟨id, arena', hbuild, hgrows, hid, -⟩ := builds_of_inRange hinRange
    simp only [builder, hbuild]
    refine ⟨⟨arena', rfl⟩, fun before hbefore => ?_, ⟨arena', rfl, hid⟩⟩
    cases hbefore
    exact ⟨arena', rfl, hgrows⟩

/-! ## What the parser answers -/

theorem tokens_outlook_fits : (outlook.comap Token.kind).Fits grammar.productions :=
  productions_grammar ▸ outlook_fits.comap Token.kind

/-- The rules of the Pascal subset have ranks. -/
theorem ranked_grammar :
    grammar.Ranked (outlook.comap Token.kind).nullable (outlook.comap Token.kind).rank :=
  tokens_outlook_fits.ranked

theorem derives_program_iff (word : List (Token Kind)) :
    Expr.Derives grammar.productions (.nonterm program) word ↔
      Expr.Derives productions (.nonterm program) (word.map Token.kind) :=
  productions_grammar ▸ Expr.derives_comap_iff (e := .nonterm program)

/-- The answer of the grammar, with the tree in place of its root. -/
theorem exists_answer (source : String) :
    ∃ answer : Except ParseError Tree, parse source = answer.mapError SyntaxError.parse ∧
      Recognises (Expr.Derives productions (.nonterm program))
        (Cursor.start table source).tokens answer := by
  have hgood : inRangeModel.good (.ok .empty) := ⟨.empty, rfl⟩
  have hverdict := grammar.parse_verdict tokens_outlook_fits rfl (Or.inl fun _ => rfl) inRangeModel
    hgood (Cursor.start table source)
  have hrecognises := hverdict.recognises derives_program_iff
    (tokens_outlook_fits.not_derives_nil rfl)
  -- The world is an arena to the end, so the answer is not a fault.
  obtain ⟨arena, harena⟩ := hverdict.good
  refine ⟨_, ?_, hrecognises.map fun root => ⟨arena, root⟩⟩
  unfold parse
  rcases hparse : grammar.parse builder (.ok .empty) (Cursor.start table source) with ⟨_ | _, world⟩
  all_goals
    rw [hparse] at harena
    cases harena
    rfl

/-- Two prefixes that are programs are the same. -/
theorem program_unique {tokens word word' : List (Token Kind)} (hpre : word <+: tokens)
    (hpre' : word' <+: tokens)
    (h : Expr.Derives productions (.nonterm program) (word.map Token.kind))
    (h' : Expr.Derives productions (.nonterm program) (word'.map Token.kind)) : word = word' :=
  tokens_outlook_fits.prefix_unique grammar.start_mem_ids rfl (fun _ => rfl) hpre hpre'
    ((derives_program_iff word).mpr h) ((derives_program_iff word').mpr h')

/-- **The Pascal parser finds the program at the start of the tokens**, and there is never more than
one.  Which of the four answers it gives depends on the kinds of the tokens alone, by the
context-free grammar, and there is no fifth answer. -/
theorem parse_finds_program (source : String) :
    let tokens := (Cursor.start table source).tokens
    let isProgram := fun word : List (Token Kind) =>
      Expr.Derives productions (.nonterm program) (word.map Token.kind)
    ((∃ tree, parse source = .ok tree) ↔ isProgram tokens) ∧
    ((∃ why, parse source = .error (.parse (.failed why))) ↔ tokens = []) ∧
    (∀ offset, parse source = .error (.parse (.tokensLeft offset)) ↔
      ∃ word next post, tokens = word ++ next :: post ∧ isProgram word ∧ offset = next.offset) ∧
    (∀ word word', word <+: tokens → word' <+: tokens → isProgram word → isProgram word' →
      word = word') ∧
    (parse source = .error (.parse .noMatch) ↔
      tokens ≠ [] ∧ ¬ isProgram tokens ∧
        ¬ ∃ word next post, tokens = word ++ next :: post ∧ isProgram word) ∧
    ∀ fault, parse source ≠ .error (.tree fault) := by
  intro tokens isProgram
  obtain ⟨answer, hanswer, hrecognises⟩ := exists_answer source
  have hunique : ∀ word word', word <+: tokens → word' <+: tokens → isProgram word →
      isProgram word' → word = word' := fun _ _ => program_unique
  have hnil : ¬ Expr.Derives productions (.nonterm program) [] := fun h =>
    tokens_outlook_fits.not_derives_nil rfl ((derives_program_iff []).mpr h)
  have hok : (∃ tree, parse source = .ok tree) ↔ ∃ tree, answer = .ok tree := by
    rw [hanswer]
    cases answer <;> simp [Except.mapError]
  have herror : ∀ why, parse source = .error (.parse why) ↔ answer = .error why := by
    intro why
    rw [hanswer]
    cases answer <;> simp [Except.mapError]
  refine ⟨hok.trans hrecognises.ok_iff, ?_, fun offset => ?_, hunique, ?_, fun fault => ?_⟩
  · simp only [herror]
    exact hrecognises.failed_iff
  · exact (herror _).trans (hrecognises.tokensLeft_iff_of_unique hnil hunique offset)
  · exact (herror _).trans hrecognises.noMatch_iff_proper
  · rw [hanswer]
    cases answer <;> simp [Except.mapError]

end GrammarKit.Pascal
