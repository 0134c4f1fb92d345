import GrammarKit.Proofs.Pascal.Lexing
import GrammarKit.Proofs.Sorts

/-!
# How a Pascal text is read

Each node that the parser makes on the way means a part of a program: an expression, a statement, a
list of statements, a type, some declarations, a block, or the whole.  What it means is told by the
parts of its own nodes.  It may be asked of pieces of the wrong sort, but never is: tokens are spelled
like their kinds, and each rule gets what it asks for.

* `Part`: the parts of a program.
* `reading`: the part that a node means, if its own parts mean what the rule asks for.
* `Right`: the parts that a node of a rule may mean.
* `grammar_sorted`: they always do.
-/

namespace GrammarKit.Pascal

/-! ## Parts -/

/-- A part of a program. -/
inductive Part where
  /-- An expression. -/
  | expression (e : Expression)
  /-- A statement. -/
  | statement (s : Statement)
  /-- Statements with semicolons between them. -/
  | statements (ss : List Statement)
  /-- A type. -/
  | type (t : TypeName)
  /-- Lines of declarations. -/
  | declarations (ds : List Declaration)
  /-- Lines of declarations and statements. -/
  | block (ds : List Declaration) (ss : List Statement)
  /-- The whole. -/
  | program (p : Program)

/-! ## What a node means -/

/-- The number that a token spells. -/
def number? (token : Token Kind) : Option Number :=
  match token.kind with
  | .integerConst =>
    if h : Decimal.isNumeral token.text.toList = true then some (.integer ⟨_, h⟩) else none
  | .realConst =>
    let whole := token.text.toList.takeWhile Decimal.isDigit
    let fraction := (token.text.toList.dropWhile Decimal.isDigit).drop 1
    if h : token.text.toList = whole ++ '.' :: fraction ∧ Decimal.isNumeral whole = true ∧
        Decimal.isNumeral fraction = true then
      some (.real ⟨whole, h.2.1⟩ ⟨fraction, h.2.2⟩)
    else none
  | _ => none

/-- The name that a token spells. -/
def name? (token : Token Kind) : Option Name := Name.ofChars? token.text.toList

/-- The type that a token spells. -/
def type? (token : Token Kind) : Option TypeName :=
  match token.kind with
  | .integer => (Word.ofChars? .integer token.text.toList).map .integer
  | .real => (Word.ofChars? .real token.text.toList).map .real
  | _ => none

/-- The operator that a token in a chain of this rule is read as. -/
def operator? (rule : RuleId) (token : Token Kind) : Option Operator :=
  [.add, .sub, .mul, .intDiv, .floatDiv].find? fun op =>
    binaryOp? rule token.kind == some op.op && token.text.toLower == op.op.symbol

/-- The statement of a node in a list of statements. -/
def statement? : Option Part → Option Statement
  | some (.statement s) => some s
  | _ => none

/-- The lines of a node in a list of declarations.  The list may be the empty one, for which an empty
statement stands. -/
def declarations? : Option Part → Option (List Declaration)
  | some (.declarations ds) => some ds
  | some (.statement .empty) => some []
  | _ => none

/-- The line of declarations with these names, of which there is at least one. -/
def line? (t : TypeName) : List Name → Option Declaration
  | [] => none
  | first :: others => some ⟨first, others, t⟩

/-- The part of a program that a node means, if its own parts mean what the rule asks for. -/
def reading : Reduction (Token Kind) (Option Part) → Option Part
  | .empty rule => if rule = empty then some (.statement .empty) else none
  | .term rule token =>
    if rule = typeSpec then (type? token).map .type
    else if rule = factor then (number? token).map fun n => .expression (.number n)
    else if rule = variableUse then (name? token).map fun name => .expression (.var name)
    else none
  | .nonterm rule (some (.statements ss)) =>
    if rule = compoundStatement then some (.statement (.compound ss)) else none
  | .termNonterm rule token (some (.expression e)) =>
    if rule = factor then
      match unaryOp? token.kind with
      | some op => if token.text = op.symbol then some (.expression (.unary op e)) else none
      | none => none
    else none
  | .nontermNonterm rule (some (.expression (.var name))) (some (.block ds ss)) =>
    if rule = program then some (.program ⟨name, ds, ss⟩) else none
  | .nontermNonterm rule (some (.declarations ds)) (some (.statement (.compound ss))) =>
    if rule = block then some (.block ds ss) else none
  | .nontermTermNonterm rule (some (.expression left)) token (some (.expression right)) =>
    if rule = assignmentStatement then
      match left with
      | .var name =>
        if token.kind = .assign ∧ token.text = ":=" then some (.statement (.assign name right))
        else none
      | _ => none
    else (operator? rule token).map fun op => .expression (.binary op left right)
  | .nontermList rule values =>
    if rule = declarations then
      (values.mapM declarations?).map fun lines => .declarations lines.flatten
    else if rule = statementList then (values.mapM statement?).map .statements
    else none
  | .termNontermList rule terms [some (.type t)] =>
    if rule = variableDeclaration then
      (((terms.filter (·.kind == .id)).mapM name?).bind (line? t)).map fun line =>
        .declarations [line]
    else none
  | _ => none

/-! ## What tokens spell -/

variable {token : Token Kind}

theorem number?_eq_some {n : Number} (hkind : token.kind = n.tokenKind)
    (htext : token.text = n.text) : number? token = some n := by
  have hchars : token.text.toList = n.chars := by rw [htext, Number.text, String.toList_ofList]
  cases n with
  | integer n =>
    have hkind : token.kind = .integerConst := hkind
    have hdigits : token.text.toList = n.digits := hchars
    simp only [number?, hkind, hdigits, n.isNumeral, ↓reduceDIte]
  | real whole fraction =>
    have hkind : token.kind = .realConst := hkind
    have hall : ∀ c ∈ whole.digits, Decimal.isDigit c = true := by
      have hnumeral := whole.isNumeral
      rw [Decimal.isNumeral, Bool.and_eq_true, List.all_eq_true] at hnumeral
      exact hnumeral.2
    have hsplit : token.text.toList = whole.digits ++ '.' :: fraction.digits := hchars
    have htake : (whole.digits ++ '.' :: fraction.digits).takeWhile Decimal.isDigit =
        whole.digits := by
      rw [List.takeWhile_append_of_pos hall, List.takeWhile_cons_of_neg (by decide),
        List.append_nil]
    have hdrop : ((whole.digits ++ '.' :: fraction.digits).dropWhile Decimal.isDigit).drop 1 =
        fraction.digits := by
      rw [List.dropWhile_append_of_pos hall, List.dropWhile_cons_of_neg (by decide)]
      rfl
    simp only [number?, hkind, hsplit, htake, hdrop, whole.isNumeral, fraction.isNumeral,
      and_self, ↓reduceDIte]

theorem of_number?_eq_some {n : Number} (h : number? token = some n) :
    token.kind = n.tokenKind ∧ token.text = n.text := by
  rw [number?] at h
  split at h
  · next hkind =>
    split at h
    · cases h
      exact ⟨hkind, String.ofList_toList.symm⟩
    · cases h
  · next hkind =>
    dsimp only at h
    split at h
    · next hchars =>
      cases h
      refine ⟨hkind, ?_⟩
      rw [Number.text, Number.chars, ← hchars.1, String.ofList_toList]
    · cases h
  · cases h

theorem name?_eq_some {name : Name} (htext : token.text = name.text) :
    name? token = some name := by
  have hchars : token.text.toList = name.chars := by rw [htext, Name.text, String.toList_ofList]
  simp only [name?, Name.ofChars?, hchars, name.isName, ↓reduceDIte]

/-- The token of a type. -/
def TypeName.kind : TypeName → Kind
  | .integer _ => .integer
  | .real _ => .real

theorem type?_eq_some {t : TypeName} (hkind : token.kind = t.kind) (htext : token.text = t.text) :
    type? token = some t := by
  cases t with
  | integer word =>
    have hkind : token.kind = .integer := hkind
    have hchars : token.text.toList = word.chars := by
      rw [htext, TypeName.text, String.toList_ofList]
    simp only [type?, hkind, Word.ofChars?, hchars, word.isWord, ↓reduceDIte, Option.map_some]
  | real word =>
    have hkind : token.kind = .real := hkind
    have hchars : token.text.toList = word.chars := by
      rw [htext, TypeName.text, String.toList_ofList]
    simp only [type?, hkind, Word.ofChars?, hchars, word.isWord, ↓reduceDIte, Option.map_some]

theorem exists_number (h : WellSpelled token)
    (hkind : token.kind = .integerConst ∨ token.kind = .realConst) :
    ∃ n, number? token = some n := by
  rcases hkind with hkind | hkind
  · exact ⟨.integer ⟨_, h.integer hkind⟩, number?_eq_some hkind String.ofList_toList.symm⟩
  · obtain ⟨whole, fraction, hchars, hwhole, hfraction⟩ := h.real hkind
    refine ⟨.real ⟨whole, hwhole⟩ ⟨fraction, hfraction⟩, number?_eq_some hkind ?_⟩
    rw [Number.text, Number.chars, ← hchars, String.ofList_toList]

theorem exists_name (h : WellSpelled token) (hkind : token.kind = .id) :
    ∃ name, name? token = some name :=
  ⟨⟨_, h.name hkind⟩, name?_eq_some String.ofList_toList.symm⟩

theorem exists_type (h : WellSpelled token) (hkind : token.kind = .integer ∨ token.kind = .real) :
    ∃ t, type? token = some t := by
  rcases hkind with hkind | hkind
  · exact ⟨.integer ⟨_, h.word .integer hkind⟩, type?_eq_some hkind String.ofList_toList.symm⟩
  · exact ⟨.real ⟨_, h.word .real hkind⟩, type?_eq_some hkind String.ofList_toList.symm⟩

/-- The token of an operator. -/
def Operator.kind : Operator → Kind
  | .add => .plus
  | .sub => .minus
  | .mul => .multiply
  | .intDiv => .integerDiv
  | .floatDiv => .floatDiv

/-- The rule whose chains the operator links. -/
def Operator.rule : Operator → RuleId
  | .add | .sub => expr
  | .mul | .intDiv | .floatDiv => term

theorem operator?_eq_some {op : Operator} (hkind : token.kind = op.kind)
    (htext : token.text.toLower = op.op.symbol) : operator? op.rule token = some op := by
  rw [operator?, hkind, htext]
  cases op <;> rfl

/-- An operator is read from a token that is written as it is, but for capital letters. -/
theorem of_operator?_eq_some {rule : RuleId} {op : Operator} (h : operator? rule token = some op) :
    binaryOp? rule token.kind = some op.op ∧ token.text.toLower = op.op.symbol := by
  have hboth := List.find?_some h
  rw [Bool.and_eq_true] at hboth
  exact ⟨beq_iff_eq.mp hboth.1, beq_iff_eq.mp hboth.2⟩

/-- An operator is written as it is, but for capital letters. -/
theorem toLower_eq_symbol (h : WellSpelled token) {op : Operator} (hkind : token.kind = op.kind) :
    token.text.toLower = op.op.symbol := by
  rw [toLower_eq_iff]
  have hsign : ∀ s : Sign, token.kind = s.kind → token.text.toList = s.chars := fun s hs => by
    rw [h.sign s hs, String.toList_ofList]
  cases op with
  | add => rw [hsign .plus hkind]; rfl
  | sub => rw [hsign .minus hkind]; rfl
  | mul => rw [hsign .times hkind]; rfl
  | intDiv => exact h.word .div hkind
  | floatDiv => rw [hsign .slash hkind]; rfl

/-! ## Pieces -/

/-- The parts that a node of a rule may mean. -/
def Right (rule : RuleId) (value : Option Part) : Prop :=
  if rule = program then ∃ p, value = some (.program p)
  else if rule = block then ∃ ds ss, value = some (.block ds ss)
  else if rule = declarations ∨ rule = variableDeclaration then ∃ ds, value = some (.declarations ds)
  else if rule = typeSpec then ∃ t, value = some (.type t)
  else if rule = compoundStatement then ∃ ss, value = some (.statement (.compound ss))
  else if rule = statementList then ∃ ss, value = some (.statements ss)
  else if rule = empty then value = some (.statement .empty)
  else if rule = statement ∨ rule = assignmentStatement then ∃ s, value = some (.statement s)
  else if rule = variableUse then ∃ name, value = some (.expression (.var name))
  else ∃ e, value = some (.expression e)

theorem Right.exists_part {rule : RuleId} {value : Option Part} (h : Right rule value) :
    ∃ part, value = some part := by
  unfold Right at h
  split_ifs at h
  · exact ⟨_, h.choose_spec⟩
  · exact ⟨_, h.choose_spec.choose_spec⟩
  · exact ⟨_, h.choose_spec⟩
  · exact ⟨_, h.choose_spec⟩
  · exact ⟨_, h.choose_spec⟩
  · exact ⟨_, h.choose_spec⟩
  · exact ⟨_, h⟩
  all_goals exact ⟨_, h.choose_spec⟩

/-- The pieces of an alternative mean a part that is right for the rule. -/
def Sensible (rule : RuleId) (alternative : Alternative (Token Kind)) : Prop :=
  ∀ pieces, alternative.expr.Fills WellSpelled Right pieces →
    Right rule (alternative.shape.made reading rule pieces).1 ∧
      ∀ reduction ∈ (alternative.shape.made reading rule pieces).2,
        ∃ part, reading reduction = some part

/-- One node is asked for, and it is the node of the rule. -/
theorem Right.alone {rule : RuleId} {reduction : Reduction (Token Kind) (Option Part)}
    (h : Right rule (reading reduction)) :
    Right rule (reading reduction) ∧
      ∀ reduction' ∈ [reduction], ∃ part, reading reduction' = some part :=
  ⟨h, List.forall_mem_singleton.mpr h.exists_part⟩

theorem fills_kind_iff {k : Kind} {pieces : Pieces (Token Kind) (Option Part)} :
    (kind k).Fills WellSpelled Right pieces ↔
      ∃ token, token.kind = k ∧ WellSpelled token ∧ pieces = .ofTerm token := by
  rw [kind, Expr.fills_term_iff]
  simp only [beq_iff_eq]

/-! ### Programs -/

theorem sensible_program : Sensible program ⟨.nontermNonterm,
    .seq [kind .program, .nonterm variableUse, kind .semi, .nonterm block, kind .dot]⟩ := by
  intro pieces hfills
  simp only [Expr.fills_seq_cons_iff, fills_kind_iff, Expr.fills_nonterm_iff,
    Expr.fills_seq_nil_iff] at hfills
  obtain ⟨-, -, ⟨-, -, -, rfl⟩, ⟨-, -, ⟨-, ⟨name, rfl⟩, rfl⟩, ⟨-, -, ⟨-, -, -, rfl⟩,
    ⟨-, -, ⟨-, ⟨ds, ss, rfl⟩, rfl⟩, ⟨-, -, ⟨-, -, -, rfl⟩, rfl, rfl⟩, rfl⟩, rfl⟩, rfl⟩, rfl⟩ := hfills
  have hvalue : Right program (reading (.nontermNonterm program (some (.expression (.var name)))
      (some (.block ds ss)))) := ⟨⟨name, ds, ss⟩, rfl⟩
  exact hvalue.alone

theorem sensible_block : Sensible block ⟨.nontermNonterm,
    .seq [.nonterm declarations, .nonterm compoundStatement]⟩ := by
  intro pieces hfills
  simp only [Expr.fills_seq_cons_iff, Expr.fills_nonterm_iff, Expr.fills_seq_nil_iff] at hfills
  obtain ⟨-, -, ⟨-, ⟨ds, rfl⟩, rfl⟩, ⟨-, -, ⟨-, ⟨ss, rfl⟩, rfl⟩, rfl, rfl⟩, rfl⟩ := hfills
  have hvalue : Right block (reading (.nontermNonterm block (some (.declarations ds))
      (some (.statement (.compound ss))))) := ⟨ds, ss, rfl⟩
  exact hvalue.alone

/-! ### Declarations -/

/-- Each round of a repetition has a value for each of its nonterminals. -/
theorem mapM_eq_some_iff {α β : Type} {f : α → Option β} {xs : List α} {ys : List β} :
    xs.mapM f = some ys ↔ List.Forall₂ (fun x y => f x = some y) xs ys := by
  induction xs generalizing ys with
  | nil =>
    rw [List.mapM_nil, List.forall₂_nil_left_iff]
    exact ⟨fun h => (Option.some.inj h).symm, fun h => congrArg some h.symm⟩
  | cons x xs ih =>
    rw [List.mapM_cons, Option.bind_eq_bind, Option.bind_eq_some_iff, List.forall₂_cons_left_iff]
    constructor
    · rintro ⟨y, hy, h⟩
      obtain ⟨rest, hrest, heq⟩ := Option.bind_eq_some_iff.mp h
      cases heq
      exact ⟨y, rest, hy, ih.mp hrest, rfl⟩
    · rintro ⟨y, rest, hy, hrest, rfl⟩
      exact ⟨y, hy, Option.bind_eq_some_iff.mpr ⟨rest, ih.mpr hrest, rfl⟩⟩

/-- Values that can be read one by one can be read together. -/
theorem exists_mapM {α β : Type} {f : α → Option β} {xs : List α}
    (h : ∀ x ∈ xs, ∃ y, f x = some y) : ∃ ys, xs.mapM f = some ys := by
  induction xs with
  | nil => exact ⟨[], rfl⟩
  | cons x xs ih =>
    obtain ⟨⟨y, hy⟩, hxs⟩ := List.forall_mem_cons.mp h
    obtain ⟨ys, hys⟩ := ih hxs
    exact ⟨y :: ys, mapM_eq_some_iff.mpr (.cons hy (mapM_eq_some_iff.mp hys))⟩

theorem sensible_declarations : Sensible declarations ⟨.nontermList,
    .choice
      [ .seq [kind .var, .oneOrMore (.seq [.nonterm variableDeclaration, kind .semi])],
        .nonterm empty ]⟩ := by
  intro pieces hfills
  have hlines : ∃ ds, pieces.values.mapM declarations? = some ds := by
    obtain ⟨item, hmem, hfills⟩ := Expr.fills_choice_iff.mp hfills
    rcases List.mem_pair.mp hmem with rfl | rfl
    · simp only [Expr.fills_seq_cons_iff, fills_kind_iff, Expr.fills_seq_nil_iff] at hfills
      obtain ⟨-, -, ⟨-, -, -, rfl⟩, ⟨lines, -, hlines, rfl, rfl⟩, rfl⟩ := hfills
      obtain ⟨rounds, -, hrounds, -, hvalues⟩ := hlines.exists_rounds
      refine exists_mapM fun value hvalue => ?_
      rw [Pieces.append_nil] at hvalue
      have hvalue : value ∈ lines.values := hvalue
      rw [hvalues] at hvalue
      obtain ⟨round, hround, hin⟩ := List.mem_flatMap.mp hvalue
      have hline := hrounds round hround
      simp only [Expr.fills_seq_cons_iff, fills_kind_iff, Expr.fills_nonterm_iff,
        Expr.fills_seq_nil_iff] at hline
      obtain ⟨_, _, ⟨_, ⟨ds, rfl⟩, rfl⟩, ⟨_, _, ⟨_, -, -, rfl⟩, rfl, rfl⟩, rfl⟩ := hline
      have heq : value = some (.declarations ds) := List.mem_singleton.mp hin
      exact ⟨ds, by rw [heq, declarations?]⟩
    · obtain ⟨-, rfl, rfl⟩ := Expr.fills_nonterm_iff.mp hfills
      exact ⟨[[]], rfl⟩
  obtain ⟨ds, hds⟩ := hlines
  have hvalue : Right declarations (reading (.nontermList declarations pieces.values)) := by
    rw [reading, if_pos rfl, hds]
    exact ⟨ds.flatten, rfl⟩
  rw [Shape.made_nontermList]
  exact hvalue.alone

theorem sensible_variableDeclaration : Sensible variableDeclaration ⟨.termNontermList,
    .seq
      [ kind .id, .zeroOrMore (.seq [kind .comma, kind .id]), kind .colon, .nonterm typeSpec ]⟩ := by
  intro pieces hfills
  have hspelled := hfills.valid_of_mem_terms
  simp only [Expr.fills_seq_cons_iff, fills_kind_iff, Expr.fills_nonterm_iff,
    Expr.fills_seq_nil_iff] at hfills
  obtain ⟨-, -, ⟨first, hfirst, -, rfl⟩, ⟨others, -, hothers, ⟨-, -, ⟨colon, hcolon, -, rfl⟩,
    ⟨-, -, ⟨-, ⟨t, rfl⟩, rfl⟩, rfl, rfl⟩, rfl⟩, rfl⟩, rfl⟩ := hfills
  generalize hpieces : Pieces.ofTerm first ++ _ = pieces at hspelled ⊢
  have hvalues : pieces.values = [some (.type t)] := by
    obtain ⟨rounds, -, hrounds, -, hvalues⟩ := hothers.exists_rounds
    have hnone : others.values = [] := by
      rw [hvalues, List.flatMap_eq_nil_iff]
      intro round hround
      have hname := hrounds round hround
      simp only [Expr.fills_seq_cons_iff, fills_kind_iff, Expr.fills_seq_nil_iff] at hname
      obtain ⟨-, -, ⟨-, -, -, rfl⟩, ⟨-, -, ⟨-, -, -, rfl⟩, rfl, rfl⟩, rfl⟩ := hname
      rfl
    rw [← hpieces]
    show others.values ++ _ = _
    rw [hnone]
    rfl
  have hmem : first ∈ pieces.terms.filter (·.kind == .id) :=
    List.mem_filter.mpr ⟨hpieces ▸ List.mem_cons_self, beq_iff_eq.mpr hfirst⟩
  obtain ⟨names, hnames⟩ : ∃ names, (pieces.terms.filter (·.kind == .id)).mapM name? = some names :=
    exists_mapM fun token htoken => exists_name (hspelled token (List.mem_filter.mp htoken).1)
      (beq_iff_eq.mp (List.mem_filter.mp htoken).2)
  have hvalue : Right variableDeclaration
      (reading (.termNontermList variableDeclaration pieces.terms [some (.type t)])) := by
    rw [reading, if_pos rfl, hnames]
    cases names with
    | nil =>
      rw [List.forall₂_nil_right_iff.mp (mapM_eq_some_iff.mp hnames)] at hmem
      exact absurd hmem List.not_mem_nil
    | cons name names => exact ⟨[⟨name, names, t⟩], rfl⟩
  rw [Shape.made_termNontermList, hvalues]
  exact hvalue.alone

theorem sensible_typeSpec : Sensible typeSpec ⟨.term, .choice [kind .integer, kind .real]⟩ := by
  intro pieces hfills
  obtain ⟨token, hkind, hspelled, rfl⟩ : ∃ token : Token Kind,
      (token.kind = .integer ∨ token.kind = .real) ∧ WellSpelled token ∧
        pieces = .ofTerm token := by
    obtain ⟨item, hmem, hfills⟩ := Expr.fills_choice_iff.mp hfills
    rcases List.mem_pair.mp hmem with rfl | rfl
    · obtain ⟨token, hkind, hspelled, rfl⟩ := fills_kind_iff.mp hfills
      exact ⟨token, .inl hkind, hspelled, rfl⟩
    · obtain ⟨token, hkind, hspelled, rfl⟩ := fills_kind_iff.mp hfills
      exact ⟨token, .inr hkind, hspelled, rfl⟩
  have hvalue : Right typeSpec (reading (.term typeSpec token)) := by
    obtain ⟨t, ht⟩ := exists_type hspelled hkind
    rw [reading, if_pos rfl, ht]
    exact ⟨t, rfl⟩
  exact hvalue.alone

/-! ### Statements -/

theorem sensible_compoundStatement : Sensible compoundStatement ⟨.nonterm,
    .seq [kind .begin, .nonterm statementList, kind .end]⟩ := by
  intro pieces hfills
  simp only [Expr.fills_seq_cons_iff, fills_kind_iff, Expr.fills_nonterm_iff,
    Expr.fills_seq_nil_iff] at hfills
  obtain ⟨-, -, ⟨-, -, -, rfl⟩, ⟨-, -, ⟨-, ⟨ss, rfl⟩, rfl⟩, ⟨-, -, ⟨-, -, -, rfl⟩, rfl, rfl⟩,
    rfl⟩, rfl⟩ := hfills
  have hvalue : Right compoundStatement
      (reading (.nonterm compoundStatement (some (.statements ss)))) := ⟨ss, rfl⟩
  exact hvalue.alone

theorem sensible_statementList : Sensible statementList ⟨.nontermList,
    .seq [.nonterm statement, .zeroOrMore (.seq [kind .semi, .nonterm statement])]⟩ := by
  intro pieces hfills
  have hstatements : ∃ ss, pieces.values.mapM statement? = some ss := by
    simp only [Expr.fills_seq_cons_iff, Expr.fills_nonterm_iff, Expr.fills_seq_nil_iff] at hfills
    obtain ⟨-, -, ⟨-, ⟨first, rfl⟩, rfl⟩, ⟨others, -, hothers, rfl, rfl⟩, rfl⟩ := hfills
    obtain ⟨rounds, -, hrounds, -, hvalues⟩ := hothers.exists_rounds
    rw [Pieces.append_nil]
    refine exists_mapM (List.forall_mem_cons.mpr ⟨⟨first, rfl⟩, fun value hvalue => ?_⟩)
    have hvalue : value ∈ others.values := hvalue
    rw [hvalues] at hvalue
    obtain ⟨round, hround, hin⟩ := List.mem_flatMap.mp hvalue
    have hstatement := hrounds round hround
    simp only [Expr.fills_seq_cons_iff, fills_kind_iff, Expr.fills_nonterm_iff,
      Expr.fills_seq_nil_iff] at hstatement
    obtain ⟨_, _, ⟨_, -, -, rfl⟩, ⟨_, _, ⟨_, ⟨s, rfl⟩, rfl⟩, rfl, rfl⟩, rfl⟩ := hstatement
    have heq : value = some (.statement s) := List.mem_singleton.mp hin
    exact ⟨s, by rw [heq, statement?]⟩
  obtain ⟨ss, hss⟩ := hstatements
  have hvalue : Right statementList (reading (.nontermList statementList pieces.values)) := by
    rw [reading, if_neg (by decide), if_pos rfl, hss]
    exact ⟨ss, rfl⟩
  rw [Shape.made_nontermList]
  exact hvalue.alone

/-- A rule that hands on the value of another one does well if this is right for both. -/
theorem sensible_bypass {rule inner : RuleId} (h : ∀ value, Right inner value → Right rule value) :
    Sensible rule ⟨.bypass, .nonterm inner⟩ := by
  intro pieces hfills
  obtain ⟨value, hvalue, rfl⟩ := Expr.fills_nonterm_iff.mp hfills
  exact ⟨h value hvalue, fun _ hmem => absurd hmem List.not_mem_nil⟩

theorem sensible_assignmentStatement : Sensible assignmentStatement ⟨.nontermTermNonterm,
    .seq [.nonterm variableUse, kind .assign, .nonterm expr]⟩ := by
  intro pieces hfills
  simp only [Expr.fills_seq_cons_iff, fills_kind_iff, Expr.fills_nonterm_iff,
    Expr.fills_seq_nil_iff] at hfills
  obtain ⟨-, -, ⟨-, ⟨name, rfl⟩, rfl⟩, ⟨-, -, ⟨token, hkind, hspelled, rfl⟩,
    ⟨-, -, ⟨-, ⟨e, rfl⟩, rfl⟩, rfl, rfl⟩, rfl⟩, rfl⟩ := hfills
  have hvalue : Right assignmentStatement (reading (.nontermTermNonterm assignmentStatement
      (some (.expression (.var name))) token (some (.expression e)))) := by
    rw [reading, if_pos rfl]
    exact ⟨.assign name e, if_pos ⟨hkind, hspelled.sign .assign hkind⟩⟩
  exact hvalue.alone

theorem sensible_empty : Sensible empty ⟨.empty, .empty⟩ := by
  intro pieces hfills
  have hvalue : Right empty (reading (.empty empty)) := rfl
  exact hvalue.alone

/-! ### Expressions -/

/-- A value that is an expression. -/
def IsExpression (value : Option Part) : Prop := ∃ e, value = some (.expression e)

/-- Operators of the rule have operands on both sides. -/
theorem sensible_chain {rule operand : RuleId} {operators : List (Expr (Token Kind))}
    (hoperators : ∀ operator ∈ operators, ∃ op : Operator, op.rule = rule ∧
      operator = kind op.kind) (hrule : rule ≠ assignmentStatement)
    (hoperand : ∀ value, Right operand value → IsExpression value)
    (hright : ∀ value, IsExpression value → Right rule value) :
    Sensible rule ⟨.chain, .chain operators operand⟩ := by
  intro pieces hfills
  have hop : ∀ operator ∈ operators, ∀ pieces, operator.Fills WellSpelled Right pieces →
      ∃ token, (∃ op, operator? rule token = some op) ∧ pieces = .ofTerm token := by
    intro operator hmem pieces h
    obtain ⟨op, hrule, rfl⟩ := hoperators operator hmem
    obtain ⟨token, hkind, hspelled, rfl⟩ := fills_kind_iff.mp h
    exact ⟨token, ⟨op, hrule ▸ operator?_eq_some hkind (toLower_eq_symbol hspelled hkind)⟩, rfl⟩
  obtain ⟨first, operands, hvalues, hfirst, hoperands, hterms⟩ := hfills.exists_operands hop
  have hmade : IsExpression (Shape.made reading .chain rule pieces).1 ∧
      ∀ reduction ∈ (Shape.made reading .chain rule pieces).2,
        IsExpression (reading reduction) := by
    refine Shape.made_chain hvalues (hoperand first hfirst)
      (fun value hvalue => hoperand value (hoperands value hvalue)) hterms
      fun left token right hleft htoken hright => ?_
    obtain ⟨a, rfl⟩ := hleft
    obtain ⟨op, hop⟩ := htoken
    obtain ⟨b, rfl⟩ := hright
    refine ⟨.binary op a b, ?_⟩
    simp only [reading, if_neg hrule, hop, Option.map_some]
  refine ⟨hright _ hmade.1, fun reduction hmem => ?_⟩
  obtain ⟨e, he⟩ := hmade.2 reduction hmem
  exact ⟨_, he⟩

theorem sensible_expr : Sensible expr ⟨.chain, .chain [kind .plus, kind .minus] term⟩ :=
  sensible_chain (List.forall_mem_cons.mpr ⟨⟨.add, rfl, rfl⟩,
    List.forall_mem_singleton.mpr ⟨.sub, rfl, rfl⟩⟩) (by decide) (fun _ h => h) fun _ h => h

theorem sensible_term : Sensible term
    ⟨.chain, .chain [kind .multiply, kind .integerDiv, kind .floatDiv] factor⟩ :=
  sensible_chain (List.forall_mem_cons.mpr ⟨⟨.mul, rfl, rfl⟩,
    List.forall_mem_cons.mpr ⟨⟨.intDiv, rfl, rfl⟩,
      List.forall_mem_singleton.mpr ⟨.floatDiv, rfl, rfl⟩⟩⟩) (by decide) (fun _ h => h)
    fun _ h => h

/-- How the sign in front of an operand is written. -/
def signOf : UnaryOp → Sign
  | .plus => .plus
  | .minus => .minus

theorem sensible_sign (op : UnaryOp) :
    Sensible factor ⟨.termNonterm, .seq [kind (signOf op).kind, .nonterm factor]⟩ := by
  intro pieces hfills
  simp only [Expr.fills_seq_cons_iff, fills_kind_iff, Expr.fills_nonterm_iff,
    Expr.fills_seq_nil_iff] at hfills
  obtain ⟨-, -, ⟨token, hkind, hspelled, rfl⟩, ⟨-, -, ⟨-, ⟨e, rfl⟩, rfl⟩, rfl, rfl⟩, rfl⟩ := hfills
  have hvalue : Right factor (reading (.termNonterm factor token (some (.expression e)))) := by
    refine ⟨.unary op e, ?_⟩
    rw [reading, if_pos rfl, hkind, hspelled.sign _ hkind]
    cases op <;> rfl
  exact hvalue.alone

theorem sensible_number {k : Kind} (hk : k = .integerConst ∨ k = .realConst) :
    Sensible factor ⟨.term, kind k⟩ := by
  intro pieces hfills
  obtain ⟨token, rfl, hspelled, rfl⟩ := fills_kind_iff.mp hfills
  have hvalue : Right factor (reading (.term factor token)) := by
    obtain ⟨n, hn⟩ := exists_number hspelled hk
    rw [reading, if_neg (by decide), if_pos rfl, hn]
    exact ⟨.number n, rfl⟩
  exact hvalue.alone

theorem sensible_parens : Sensible factor
    ⟨.bypass, .seq [kind .lParens, .nonterm expr, kind .rParens]⟩ := by
  intro pieces hfills
  simp only [Expr.fills_seq_cons_iff, fills_kind_iff, Expr.fills_nonterm_iff,
    Expr.fills_seq_nil_iff] at hfills
  obtain ⟨-, -, ⟨-, -, -, rfl⟩, ⟨-, -, ⟨value, hvalue, rfl⟩, ⟨-, -, ⟨-, -, -, rfl⟩, rfl, rfl⟩,
    rfl⟩, rfl⟩ := hfills
  exact ⟨hvalue, fun _ h => absurd h List.not_mem_nil⟩

theorem sensible_variableUse : Sensible variableUse ⟨.term, kind .id⟩ := by
  intro pieces hfills
  obtain ⟨token, hkind, hspelled, rfl⟩ := fills_kind_iff.mp hfills
  have hvalue : Right variableUse (reading (.term variableUse token)) := by
    obtain ⟨name, hname⟩ := exists_name hspelled hkind
    rw [reading, if_neg (by decide), if_neg (by decide), if_pos rfl, hname]
    exact ⟨name, rfl⟩
  exact hvalue.alone

/-- **Each rule is given pieces that mean a part of a program**, and of the right sort. -/
theorem grammar_sorted :
    grammar.Sorted reading WellSpelled Right fun value => ∃ part, value = some part := by
  have hall : ∀ rule ∈ grammar.rules.toList, ∀ alternative ∈ rule.alternatives,
      Sensible rule.id alternative := by
    simp only [grammar, List.forall_mem_cons, List.not_mem_nil, false_implies, implies_true, and_true]
    exact ⟨sensible_program, sensible_block, sensible_declarations, sensible_variableDeclaration,
      sensible_typeSpec, sensible_compoundStatement, sensible_statementList,
      ⟨sensible_bypass fun _ ⟨ss, h⟩ => ⟨.compound ss, h⟩, sensible_bypass fun _ h => h,
        sensible_bypass fun _ h => ⟨.empty, h⟩⟩,
      sensible_assignmentStatement, sensible_empty, sensible_expr, sensible_term,
      ⟨sensible_sign .plus, sensible_sign .minus, sensible_number (.inl rfl),
        sensible_number (.inr rfl), sensible_parens,
        sensible_bypass fun _ ⟨name, h⟩ => ⟨.var name, h⟩⟩,
      sensible_variableUse⟩
  exact hall

end GrammarKit.Pascal
