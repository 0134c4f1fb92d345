import GrammarKit.Language
import GrammarKit.Proofs.LetterCase
import GrammarKit.Proofs.Pascal.Actions
import GrammarKit.Proofs.Pascal.Custody
import GrammarKit.Proofs.Pascal.Grammar
import GrammarKit.Proofs.Translation

/-!
# Pascal in capital and small letters

Whoever writes a program in small letters writes the same program.  Its tokens are those of the first
program in small letters, they are of the same kinds and stand at the same places, and so it is read as
the first program in small letters.  A run assigns to the same variables, since they are known by their
names in small letters, and in a number there are no letters.

What is written in small letters is not the same tree: types, declared names and the word `DIV` are
kept as they were written.  No run looks at them.

* `Program.small`: the program in small letters; `reading_small` says that it is what is read.
* `Program.actions`: what a program does; `Program.Stored.run_eq` says that a run of its tree does it.
* `Program.actions_small`: it is the same in small letters.
* `parse_toLower_cases`, `run_eq_of_parse_toLower`: a text and the same text in small letters.
* `runs_ignore_case`: two texts that are the same in small letters run alike.
-/

namespace GrammarKit.Pascal

/-! ## 1.  Programs in small letters -/

theorem isName_map_toLower (chars : List Char) :
    isName (chars.map Char.toLower) = isName chars := by
  cases chars with
  | nil => rfl
  | cons c chars =>
    have hfirst : (c.toLower.isAlpha || c.toLower == '_') = (c.isAlpha || c == '_') :=
      apply_toLower (f := fun c => c.isAlpha || c == '_') (by decide) c
    have hrest : Char.isAlphanum ∘ Char.toLower = Char.isAlphanum := funext isAlphanum_toLower
    rw [List.map_cons, isName, isName, hfirst, List.all_map, hrest]

/-- The name in small letters. -/
def Name.small (name : Name) : Name where
  chars := name.chars.map Char.toLower
  isName := (isName_map_toLower name.chars).trans name.isName

/-- The word in small letters. -/
def Word.small {k : Keyword} (word : Word k) : Word k where
  chars := word.chars.map Char.toLower
  isWord := by
    rw [List.map_map, ← word.isWord]
    exact List.map_congr_left fun c _ => toLower_toLower c

/-- The type in small letters. -/
def TypeName.small : TypeName → TypeName
  | .integer word => .integer word.small
  | .real word => .real word.small

/-- The expression in small letters. -/
def Expression.small : Expression → Expression
  | .number n => .number n
  | .var name => .var name.small
  | .unary op operand => .unary op operand.small
  | .binary op left right => .binary op left.small right.small

mutual

/-- The statement in small letters. -/
def Statement.small : Statement → Statement
  | .compound statements => .compound (Statement.smallAll statements)
  | .assign name value => .assign name.small value.small
  | .empty => .empty

/-- The statements in small letters. -/
def Statement.smallAll : List Statement → List Statement
  | [] => []
  | statement :: statements => statement.small :: Statement.smallAll statements

end

theorem Statement.smallAll_eq_map (statements : List Statement) :
    smallAll statements = statements.map small := by
  induction statements with
  | nil => rfl
  | cons statement statements ih => rw [smallAll, ih, List.map_cons]

/-- The line of declarations in small letters. -/
def Declaration.small (d : Declaration) : Declaration :=
  ⟨d.first.small, d.others.map Name.small, d.type.small⟩

/-- The program in small letters. -/
def Program.small (p : Program) : Program :=
  ⟨p.name.small, p.declarations.map Declaration.small, Statement.smallAll p.body⟩

/-- The part of a program in small letters. -/
def Part.small : Part → Part
  | .expression e => .expression e.small
  | .statement s => .statement s.small
  | .statements ss => .statements (Statement.smallAll ss)
  | .type t => .type t.small
  | .declarations ds => .declarations (ds.map Declaration.small)
  | .block ds ss => .block (ds.map Declaration.small) (Statement.smallAll ss)
  | .program p => .program p.small

/-! ## 2.  Tokens in small letters -/

theorem isAlpha_eq_false_of_isDigit {c : Char} (h : Decimal.isDigit c = true) :
    c.isAlpha = false := by
  have hle : c.toNat ≤ 57 := by
    obtain ⟨-, hnine⟩ := Bool.and_eq_true_iff.mp h
    exact UInt32.le_iff_toNat_le.mp (of_decide_eq_true hnine)
  have hall : ∀ n ≤ 57, (Char.ofNat n).isAlpha = false := by decide
  have hc := hall c.toNat hle
  rwa [Char.ofNat_toNat] at hc

/-- There are no letters in a number. -/
theorem Number.isAlpha_eq_false {n : Number} : ∀ c ∈ n.chars, c.isAlpha = false := by
  have hdigits : ∀ {m : Calc.Numeral}, ∀ c ∈ m.digits, c.isAlpha = false := by
    intro m c hc
    have hnumeral := m.isNumeral
    rw [Decimal.isNumeral, Bool.and_eq_true, List.all_eq_true] at hnumeral
    exact isAlpha_eq_false_of_isDigit (hnumeral.2 c hc)
  cases n with
  | integer m => exact hdigits
  | real whole fraction =>
    rw [Number.chars, List.forall_mem_append, List.forall_mem_cons]
    exact ⟨hdigits, by decide, hdigits⟩

/-- A text without letters is written in one way only. -/
theorem text_toLower_eq_iff {text word : String}
    (h : ∀ c ∈ word.toList, c.isAlpha = false) : text.toLower = word ↔ text = word := by
  rw [toLower_eq_iff, map_toLower_eq_iff h, String.toList_inj]

variable (token : Token Kind)

theorem number?_small : number? token.small = number? token := by
  have hiff : ∀ (token : Token Kind) n,
      number? token = some n ↔ token.kind = n.tokenKind ∧ token.text = n.text :=
    fun _ _ => ⟨of_number?_eq_some, fun h => number?_eq_some h.1 h.2⟩
  refine Option.ext fun n => ?_
  have htext : token.text.toLower = n.text ↔ token.text = n.text := by
    refine text_toLower_eq_iff ?_
    rw [Number.text, String.toList_ofList]
    exact n.isAlpha_eq_false
  rw [hiff, hiff, ← htext]
  rfl

theorem name?_small : name? token.small = (name? token).map Name.small := by
  have hchars : token.small.text.toList = token.text.toList.map Char.toLower := String.toList_map
  have hname := isName_map_toLower token.text.toList
  rw [name?, name?, Name.ofChars?, Name.ofChars?]
  simp only [hchars, hname]
  split <;> rfl

theorem Word.ofChars?_map_toLower (k : Keyword) (chars : List Char) :
    ofChars? k (chars.map Char.toLower) = (ofChars? k chars).map small := by
  have htwice : Char.toLower ∘ Char.toLower = Char.toLower := funext toLower_toLower
  rw [ofChars?, ofChars?]
  simp only [List.map_map, htwice]
  split <;> rfl

theorem type?_small : type? token.small = (type? token).map TypeName.small := by
  have hchars : token.small.text.toList = token.text.toList.map Char.toLower := String.toList_map
  have hkind : token.small.kind = token.kind := rfl
  rw [type?, type?, hchars, hkind]
  split
  · rw [Word.ofChars?_map_toLower, Option.map_map, Option.map_map]
    rfl
  · rw [Word.ofChars?_map_toLower, Option.map_map, Option.map_map]
    rfl
  · rfl

theorem operator?_small (rule : RuleId) : operator? rule token.small = operator? rule token := by
  unfold operator? Token.small
  simp only [text_toLower_toLower]

/-! ## 3.  What is read in small letters -/

/-- What is read of changed values one by one is read of all of them. -/
theorem mapM_map_eq {α β γ δ : Type} {f : α → Option β} {f' : γ → Option δ} {φ : α → γ} {ψ : β → δ}
    (h : ∀ x, f' (φ x) = (f x).map ψ) (xs : List α) :
    (xs.map φ).mapM f' = (xs.mapM f).map (List.map ψ) := by
  induction xs with
  | nil => rfl
  | cons x xs ih =>
    rw [List.map_cons, List.mapM_cons, List.mapM_cons, h, ih]
    cases f x with
    | none => rfl
    | some y => cases xs.mapM f <;> rfl

theorem statement?_small (value : Option Part) :
    statement? (value.map Part.small) = (statement? value).map Statement.small := by
  rcases value with _ | part
  · rfl
  · cases part <;> rfl

theorem declarations?_small (value : Option Part) :
    declarations? (value.map Part.small) =
      (declarations? value).map (List.map Declaration.small) := by
  rcases value with _ | part
  · rfl
  · cases part with
    | statement s => cases s <;> rfl
    | _ => rfl

theorem line?_small (t : TypeName) (names : List Name) :
    line? t.small (names.map Name.small) = (line? t names).map Declaration.small := by
  cases names <;> rfl

theorem symbol_small (op : UnaryOp) : token.text.toLower = op.symbol ↔ token.text = op.symbol :=
  text_toLower_eq_iff (by cases op <;> exact List.forall_mem_singleton.mpr rfl)

theorem reading_term_small (rule : RuleId) :
    reading (.term rule token.small) = (reading (.term rule token)).map Part.small := by
  simp only [reading, type?_small, number?_small, name?_small]
  split
  · rw [Option.map_map, Option.map_map]
    rfl
  · split
    · rw [Option.map_map]
      rfl
    · split
      · rw [Option.map_map, Option.map_map]
        rfl
      · rfl

theorem reading_nonterm_small (rule : RuleId) (ss : List Statement) :
    reading (.nonterm rule (some (.statements (Statement.smallAll ss)))) =
      (reading (.nonterm rule (some (.statements ss)))).map Part.small := by
  simp only [reading]
  split <;> rfl

theorem reading_termNonterm_small (rule : RuleId) (e : Expression) :
    reading (.termNonterm rule token.small (some (.expression e.small))) =
      (reading (.termNonterm rule token (some (.expression e)))).map Part.small := by
  have hkind : token.small.kind = token.kind := rfl
  have htext : token.small.text = token.text.toLower := rfl
  simp only [reading, hkind, htext, symbol_small]
  split
  · split
    · split <;> rfl
    · rfl
  · rfl

theorem reading_program_small (rule : RuleId) (name : Name) (ds : List Declaration)
    (ss : List Statement) :
    reading (.nontermNonterm rule (some (.expression (.var name.small)))
        (some (.block (ds.map Declaration.small) (Statement.smallAll ss)))) =
      (reading (.nontermNonterm rule (some (.expression (.var name)))
        (some (.block ds ss)))).map Part.small := by
  simp only [reading]
  split <;> rfl

theorem reading_block_small (rule : RuleId) (ds : List Declaration) (ss : List Statement) :
    reading (.nontermNonterm rule (some (.declarations (ds.map Declaration.small)))
        (some (.statement (.compound (Statement.smallAll ss))))) =
      (reading (.nontermNonterm rule (some (.declarations ds))
        (some (.statement (.compound ss))))).map Part.small := by
  simp only [reading]
  split <;> rfl

theorem reading_nontermTermNonterm_small (rule : RuleId) (left right : Expression) :
    reading (.nontermTermNonterm rule (some (.expression left.small)) token.small
        (some (.expression right.small))) =
      (reading (.nontermTermNonterm rule (some (.expression left)) token
        (some (.expression right)))).map Part.small := by
  have hkind : token.small.kind = token.kind := rfl
  have htext : token.small.text = ":=" ↔ token.text = ":=" :=
    text_toLower_eq_iff (List.forall_mem_cons.mpr ⟨rfl, List.forall_mem_singleton.mpr rfl⟩)
  simp only [reading, hkind, htext, operator?_small]
  split
  · cases left with
    | var name =>
      simp only [Expression.small]
      split <;> rfl
    | _ => rfl
  · rw [Option.map_map]
    rfl

theorem reading_nontermList_small (rule : RuleId) (values : List (Option Part)) :
    reading (.nontermList rule (values.map (Option.map Part.small))) =
      (reading (.nontermList (T := Token Kind) rule values)).map Part.small := by
  simp only [reading, mapM_map_eq declarations?_small, mapM_map_eq statement?_small]
  split
  · cases values.mapM declarations? with
    | none => rfl
    | some lines => exact congrArg (some ∘ Part.declarations) List.map_flatten.symm
  · split
    · cases values.mapM statement? with
      | none => rfl
      | some ss => exact congrArg (some ∘ Part.statements) (Statement.smallAll_eq_map ss).symm
    · rfl

theorem reading_termNontermList_small (rule : RuleId) (tokens : List (Token Kind)) (t : TypeName) :
    reading (.termNontermList rule (tokens.map Token.small) [some (.type t.small)]) =
      (reading (.termNontermList rule tokens [some (.type t)])).map Part.small := by
  have hfilter : (tokens.map Token.small).filter (·.kind == .id) =
      (tokens.filter (·.kind == .id)).map Token.small := List.filter_map
  simp only [reading, hfilter, mapM_map_eq name?_small]
  split
  · cases (tokens.filter (·.kind == .id)).mapM name? with
    | none => rfl
    | some names =>
      simp only [Option.map_some, Option.bind_some, line?_small]
      rw [Option.map_map, Option.map_map]
      rfl
  · rfl

/-- **What is read in small letters** is the part of a program in small letters.  Where pieces are of
the wrong sort, nothing is read of either. -/
theorem reading_small (reduction : Reduction (Token Kind) (Option Part)) :
    reading (reduction.translate Token.small (Option.map Part.small)) =
      (reading reduction).map Part.small := by
  cases reduction with
  | null => rfl
  | empty rule =>
    simp only [Reduction.translate, reading]
    split <;> rfl
  | term rule token => exact reading_term_small token rule
  | nonterm rule value =>
    rcases value with _ | part
    · rfl
    · cases part with
      | statements ss => exact reading_nonterm_small rule ss
      | _ => rfl
  | termNonterm rule token value =>
    rcases value with _ | part
    · rfl
    · cases part with
      | expression e => exact reading_termNonterm_small token rule e
      | _ => rfl
  | nontermNonterm rule left right =>
    rcases left with _ | left
    · rfl
    cases left with
    | expression e =>
      cases e with
      | var name =>
        rcases right with _ | right
        · rfl
        cases right with
        | block ds ss => exact reading_program_small rule name ds ss
        | _ => rfl
      | _ => rfl
    | declarations ds =>
      rcases right with _ | right
      · rfl
      cases right with
      | statement s =>
        cases s with
        | compound ss => exact reading_block_small rule ds ss
        | _ => rfl
      | _ => rfl
    | _ => rfl
  | nontermTermNonterm rule left token right =>
    rcases left with _ | left
    · rfl
    cases left with
    | expression a =>
      rcases right with _ | right
      · rfl
      cases right with
      | expression b => exact reading_nontermTermNonterm_small token rule a b
      | _ => rfl
    | _ => rfl
  | nontermList rule values => exact reading_nontermList_small rule values
  | termNontermList rule tokens values =>
    rcases values with _ | ⟨_ | part, _ | ⟨other, values⟩⟩
    · rfl
    · rfl
    · rfl
    · cases part with
      | type t => exact reading_termNontermList_small rule tokens t
      | _ => rfl
    · cases part <;> rfl

/-! ## 4.  What a program does -/

/-- The formula of an expression. -/
def Expression.formula : Expression → Formula
  | .number n => .literal n.text
  | .var name => .var name.folded
  | .unary op operand => .unary op operand.formula
  | .binary op left right => .binary op.op left.formula right.formula

mutual

/-- What a statement does. -/
def Statement.actions : Statement → List Action
  | .compound statements => Statement.actionsAll statements
  | .assign name value => [.assign name.folded value.formula]
  | .empty => []

/-- What statements do, one after the other. -/
def Statement.actionsAll : List Statement → List Action
  | [] => []
  | statement :: statements => statement.actions ++ Statement.actionsAll statements

end

/-- What a program does. -/
def Program.actions (p : Program) : List Action := Statement.actionsAll p.body

variable {arena : Arena} {id : NodeId}

theorem Expression.Stored.denotes {e : Expression} (h : e.Stored arena id) :
    Denotes arena id e.formula := by
  induction e generalizing id with
  | number n => exact .literal h
  | var name => exact .var h
  | unary op operand ih =>
    obtain ⟨child, hget, hchild⟩ := h
    exact .unary hget (ih hchild)
  | binary op left right ihleft ihright =>
    obtain ⟨symbol, i, j, hget, -, hleft, hright⟩ := h
    exact .binary hget (ihleft hleft) (ihright hright)

mutual

theorem Statement.Stored.flattens : ∀ {s : Statement} {id : NodeId}, s.Stored arena id →
    Flattens arena id s.actions
  | .compound statements, _, h => by
    rw [Statement.Stored] at h
    obtain ⟨ids, hget, hall⟩ := h
    exact .compound hget (Statement.StoredAll.flattensAll hall)
  | .assign name value, _, h => by
    rw [Statement.Stored] at h
    obtain ⟨left, right, hget, hleft, hright⟩ := h
    exact .assign hget hleft hright.denotes
  | .empty, _, h => by
    rw [Statement.Stored] at h
    exact .nop h

theorem Statement.StoredAll.flattensAll : ∀ {statements : List Statement} {ids : List NodeId},
    Statement.StoredAll arena statements ids → FlattensAll arena ids (Statement.actionsAll statements)
  | [], [], _ => .nil
  | statement :: statements, id :: ids, h => by
    rw [Statement.StoredAll] at h
    exact .cons (Statement.Stored.flattens h.1) (Statement.StoredAll.flattensAll h.2)
  | [], _ :: _, h => h.elim
  | _ :: _, [], h => h.elim

end

theorem Program.Stored.flattens {p : Program} (h : p.Stored arena id) :
    Flattens arena id p.actions := by
  obtain ⟨name, block, hget, -, ids, body, hblock, -, hbody⟩ := h
  exact .program hget (.block hblock (Statement.Stored.flattens hbody))

/-- **A run of the tree of a program** performs the actions of the program. -/
theorem Program.Stored.run_eq {p : Program} {tree : Tree} (h : p.Stored tree.arena tree.root)
    (hapart : tree.arena.Apart [tree.root]) (store : Store) :
    run tree store = performAll p.actions store :=
  h.flattens.run_eq (hapart.tidy.grounded (hapart.inRange _ List.mem_cons_self)) store

/-! ### In small letters -/

theorem Name.folded_small (name : Name) : name.small.folded = name.folded := by
  have htext : name.small.text = name.text.toLower := by
    show String.ofList (name.chars.map Char.toLower) = (String.ofList name.chars).map Char.toLower
    rw [← String.toList_inj, String.toList_ofList, String.toList_map, String.toList_ofList]
  rw [Name.folded, Name.folded, htext, text_toLower_toLower]

theorem Expression.formula_small (e : Expression) : e.small.formula = e.formula := by
  induction e with
  | number n => rfl
  | var name => rw [small, formula, formula, name.folded_small]
  | unary op operand ih => rw [small, formula, formula, ih]
  | binary op left right ihleft ihright => rw [small, formula, formula, ihleft, ihright]

mutual

theorem Statement.actions_small : ∀ s : Statement, s.small.actions = s.actions
  | .compound statements => by
    rw [Statement.small, Statement.actions, Statement.actions, Statement.actionsAll_small]
  | .assign name value => by
    rw [Statement.small, Statement.actions, Statement.actions, name.folded_small,
      value.formula_small]
  | .empty => rfl

theorem Statement.actionsAll_small : ∀ statements : List Statement,
    Statement.actionsAll (Statement.smallAll statements) = Statement.actionsAll statements
  | [] => rfl
  | statement :: statements => by
    rw [Statement.smallAll, Statement.actionsAll, Statement.actionsAll,
      Statement.actions_small statement, Statement.actionsAll_small statements]

end

/-- **A program does the same in small letters.** -/
theorem Program.actions_small (p : Program) : p.small.actions = p.actions :=
  Statement.actionsAll_small p.body

/-! ## 5.  Texts -/

variable (source : String)

theorem caseBlind_table : table.caseBlind = true := by decide +kernel

theorem tokens_toLower : (Cursor.start table source.toLower).tokens =
    (Cursor.start table source).tokens.map Token.small :=
  Cursor.tokens_toLower caseBlind_table source

/-- The grammar looks at the kinds of the tokens. -/
theorem comapProductions_small :
    Expr.comapProductions Token.small grammar.productions = grammar.productions := rfl

/-- What a text in small letters is read as. -/
theorem yields_small {p : Program} {word : List (Token Kind)}
    (h : grammar.Yields reading (.nonterm program) word (.ofValue (some (.program p)))) :
    grammar.Yields reading (.nonterm program) (word.map Token.small)
      (.ofValue (some (.program p.small))) :=
  h.translate comapProductions_small reading_small rfl

/-- **The program of a text in small letters** does what the program of the text does. -/
theorem run_eq_of_parse_toLower {tree tree' : Tree} (h : parse source = .ok tree)
    (h' : parse source.toLower = .ok tree') (store : Store) : run tree' store = run tree store := by
  obtain ⟨p, hyields, hstored, hapart⟩ := exists_yields_of_parse h
  obtain ⟨p', hyields', hstored', hapart'⟩ := exists_yields_of_parse h'
  rw [tokens_toLower] at hyields'
  have hsame := tokens_outlook_fits.value_unique grammar.start_mem_ids rfl rfl hyields'
    (yields_small hyields)
  cases hsame
  rw [hstored.run_eq hapart, hstored'.run_eq hapart', p.actions_small]

/-- A text without tokens ends before there is a program. -/
theorem parse_of_tokens_eq_nil (h : (Cursor.start table source).tokens = []) :
    parse source = .error (.parse (.failed (.unexpectedEnd program))) := by
  have hend : TokenStream.atEnd (Cursor.start table source) = true := by
    rw [(Cursor.ahead_tokens (Cursor.start table source)).atEnd, h]
    rfl
  rw [parse, Grammar.parse, Grammar.matchRule, Grammar.matchFresh, if_pos hend]
  rfl

/-- **A text and the same in small letters** are both programs, or they are refused for the same
reason. -/
theorem parse_toLower_cases :
    (∃ tree tree', parse source = .ok tree ∧ parse source.toLower = .ok tree') ∨
      ∃ why, parse source = .error why ∧ parse source.toLower = .error why := by
  obtain ⟨answer, hanswer, hrecognises⟩ := exists_answer source
  obtain ⟨answer', hanswer', hrecognises'⟩ := exists_answer source.toLower
  rw [tokens_toLower] at hrecognises'
  have hsmall := hrecognises'.of_map (f := Token.small) (fun _ => rfl) (fun _ => rfl)
  rcases hrecognises.same_answer hsmall with ⟨tree, tree', rfl, rfl⟩ | hnil | ⟨why, rfl, rfl⟩
  · exact Or.inl ⟨tree, tree', hanswer, hanswer'⟩
  · have hnil' : (Cursor.start table source.toLower).tokens = [] := by
      rw [tokens_toLower, hnil]
      rfl
    exact Or.inr ⟨_, parse_of_tokens_eq_nil source hnil, parse_of_tokens_eq_nil _ hnil'⟩
  · exact Or.inr ⟨_, hanswer, hanswer'⟩

/-- A run in any store of a text in small letters. -/
theorem map_run_toLower (store : Store) :
    (Language.pascal.parse source.toLower).map (run · store) =
      (Language.pascal.parse source).map (run · store) := by
  rcases parse_toLower_cases source with ⟨tree, tree', h, h'⟩ | ⟨why, h, h'⟩
  · rw [Language.parse, Language.parse, h, h']
    exact congrArg Except.ok (run_eq_of_parse_toLower source h h' store)
  · rw [Language.parse, Language.parse, h, h']

/-- What is told of a run: the error, or the list of the variables. -/
def report : Except EvalError Unit × Store → Except ProgramError String
  | (.ok (), store) => .ok store.listing
  | (.error why, _) => .error (.eval why)

theorem run_eq_bind : Language.pascal.run source =
    ((Language.pascal.parse source).map (run · .empty)).bind report := by
  rw [Language.run]
  -- This is shown of any way to run a tree, lest the kernel set out to compute the run.
  generalize run = runner
  as_aux_lemma =>
    cases Language.pascal.parse source with
    | error why => rfl
    | ok tree =>
      simp only [Except.map, Except.bind]
      rcases runner tree .empty with ⟨why | ⟨⟩, store⟩ <;> rfl

/-- **Pascal does not tell capital letters from small ones.**  Two texts that differ in nothing else
have tokens of the same kinds at the same places.  Both are refused, and for the same reason; or both
are run, from any store to the same result and the same store, also where the run fails.  So what is
told of the two runs is the same, be it an error or the list of the variables. -/
theorem runs_ignore_case {source other : String} (h : source.toLower = other.toLower) :
    (Cursor.start table source).tokens.map (fun token => (token.kind, token.offset)) =
      (Cursor.start table other).tokens.map (fun token => (token.kind, token.offset)) ∧
    (∀ store, (Language.pascal.parse source).map (run · store) =
      (Language.pascal.parse other).map (run · store)) ∧
    Language.pascal.run source = Language.pascal.run other := by
  have htokens : ∀ source : String,
      (Cursor.start table source.toLower).tokens.map (fun token => (token.kind, token.offset)) =
        (Cursor.start table source).tokens.map (fun token => (token.kind, token.offset)) := by
    intro source
    rw [tokens_toLower, List.map_map]
    rfl
  have hruns : ∀ store, (Language.pascal.parse source).map (run · store) =
      (Language.pascal.parse other).map (run · store) := by
    intro store
    rw [← map_run_toLower source, ← map_run_toLower other, h]
  refine ⟨?_, hruns, ?_⟩
  · rw [← htokens source, ← htokens other, h]
  · rw [run_eq_bind, run_eq_bind, hruns]

/-- The words are written differently, and one of the variables is undefined. -/
theorem runs_ignore_case_undefined :
    let source := "PROGRAM Half; VAR N : INTEGER; BEGIN N := 7 DIV 2; total := n + Rest END."
    let other := "program half; var n : integer; begin n := 7 div 2; TOTAL := N + rEST end."
    source.toLower = other.toLower ∧ Language.pascal.run source = Language.pascal.run other := by
  intro source other
  have h : source.toLower = other.toLower := toLower_eq_toLower_iff.mpr (by decide +kernel)
  exact ⟨h, (runs_ignore_case h).2.2⟩

end GrammarKit.Pascal
