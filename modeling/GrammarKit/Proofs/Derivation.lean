import GrammarKit.Proofs.Validation

/-!
# The context-free reading of a grammar

A parser reads the expressions of a grammar as instructions: the items of a choice are tried in
order, and a repetition takes what it can.  Read as a context-free grammar, the same expressions say
which words they stand for: a choice stands for the words of any of its items, a repetition for any
number of words of its body.

* `Expr.Derives`: the words of an expression, for a list of productions.
* `Grammar.Yields`: the same for the rules of a grammar, with what is recorded on the way.  The
  nodes are values of any type, made by an algebra, that is a builder without a world.
* `Grammar.Yields.derives` and `Grammar.exists_yields`: both have the same words.
* `Grammar.Chained`: operands with operators between them, grouped to the left.
* `Expr.derives_comap_iff`: expressions that look at tokens through a map.
-/

namespace GrammarKit

variable {T S X : Type}

/-- The rules of a context-free grammar, each with the ways to expand it. -/
abbrev Productions (T : Type) := List (RuleId × List (Expr T))

namespace Expr

/-- The words that an expression stands for, given the ways to expand the rules. -/
inductive Derives (productions : Productions T) : Expr T → List T → Prop where
  | empty : Derives productions .empty []
  | term {accepts : T → Bool} {token : T} (h : accepts token = true) :
      Derives productions (.term accepts) [token]
  | nonterm {rule : RuleId} {bodies : List (Expr T)} {e : Expr T} {word : List T}
      (hrule : (rule, bodies) ∈ productions) (hmem : e ∈ bodies)
      (h : Derives productions e word) : Derives productions (.nonterm rule) word
  | seqNil : Derives productions (.seq []) []
  | seqCons {item : Expr T} {items : List (Expr T)} {front back : List T}
      (hitem : Derives productions item front) (hitems : Derives productions (.seq items) back) :
      Derives productions (.seq (item :: items)) (front ++ back)
  | choice {item : Expr T} {items : List (Expr T)} {word : List T} (hmem : item ∈ items)
      (h : Derives productions item word) : Derives productions (.choice items) word
  | repStop {body : Expr T} : Derives productions (.rep 0 body) []
  | repMore {least : Nat} {body : Expr T} {front back : List T}
      (hbody : Derives productions body front)
      (hrest : Derives productions (.rep (least - 1) body) back) :
      Derives productions (.rep least body) (front ++ back)
  | optNone {body : Expr T} : Derives productions (.opt body) []
  | optSome {body : Expr T} {word : List T} (h : Derives productions body word) :
      Derives productions (.opt body) word

section Words

variable {productions : Productions T} {word : List T}

theorem derives_term_iff {accepts : T → Bool} :
    Derives productions (.term accepts) word ↔
      ∃ token, accepts token = true ∧ word = [token] := by
  constructor
  · intro h
    cases h with
    | term h => exact ⟨_, h, rfl⟩
  · rintro ⟨token, h, rfl⟩
    exact .term h

theorem derives_seq_nil_iff : Derives productions (.seq []) word ↔ word = [] :=
  ⟨fun h => by cases h; rfl, fun h => h ▸ .seqNil⟩

theorem derives_seq_cons_iff {item : Expr T} {items : List (Expr T)} :
    Derives productions (.seq (item :: items)) word ↔
      ∃ front back, Derives productions item front ∧ Derives productions (.seq items) back ∧
        word = front ++ back := by
  constructor
  · intro h
    cases h with
    | seqCons hitem hitems => exact ⟨_, _, hitem, hitems, rfl⟩
  · rintro ⟨front, back, hitem, hitems, rfl⟩
    exact .seqCons hitem hitems

theorem derives_choice_iff {items : List (Expr T)} :
    Derives productions (.choice items) word ↔ ∃ item ∈ items, Derives productions item word := by
  constructor
  · intro h
    cases h with
    | choice hmem h => exact ⟨_, hmem, h⟩
  · rintro ⟨item, hmem, h⟩
    exact .choice hmem h

/-- A repetition without a least number of rounds stops, or there is another round. -/
theorem derives_zeroOrMore_iff {body : Expr T} :
    Derives productions (.zeroOrMore body) word ↔
      word = [] ∨ ∃ front back, Derives productions body front ∧
        Derives productions (.zeroOrMore body) back ∧ word = front ++ back := by
  constructor
  · intro h
    cases h with
    | repStop => exact Or.inl rfl
    | repMore hbody hrest => exact Or.inr ⟨_, _, hbody, hrest, rfl⟩
  · rintro (rfl | ⟨front, back, hbody, hrest, rfl⟩)
    · exact .repStop
    · exact .repMore hbody hrest

end Words

end Expr

/-! ## Recorded pieces -/

/-- What is recorded while a word is matched: tokens and the values of nonterminals. -/
structure Pieces (T X : Type) where
  /-- The tokens taken by the terms. -/
  terms : List T
  /-- The values of the nonterminals. -/
  values : List X

namespace Pieces

/-- Nothing recorded. -/
def nil : Pieces T X := ⟨[], []⟩

/-- One token. -/
def ofTerm (token : T) : Pieces T X := ⟨[token], []⟩

/-- The value of one nonterminal. -/
def ofValue (value : X) : Pieces T X := ⟨[], [value]⟩

/-- One recording after another. -/
instance : Append (Pieces T X) := ⟨fun p q => ⟨p.terms ++ q.terms, p.values ++ q.values⟩⟩

@[simp] theorem terms_append (p q : Pieces T X) : (p ++ q).terms = p.terms ++ q.terms := rfl

@[simp] theorem values_append (p q : Pieces T X) : (p ++ q).values = p.values ++ q.values := rfl

@[simp] theorem append_nil (p : Pieces T X) : p ++ nil = p := by
  show Pieces.mk (p.terms ++ []) (p.values ++ []) = p
  rw [List.append_nil, List.append_nil]

@[simp] theorem nil_append (p : Pieces T X) : nil ++ p = p := rfl

theorem append_assoc (p q r : Pieces T X) : p ++ q ++ r = p ++ (q ++ r) := by
  show Pieces.mk (p.terms ++ q.terms ++ r.terms) (p.values ++ q.values ++ r.values) =
    Pieces.mk (p.terms ++ (q.terms ++ r.terms)) (p.values ++ (q.values ++ r.values))
  rw [List.append_assoc, List.append_assoc]

end Pieces

namespace Production

/-- The production with more pieces, of which it keeps those that count. -/
def record (p : Production T X) (pieces : Pieces T X) : Production T X :=
  { p with
    terms := if p.shape.keepsTerms then p.terms ++ pieces.terms.toArray else p.terms
    nonterms := if p.shape.keepsNonterms then p.nonterms ++ pieces.values.toArray else p.nonterms }

@[simp] theorem record_nil (p : Production T X) : p.record .nil = p := by
  simp [record, Pieces.nil]

@[simp] theorem record_record (p : Production T X) (first second : Pieces T X) :
    (p.record first).record second = p.record (first ++ second) := by
  simp only [record, Pieces.terms_append, Pieces.values_append]
  split <;> split <;> simp

theorem addTerm_eq_record (p : Production T X) (token : T) :
    p.addTerm token = p.record (.ofTerm token) := by
  unfold addTerm
  split <;> simp [record, Pieces.ofTerm, *]

theorem addNonterm_eq_record (p : Production T X) (value : X) :
    p.addNonterm value = p.record (.ofValue value) := by
  unfold addNonterm
  split <;> simp [record, Pieces.ofValue, *]

end Production

/-- A builder without a world: the node of a reduction is a value that depends on nothing else. -/
def algebraBuilder (algebra : Reduction T X → X) : Builder T X Unit :=
  fun reduction world => (algebra reduction, world)

/-- The value of a rule that was matched with these pieces. -/
def Shape.value (algebra : Reduction T X → X) (shape : Shape) (rule : RuleId)
    (pieces : Pieces T X) : X :=
  (((Production.start rule shape).record pieces).reduce (algebraBuilder algebra) ()).1

/-- A chain is grouped to the left. -/
theorem Shape.value_chain (algebra : Reduction T X → X) (rule : RuleId) (first : X)
    (links : List (T × X)) :
    Shape.value algebra .chain rule (.ofValue first ++ ⟨links.map Prod.fst, links.map Prod.snd⟩) =
      (Production.foldChain (algebraBuilder algebra) rule first links ()).1 := by
  have hzip : (links.map Prod.fst).zip (links.map Prod.snd) = links := by
    rw [List.zip_map', List.map_id']
  simp [value, Production.record, Production.start, Production.reduce, Pieces.ofValue,
    Shape.keepsTerms, Shape.keepsNonterms, hzip]

/-! ## Derivations with values -/

namespace Grammar

/-- The words that an expression stands for, with what is recorded while a word is matched. -/
inductive Yields (g : Grammar T) (algebra : Reduction T X → X) :
    Expr T → List T → Pieces T X → Prop where
  | empty : Yields g algebra .empty [] .nil
  | term {accepts : T → Bool} {token : T} (h : accepts token = true) :
      Yields g algebra (.term accepts) [token] (.ofTerm token)
  | nonterm {r : RuleId} {rule : Rule T} {alternative : Alternative T} {word : List T}
      {pieces : Pieces T X} (hrule : g.rule? r = some rule)
      (hmem : alternative ∈ rule.alternatives)
      (h : Yields g algebra alternative.expr word pieces) :
      Yields g algebra (.nonterm r) word (.ofValue (alternative.shape.value algebra r pieces))
  | seqNil : Yields g algebra (.seq []) [] .nil
  | seqCons {item : Expr T} {items : List (Expr T)} {front back : List T}
      {first second : Pieces T X} (hitem : Yields g algebra item front first)
      (hitems : Yields g algebra (.seq items) back second) :
      Yields g algebra (.seq (item :: items)) (front ++ back) (first ++ second)
  | choice {item : Expr T} {items : List (Expr T)} {word : List T} {pieces : Pieces T X}
      (hmem : item ∈ items) (h : Yields g algebra item word pieces) :
      Yields g algebra (.choice items) word pieces
  | repStop {body : Expr T} : Yields g algebra (.rep 0 body) [] .nil
  | repMore {least : Nat} {body : Expr T} {front back : List T} {first second : Pieces T X}
      (hbody : Yields g algebra body front first)
      (hrest : Yields g algebra (.rep (least - 1) body) back second) :
      Yields g algebra (.rep least body) (front ++ back) (first ++ second)
  | optNone {body : Expr T} : Yields g algebra (.opt body) [] .nil
  | optSome {body : Expr T} {word : List T} {pieces : Pieces T X}
      (h : Yields g algebra body word pieces) : Yields g algebra (.opt body) word pieces

/-- The ways to expand a rule are its alternatives. -/
def productions (g : Grammar T) : Productions T :=
  g.rules.toList.map fun rule => (rule.id, rule.alternatives.map Alternative.expr)

theorem mem_productions {g : Grammar T} {r : RuleId} {bodies : List (Expr T)} :
    (r, bodies) ∈ g.productions ↔
      ∃ rule, g.rule? r = some rule ∧ bodies = rule.alternatives.map Alternative.expr := by
  constructor
  · intro h
    obtain ⟨rule, hmem, heq⟩ := List.mem_map.mp h
    cases heq
    obtain ⟨i, hi, hrule⟩ := List.getElem_of_mem hmem
    have hi' : g.rules.toList[i]? = some rule := by rw [← hrule, List.getElem?_eq_getElem hi]
    have hplace := ((firstFault?_eq_none_iff g.rules.toList).mp g.faultless).2.1 i rule hi'
    refine ⟨rule, ?_, rfl⟩
    rw [rule?, hplace.1, ← Array.getElem?_toList]
    exact hi'
  · rintro ⟨rule, hrule, rfl⟩
    refine List.mem_map.mpr ⟨rule, mem_rules_of_rule? hrule, ?_⟩
    rw [id_of_rule? hrule]

/-- The words of a rule are those of its alternatives. -/
theorem derives_nonterm_iff {g : Grammar T} {r : RuleId} {rule : Rule T} {word : List T}
    (hrule : g.rule? r = some rule) :
    Expr.Derives g.productions (.nonterm r) word ↔
      ∃ alternative ∈ rule.alternatives, Expr.Derives g.productions alternative.expr word := by
  constructor
  · intro h
    cases h with
    | nonterm hbodies hmem h =>
      obtain ⟨rule', hrule', rfl⟩ := mem_productions.mp hbodies
      obtain ⟨alternative, halternative, rfl⟩ := List.mem_map.mp hmem
      rw [Option.some.inj (hrule.symm.trans hrule')]
      exact ⟨alternative, halternative, h⟩
  · rintro ⟨alternative, hmem, h⟩
    exact .nonterm (mem_productions.mpr ⟨rule, hrule, rfl⟩) (List.mem_map_of_mem hmem) h

theorem derives_nonterm_singleton_iff {g : Grammar T} {r : RuleId} {rule : Rule T}
    {alternative : Alternative T} {word : List T} (hrule : g.rule? r = some rule)
    (hsingle : rule.alternatives = [alternative]) :
    Expr.Derives g.productions (.nonterm r) word ↔
      Expr.Derives g.productions alternative.expr word := by
  rw [derives_nonterm_iff hrule, hsingle]
  constructor
  · rintro ⟨other, hmem, h⟩
    rwa [List.mem_singleton.mp hmem] at h
  · exact fun h => ⟨alternative, List.mem_cons_self, h⟩

variable {g : Grammar T} {algebra : Reduction T X → X}

/-- What is recorded on the way says nothing about which words there are. -/
theorem Yields.derives {e : Expr T} {word : List T} {pieces : Pieces T X}
    (h : g.Yields algebra e word pieces) : Expr.Derives g.productions e word := by
  induction h with
  | empty => exact .empty
  | term h => exact .term h
  | nonterm hrule hmem _ ih =>
    exact .nonterm (mem_productions.mpr ⟨_, hrule, rfl⟩) (List.mem_map_of_mem hmem) ih
  | seqNil => exact .seqNil
  | seqCons _ _ ihitem ihitems => exact .seqCons ihitem ihitems
  | choice hmem _ ih => exact .choice hmem ih
  | repStop => exact .repStop
  | repMore _ _ ihbody ihrest => exact .repMore ihbody ihrest
  | optNone => exact .optNone
  | optSome _ ih => exact .optSome ih

/-- Every word is matched with some pieces, whatever the algebra. -/
theorem exists_yields (algebra : Reduction T X → X) {e : Expr T} {word : List T}
    (h : Expr.Derives g.productions e word) : ∃ pieces, g.Yields algebra e word pieces := by
  induction h with
  | empty => exact ⟨_, .empty⟩
  | term h => exact ⟨_, .term h⟩
  | nonterm hrule hmem _ ih =>
    obtain ⟨rule, hlookup, rfl⟩ := mem_productions.mp hrule
    obtain ⟨alternative, halternative, rfl⟩ := List.mem_map.mp hmem
    obtain ⟨pieces, ih⟩ := ih
    exact ⟨_, .nonterm hlookup halternative ih⟩
  | seqNil => exact ⟨_, .seqNil⟩
  | seqCons _ _ ihitem ihitems =>
    obtain ⟨first, ihitem⟩ := ihitem
    obtain ⟨second, ihitems⟩ := ihitems
    exact ⟨_, .seqCons ihitem ihitems⟩
  | choice hmem _ ih =>
    obtain ⟨pieces, ih⟩ := ih
    exact ⟨_, .choice hmem ih⟩
  | repStop => exact ⟨_, .repStop⟩
  | repMore _ _ ihbody ihrest =>
    obtain ⟨first, ihbody⟩ := ihbody
    obtain ⟨second, ihrest⟩ := ihrest
    exact ⟨_, .repMore ihbody ihrest⟩
  | optNone => exact ⟨_, .optNone⟩
  | optSome _ ih =>
    obtain ⟨pieces, ih⟩ := ih
    exact ⟨_, .optSome ih⟩

/-- A repetition may begin with one more round. -/
theorem Yields.rep_cons {body : Expr T} {front back : List T} {first second : Pieces T X}
    (hbody : g.Yields algebra body front first) (h : g.Yields algebra (.rep 0 body) back second) :
    g.Yields algebra (.rep 0 body) (front ++ back) (first ++ second) := .repMore hbody h

/-- A repetition may end with one more round. -/
theorem Yields.rep_snoc {body : Expr T} {front back : List T} {first second : Pieces T X}
    (h : g.Yields algebra (.rep 0 body) front first) (hbody : g.Yields algebra body back second) :
    g.Yields algebra (.rep 0 body) (front ++ back) (first ++ second) := by
  generalize he : Expr.rep 0 body = e at h
  induction h with
  | repStop =>
    cases he
    have hmore : g.Yields algebra (.rep 0 body) (back ++ []) (second ++ .nil) :=
      .repMore hbody .repStop
    rw [List.append_nil, Pieces.append_nil] at hmore
    rwa [List.nil_append, Pieces.nil_append]
  | repMore hround _ _ ih =>
    cases he
    rw [List.append_assoc, Pieces.append_assoc]
    exact .repMore hround (ih rfl)
  | _ => cases he

/-- A sequence of one item is that item. -/
theorem Yields.seq_singleton {item : Expr T} {word : List T} {pieces : Pieces T X}
    (h : g.Yields algebra item word pieces) : g.Yields algebra (.seq [item]) word pieces := by
  have hseq := Yields.seqCons h .seqNil
  rwa [List.append_nil, Pieces.append_nil] at hseq

/-- A word that is an operand with links behind it has this value when it is grouped to the left. -/
def Chained (g : Grammar T) (algebra : Reduction T X → X) (rule operand : RuleId)
    (operators : List (Expr T)) (value : X) (word : List T) : Prop :=
  ∃ front back first links, word = front ++ back ∧
    g.Yields algebra (.nonterm operand) front (.ofValue first) ∧
    g.Yields algebra (.zeroOrMore (.seq [.choice operators, .nonterm operand])) back
      ⟨links.map Prod.fst, links.map Prod.snd⟩ ∧
    (Production.foldChain (algebraBuilder algebra) rule first links ()).1 = value

section Chains

variable {rule operand : RuleId} {operators : List (Expr T)} {value : X} {word : List T}

/-- A chain may be a single operand. -/
theorem Chained.start (h : g.Yields algebra (.nonterm operand) word (.ofValue value)) :
    g.Chained algebra rule operand operators value word :=
  ⟨word, [], value, [], (List.append_nil word).symm, h, .repStop, rfl⟩

/-- A chain may end with one more link. -/
theorem Chained.snoc {left right : X} {front back : List T} {operator : Expr T} {token : T}
    (hleft : g.Chained algebra rule operand operators left front)
    (hright : g.Yields algebra (.nonterm operand) back (.ofValue right))
    (hmem : operator ∈ operators) (hoperator : g.Yields algebra operator [token] (.ofTerm token)) :
    g.Chained algebra rule operand operators
      (algebra (.nontermTermNonterm rule left token right)) (front ++ token :: back) := by
  obtain ⟨head, tail, first, links, rfl, hhead, htail, hfold⟩ := hleft
  have hlink : g.Yields algebra (.seq [.choice operators, .nonterm operand]) ([token] ++ back)
      ⟨[token], [right]⟩ := .seqCons (.choice hmem hoperator) hright.seq_singleton
  refine ⟨head, tail ++ ([token] ++ back), first, links ++ [(token, right)], ?_, hhead, ?_, ?_⟩
  · rw [List.append_assoc, List.singleton_append]
  · rw [List.map_append, List.map_append]
    exact htail.rep_snoc hlink
  · rw [Production.foldChain] at hfold ⊢
    rw [List.foldl_append, List.foldl_cons, List.foldl_nil]
    show algebra (.nontermTermNonterm rule _ token right) = _
    rw [hfold]

/-- A rule whose alternative is a chain yields its value. -/
theorem Chained.yields {r : Rule T} (h : g.Chained algebra rule operand operators value word)
    (hrule : g.rule? rule = some r) (hmem : ⟨.chain, .chain operators operand⟩ ∈ r.alternatives) :
    g.Yields algebra (.nonterm rule) word (.ofValue value) := by
  obtain ⟨front, back, first, links, rfl, hfront, hback, hfold⟩ := h
  have hyields : g.Yields algebra (.chain operators operand) (front ++ back)
      (.ofValue first ++ ⟨links.map Prod.fst, links.map Prod.snd⟩) :=
    .seqCons hfront hback.seq_singleton
  have hvalue := Yields.nonterm hrule hmem hyields
  rwa [Shape.value_chain, hfold] at hvalue

end Chains

/-- The value of a nonterminal is all that is recorded of it. -/
theorem Yields.exists_value {r : RuleId} {word : List T} {pieces : Pieces T X}
    (h : g.Yields algebra (.nonterm r) word pieces) : ∃ value, pieces = .ofValue value := by
  cases h with
  | nonterm => exact ⟨_, rfl⟩

end Grammar

/-! ## Tokens seen through a map -/

namespace Expr

mutual

/-- The expression that looks at its tokens through `f`. -/
def comap (f : S → T) : Expr T → Expr S
  | .empty => .empty
  | .term accepts => .term fun token => accepts (f token)
  | .nonterm rule => .nonterm rule
  | .seq items => .seq (comapAll f items)
  | .choice items => .choice (comapAll f items)
  | .rep least body => .rep least (body.comap f)
  | .opt body => .opt (body.comap f)

/-- The same for a list of expressions. -/
def comapAll (f : S → T) : List (Expr T) → List (Expr S)
  | [] => []
  | item :: items => item.comap f :: comapAll f items

end

theorem comapAll_eq_map (f : S → T) (items : List (Expr T)) :
    comapAll f items = items.map (comap f) := by
  induction items with
  | nil => rfl
  | cons item items ih => rw [comapAll, ih, List.map_cons]

/-- Productions that look at their tokens through `f`. -/
def comapProductions (f : S → T) (productions : Productions T) : Productions S :=
  productions.map fun (rule, bodies) => (rule, comapAll f bodies)

variable {f : S → T} {productions : Productions T}

theorem derives_of_comap {e' : Expr S} {word : List S}
    (h : Derives (comapProductions f productions) e' word) :
    ∀ e : Expr T, e.comap f = e' → Derives productions e (word.map f) := by
  induction h with
  | empty =>
    intro e he
    cases e <;> simp only [comap, reduceCtorEq] at he
    exact .empty
  | term haccepts =>
    intro e he
    cases e <;> simp only [comap, reduceCtorEq, term.injEq] at he
    subst he
    exact .term haccepts
  | nonterm hrule hmem _ ih =>
    intro e he
    cases e <;> simp only [comap, reduceCtorEq, nonterm.injEq] at he
    subst he
    obtain ⟨⟨rule, bodies⟩, hrule', heq⟩ := List.mem_map.mp hrule
    cases heq
    rw [comapAll_eq_map] at hmem
    obtain ⟨body, hbody, hcomap⟩ := List.mem_map.mp hmem
    exact .nonterm hrule' hbody (ih body hcomap)
  | seqNil =>
    intro e he
    cases e with
    | seq items =>
      cases items with
      | nil => exact .seqNil
      | cons item items => simp [comap, comapAll] at he
    | _ => simp [comap] at he
  | seqCons _ _ ihitem ihitems =>
    intro e he
    cases e with
    | seq items =>
      cases items with
      | nil => simp [comap, comapAll] at he
      | cons item items =>
        simp only [comap, comapAll, seq.injEq, List.cons.injEq] at he
        rw [List.map_append]
        exact .seqCons (ihitem item he.1) (ihitems (.seq items) (by rw [comap, he.2]))
    | _ => simp [comap] at he
  | choice hmem _ ih =>
    intro e he
    cases e <;> simp only [comap, reduceCtorEq, choice.injEq] at he
    rw [← he, comapAll_eq_map] at hmem
    obtain ⟨item, hitem, heq⟩ := List.mem_map.mp hmem
    exact .choice hitem (ih item heq)
  | repStop =>
    intro e he
    cases e <;> simp only [comap, reduceCtorEq, rep.injEq] at he
    obtain ⟨rfl, rfl⟩ := he
    exact .repStop
  | repMore _ _ ihbody ihrest =>
    intro e he
    cases e with
    | rep least body =>
      simp only [comap, rep.injEq] at he
      obtain ⟨rfl, rfl⟩ := he
      rw [List.map_append]
      exact .repMore (ihbody body rfl) (ihrest (.rep (least - 1) body) rfl)
    | _ => simp [comap] at he
  | optNone =>
    intro e he
    cases e <;> simp only [comap, reduceCtorEq, opt.injEq] at he
    exact .optNone
  | optSome _ ih =>
    intro e he
    cases e <;> simp only [comap, reduceCtorEq, opt.injEq] at he
    exact .optSome (ih _ he)

theorem derives_comap {e : Expr T} {word' : List T} (h : Derives productions e word') :
    ∀ word : List S, word.map f = word' →
      Derives (comapProductions f productions) (e.comap f) word := by
  induction h with
  | empty =>
    intro word hword
    rw [List.map_eq_nil_iff.mp hword]
    exact .empty
  | term haccepts =>
    intro word hword
    obtain ⟨token, rfl, rfl⟩ := List.map_eq_singleton_iff.mp hword
    exact .term haccepts
  | nonterm hrule hmem _ ih =>
    intro word hword
    refine .nonterm (List.mem_map.mpr ⟨_, hrule, rfl⟩) ?_ (ih word hword)
    rw [comapAll_eq_map]
    exact List.mem_map_of_mem hmem
  | seqNil =>
    intro word hword
    rw [List.map_eq_nil_iff.mp hword]
    exact .seqNil
  | seqCons _ _ ihitem ihitems =>
    intro word hword
    obtain ⟨front, back, rfl, hfront, hback⟩ := List.map_eq_append_iff.mp hword
    exact .seqCons (ihitem front hfront) (ihitems back hback)
  | choice hmem _ ih =>
    intro word hword
    rw [comap, comapAll_eq_map]
    exact .choice (List.mem_map_of_mem hmem) (ih word hword)
  | repStop =>
    intro word hword
    rw [List.map_eq_nil_iff.mp hword]
    exact .repStop
  | repMore _ _ ihbody ihrest =>
    intro word hword
    obtain ⟨front, back, rfl, hfront, hback⟩ := List.map_eq_append_iff.mp hword
    exact .repMore (ihbody front hfront) (ihrest back hback)
  | optNone =>
    intro word hword
    rw [List.map_eq_nil_iff.mp hword]
    exact .optNone
  | optSome _ ih =>
    intro word hword
    exact .optSome (ih word hword)

/-- **Looking at tokens through a map** changes the words by that map and nothing else. -/
theorem derives_comap_iff {e : Expr T} {word : List S} :
    Derives (comapProductions f productions) (e.comap f) word ↔
      Derives productions e (word.map f) :=
  ⟨fun h => derives_of_comap h e rfl, fun h => derives_comap h word rfl⟩

end Expr

end GrammarKit
