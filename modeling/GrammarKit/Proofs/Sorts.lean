import GrammarKit.Proofs.Custody

/-!
# Sorts of values

The rules of a grammar have values of different sorts, say expressions and statements, and a rule that
is given pieces of the wrong sort has no sensible value.  It never is: which sort a piece has depends
on the rule that it comes from, and which rules the pieces come from is told by the expression that
was matched.  So it is enough to look at each alternative once, with any pieces that its expression
may record.

* `Expr.Fills`: the pieces that an expression may record.
* `Fills.exists_rounds`, `Fills.exists_operands`: what a repetition and a chain record.
* `Grammar.Sorted`: the rules of a grammar keep to their sorts.
* `Grammar.Sorted.of_yields`, `Grammar.Sorted.of_asks`: so do all derivations.
-/

namespace GrammarKit

variable {T X : Type}

/-! ## What an expression may record -/

/-- The pieces that an expression may record: valid tokens that its terms accept, and values that are
right for its rules. -/
inductive Expr.Fills (valid : T → Prop) (ok : RuleId → X → Prop) : Expr T → Pieces T X → Prop where
  | empty : Fills valid ok .empty .nil
  | term {accepts : T → Bool} {token : T} (haccepts : accepts token = true)
      (hvalid : valid token) : Fills valid ok (.term accepts) (.ofTerm token)
  | nonterm {r : RuleId} {value : X} (h : ok r value) :
      Fills valid ok (.nonterm r) (.ofValue value)
  | seqNil : Fills valid ok (.seq []) .nil
  | seqCons {item : Expr T} {items : List (Expr T)} {first second : Pieces T X}
      (hitem : Fills valid ok item first) (hitems : Fills valid ok (.seq items) second) :
      Fills valid ok (.seq (item :: items)) (first ++ second)
  | choice {item : Expr T} {items : List (Expr T)} {pieces : Pieces T X} (hmem : item ∈ items)
      (h : Fills valid ok item pieces) : Fills valid ok (.choice items) pieces
  | repStop {body : Expr T} : Fills valid ok (.rep 0 body) .nil
  | repMore {least : Nat} {body : Expr T} {first second : Pieces T X}
      (hbody : Fills valid ok body first) (hrest : Fills valid ok (.rep (least - 1) body) second) :
      Fills valid ok (.rep least body) (first ++ second)
  | optNone {body : Expr T} : Fills valid ok (.opt body) .nil
  | optSome {body : Expr T} {pieces : Pieces T X} (h : Fills valid ok body pieces) :
      Fills valid ok (.opt body) pieces

namespace Expr

variable {valid : T → Prop} {ok : RuleId → X → Prop} {e : Expr T} {pieces : Pieces T X}

@[simp] theorem fills_term_iff {accepts : T → Bool} :
    Fills valid ok (.term accepts) pieces ↔
      ∃ token, accepts token = true ∧ valid token ∧ pieces = .ofTerm token := by
  constructor
  · intro h
    cases h with
    | term haccepts hvalid => exact ⟨_, haccepts, hvalid, rfl⟩
  · rintro ⟨token, haccepts, hvalid, rfl⟩
    exact .term haccepts hvalid

@[simp] theorem fills_nonterm_iff {r : RuleId} :
    Fills valid ok (.nonterm r) pieces ↔ ∃ value, ok r value ∧ pieces = .ofValue value := by
  constructor
  · intro h
    cases h with
    | nonterm h => exact ⟨_, h, rfl⟩
  · rintro ⟨value, h, rfl⟩
    exact .nonterm h

@[simp] theorem fills_seq_nil_iff : Fills valid ok (.seq []) pieces ↔ pieces = .nil :=
  ⟨fun h => by cases h; rfl, fun h => h ▸ .seqNil⟩

@[simp] theorem fills_seq_cons_iff {item : Expr T} {items : List (Expr T)} :
    Fills valid ok (.seq (item :: items)) pieces ↔
      ∃ first second, Fills valid ok item first ∧ Fills valid ok (.seq items) second ∧
        pieces = first ++ second := by
  constructor
  · intro h
    cases h with
    | seqCons hitem hitems => exact ⟨_, _, hitem, hitems, rfl⟩
  · rintro ⟨first, second, hitem, hitems, rfl⟩
    exact .seqCons hitem hitems

@[simp] theorem fills_choice_iff {items : List (Expr T)} :
    Fills valid ok (.choice items) pieces ↔ ∃ item ∈ items, Fills valid ok item pieces := by
  constructor
  · intro h
    cases h with
    | choice hmem h => exact ⟨_, hmem, h⟩
  · rintro ⟨item, hmem, h⟩
    exact .choice hmem h

/-- All terms that are recorded are valid tokens. -/
theorem Fills.valid_of_mem_terms (h : Fills valid ok e pieces) :
    ∀ token ∈ pieces.terms, valid token := by
  induction h with
  | empty | seqNil | repStop | optNone | nonterm _ => exact fun token h => absurd h List.not_mem_nil
  | term _ hvalid => exact List.forall_mem_singleton.mpr hvalid
  | seqCons _ _ ihitem ihitems => exact List.forall_mem_append.mpr ⟨ihitem, ihitems⟩
  | choice _ _ ih => exact ih
  | repMore _ _ ihbody ihrest => exact List.forall_mem_append.mpr ⟨ihbody, ihrest⟩
  | optSome _ ih => exact ih

/-- **A repetition records the pieces of its rounds**, of which there are enough. -/
theorem Fills.exists_rounds {least : Nat} {body : Expr T}
    (h : Fills valid ok (.rep least body) pieces) :
    ∃ rounds : List (Pieces T X), least ≤ rounds.length ∧
      (∀ round ∈ rounds, Fills valid ok body round) ∧
      pieces.terms = rounds.flatMap Pieces.terms ∧
      pieces.values = rounds.flatMap Pieces.values := by
  generalize he : Expr.rep least body = e at h
  induction h generalizing least with
  | repStop =>
    cases he
    exact ⟨[], Nat.le_refl _, fun _ hround => absurd hround List.not_mem_nil, rfl, rfl⟩
  | @repMore least' body' first second hbody _ _ ihrest =>
    cases he
    obtain ⟨rounds, hleast, hrounds, hterms, hvalues⟩ := ihrest rfl
    refine ⟨first :: rounds, ?_, List.forall_mem_cons.mpr ⟨hbody, hrounds⟩, ?_, ?_⟩
    · rw [List.length_cons]
      omega
    · rw [Pieces.terms_append, hterms, List.flatMap_cons]
    · rw [Pieces.values_append, hvalues, List.flatMap_cons]
  | _ => cases he

/-- **A chain records operands and operators**, at least one operand. -/
theorem Fills.exists_operands {operators : List (Expr T)} {operand : RuleId} {op : T → Prop}
    (hop : ∀ operator ∈ operators, ∀ pieces, Fills valid ok operator pieces →
      ∃ token, op token ∧ pieces = .ofTerm token)
    (h : Fills valid ok (.chain operators operand) pieces) :
    ∃ first operands, pieces.values = first :: operands ∧ ok operand first ∧
      (∀ value ∈ operands, ok operand value) ∧ ∀ token ∈ pieces.terms, op token := by
  simp only [chain, fills_seq_cons_iff, fills_nonterm_iff, fills_seq_nil_iff] at h
  obtain ⟨-, -, ⟨first, hfirst, rfl⟩, ⟨links, -, hlinks, rfl, rfl⟩, rfl⟩ := h
  obtain ⟨rounds, -, hrounds, hterms, hvalues⟩ := hlinks.exists_rounds
  have hround : ∀ round ∈ rounds, ∃ token value, op token ∧ ok operand value ∧
      round.terms = [token] ∧ round.values = [value] := by
    intro round hmem
    have hlink := hrounds round hmem
    simp only [fills_seq_cons_iff, fills_nonterm_iff, fills_seq_nil_iff, fills_choice_iff] at hlink
    obtain ⟨operation, -, ⟨operator, hoperator, hfills⟩, ⟨-, -, ⟨value, hvalue, rfl⟩, rfl, rfl⟩,
      rfl⟩ := hlink
    obtain ⟨token, htoken, rfl⟩ := hop operator hoperator operation hfills
    exact ⟨token, value, htoken, hvalue, rfl, rfl⟩
  refine ⟨first, links.values, ?_, hfirst, ?_, ?_⟩
  · rw [Pieces.append_nil]
    rfl
  · intro value hvalue
    rw [hvalues] at hvalue
    obtain ⟨round, hmem, hmem'⟩ := List.mem_flatMap.mp hvalue
    obtain ⟨-, value', -, hok, -, heq⟩ := hround round hmem
    rw [heq, List.mem_singleton] at hmem'
    exact hmem' ▸ hok
  · intro token htoken
    rw [Pieces.append_nil] at htoken
    have hmem : token ∈ links.terms := htoken
    rw [hterms] at hmem
    obtain ⟨round, hmem, hmem'⟩ := List.mem_flatMap.mp hmem
    obtain ⟨token', -, hok, -, heq, -⟩ := hround round hmem
    rw [heq, List.mem_singleton] at hmem'
    exact hmem' ▸ hok

end Expr

/-! ## What is made of it -/

/-- The value of a rule that was matched with these pieces, and what the builder was asked for on the
way. -/
def Shape.made (algebra : Reduction T X → X) (shape : Shape) (r : RuleId) (pieces : Pieces T X) :
    X × List (Reduction T X) :=
  ((Production.start r shape).record pieces).reduce (recorder algebra) []

theorem foldChain_recorder_fst (algebra : Reduction T X → X) (rule : RuleId) :
    ∀ (links : List (T × X)) (first : X) (asked : List (Reduction T X)),
      (Production.foldChain (recorder algebra) rule first links asked).1 =
        (Production.foldChain (algebraBuilder algebra) rule first links ()).1
  | [], _, _ => rfl
  | (_, _) :: links, _, _ => foldChain_recorder_fst algebra rule links _ _

/-- Writing down what is asked for does not change the value. -/
theorem Shape.made_fst (algebra : Reduction T X → X) (shape : Shape) (r : RuleId)
    (pieces : Pieces T X) : (shape.made algebra r pieces).1 = shape.value algebra r pieces := by
  rw [made, value]
  generalize (Production.start r shape).record pieces = p
  unfold Production.reduce
  split <;> (try split) <;> first | rfl | exact foldChain_recorder_fst algebra _ _ _ _

/-- One node is made of all nonterminals. -/
theorem Shape.made_nontermList (algebra : Reduction T X → X) (r : RuleId) (pieces : Pieces T X) :
    Shape.made algebra .nontermList r pieces =
      (algebra (.nontermList r pieces.values), [.nontermList r pieces.values]) := by
  simp [made, Production.record, Production.start, Production.reduce, keepsTerms, keepsNonterms,
    recorder]

/-- One node is made of all terms and all nonterminals. -/
theorem Shape.made_termNontermList (algebra : Reduction T X → X) (r : RuleId)
    (pieces : Pieces T X) :
    Shape.made algebra .termNontermList r pieces =
      (algebra (.termNontermList r pieces.terms pieces.values),
        [.termNontermList r pieces.terms pieces.values]) := by
  simp [made, Production.record, Production.start, Production.reduce, keepsTerms, keepsNonterms,
    recorder]

theorem Shape.value_nontermList (algebra : Reduction T X → X) (r : RuleId) (pieces : Pieces T X) :
    Shape.value algebra .nontermList r pieces = algebra (.nontermList r pieces.values) := by
  rw [← made_fst, made_nontermList]

theorem Shape.value_termNontermList (algebra : Reduction T X → X) (r : RuleId)
    (pieces : Pieces T X) :
    Shape.value algebra .termNontermList r pieces =
      algebra (.termNontermList r pieces.terms pieces.values) := by
  rw [← made_fst, made_termNontermList]

/-- A chain has a value of the right sort, and so has each of its nodes. -/
theorem Shape.made_chain {algebra : Reduction T X → X} {r : RuleId} {pieces : Pieces T X}
    {sort : X → Prop} {op : T → Prop} {first : X} {operands : List X}
    (hvalues : pieces.values = first :: operands) (hfirst : sort first)
    (hoperands : ∀ value ∈ operands, sort value) (hterms : ∀ token ∈ pieces.terms, op token)
    (hstep : ∀ left token right, sort left → op token → sort right →
      sort (algebra (.nontermTermNonterm r left token right))) :
    sort (Shape.made algebra .chain r pieces).1 ∧
      ∀ reduction ∈ (Shape.made algebra .chain r pieces).2, sort (algebra reduction) := by
  have hfold : ∀ (links : List (T × X)) (left : X) (asked : List (Reduction T X)),
      (∀ link ∈ links, op link.1 ∧ sort link.2) → sort left →
      (∀ reduction ∈ asked, sort (algebra reduction)) →
      sort (Production.foldChain (recorder algebra) r left links asked).1 ∧
        ∀ reduction ∈ (Production.foldChain (recorder algebra) r left links asked).2,
          sort (algebra reduction) := by
    intro links
    induction links with
    | nil => exact fun left asked _ hleft hasked => ⟨hleft, hasked⟩
    | cons link links ih =>
      intro left asked hlinks hleft hasked
      obtain ⟨⟨htoken, hright⟩, hlinks⟩ := List.forall_mem_cons.mp hlinks
      have hmade := hstep left link.1 link.2 hleft htoken hright
      refine ih _ _ hlinks hmade ?_
      exact List.forall_mem_append.mpr ⟨hasked, List.forall_mem_singleton.mpr hmade⟩
  have hmade : Shape.made algebra .chain r pieces =
      Production.foldChain (recorder algebra) r first (pieces.terms.zip operands) [] := by
    simp [made, Production.record, Production.start, Production.reduce, keepsTerms, keepsNonterms,
      hvalues]
  rw [hmade]
  refine hfold _ _ _ (fun link hlink => ?_) hfirst fun _ h => absurd h List.not_mem_nil
  exact ⟨hterms _ (List.of_mem_zip hlink).1, hoperands _ (List.of_mem_zip hlink).2⟩

/-! ## Grammars that keep to their sorts -/

/-- **The rules keep to their sorts**: with pieces that an alternative may record, the value is right
for the rule, and whatever is asked for has a value that makes sense. -/
def Grammar.Sorted (g : Grammar T) (algebra : Reduction T X → X) (valid : T → Prop)
    (ok : RuleId → X → Prop) (sensible : X → Prop) : Prop :=
  ∀ rule ∈ g.rules.toList, ∀ alternative ∈ rule.alternatives, ∀ pieces,
    alternative.expr.Fills valid ok pieces →
      ok rule.id (alternative.shape.made algebra rule.id pieces).1 ∧
        ∀ reduction ∈ (alternative.shape.made algebra rule.id pieces).2,
          sensible (algebra reduction)

namespace Grammar.Sorted

variable {g : Grammar T} {algebra : Reduction T X → X} {valid : T → Prop} {ok : RuleId → X → Prop}
  {sensible : X → Prop}

/-- What a derivation records is right. -/
theorem fills (hg : g.Sorted algebra valid ok sensible) {e : Expr T} {word : List T}
    {pieces : Pieces T X} (h : g.Yields algebra e word pieces) (hvalid : ∀ token ∈ word, valid token) :
    e.Fills valid ok pieces := by
  induction h with
  | empty => exact .empty
  | term haccepts => exact .term haccepts (hvalid _ List.mem_cons_self)
  | nonterm hrule hmem _ ih =>
    refine .nonterm ?_
    rw [← Shape.made_fst, ← id_of_rule? hrule]
    exact (hg _ (mem_rules_of_rule? hrule) _ hmem _ (ih hvalid)).1
  | seqNil => exact .seqNil
  | seqCons _ _ ihitem ihitems =>
    obtain ⟨hfront, hback⟩ := List.forall_mem_append.mp hvalid
    exact .seqCons (ihitem hfront) (ihitems hback)
  | choice hmem _ ih => exact .choice hmem (ih hvalid)
  | repStop => exact .repStop
  | repMore _ _ ihbody ihrest =>
    obtain ⟨hfront, hback⟩ := List.forall_mem_append.mp hvalid
    exact .repMore (ihbody hfront) (ihrest hback)
  | optNone => exact .optNone
  | optSome _ ih => exact .optSome (ih hvalid)

/-- **The value of a rule is right for the rule.** -/
theorem of_yields (hg : g.Sorted algebra valid ok sensible) {r : RuleId} {word : List T} {value : X}
    (h : g.Yields algebra (.nonterm r) word (.ofValue value)) (hvalid : ∀ token ∈ word, valid token) :
    ok r value := by
  obtain ⟨value', hok, heq⟩ := Expr.fills_nonterm_iff.mp (hg.fills h hvalid)
  cases heq
  exact hok

/-- **Nothing is asked for that makes no sense.** -/
theorem of_asks (hg : g.Sorted algebra valid ok sensible) {reduction : Reduction T X}
    (h : g.Asks algebra valid reduction) : sensible (algebra reduction) := by
  obtain ⟨r, rule, alternative, word, pieces, hrule, hmem, hvalid, hyields, hasked⟩ := h
  rw [← id_of_rule? hrule] at hasked
  exact (hg rule (mem_rules_of_rule? hrule) alternative hmem pieces
    (hg.fills hyields hvalid)).2 reduction hasked

end Grammar.Sorted

end GrammarKit
