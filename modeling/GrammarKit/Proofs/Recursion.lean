import GrammarKit.Proofs.Ahead
import GrammarKit.Proofs.Backtracking
import GrammarKit.Proofs.Derivation

/-!
# The plain recursion of a grammar

A rule matches through its alternatives, and their nonterminals match as rules.  The parser carries
more along than this says: the rules in progress at the present place, so that a rule that would
start again and again is found out.  For a grammar whose rules can be ranked, such that a rule leads
only to rules of lower rank before a token is taken, that book-keeping never has a say.

All of this is about tokens in a list and about builders without a world.  There a match is an
equation: `Takes` says which tokens are left and what is recorded, `Refuses` that nothing happens.

* `Expr.mayBeEmpty`, `Expr.leads`: what an expression may do before a token is taken.
* `Grammar.Ranked`: the rank condition.
* `Expr.attempt_decides`: an expression takes a word that it stands for, or it refuses; and the
  dispatcher matters only where the expression may ask it.
* `Grammar.Ranked.run_eq`: a rule matches through its alternatives.
* `Grammar.Ranked.run_answers`: what a rule takes is a word that it stands for.
-/

namespace GrammarKit

variable {T X : Type}

namespace Expr

mutual

/-- Whether an expression may match without taking a token, if the rules that may are `nullable`. -/
def mayBeEmpty (nullable : RuleId → Bool) : Expr T → Bool
  | .empty => true
  | .term _ => false
  | .nonterm rule => nullable rule
  | .seq items => allMayBeEmpty nullable items
  | .choice items => anyMayBeEmpty nullable items
  | .rep least body => least == 0 || body.mayBeEmpty nullable
  | .opt _ => true

/-- Whether all items may match without taking a token. -/
def allMayBeEmpty (nullable : RuleId → Bool) : List (Expr T) → Bool
  | [] => true
  | item :: items => item.mayBeEmpty nullable && allMayBeEmpty nullable items

/-- Whether some item may match without taking a token. -/
def anyMayBeEmpty (nullable : RuleId → Bool) : List (Expr T) → Bool
  | [] => false
  | item :: items => item.mayBeEmpty nullable || anyMayBeEmpty nullable items

end

mutual

/-- The rules that an expression may start before a token is taken. -/
def leads (nullable : RuleId → Bool) : Expr T → List RuleId
  | .empty => []
  | .term _ => []
  | .nonterm rule => [rule]
  | .seq items => leadsOfAll nullable items
  | .choice items => leadsOfAny nullable items
  | .rep _ body => body.leads nullable
  | .opt body => body.leads nullable

/-- The rules that items in a row may start: those of an item count only if the items before it may
match without taking a token. -/
def leadsOfAll (nullable : RuleId → Bool) : List (Expr T) → List RuleId
  | [] => []
  | item :: items =>
    item.leads nullable ++ if item.mayBeEmpty nullable then leadsOfAll nullable items else []

/-- The rules that any of the items may start. -/
def leadsOfAny (nullable : RuleId → Bool) : List (Expr T) → List RuleId
  | [] => []
  | item :: items => item.leads nullable ++ leadsOfAny nullable items

end

theorem mayBeEmpty_of_mem {nullable : RuleId → Bool} {item : Expr T} {items : List (Expr T)}
    (hmem : item ∈ items) (h : item.mayBeEmpty nullable = true) :
    anyMayBeEmpty nullable items = true := by
  induction items with
  | nil => cases hmem
  | cons first items ih =>
    rw [anyMayBeEmpty, Bool.or_eq_true]
    rcases List.mem_cons.mp hmem with rfl | hmem
    · exact Or.inl h
    · exact Or.inr (ih hmem)

theorem mem_leadsOfAny {nullable : RuleId → Bool} {r : RuleId} {item : Expr T}
    {items : List (Expr T)} (hmem : item ∈ items) (h : r ∈ item.leads nullable) :
    r ∈ leadsOfAny nullable items := by
  induction items with
  | nil => cases hmem
  | cons first items ih =>
    rw [leadsOfAny, List.mem_append]
    rcases List.mem_cons.mp hmem with rfl | hmem
    · exact Or.inl h
    · exact Or.inr (ih hmem)

theorem exists_mem_of_mem_leadsOfAny {nullable : RuleId → Bool} {r : RuleId} :
    ∀ {items : List (Expr T)}, r ∈ leadsOfAny nullable items →
      ∃ item ∈ items, r ∈ item.leads nullable
  | [], h => nomatch h
  | item :: items, h => by
    rcases List.mem_append.mp h with h | h
    · exact ⟨item, List.mem_cons_self, h⟩
    · obtain ⟨item, hmem, h⟩ := exists_mem_of_mem_leadsOfAny h
      exact ⟨item, List.mem_cons_of_mem _ hmem, h⟩

mutual

theorem leads_subset_references (nullable : RuleId → Bool) :
    ∀ e : Expr T, e.leads nullable ⊆ e.references
  | .empty => List.Subset.refl _
  | .term _ => List.Subset.refl _
  | .nonterm _ => List.Subset.refl _
  | .seq items => leadsOfAll_subset_references nullable items
  | .choice items => leadsOfAny_subset_references nullable items
  | .rep _ body => leads_subset_references nullable body
  | .opt body => leads_subset_references nullable body

theorem leadsOfAll_subset_references (nullable : RuleId → Bool) :
    ∀ items : List (Expr T), leadsOfAll nullable items ⊆ referencesOfAll items
  | [] => List.Subset.refl _
  | item :: items => by
    intro r hr
    rw [leadsOfAll, List.mem_append] at hr
    rw [referencesOfAll, List.mem_append]
    rcases hr with hr | hr
    · exact Or.inl (leads_subset_references nullable item hr)
    · split at hr
      · exact Or.inr (leadsOfAll_subset_references nullable items hr)
      · cases hr

theorem leadsOfAny_subset_references (nullable : RuleId → Bool) :
    ∀ items : List (Expr T), leadsOfAny nullable items ⊆ referencesOfAll items
  | [] => List.Subset.refl _
  | item :: items => by
    intro r hr
    rw [leadsOfAny, List.mem_append] at hr
    rw [referencesOfAll, List.mem_append]
    rcases hr with hr | hr
    · exact Or.inl (leads_subset_references nullable item hr)
    · exact Or.inr (leadsOfAny_subset_references nullable items hr)

end

end Expr

namespace Grammar

/-- **The rank condition.**  The rules that may match without taking a token are `nullable`, and the
rules that a rule may start before a token is taken have a lower rank. -/
structure Ranked (g : Grammar T) (nullable : RuleId → Bool) (rank : RuleId → Nat) : Prop where
  closed : ∀ rule ∈ g.rules.toList, ∀ alternative ∈ rule.alternatives,
    alternative.expr.mayBeEmpty nullable = true → nullable rule.id = true
  descends : ∀ rule ∈ g.rules.toList, ∀ alternative ∈ rule.alternatives,
    ∀ r ∈ alternative.expr.leads nullable, rank r < rank rule.id

variable {g : Grammar T} {algebra : Reduction T X → X} {nullable : RuleId → Bool}
  {rank : RuleId → Nat}

/-- An expression that stands for the empty word may be empty. -/
theorem Ranked.mayBeEmpty_of_yields (hg : g.Ranked nullable rank) {e : Expr T} {word : List T}
    {pieces : Pieces T X} (h : g.Yields algebra e word pieces) (hword : word = []) :
    e.mayBeEmpty nullable = true := by
  induction h with
  | empty => rfl
  | term => cases hword
  | @nonterm r rule alternative word pieces hrule hmem _ ih =>
    have hnullable := hg.closed rule (mem_rules_of_rule? hrule) alternative hmem (ih hword)
    rwa [id_of_rule? hrule] at hnullable
  | seqNil => rfl
  | seqCons _ _ ihitem ihitems =>
    obtain ⟨hfront, hback⟩ := List.append_eq_nil_iff.mp hword
    rw [Expr.mayBeEmpty, Expr.allMayBeEmpty, ihitem hfront]
    exact ihitems hback
  | choice hmem _ ih => exact Expr.mayBeEmpty_of_mem hmem (ih hword)
  | repStop => rfl
  | repMore _ _ ihbody _ =>
    obtain ⟨hfront, -⟩ := List.append_eq_nil_iff.mp hword
    rw [Expr.mayBeEmpty, ihbody hfront, Bool.or_true]
  | optNone => rfl
  | optSome => rfl

end Grammar

/-! ## Matching tokens of a list -/

/-- A dispatcher for tokens in a list and nodes that are values. -/
abbrev ListDispatch (T X : Type) := Dispatch X Unit (List T)

/-- A step of a match for tokens in a list and nodes that are values. -/
abbrev ListStep (T X : Type) :=
  Attempt T X Unit (List T) → Outcome Unit × Attempt T X Unit (List T)

/-- `step` takes the tokens before `rest` and records `pieces`. -/
def Takes (step : ListStep T X) (tokens : List T) (pieces : Pieces T X) (rest : List T) : Prop :=
  ∀ p : Production T X, step ⟨tokens, p, ()⟩ = (.matched (), ⟨rest, p.record pieces, ()⟩)

/-- `step` does not match and leaves everything as it is. -/
def Refuses (step : ListStep T X) (tokens : List T) : Prop :=
  ∃ why, ∀ p : Production T X, step ⟨tokens, p, ()⟩ = (.noMatch why, ⟨tokens, p, ()⟩)

/-- `step` does not match, and may leave pieces behind that are still to be forgotten. -/
def Stops (step : ListStep T X) (tokens : List T) : Prop :=
  ∀ p : Production T X, ∃ why b, step ⟨tokens, p, ()⟩ = (.noMatch why, b) ∧ b.pieces.Extends p

section Steps

variable {step : ListStep T X} {tokens rest : List T} {pieces : Pieces T X}

theorem Production.extends_record (p : Production T X) (pieces : Pieces T X) :
    (p.record pieces).Extends p := by
  refine ⟨rfl, rfl, ?_, ?_⟩
  · simp only [record]
    split <;> simp
  · simp only [record]
    split <;> simp

theorem Takes.not_refuses (h : Takes step tokens pieces rest) : ¬ Refuses step tokens := by
  rintro ⟨why, hrefuses⟩
  have hboth := (h (Production.start RuleId.start .empty)).symm.trans (hrefuses _)
  cases congrArg Prod.fst hboth

theorem Takes.orRestore (h : Takes step tokens pieces rest) (why : Mismatch) :
    Takes (fun a => Attempt.orRestore a.stream a.pieces.checkpoint why (step a)) tokens pieces
      rest := by
  intro p
  simp only [h p]
  rfl

theorem Stops.orRestore (h : Stops step tokens) (why : Mismatch) :
    Refuses (fun a => Attempt.orRestore a.stream a.pieces.checkpoint why (step a)) tokens := by
  refine ⟨why, fun p => ?_⟩
  obtain ⟨reason, ⟨stream, pieces, world⟩, hstep, hextends⟩ := h p
  simp only [hstep, Attempt.orRestore, Attempt.restore]
  rw [hextends.rollback_eq]

theorem takes_self (tokens : List T) :
    Takes (X := X) (fun a => (.matched (), a)) tokens .nil tokens := by
  intro p
  rw [Production.record_nil]

theorem Takes.rounds_succ {n : Nat} {next : List T} {more : Pieces T X}
    (h : Takes step tokens pieces rest) (hrounds : Takes (Attempt.rounds step n) rest more next) :
    Takes (Attempt.rounds step (n + 1)) tokens (pieces ++ more) next := by
  intro p
  rw [Attempt.rounds, h p]
  exact (hrounds _).trans (by rw [Production.record_record])

theorem Takes.rounds_stops {n : Nat} (h : Takes step tokens pieces rest)
    (hrounds : Stops (Attempt.rounds step n) rest) :
    Stops (Attempt.rounds step (n + 1)) tokens := by
  intro p
  obtain ⟨why, b, hfrom, hextends⟩ := hrounds (p.record pieces)
  refine ⟨why, b, ?_, hextends.trans (p.extends_record pieces)⟩
  rw [Attempt.rounds, h p]
  exact hfrom

theorem Refuses.rounds_stops {n : Nat} (h : Refuses step tokens) :
    Stops (Attempt.rounds step (n + 1)) tokens := by
  intro p
  obtain ⟨why, hstep⟩ := h
  refine ⟨why, ⟨tokens, p, ()⟩, ?_, Production.Extends.refl p⟩
  rw [Attempt.rounds, hstep p]

theorem roundsWhileAny_nil : Takes (Attempt.roundsWhileAny step) [] .nil [] := by
  intro p
  rw [Attempt.roundsWhileAny, Production.record_nil]
  rfl

theorem Refuses.roundsWhileAny (h : Refuses step tokens) :
    Takes (Attempt.roundsWhileAny step) tokens .nil tokens := by
  intro p
  obtain ⟨why, hstep⟩ := h
  rw [Attempt.roundsWhileAny, hstep p, Production.record_nil]
  split <;> rfl

theorem Takes.roundsWhileAny {next : List T} {more : Pieces T X}
    (h : Takes step tokens pieces rest) (hless : rest.length < tokens.length)
    (hrounds : Takes (Attempt.roundsWhileAny step) rest more next) :
    Takes (Attempt.roundsWhileAny step) tokens (pieces ++ more) next := by
  intro p
  have hend := TokenStream.atEnd_of_ne_nil (List.ne_nil_of_length_pos (Nat.zero_lt_of_lt hless))
  rw [Attempt.roundsWhileAny, h p]
  simp only [hend, Bool.false_eq_true, if_false, TokenStream.remaining_list, if_pos hless]
  exact (hrounds _).trans (by rw [Production.record_record])

/-- A round that takes nothing is the last one. -/
theorem Takes.roundsWhileAny_last (h : Takes step tokens pieces rest) (hne : tokens ≠ [])
    (hless : ¬ rest.length < tokens.length) :
    Takes (Attempt.roundsWhileAny step) tokens pieces rest := by
  intro p
  have hend := TokenStream.atEnd_of_ne_nil hne
  rw [Attempt.roundsWhileAny, h p]
  simp only [hend, Bool.false_eq_true, if_false, TokenStream.remaining_list, if_neg hless]

end Steps

/-! ## The steps of an expression -/

namespace Expr

variable {d : ListDispatch T X} {tokens rest next : List T} {pieces more : Pieces T X} {r : RuleId}
  {item body : Expr T} {items : List (Expr T)} {least : Nat}

theorem takes_term {accepts : T → Bool} {token : T} (h : accepts token = true) :
    Takes (X := X) ((term accepts).attempt d) (token :: tokens) (.ofTerm token)
      tokens := by
  intro p
  rw [attempt]
  simp only [attemptTerm, TokenStream.peek_list, List.head?_cons, if_pos h]
  rw [Production.addTerm_eq_record]
  rfl

theorem refuses_term {accepts : T → Bool} {token : T} (h : ¬ accepts token = true) :
    Refuses (X := X) ((term accepts).attempt d) (token :: tokens) := by
  refine ⟨.term, fun p => ?_⟩
  rw [attempt]
  simp only [attemptTerm, TokenStream.peek_list, List.head?_cons, if_neg h]

theorem refuses_term_nil (accepts : T → Bool) :
    Refuses (X := X) ((term accepts).attempt d) [] :=
  ⟨.term, fun p => by rw [attempt]; rfl⟩

theorem takes_nonterm {value : X} (hne : tokens ≠ [])
    (h : d r () tokens = ⟨.matched value, (), rest⟩) :
    Takes ((nonterm r).attempt d) tokens (.ofValue value) rest := by
  intro p
  rw [attempt]
  simp only [attemptNonterm, TokenStream.atEnd_of_ne_nil hne, Bool.false_eq_true, if_false, h]
  rw [Production.addNonterm_eq_record]

theorem refuses_nonterm {why : Mismatch} (hne : tokens ≠ [])
    (h : d r () tokens = ⟨.noMatch why, (), tokens⟩) :
    Refuses ((nonterm r).attempt d) tokens := by
  refine ⟨why, fun p => ?_⟩
  rw [attempt]
  simp only [attemptNonterm, TokenStream.atEnd_of_ne_nil hne, Bool.false_eq_true, if_false, h]

theorem refuses_nonterm_nil (r : RuleId) :
    Refuses (X := X) ((nonterm r).attempt d) ([] : List T) :=
  ⟨.nontermAtEnd, fun p => by rw [attempt]; rfl⟩

theorem takes_attemptAll_cons (hitem : Takes (item.attempt d) tokens pieces rest)
    (hitems : Takes (attemptAll d items) rest more next) :
    Takes (attemptAll d (item :: items)) tokens (pieces ++ more) next := by
  intro p
  rw [attemptAll, hitem p]
  exact (hitems _).trans (by rw [Production.record_record])

theorem stops_attemptAll_cons (hitem : Takes (item.attempt d) tokens pieces rest)
    (hitems : Stops (attemptAll d items) rest) : Stops (attemptAll d (item :: items)) tokens := by
  intro p
  obtain ⟨why, b, hfrom, hextends⟩ := hitems (p.record pieces)
  refine ⟨why, b, ?_, hextends.trans (p.extends_record pieces)⟩
  rw [attemptAll, hitem p]
  exact hfrom

theorem stops_attemptAll_of_refuses (hitem : Refuses (item.attempt d) tokens) :
    Stops (attemptAll d (item :: items)) tokens := by
  intro p
  obtain ⟨why, hrefuses⟩ := hitem
  refine ⟨why, ⟨tokens, p, ()⟩, ?_, Production.Extends.refl p⟩
  rw [attemptAll, hrefuses p]

theorem takes_seq (h : Takes (attemptAll d items) tokens pieces rest) :
    Takes ((seq items).attempt d) tokens pieces rest := by
  simp only [attempt]
  exact h.orRestore .sequence

theorem refuses_seq (h : Stops (attemptAll d items) tokens) :
    Refuses ((seq items).attempt d) tokens := by
  simp only [attempt]
  exact h.orRestore .sequence

theorem takes_attemptFirst_head (hitem : Takes (item.attempt d) tokens pieces rest) :
    Takes (attemptFirst d (item :: items)) tokens pieces rest := by
  intro p
  rw [attemptFirst, hitem p]

/-- Behind an item that refuses, a choice goes on as if it were not there. -/
theorem attemptFirst_of_refuses (hitem : Refuses (item.attempt d) tokens)
    (p : Production T X) :
    attemptFirst d (item :: items) ⟨tokens, p, ()⟩ = attemptFirst d items ⟨tokens, p, ()⟩ := by
  obtain ⟨why, hrefuses⟩ := hitem
  rw [attemptFirst, hrefuses p]

theorem takes_rep
    (hleast : Takes (Attempt.rounds (body.attempt d) least) tokens pieces rest)
    (hmore : Takes (Attempt.roundsWhileAny (body.attempt d)) rest more next) :
    Takes ((rep least body).attempt d) tokens (pieces ++ more) next := by
  intro p
  have hrounds := hleast.orRestore .tooFew p
  rw [attempt]
  dsimp only at hrounds ⊢
  rw [hrounds]
  exact (hmore _).trans (by rw [Production.record_record])

theorem refuses_rep (h : Stops (Attempt.rounds (body.attempt d) least) tokens) :
    Refuses ((rep least body).attempt d) tokens := by
  obtain ⟨why, hrefuses⟩ := h.orRestore .tooFew
  refine ⟨why, fun p => ?_⟩
  have hrounds := hrefuses p
  rw [attempt]
  dsimp only at hrounds ⊢
  rw [hrounds]

theorem takes_opt (h : Takes (body.attempt d) tokens pieces rest) :
    Takes ((opt body).attempt d) tokens pieces rest := by
  intro p
  rw [attempt, h p]

theorem takes_opt_of_refuses (h : Refuses (body.attempt d) tokens) :
    Takes ((opt body).attempt d) tokens .nil tokens := by
  intro p
  obtain ⟨why, hrefuses⟩ := h
  rw [attempt, hrefuses p, Production.record_nil]

end Expr

/-! ## The questions of an expression -/

/-- `P` holds wherever an expression may ask for a rule: a rule of `references` when tokens have been
taken off `tokens`, and one of `leads` before that.  At the end of the tokens nothing is asked. -/
structure AtQuestions (P : RuleId → List T → Prop) (references leads : List RuleId)
    (tokens : List T) : Prop where
  later : ∀ r ∈ references, ∀ rest : List T, rest ≠ [] → rest.length < tokens.length → P r rest
  here : tokens ≠ [] → ∀ r ∈ leads, P r tokens

/-- The questions of a part that follows after `word`. -/
theorem AtQuestions.next {P : RuleId → List T → Prop}
    {references references' leads leads' : List RuleId} {tokens word rest : List T}
    (h : AtQuestions P references leads tokens) (htokens : tokens = word ++ rest)
    (hreferences : references' ⊆ references) (hleads : leads' ⊆ references')
    (hempty : word = [] → leads' ⊆ leads) : AtQuestions P references' leads' rest := by
  have hlength : tokens.length = word.length + rest.length := by
    rw [htokens, List.length_append]
  constructor
  · intro r hr rest' hne hlt
    exact h.later r (hreferences hr) rest' hne (by omega)
  · intro hne r hr
    by_cases hword : word = []
    · subst hword
      rw [List.nil_append] at htokens
      exact htokens ▸ h.here (htokens ▸ hne) r (hempty rfl hr)
    · have hpos := List.length_pos_iff.mpr hword
      exact h.later r (hreferences (hleads hr)) rest hne (by omega)

theorem AtQuestions.mono {P : RuleId → List T → Prop}
    {references references' leads leads' : List RuleId} {tokens : List T}
    (h : AtQuestions P references leads tokens) (hreferences : references' ⊆ references)
    (hleads : leads' ⊆ leads) : AtQuestions P references' leads' tokens :=
  ⟨fun r hr => h.later r (hreferences hr), fun hne r hr => h.here hne r (hleads hr)⟩

/-- The questions of a part that is repeated after `word`. -/
theorem AtQuestions.again {P : RuleId → List T → Prop} {references leads : List RuleId}
    {tokens word rest : List T} (h : AtQuestions P references leads tokens)
    (htokens : tokens = word ++ rest) (hleads : leads ⊆ references) :
    AtQuestions P references leads rest :=
  h.next htokens (List.Subset.refl _) hleads fun _ => List.Subset.refl _

/-- For all `good` dispatchers alike, `step` takes a word with its pieces, or it fails. -/
inductive Decides (good : ListDispatch T X → Prop) (step : ListDispatch T X → ListStep T X)
    (tokens : List T) (yields : List T → Pieces T X → Prop)
    (fails : ListStep T X → List T → Prop) : Prop where
  | takes (word rest : List T) (pieces : Pieces T X) (htokens : tokens = word ++ rest)
      (hyields : yields word pieces) (hstep : ∀ d, good d → Takes (step d) tokens pieces rest)
  | fails (hstep : ∀ d, good d → fails (step d) tokens)

namespace Grammar

/-- A reply that a rule may give: the value of a word that it stands for, or a mismatch. -/
def Answers (g : Grammar T) (algebra : Reduction T X → X) (r : RuleId) (tokens : List T)
    (reply : Reply X Unit (List T)) : Prop :=
  (∃ word rest value, tokens = word ++ rest ∧
      g.Yields algebra (.nonterm r) word (.ofValue value) ∧ reply = ⟨.matched value, (), rest⟩) ∨
    ∃ why, reply = ⟨.noMatch why, (), tokens⟩

end Grammar

/-! ## Matching decides -/

section Decides

variable {g : Grammar T} {algebra : Reduction T X → X} {nullable : RuleId → Bool}
  {rank : RuleId → Nat} {d' : ListDispatch T X}

/-- The questions of an expression, when `d'` gives replies to them that a rule may give. -/
def AnswersFor (g : Grammar T) (algebra : Reduction T X → X) (d' : ListDispatch T X)
    (references leads : List RuleId) (tokens : List T) : Prop :=
  AtQuestions (fun r ts => g.Answers algebra r ts (d' r () ts)) references leads tokens

/-- A dispatcher replies as `d'` does, wherever it may be asked. -/
def AgreesFor (d' : ListDispatch T X) (references leads : List RuleId) (tokens : List T)
    (d : ListDispatch T X) : Prop :=
  AtQuestions (fun r ts => d r () ts = d' r () ts) references leads tokens

/-- What `Expr.attempt_decides` says of an expression. -/
def Expr.DecidedBy (g : Grammar T) (algebra : Reduction T X → X) (nullable : RuleId → Bool)
    (d' : ListDispatch T X) (e : Expr T) : Prop :=
  ∀ tokens : List T, AnswersFor g algebra d' e.references (e.leads nullable) tokens →
    Decides (AgreesFor d' e.references (e.leads nullable) tokens) (fun d => e.attempt d) tokens
      (g.Yields algebra e) Refuses

theorem attemptNonterm_decides (r : RuleId) :
    (Expr.nonterm r).DecidedBy g algebra nullable d' := by
  rintro (_ | ⟨token, tokens⟩) hanswers
  · exact .fails fun d _ => Expr.refuses_nonterm_nil r
  · have hne : token :: tokens ≠ [] := List.cons_ne_nil _ _
    have hr : r ∈ (Expr.nonterm r : Expr T).leads nullable := List.mem_singleton_self r
    obtain ⟨word, rest, value, htokens, hyields, hreply⟩ | ⟨why, hreply⟩ := hanswers.here hne r hr
    · exact .takes word rest (.ofValue value) htokens hyields fun d hagrees =>
        Expr.takes_nonterm hne ((hagrees.here hne r hr).trans hreply)
    · exact .fails fun d hagrees =>
        Expr.refuses_nonterm hne ((hagrees.here hne r hr).trans hreply)

theorem attemptTerm_decides (accepts : T → Bool) :
    (Expr.term accepts).DecidedBy g algebra nullable d' := by
  rintro (_ | ⟨token, tokens⟩) -
  · exact .fails fun d _ => Expr.refuses_term_nil accepts
  · by_cases haccepts : accepts token = true
    · exact .takes [token] tokens (.ofTerm token) rfl (.term haccepts) fun d _ =>
        Expr.takes_term haccepts
    · exact .fails fun d _ => Expr.refuses_term haccepts

/-- The least number of rounds of a repetition.  Whatever further rounds take belongs to the same
repetition. -/
theorem rounds_decides {body : Expr T} (hbody : body.DecidedBy g algebra nullable d') (n : Nat)
    (tokens : List T)
    (hanswers : AnswersFor g algebra d' body.references (body.leads nullable) tokens) :
    Decides (AgreesFor d' body.references (body.leads nullable) tokens)
      (fun d => Attempt.rounds (fun a => body.attempt d a) n) tokens
      (fun word pieces => ∀ more further, g.Yields algebra (.rep 0 body) more further →
        g.Yields algebra (.rep n body) (word ++ more) (pieces ++ further)) Stops := by
  have hleads := body.leads_subset_references nullable
  induction n generalizing tokens with
  | zero =>
    exact .takes [] tokens .nil rfl (fun _ _ h => h) fun d _ => takes_self tokens
  | succ n ih =>
    obtain ⟨word, rest, pieces, htokens, hyields, hstep⟩ | ⟨hstep⟩ := hbody tokens hanswers
    · obtain ⟨word', rest', pieces', hrest, hmore, hnext⟩ | ⟨hnext⟩ :=
        ih rest (hanswers.again htokens hleads)
      · refine .takes (word ++ word') rest' (pieces ++ pieces') ?_ ?_
          fun d hagrees => (hstep d hagrees).rounds_succ (hnext d (hagrees.again htokens hleads))
        · rw [htokens, hrest, List.append_assoc]
        · intro more further h
          rw [List.append_assoc, Pieces.append_assoc]
          exact .repMore hyields (hmore more further h)
      · exact .fails fun d hagrees =>
          (hstep d hagrees).rounds_stops (hnext d (hagrees.again htokens hleads))
    · exact .fails fun d hagrees => (hstep d hagrees).rounds_stops

/-- The rounds beyond the least number always match. -/
theorem roundsWhileAny_decides {body : Expr T} (hbody : body.DecidedBy g algebra nullable d')
    (tokens : List T)
    (hanswers : AnswersFor g algebra d' body.references (body.leads nullable) tokens) :
    ∃ word rest pieces, tokens = word ++ rest ∧ g.Yields algebra (.rep 0 body) word pieces ∧
      ∀ d, AgreesFor d' body.references (body.leads nullable) tokens d →
        Takes (Attempt.roundsWhileAny fun a => body.attempt d a) tokens pieces rest := by
  have hleads := body.leads_subset_references nullable
  induction hn : tokens.length using Nat.strongRecOn generalizing tokens with
  | _ n ih =>
    by_cases hnil : tokens = []
    · subst hnil
      exact ⟨[], [], .nil, rfl, .repStop, fun d _ => roundsWhileAny_nil⟩
    · obtain ⟨word, rest, pieces, htokens, hyields, hstep⟩ | ⟨hstep⟩ := hbody tokens hanswers
      · by_cases hless : rest.length < tokens.length
        · obtain ⟨word', rest', pieces', hrest, hmore, hnext⟩ :=
            ih _ (hn ▸ hless) rest (hanswers.again htokens hleads) rfl
          refine ⟨word ++ word', rest', pieces ++ pieces', ?_, .repMore hyields hmore,
            fun d hagrees =>
              (hstep d hagrees).roundsWhileAny hless (hnext d (hagrees.again htokens hleads))⟩
          rw [htokens, hrest, List.append_assoc]
        · refine ⟨word ++ [], rest, pieces ++ .nil, ?_, .repMore hyields .repStop,
            fun d hagrees => ?_⟩
          · rw [List.append_nil, htokens]
          · rw [Pieces.append_nil]
            exact (hstep d hagrees).roundsWhileAny_last hnil hless
      · exact ⟨[], tokens, .nil, rfl, .repStop, fun d hagrees => (hstep d hagrees).roundsWhileAny⟩

namespace Expr

mutual

/-- **An expression takes a word that it stands for, or it refuses.**  Any dispatcher does that
agrees with `d'` wherever the expression may ask. -/
theorem attempt_decides (hg : g.Ranked nullable rank) :
    ∀ e : Expr T, e.DecidedBy g algebra nullable d'
  | .empty, tokens, _ => by
    refine .takes [] tokens .nil rfl .empty fun d _ => ?_
    simp only [attempt]
    exact takes_self tokens
  | .term accepts, tokens, hanswers => attemptTerm_decides accepts tokens hanswers
  | .nonterm r, tokens, hanswers => attemptNonterm_decides r tokens hanswers
  | .seq items, tokens, hanswers => by
    obtain ⟨word, rest, pieces, htokens, hyields, hstep⟩ | ⟨hstep⟩ :=
      attemptAll_decides hg items tokens hanswers
    · exact .takes word rest pieces htokens hyields fun d hagrees => takes_seq (hstep d hagrees)
    · exact .fails fun d hagrees => refuses_seq (hstep d hagrees)
  | .choice items, tokens, hanswers => by
    obtain ⟨word, rest, pieces, htokens, hyields, hstep⟩ | ⟨hstep⟩ :=
      attemptFirst_decides hg items tokens hanswers
    · refine .takes word rest pieces htokens hyields fun d hagrees => ?_
      simp only [attempt]
      exact hstep d hagrees
    · refine .fails fun d hagrees => ?_
      simp only [attempt]
      exact hstep d hagrees
  | .rep least body, tokens, hanswers => by
    have hbody := attempt_decides hg body
    have hleads := body.leads_subset_references nullable
    obtain ⟨word, rest, pieces, htokens, hmore, hstep⟩ | ⟨hstep⟩ :=
      rounds_decides hbody least tokens hanswers
    · obtain ⟨word', rest', pieces', hrest, hyields, hnext⟩ :=
        roundsWhileAny_decides hbody rest (hanswers.again htokens hleads)
      refine .takes (word ++ word') rest' (pieces ++ pieces') ?_ (hmore _ _ hyields)
        fun d hagrees => takes_rep (hstep d hagrees) (hnext d (hagrees.again htokens hleads))
      rw [htokens, hrest, List.append_assoc]
    · exact .fails fun d hagrees => refuses_rep (hstep d hagrees)
  | .opt body, tokens, hanswers => by
    obtain ⟨word, rest, pieces, htokens, hyields, hstep⟩ | ⟨hstep⟩ :=
      attempt_decides hg body tokens hanswers
    · exact .takes word rest pieces htokens (.optSome hyields) fun d hagrees =>
        takes_opt (hstep d hagrees)
    · exact .takes [] tokens .nil rfl .optNone fun d hagrees =>
        takes_opt_of_refuses (hstep d hagrees)

/-- The items of a sequence, which leave the putting back to the sequence. -/
theorem attemptAll_decides (hg : g.Ranked nullable rank) :
    ∀ (items : List (Expr T)) (tokens : List T),
      AnswersFor g algebra d' (referencesOfAll items) (leadsOfAll nullable items) tokens →
      Decides (AgreesFor d' (referencesOfAll items) (leadsOfAll nullable items) tokens)
        (fun d => attemptAll d items) tokens (g.Yields algebra (.seq items)) Stops
  | [], tokens, _ => by
    refine .takes [] tokens .nil rfl .seqNil fun d _ => ?_
    simp only [attemptAll]
    exact takes_self tokens
  | item :: items, tokens, hanswers => by
    have hitem : ∀ {P : RuleId → List T → Prop},
        AtQuestions P (referencesOfAll (item :: items)) (leadsOfAll nullable (item :: items))
          tokens → AtQuestions P item.references (item.leads nullable) tokens := fun h =>
      h.mono (List.subset_append_left _ _) (List.subset_append_left _ _)
    obtain ⟨word, rest, pieces, htokens, hyields, hstep⟩ | ⟨hstep⟩ :=
      attempt_decides hg item tokens (hitem hanswers)
    · have hitems : ∀ {P : RuleId → List T → Prop},
          AtQuestions P (referencesOfAll (item :: items)) (leadsOfAll nullable (item :: items))
            tokens → AtQuestions P (referencesOfAll items) (leadsOfAll nullable items) rest := by
        intro P h
        refine h.next htokens (List.subset_append_right _ _)
          (leadsOfAll_subset_references nullable items) fun hword => ?_
        rw [leadsOfAll, if_pos (hg.mayBeEmpty_of_yields hyields hword)]
        exact List.subset_append_right _ _
      obtain ⟨word', rest', pieces', hrest, hmore, hnext⟩ | ⟨hnext⟩ :=
        attemptAll_decides hg items rest (hitems hanswers)
      · refine .takes (word ++ word') rest' (pieces ++ pieces') ?_ (.seqCons hyields hmore)
          fun d hagrees => takes_attemptAll_cons (hstep d (hitem hagrees)) (hnext d (hitems hagrees))
        rw [htokens, hrest, List.append_assoc]
      · exact .fails fun d hagrees =>
          stops_attemptAll_cons (hstep d (hitem hagrees)) (hnext d (hitems hagrees))
    · exact .fails fun d hagrees => stops_attemptAll_of_refuses (hstep d (hitem hagrees))

/-- The items of a choice. -/
theorem attemptFirst_decides (hg : g.Ranked nullable rank) :
    ∀ (items : List (Expr T)) (tokens : List T),
      AnswersFor g algebra d' (referencesOfAll items) (leadsOfAny nullable items) tokens →
      Decides (AgreesFor d' (referencesOfAll items) (leadsOfAny nullable items) tokens)
        (fun d => attemptFirst d items) tokens (g.Yields algebra (.choice items)) Refuses
  | [], tokens, _ => .fails fun d _ => ⟨.choice, fun p => by rw [attemptFirst]⟩
  | item :: items, tokens, hanswers => by
    have hitem : ∀ {P : RuleId → List T → Prop},
        AtQuestions P (referencesOfAll (item :: items)) (leadsOfAny nullable (item :: items))
          tokens → AtQuestions P item.references (item.leads nullable) tokens := fun h =>
      h.mono (List.subset_append_left _ _) (List.subset_append_left _ _)
    have hitems : ∀ {P : RuleId → List T → Prop},
        AtQuestions P (referencesOfAll (item :: items)) (leadsOfAny nullable (item :: items))
          tokens → AtQuestions P (referencesOfAll items) (leadsOfAny nullable items) tokens :=
      fun h => h.mono (List.subset_append_right _ _) (List.subset_append_right _ _)
    obtain ⟨word, rest, pieces, htokens, hyields, hstep⟩ | ⟨hstep⟩ :=
      attempt_decides hg item tokens (hitem hanswers)
    · exact .takes word rest pieces htokens (.choice List.mem_cons_self hyields)
        fun d hagrees => takes_attemptFirst_head (hstep d (hitem hagrees))
    · obtain ⟨word, rest, pieces, htokens, hyields, hnext⟩ | ⟨hnext⟩ :=
        attemptFirst_decides hg items tokens (hitems hanswers)
      · refine .takes word rest pieces htokens ?_ fun d hagrees p => ?_
        · cases hyields with
          | choice hmem h => exact .choice (List.mem_cons_of_mem _ hmem) h
        · rw [attemptFirst_of_refuses (hstep d (hitem hagrees))]
          exact hnext d (hitems hagrees) p
      · refine .fails fun d hagrees => ?_
        obtain ⟨why, hrefuses⟩ := hnext d (hitems hagrees)
        refine ⟨why, fun p => ?_⟩
        rw [attemptFirst_of_refuses (hstep d (hitem hagrees))]
        exact hrefuses p

end

end Expr

/-- The alternatives of a rule give a reply that the rule may give. -/
theorem attemptAlternatives_decides (hg : g.Ranked nullable rank) {r : RuleId} {rule : Rule T}
    (hrule : g.rule? r = some rule) (tokens : List T) :
    ∀ alternatives : List (Alternative T), alternatives ⊆ rule.alternatives →
      (∀ alternative ∈ alternatives, AnswersFor g algebra d' alternative.expr.references
        (alternative.expr.leads nullable) tokens) →
      ∃ reply, g.Answers algebra r tokens reply ∧
        ∀ d : ListDispatch T X,
          (∀ alternative ∈ alternatives, AgreesFor d' alternative.expr.references
            (alternative.expr.leads nullable) tokens d) →
          attemptAlternatives (algebraBuilder algebra) d r alternatives () tokens = reply
  | [], _, _ => ⟨_, Or.inr ⟨.rule, rfl⟩, fun _ _ => rfl⟩
  | alternative :: alternatives, hsubset, hanswers => by
    have hmem : alternative ∈ rule.alternatives := hsubset List.mem_cons_self
    obtain ⟨word, rest, pieces, htokens, hyields, hstep⟩ | ⟨hstep⟩ :=
      alternative.expr.attempt_decides hg tokens (hanswers alternative List.mem_cons_self)
    · refine ⟨_, Or.inl ⟨word, rest, _, htokens, .nonterm hrule hmem hyields, rfl⟩,
        fun d hagrees => ?_⟩
      have htakes := hstep d (hagrees alternative List.mem_cons_self)
        (Production.start r alternative.shape)
      rw [attemptAlternatives, htakes]
      rfl
    · obtain ⟨reply, hreply, hrest⟩ := attemptAlternatives_decides hg hrule tokens alternatives
        (fun a ha => hsubset (List.mem_cons_of_mem _ ha))
        (fun a ha => hanswers a (List.mem_cons_of_mem _ ha))
      refine ⟨reply, hreply, fun d hagrees => ?_⟩
      obtain ⟨why, hrefuses⟩ := hstep d (hagrees alternative List.mem_cons_self)
      rw [attemptAlternatives, hrefuses (Production.start r alternative.shape)]
      exact hrest d fun a ha => hagrees a (List.mem_cons_of_mem _ ha)

end Decides

/-! ## Rules -/

namespace Grammar

/-- A rule on tokens in a list, with nodes that are values. -/
abbrev matchList (g : Grammar T) (algebra : Reduction T X → X) : ListDispatch T X :=
  g.matchRule (algebraBuilder algebra)

variable {g : Grammar T} {algebra : Reduction T X → X} {nullable : RuleId → Bool}
  {rank : RuleId → Nat}

/-- The dispatcher inside of a rule agrees with the grammar, if the rules that are started before a
token is taken do so. -/
theorem dispatchWithin_agrees {tokens : List T} {fresh references leads : List RuleId} {r : RuleId}
    (h : ∀ r' ∈ leads, g.matchFresh (algebraBuilder algebra) tokens.length (fresh.erase r) r' ()
      tokens = g.matchList algebra r' () tokens) :
    AgreesFor (g.matchList algebra) references leads tokens
      (g.dispatchWithin (algebraBuilder algebra) tokens.length fresh r) := by
  constructor
  · intro r' _ rest _ hless
    rw [dispatchWithin, TokenStream.remaining_list, if_pos hless]
    rfl
  · intro _ r' hr'
    rw [dispatchWithin, TokenStream.remaining_list, if_neg (Nat.lt_irrefl _)]
    exact h r' hr'

/-- **The rules in progress do not matter**, as long as no rule of the same or a lower rank is among
them. -/
theorem Ranked.matchFresh_eq (hg : g.Ranked nullable rank) {tokens : List T} (hne : tokens ≠ [])
    {r : RuleId} {rule : Rule T} (hrule : g.rule? r = some rule) {fresh : List RuleId}
    (hfresh : ∀ r' ∈ g.ids, rank r' ≤ rank r → r' ∈ fresh) :
    g.matchFresh (algebraBuilder algebra) tokens.length fresh r () tokens =
        attemptAlternatives (algebraBuilder algebra) (g.matchList algebra) r rule.alternatives ()
          tokens ∧
      g.Answers algebra r tokens (g.matchList algebra r () tokens) := by
  induction hlength : tokens.length using Nat.strongRecOn generalizing tokens r rule fresh with
  | _ length ihlength =>
    subst hlength
    induction hrank : rank r using Nat.strongRecOn generalizing r rule fresh with
    | _ height ihrank =>
      subst hrank
      have hmem := mem_rules_of_rule? hrule
      have hid : r ∈ g.ids := mem_ids.mpr (Array.getElem?_eq_some_iff.mp hrule).1
      have hlater : ∀ alternative ∈ rule.alternatives, ∀ r' ∈ alternative.expr.references,
          ∀ rest : List T, rest ≠ [] → rest.length < tokens.length →
            g.Answers algebra r' rest (g.matchList algebra r' () rest) := by
        intro alternative ha r' hr' rest hrest hless
        obtain ⟨rule', hrule'⟩ := exists_rule?_of_mem_ids (mem_ids_of_references hmem ha hr')
        exact (ihlength _ hless hrest hrule' (fun _ h _ => h) rfl).2
      have hhere : ∀ alternative ∈ rule.alternatives, ∀ r' ∈ alternative.expr.leads nullable,
          ∀ fresh : List RuleId, (∀ r'' ∈ g.ids, rank r'' ≤ rank r → r'' ∈ fresh) →
            g.matchFresh (algebraBuilder algebra) tokens.length (fresh.erase r) r' () tokens =
                g.matchList algebra r' () tokens ∧
              g.Answers algebra r' tokens (g.matchList algebra r' () tokens) := by
        intro alternative ha r' hr' fresh hfresh
        have hless := hg.descends rule hmem alternative ha r' hr'
        rw [id_of_rule? hrule] at hless
        obtain ⟨rule', hrule'⟩ := exists_rule?_of_mem_ids
          (mem_ids_of_references hmem ha (alternative.expr.leads_subset_references nullable hr'))
        have herase : ∀ r'' ∈ g.ids, rank r'' ≤ rank r' → r'' ∈ fresh.erase r := by
          intro r'' hr'' hle
          have hneq : r'' ≠ r := by
            rintro rfl
            omega
          exact (List.mem_erase_of_ne hneq).mpr (hfresh r'' hr'' (by omega))
        obtain ⟨hrun, hreply⟩ := ihrank _ hless hrule' herase rfl
        obtain ⟨hall, -⟩ := ihrank _ hless hrule' (fun _ h _ => h) rfl
        exact ⟨hrun.trans hall.symm, hreply⟩
      obtain ⟨reply, hreply, hsame⟩ := attemptAlternatives_decides hg hrule tokens
        rule.alternatives (List.Subset.refl _) fun alternative ha =>
          ⟨hlater alternative ha, fun _ r' hr' =>
            (hhere alternative ha r' hr' g.ids fun _ h _ => h).2⟩
      -- Whichever rules are fresh, the dispatcher inside of the rule is as good as the grammar.
      have hrun : ∀ fresh : List RuleId, (∀ r' ∈ g.ids, rank r' ≤ rank r → r' ∈ fresh) →
          g.matchFresh (algebraBuilder algebra) tokens.length fresh r () tokens = reply := by
        intro fresh hfresh
        rw [matchFresh_eq_dispatchWithin (TokenStream.atEnd_of_ne_nil hne) hrule
          (hfresh r hid (Nat.le_refl _)), id_of_rule? hrule]
        exact hsame _ fun alternative ha => dispatchWithin_agrees fun r' hr' =>
          (hhere alternative ha r' hr' fresh hfresh).1
      have hself : attemptAlternatives (algebraBuilder algebra) (g.matchList algebra) r
          rule.alternatives () tokens = reply :=
        hsame _ fun _ _ => ⟨fun _ _ _ _ _ => rfl, fun _ _ _ => rfl⟩
      have hmatch : g.matchList algebra r () tokens = reply := hrun g.ids fun _ h _ => h
      exact ⟨(hrun fresh hfresh).trans hself.symm, hmatch ▸ hreply⟩

/-- **A rule matches through its alternatives.** -/
theorem Ranked.run_eq (hg : g.Ranked nullable rank) {tokens : List T} (hne : tokens ≠ [])
    {r : RuleId} {rule : Rule T} (hrule : g.rule? r = some rule) :
    g.matchList algebra r () tokens =
      attemptAlternatives (algebraBuilder algebra) (g.matchList algebra) r rule.alternatives ()
        tokens :=
  (hg.matchFresh_eq hne hrule fun _ h _ => h).1

/-- **What a rule takes is a word that it stands for**, and if it takes nothing that is a mismatch:
there is no left recursion. -/
theorem Ranked.run_answers (hg : g.Ranked nullable rank) {tokens : List T} (hne : tokens ≠ [])
    {r : RuleId} (hr : r ∈ g.ids) :
    g.Answers algebra r tokens (g.matchList algebra r () tokens) := by
  obtain ⟨rule, hrule⟩ := exists_rule?_of_mem_ids hr
  exact (hg.matchFresh_eq hne hrule fun _ h _ => h).2

/-- An expression of the grammar takes a word that it stands for, or it refuses. -/
theorem Ranked.attempt_decides (hg : g.Ranked nullable rank) {e : Expr T}
    (he : e.references ⊆ g.ids) (tokens : List T) :
    (∃ word rest pieces, tokens = word ++ rest ∧ g.Yields algebra e word pieces ∧
      Takes (fun a => e.attempt (g.matchList algebra) a) tokens pieces rest) ∨
      Refuses (fun a => e.attempt (g.matchList algebra) a) tokens := by
  have hanswers : AnswersFor g algebra (g.matchList algebra) e.references (e.leads nullable)
      tokens :=
    ⟨fun r hr rest hrest _ => hg.run_answers hrest (he hr),
      fun hne r hr => hg.run_answers hne (he (e.leads_subset_references nullable hr))⟩
  have hself : AgreesFor (g.matchList algebra) e.references (e.leads nullable) tokens
      (g.matchList algebra) :=
    ⟨fun _ _ _ _ _ => rfl, fun _ _ _ => rfl⟩
  obtain ⟨word, rest, pieces, htokens, hyields, hstep⟩ | ⟨hstep⟩ :=
    e.attempt_decides hg tokens hanswers
  · exact Or.inl ⟨word, rest, pieces, htokens, hyields, hstep _ hself⟩
  · exact Or.inr (hstep _ hself)

end Grammar

end GrammarKit
