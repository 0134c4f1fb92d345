import GrammarKit.Proofs.Calc.Grammar
import GrammarKit.Proofs.Nullability

/-!
# The parser and parsing expression grammars

The expressions of a grammar have a meaning as parsing expressions: at each place an expression
recognises some of the tokens ahead, or it fails.  A choice goes to its first item that does not fail,
a repetition takes as much as it can, and a rule is a choice between its alternatives.  The relation
`Grammar.Peg` says this, one clause for each way, and knows nothing of streams and nodes.

The parser departs from it in three places.  A nonterminal is refused at the end of the tokens, even
if the rule could do without any.  A repetition stops there without a further round.  And a round that
takes nothing is the last, where the meaning would be a round without end.  None of this shows if no
rule and no body of a repetition may match without taking a token: then at the end of the tokens they
fail anyway, and each round takes something.

* `Grammar.Peg`: what a parsing expression recognises.
* `Grammar.Progressive`: rules and repeated bodies take tokens.
* `Grammar.exists_peg`: without left recursion an expression recognises something or fails.
* `Grammar.Peg.follows`: the parser does what the expression says.
* `matchRule_iff_peg`: a rule matches just what it recognises.
-/

namespace GrammarKit

variable {T N W S X : Type}

/-! ## 1.  What an expression recognises -/

namespace Expr

mutual

/-- The bodies of the repetitions in an expression, at any depth. -/
def bodies : Expr T → List (Expr T)
  | .empty => []
  | .term _ => []
  | .nonterm _ => []
  | .seq items => bodiesOfAll items
  | .choice items => bodiesOfAll items
  | .rep _ body => body :: body.bodies
  | .opt body => body.bodies

/-- The bodies of the repetitions in a list of expressions. -/
def bodiesOfAll : List (Expr T) → List (Expr T)
  | [] => []
  | item :: items => item.bodies ++ bodiesOfAll items

end

theorem bodiesOfAll_eq_flatMap (items : List (Expr T)) :
    bodiesOfAll items = items.flatMap bodies := by
  induction items with
  | nil => rfl
  | cons item items ih => rw [bodiesOfAll, ih, List.flatMap_cons]

end Expr

namespace Grammar

/-- **What a parsing expression recognises**: the tokens before `rest`, with `some rest`, or it fails,
with `none`. -/
inductive Peg (g : Grammar T) : Expr T → List T → Option (List T) → Prop where
  | empty (tokens : List T) : Peg g .empty tokens (some tokens)
  | term {accepts : T → Bool} {token : T} (tokens : List T) (h : accepts token = true) :
      Peg g (.term accepts) (token :: tokens) (some tokens)
  | termOther {accepts : T → Bool} {token : T} (tokens : List T) (h : accepts token = false) :
      Peg g (.term accepts) (token :: tokens) none
  | termEnd (accepts : T → Bool) : Peg g (.term accepts) [] none
  | nonterm {r : RuleId} {rule : Rule T} {tokens : List T} {result : Option (List T)}
      (hrule : g.rule? r = some rule)
      (h : Peg g (.choice (rule.alternatives.map Alternative.expr)) tokens result) :
      Peg g (.nonterm r) tokens result
  | seqNil (tokens : List T) : Peg g (.seq []) tokens (some tokens)
  | seqCons {item : Expr T} {items : List (Expr T)} {tokens rest : List T}
      {result : Option (List T)} (hitem : Peg g item tokens (some rest))
      (hitems : Peg g (.seq items) rest result) : Peg g (.seq (item :: items)) tokens result
  | seqFails {item : Expr T} {tokens : List T} (items : List (Expr T))
      (hitem : Peg g item tokens none) : Peg g (.seq (item :: items)) tokens none
  | choiceNil (tokens : List T) : Peg g (.choice []) tokens none
  | choiceFirst {item : Expr T} {tokens rest : List T} (items : List (Expr T))
      (hitem : Peg g item tokens (some rest)) : Peg g (.choice (item :: items)) tokens (some rest)
  | choiceNext {item : Expr T} {items : List (Expr T)} {tokens : List T}
      {result : Option (List T)} (hitem : Peg g item tokens none)
      (hitems : Peg g (.choice items) tokens result) : Peg g (.choice (item :: items)) tokens result
  | repMust {least : Nat} {body : Expr T} {tokens rest : List T} {result : Option (List T)}
      (hbody : Peg g body tokens (some rest)) (hrest : Peg g (.rep least body) rest result) :
      Peg g (.rep (least + 1) body) tokens result
  | repFails {body : Expr T} {tokens : List T} (least : Nat) (hbody : Peg g body tokens none) :
      Peg g (.rep (least + 1) body) tokens none
  | repMore {body : Expr T} {tokens rest : List T} {result : Option (List T)}
      (hbody : Peg g body tokens (some rest)) (hrest : Peg g (.rep 0 body) rest result) :
      Peg g (.rep 0 body) tokens result
  | repStop {body : Expr T} {tokens : List T} (hbody : Peg g body tokens none) :
      Peg g (.rep 0 body) tokens (some tokens)
  | optSome {body : Expr T} {tokens rest : List T} (hbody : Peg g body tokens (some rest)) :
      Peg g (.opt body) tokens (some rest)
  | optNone {body : Expr T} {tokens : List T} (hbody : Peg g body tokens none) :
      Peg g (.opt body) tokens (some tokens)

/-- **Rules and repeated bodies take tokens.** -/
structure Progressive (g : Grammar T) : Prop where
  rules : ∀ r ∈ g.ids, ¬ g.Nullable (.nonterm r)
  bodies : ∀ rule ∈ g.rules.toList, ∀ alternative ∈ rule.alternatives,
    ∀ body ∈ alternative.expr.bodies, ¬ g.Nullable body

/-- An expression that may stand in a rule: it refers to rules of the grammar, and its repeated bodies
take tokens. -/
structure Admits (g : Grammar T) (e : Expr T) : Prop where
  references : e.references ⊆ g.ids
  bodies : ∀ body ∈ e.bodies, ¬ g.Nullable body

variable {g : Grammar T}

theorem admits_seq_iff {items : List (Expr T)} :
    g.Admits (.seq items) ↔ ∀ item ∈ items, g.Admits item := by
  constructor
  · rintro ⟨hreferences, hbodies⟩ item hmem
    rw [Expr.references, Expr.referencesOfAll_eq_flatMap] at hreferences
    rw [Expr.bodies, Expr.bodiesOfAll_eq_flatMap] at hbodies
    exact ⟨fun r hr => hreferences (List.mem_flatMap.mpr ⟨item, hmem, hr⟩),
      fun body hbody => hbodies body (List.mem_flatMap.mpr ⟨item, hmem, hbody⟩)⟩
  · intro h
    constructor
    · rw [Expr.references, Expr.referencesOfAll_eq_flatMap]
      intro r hr
      obtain ⟨item, hmem, hr⟩ := List.mem_flatMap.mp hr
      exact (h item hmem).references hr
    · rw [Expr.bodies, Expr.bodiesOfAll_eq_flatMap]
      intro body hbody
      obtain ⟨item, hmem, hbody⟩ := List.mem_flatMap.mp hbody
      exact (h item hmem).bodies body hbody

theorem admits_choice_iff {items : List (Expr T)} :
    g.Admits (.choice items) ↔ ∀ item ∈ items, g.Admits item :=
  ⟨fun h => admits_seq_iff.mp ⟨h.references, h.bodies⟩, fun h =>
    ⟨(admits_seq_iff.mpr h).references, (admits_seq_iff.mpr h).bodies⟩⟩

theorem Admits.body {least : Nat} {body : Expr T} (h : g.Admits (.rep least body)) :
    g.Admits body ∧ ¬ g.Nullable body :=
  ⟨⟨h.references, fun _ hmem => h.bodies _ (List.mem_cons_of_mem _ hmem)⟩,
    h.bodies body List.mem_cons_self⟩

theorem Progressive.admits_alternatives (hg : g.Progressive) {r : RuleId} {rule : Rule T}
    (hrule : g.rule? r = some rule) :
    g.Admits (.choice (rule.alternatives.map Alternative.expr)) := by
  refine admits_choice_iff.mpr fun item hitem => ?_
  obtain ⟨alternative, hmem, rfl⟩ := List.mem_map.mp hitem
  have hrules := mem_rules_of_rule? hrule
  exact ⟨fun _ hr => mem_ids_of_references hrules hmem hr, hg.bodies rule hrules alternative hmem⟩

/-- The conditions can be computed from any solution of the equations for nullable rules. -/
theorem Ranked.progressive {nullable : RuleId → Bool} {rank : RuleId → Nat}
    (hg : g.Ranked nullable rank) (hrules : ∀ r ∈ g.ids, nullable r = false)
    (hbodies : ∀ rule ∈ g.rules.toList, ∀ alternative ∈ rule.alternatives,
      ∀ body ∈ alternative.expr.bodies, body.mayBeEmpty nullable = false) : g.Progressive where
  rules r hr h := by
    have hnullable : nullable r = true := h.mayBeEmpty hg.closed
    rw [hrules r hr] at hnullable
    cases hnullable
  bodies rule hrule alternative hmem body hbody h := by
    have hempty := h.mayBeEmpty hg.closed
    rw [hbodies rule hrule alternative hmem body hbody] at hempty
    cases hempty

/-! ## 2.  What is recognised is taken from the front -/

/-- What is recognised is a front part of the tokens, and only a nullable expression recognises
nothing. -/
theorem Peg.front {e : Expr T} {tokens : List T} {result : Option (List T)}
    (h : g.Peg e tokens result) :
    ∀ rest, result = some rest → ∃ word, tokens = word ++ rest ∧ (word = [] → g.Nullable e) := by
  induction h with
  | empty => rintro _ ⟨⟩; exact ⟨[], rfl, fun _ => .empty⟩
  | @term _ token _ _ => rintro _ ⟨⟩; exact ⟨[token], rfl, fun h => nomatch h⟩
  | termOther => rintro _ ⟨⟩
  | termEnd => rintro _ ⟨⟩
  | nonterm hrule _ ih =>
    intro rest hrest
    obtain ⟨word, htokens, hempty⟩ := ih rest hrest
    refine ⟨word, htokens, fun hword => ?_⟩
    obtain ⟨item, hchoice, hitem⟩ := nullable_choice_iff.mp (hempty hword)
    obtain ⟨alternative, hmem, rfl⟩ := List.mem_map.mp hchoice
    exact .nonterm hrule hmem hitem
  | seqNil => rintro _ ⟨⟩; exact ⟨[], rfl, fun _ => .seq fun _ h => nomatch h⟩
  | seqCons _ _ ihitem ihitems =>
    intro rest hrest
    obtain ⟨front, hfront, hitem⟩ := ihitem _ rfl
    obtain ⟨back, hback, hitems⟩ := ihitems rest hrest
    refine ⟨front ++ back, by rw [hfront, hback, List.append_assoc], fun hword => ?_⟩
    obtain ⟨hnil, hnil'⟩ := List.append_eq_nil_iff.mp hword
    exact .seq (List.forall_mem_cons.mpr ⟨hitem hnil, nullable_seq_iff.mp (hitems hnil')⟩)
  | seqFails => rintro _ ⟨⟩
  | choiceNil => rintro _ ⟨⟩
  | choiceFirst _ _ ih =>
    intro rest hrest
    obtain ⟨word, htokens, hempty⟩ := ih rest hrest
    exact ⟨word, htokens, fun hword => .choice List.mem_cons_self (hempty hword)⟩
  | choiceNext _ _ _ ih =>
    intro rest hrest
    obtain ⟨word, htokens, hempty⟩ := ih rest hrest
    refine ⟨word, htokens, fun hword => ?_⟩
    obtain ⟨item, hmem, hitem⟩ := nullable_choice_iff.mp (hempty hword)
    exact .choice (List.mem_cons_of_mem _ hmem) hitem
  | repMust _ _ ihbody ihrest =>
    intro rest hrest
    obtain ⟨front, hfront, hbody⟩ := ihbody _ rfl
    obtain ⟨back, hback, -⟩ := ihrest rest hrest
    refine ⟨front ++ back, by rw [hfront, hback, List.append_assoc], fun hword => ?_⟩
    exact .rep _ (hbody (List.append_eq_nil_iff.mp hword).1)
  | repFails => rintro _ ⟨⟩
  | repMore _ _ ihbody ihrest =>
    intro rest hrest
    obtain ⟨front, hfront, -⟩ := ihbody _ rfl
    obtain ⟨back, hback, -⟩ := ihrest rest hrest
    exact ⟨front ++ back, by rw [hfront, hback, List.append_assoc], fun _ => .repZero _⟩
  | repStop => rintro _ ⟨⟩; exact ⟨[], rfl, fun _ => .repZero _⟩
  | optSome _ ih =>
    intro rest hrest
    obtain ⟨word, htokens, -⟩ := ih rest hrest
    exact ⟨word, htokens, fun _ => .opt _⟩
  | optNone => rintro _ ⟨⟩; exact ⟨[], rfl, fun _ => .opt _⟩

/-- An expression that is not nullable takes tokens. -/
theorem Peg.length_lt {e : Expr T} {tokens rest : List T} (h : g.Peg e tokens (some rest))
    (he : ¬ g.Nullable e) : rest.length < tokens.length := by
  obtain ⟨word, rfl, hempty⟩ := h.front rest rfl
  have hpos := List.length_pos_iff.mpr fun hword => he (hempty hword)
  rw [List.length_append]
  omega

/-! ## 3.  Without left recursion there is a result -/

/-- An expression has a result on these tokens. -/
def HasResult (g : Grammar T) (e : Expr T) (tokens : List T) : Prop :=
  ∃ result, g.Peg e tokens result

theorem HasResult.seq_cons {item : Expr T} {items : List (Expr T)} {tokens : List T}
    (hitem : g.HasResult item tokens)
    (hlater : ∀ rest : List T, rest.length < tokens.length → g.HasResult (.seq items) rest)
    (hhere : g.Nullable item → g.HasResult (.seq items) tokens) :
    g.HasResult (.seq (item :: items)) tokens := by
  obtain ⟨_ | rest, hitem⟩ := hitem
  · exact ⟨none, .seqFails items hitem⟩
  · have hitems : g.HasResult (.seq items) rest := by
      obtain ⟨word, rfl, hempty⟩ := hitem.front rest rfl
      by_cases hword : word = []
      · subst hword
        exact hhere (hempty rfl)
      · have hpos := List.length_pos_iff.mpr hword
        exact hlater rest (by rw [List.length_append]; omega)
    obtain ⟨result, hitems⟩ := hitems
    exact ⟨result, .seqCons hitem hitems⟩

theorem HasResult.choice_cons {item : Expr T} {items : List (Expr T)} {tokens : List T}
    (hitem : g.HasResult item tokens) (hitems : g.HasResult (.choice items) tokens) :
    g.HasResult (.choice (item :: items)) tokens := by
  obtain ⟨_ | rest, hitem⟩ := hitem
  · obtain ⟨result, hitems⟩ := hitems
    exact ⟨result, .choiceNext hitem hitems⟩
  · exact ⟨some rest, .choiceFirst items hitem⟩

theorem HasResult.rep {body : Expr T} {tokens : List T} (hbody : g.HasResult body tokens)
    (hempty : ¬ g.Nullable body) (least : Nat)
    (hlater : ∀ (rest : List T) (least : Nat), rest.length < tokens.length →
      g.HasResult (.rep least body) rest) :
    g.HasResult (.rep least body) tokens := by
  obtain ⟨_ | rest, hbody⟩ := hbody
  · cases least with
    | zero => exact ⟨some tokens, .repStop hbody⟩
    | succ least => exact ⟨none, .repFails least hbody⟩
  · have hless := hbody.length_lt hempty
    cases least with
    | zero =>
      obtain ⟨result, hrest⟩ := hlater rest 0 hless
      exact ⟨result, .repMore hbody hrest⟩
    | succ least =>
      obtain ⟨result, hrest⟩ := hlater rest least hless
      exact ⟨result, .repMust hbody hrest⟩

theorem HasResult.opt {body : Expr T} {tokens : List T} (hbody : g.HasResult body tokens) :
    g.HasResult (.opt body) tokens := by
  obtain ⟨_ | rest, hbody⟩ := hbody
  · exact ⟨some tokens, .optNone hbody⟩
  · exact ⟨some rest, .optSome hbody⟩

end Grammar

namespace Expr

open Grammar

variable {g : Grammar T} {tokens : List T}

mutual

/-- An expression has a result, if the rules have one that it starts before a token is taken, and
everything has one on fewer tokens. -/
theorem hasResult
    (hlater : ∀ rest : List T, rest.length < tokens.length → ∀ e, g.Admits e → g.HasResult e rest) :
    ∀ e : Expr T, g.Admits e → (∀ r ∈ e.leads g.nullable, g.HasResult (.nonterm r) tokens) →
      g.HasResult e tokens
  | .empty, _, _ => ⟨_, .empty tokens⟩
  | .term accepts, _, _ => by
    cases tokens with
    | nil => exact ⟨_, .termEnd accepts⟩
    | cons token tokens =>
      cases h : accepts token with
      | true => exact ⟨_, .term tokens h⟩
      | false => exact ⟨_, .termOther tokens h⟩
  | .nonterm r, _, hhere => hhere r (List.mem_singleton_self r)
  | .seq items, he, hhere => hasResult_seq hlater items (admits_seq_iff.mp he) hhere
  | .choice items, he, hhere => hasResult_choice hlater items (admits_choice_iff.mp he) hhere
  | .rep least body, he, hhere => by
    obtain ⟨hbody, hempty⟩ := he.body
    exact (hasResult hlater body hbody hhere).rep hempty least fun rest least hless =>
      hlater rest hless (.rep least body) ⟨he.references, he.bodies⟩
  | .opt body, he, hhere => (hasResult hlater body ⟨he.references, he.bodies⟩ hhere).opt

theorem hasResult_seq
    (hlater : ∀ rest : List T, rest.length < tokens.length → ∀ e, g.Admits e → g.HasResult e rest) :
    ∀ items : List (Expr T), (∀ item ∈ items, g.Admits item) →
      (∀ r ∈ leadsOfAll g.nullable items, g.HasResult (.nonterm r) tokens) →
      g.HasResult (.seq items) tokens
  | [], _, _ => ⟨_, .seqNil tokens⟩
  | item :: items, hitems, hhere => by
    obtain ⟨hfirst, hrest⟩ := List.forall_mem_cons.mp hitems
    refine (hasResult hlater item hfirst fun r hr =>
      hhere r (List.mem_append_left _ hr)).seq_cons
        (fun rest hless => hlater rest hless _ (admits_seq_iff.mpr hrest)) fun hempty => ?_
    refine hasResult_seq hlater items hrest fun r hr => hhere r ?_
    rw [leadsOfAll, if_pos (item.mayBeEmpty_nullable_iff.mpr hempty)]
    exact List.mem_append_right _ hr

theorem hasResult_choice
    (hlater : ∀ rest : List T, rest.length < tokens.length → ∀ e, g.Admits e → g.HasResult e rest) :
    ∀ items : List (Expr T), (∀ item ∈ items, g.Admits item) →
      (∀ r ∈ leadsOfAny g.nullable items, g.HasResult (.nonterm r) tokens) →
      g.HasResult (.choice items) tokens
  | [], _, _ => ⟨_, .choiceNil tokens⟩
  | item :: items, hitems, hhere => by
    obtain ⟨hfirst, hrest⟩ := List.forall_mem_cons.mp hitems
    exact (hasResult hlater item hfirst fun r hr =>
      hhere r (List.mem_append_left _ hr)).choice_cons
        (hasResult_choice hlater items hrest fun r hr => hhere r (List.mem_append_right _ hr))

end

end Expr

namespace Grammar

variable {g : Grammar T} {rank : RuleId → Nat}

/-- **Without left recursion an expression recognises something or fails.**  The tokens become fewer,
or the rank of the rules goes down. -/
theorem exists_peg (hg : g.Ranked g.nullable rank) (hprogress : g.Progressive) {e : Expr T}
    (he : g.Admits e) (tokens : List T) : ∃ result, g.Peg e tokens result := by
  induction hlength : tokens.length using Nat.strongRecOn generalizing tokens e with
  | _ length ihlength =>
    subst hlength
    have hlater : ∀ rest : List T, rest.length < tokens.length → ∀ e, g.Admits e →
        g.HasResult e rest := fun rest hless e he => ihlength _ hless he rest rfl
    have hrules : ∀ r ∈ g.ids, g.HasResult (.nonterm r) tokens := by
      intro r hr
      induction hrank : rank r using Nat.strongRecOn generalizing r with
      | _ height ihrank =>
        subst hrank
        obtain ⟨rule, hrule⟩ := exists_rule?_of_mem_ids hr
        have hadmits := hprogress.admits_alternatives hrule
        obtain ⟨result, h⟩ := Expr.hasResult hlater _ hadmits fun r' hr' => by
          obtain ⟨item, hitem, hlead⟩ := Expr.exists_mem_of_mem_leadsOfAny hr'
          obtain ⟨alternative, hmem, rfl⟩ := List.mem_map.mp hitem
          have hless := hg.lt_of_leadsTo ⟨rule, hrule, alternative, hmem, hlead⟩
          exact ihrank _ hless r' (mem_ids_of_leadsTo ⟨rule, hrule, alternative, hmem, hlead⟩) rfl
        exact ⟨result, .nonterm hrule h⟩
    exact Expr.hasResult hlater e he fun r hr =>
      hrules r (he.references (e.leads_subset_references g.nullable hr))

end Grammar

/-! ## 4.  The parser does what the expression says -/

/-- `step` takes the tokens before the rest that is to be left, or else it `fails`. -/
def Settles (fails : ListStep T X → List T → Prop) (step : ListStep T X) (tokens : List T) :
    Option (List T) → Prop
  | some rest => ∃ pieces, Takes step tokens pieces rest
  | none => fails step tokens

/-- A rule matches the tokens before the rest that is to be left, or else it does not match. -/
def Reply.Settles (tokens : List T) (reply : Reply X Unit (List T)) : Option (List T) → Prop
  | some rest => ∃ value, reply = ⟨.matched value, (), rest⟩
  | none => ∃ why, reply = ⟨.noMatch why, (), tokens⟩

/-- The items of a choice refuse, up to the one that takes tokens. -/
inductive SettlesFirst (d : ListDispatch T X) (tokens : List T) :
    List (Expr T) → Option (List T) → Prop
  | nil : SettlesFirst d tokens [] none
  | first {item : Expr T} (items : List (Expr T)) {pieces : Pieces T X} {rest : List T}
      (hitem : Takes (item.attempt d) tokens pieces rest) :
      SettlesFirst d tokens (item :: items) (some rest)
  | next {item : Expr T} {items : List (Expr T)} {result : Option (List T)}
      (hitem : Refuses (item.attempt d) tokens) (hitems : SettlesFirst d tokens items result) :
      SettlesFirst d tokens (item :: items) result

/-- The rounds of a repetition take tokens, the least number of them and then the others, or one of
the former refuses. -/
inductive SettlesRounds (step : ListStep T X) : Nat → List T → Option (List T) → Prop
  | more {tokens rest : List T} {pieces : Pieces T X}
      (h : Takes (Attempt.roundsWhileAny step) tokens pieces rest) :
      SettlesRounds step 0 tokens (some rest)
  | round {least : Nat} {tokens rest : List T} {pieces : Pieces T X} {result : Option (List T)}
      (hround : Takes step tokens pieces rest) (hrest : SettlesRounds step least rest result) :
      SettlesRounds step (least + 1) tokens result
  | stops (least : Nat) {tokens : List T} (h : Refuses step tokens) :
      SettlesRounds step (least + 1) tokens none

theorem SettlesFirst.settles {d : ListDispatch T X} {tokens : List T} {items : List (Expr T)}
    {result : Option (List T)} (h : SettlesFirst d tokens items result) :
    Settles Refuses (Expr.attemptFirst d items) tokens result := by
  induction h with
  | nil => exact ⟨.choice, fun p => by rw [Expr.attemptFirst]⟩
  | first items hitem => exact ⟨_, Expr.takes_attemptFirst_head hitem⟩
  | @next item items result hitem _ ih =>
    cases result with
    | none =>
      refine ih.imp fun why hrefuses p => ?_
      rw [Expr.attemptFirst_of_refuses hitem, hrefuses p]
    | some rest =>
      refine ih.imp fun pieces htakes p => ?_
      rw [Expr.attemptFirst_of_refuses hitem, htakes p]

/-- The alternatives of a rule settle as a choice between their expressions does. -/
theorem SettlesFirst.attemptAlternatives {d : ListDispatch T X} {tokens : List T}
    {result : Option (List T)} (algebra : Reduction T X → X) (r : RuleId) :
    ∀ {alternatives : List (Alternative T)},
      SettlesFirst d tokens (alternatives.map Alternative.expr) result →
      (attemptAlternatives (algebraBuilder algebra) d r alternatives () tokens).Settles tokens
        result
  | [], .nil => ⟨.rule, rfl⟩
  | alternative :: _, .first _ hitem => by
    rw [GrammarKit.attemptAlternatives, hitem (Production.start r alternative.shape)]
    exact ⟨_, rfl⟩
  | alternative :: _, .next ⟨_, hrefuses⟩ hitems => by
    rw [GrammarKit.attemptAlternatives, hrefuses (Production.start r alternative.shape)]
    exact hitems.attemptAlternatives algebra r

theorem SettlesRounds.takes {step : ListStep T X} {least : Nat} {tokens next : List T}
    (h : SettlesRounds step least tokens (some next)) :
    ∃ rest pieces more, Takes (Attempt.rounds step least) tokens pieces rest ∧
      Takes (Attempt.roundsWhileAny step) rest more next := by
  induction least generalizing tokens with
  | zero =>
    cases h with
    | more h => exact ⟨tokens, .nil, _, takes_self tokens, h⟩
  | succ least ih =>
    cases h with
    | round hround hrest =>
      obtain ⟨_, _, _, hleast, hmore⟩ := ih hrest
      exact ⟨_, _, _, hround.rounds_succ hleast, hmore⟩

theorem SettlesRounds.fails {step : ListStep T X} {least : Nat} {tokens : List T}
    (h : SettlesRounds step least tokens none) : Stops (Attempt.rounds step least) tokens := by
  induction least generalizing tokens with
  | zero => cases h
  | succ least ih =>
    cases h with
    | round hround hrest => exact hround.rounds_stops (ih hrest)
    | stops _ h => exact h.rounds_stops

namespace Expr

/-- **The parser does what an expression says**, as it is seen from inside of the expression. -/
def Follows (d : ListDispatch T X) : Expr T → List T → Option (List T) → Prop
  | .seq items => Settles Stops (attemptAll d items)
  | .choice items => fun tokens => SettlesFirst d tokens items
  | .rep least body => SettlesRounds (body.attempt d) least
  | .empty => Settles Refuses (empty.attempt d)
  | .term accepts => Settles Refuses ((term accepts).attempt d)
  | .nonterm r => Settles Refuses ((nonterm r).attempt d)
  | .opt body => Settles Refuses ((opt body).attempt d)

variable {d : ListDispatch T X} {tokens : List T} {result : Option (List T)}

theorem Follows.settles {e : Expr T} (h : e.Follows d tokens result) :
    Settles Refuses (e.attempt d) tokens result := by
  cases e with
  | empty => exact h
  | term accepts => exact h
  | nonterm r => exact h
  | opt body => exact h
  | seq items =>
    cases result with
    | none => exact refuses_seq h
    | some rest => exact h.imp fun _ => takes_seq
  | choice items =>
    have hattempt : (choice items).attempt d = attemptFirst d items := by
      funext a
      rw [attempt]
    rw [hattempt]
    exact SettlesFirst.settles h
  | rep least body =>
    cases result with
    | none => exact refuses_rep (SettlesRounds.fails h)
    | some next =>
      obtain ⟨_, _, _, hleast, hmore⟩ := SettlesRounds.takes h
      exact ⟨_, takes_rep hleast hmore⟩

theorem follows_seq_cons {item : Expr T} {items : List (Expr T)} {rest : List T}
    (hitem : item.Follows d tokens (some rest)) (hitems : (seq items).Follows d rest result) :
    (seq (item :: items)).Follows d tokens result := by
  obtain ⟨pieces, htakes⟩ := hitem.settles
  cases result with
  | none => exact stops_attemptAll_cons htakes hitems
  | some next =>
    obtain ⟨more, hmore⟩ := hitems
    exact ⟨pieces ++ more, takes_attemptAll_cons htakes hmore⟩

/-- A nonterminal is refused at the end of the tokens, and elsewhere it does what the rule replies. -/
theorem follows_nonterm {r : RuleId} (hend : tokens = [] → result = none)
    (hreply : tokens ≠ [] → (d r () tokens).Settles tokens result) :
    (nonterm r).Follows d tokens result := by
  by_cases hne : tokens = []
  · subst hne
    rw [hend rfl]
    exact refuses_nonterm_nil r
  · cases result with
    | none =>
      obtain ⟨why, h⟩ := hreply hne
      exact refuses_nonterm hne h
    | some rest =>
      obtain ⟨value, h⟩ := hreply hne
      exact ⟨_, takes_nonterm hne h⟩

end Expr

namespace Grammar

variable {g : Grammar T} {algebra : Reduction T X → X} {rank : RuleId → Nat} {r : RuleId}
  {tokens : List T} {result : Option (List T)}

theorem Ranked.rule_settles (hg : g.Ranked g.nullable rank) (hne : tokens ≠ []) {rule : Rule T}
    (hrule : g.rule? r = some rule)
    (h : SettlesFirst (g.matchList algebra) tokens (rule.alternatives.map Alternative.expr)
      result) : (g.matchList algebra r () tokens).Settles tokens result := by
  rw [hg.run_eq hne hrule]
  exact h.attemptAlternatives algebra r

/-- **The parser does what an expression says.** -/
theorem Peg.follows (hg : g.Ranked g.nullable rank) (hprogress : g.Progressive) {e : Expr T}
    (h : g.Peg e tokens result) (he : g.Admits e) :
    e.Follows (g.matchList algebra) tokens result := by
  induction h with
  | empty tokens =>
    refine ⟨.nil, fun p => ?_⟩
    rw [Expr.attempt]
    exact takes_self tokens p
  | term _ haccepts => exact ⟨_, Expr.takes_term haccepts⟩
  | termOther _ haccepts => exact Expr.refuses_term (by simp [haccepts])
  | termEnd accepts => exact Expr.refuses_term_nil accepts
  | @nonterm r rule tokens result hrule h ih =>
    refine Expr.follows_nonterm (fun hnil => ?_) fun hne =>
      hg.rule_settles hne hrule (ih (hprogress.admits_alternatives hrule))
    -- The rule would have to take nothing, which it cannot.
    cases result with
    | none => rfl
    | some rest =>
      obtain ⟨word, hword, hempty⟩ := (Peg.nonterm hrule h).front rest rfl
      have hnullable := hempty (List.append_eq_nil_iff.mp (hword.symm.trans hnil)).1
      exact absurd hnullable (hprogress.rules r (he.references (List.mem_singleton_self r)))
  | seqNil tokens =>
    refine ⟨.nil, fun p => ?_⟩
    rw [Expr.attemptAll]
    exact takes_self tokens p
  | seqCons _ _ ihitem ihitems =>
    obtain ⟨hitem, hitems⟩ := List.forall_mem_cons.mp (admits_seq_iff.mp he)
    exact Expr.follows_seq_cons (ihitem hitem) (ihitems (admits_seq_iff.mpr hitems))
  | seqFails items _ ih =>
    obtain ⟨hitem, -⟩ := List.forall_mem_cons.mp (admits_seq_iff.mp he)
    exact Expr.stops_attemptAll_of_refuses (ih hitem).settles
  | choiceNil => exact .nil
  | choiceFirst items _ ih =>
    obtain ⟨hitem, -⟩ := List.forall_mem_cons.mp (admits_choice_iff.mp he)
    obtain ⟨pieces, htakes⟩ := (ih hitem).settles
    exact .first items htakes
  | choiceNext _ _ ihitem ihitems =>
    obtain ⟨hitem, hitems⟩ := List.forall_mem_cons.mp (admits_choice_iff.mp he)
    exact .next (ihitem hitem).settles (ihitems (admits_choice_iff.mpr hitems))
  | repMust _ _ ihbody ihrest =>
    obtain ⟨pieces, htakes⟩ := (ihbody he.body.1).settles
    exact .round htakes (ihrest ⟨he.references, he.bodies⟩)
  | repFails least _ ih => exact .stops least (ih he.body.1).settles
  | repMore hbody _ ihbody ihrest =>
    obtain ⟨pieces, htakes⟩ := (ihbody he.body.1).settles
    cases ihrest he with
    | more hmore => exact .more (htakes.roundsWhileAny (hbody.length_lt he.body.2) hmore)
  | repStop _ ih =>
    have hrefuses : Refuses _ _ := (ih he.body.1).settles
    exact .more hrefuses.roundsWhileAny
  | optSome _ ih =>
    obtain ⟨pieces, htakes⟩ := (ih ⟨he.references, he.bodies⟩).settles
    exact ⟨pieces, Expr.takes_opt htakes⟩
  | optNone _ ih => exact ⟨.nil, Expr.takes_opt_of_refuses (ih ⟨he.references, he.bodies⟩).settles⟩

end Grammar

/-! ## 5.  Rules over any stream -/

section Rules

variable [TokenStream S T] {stream : S} {tokens : List T}

/-- A rule takes the tokens before the rest that is to be left, or else it does not match: over any
stream and with any builder. -/
def Reply.SettlesAhead (stream : S) (tokens : List T) (reply : Reply N W S) :
    Option (List T) → Prop
  | some rest => ∃ j ≤ tokens.length, rest = tokens.drop j ∧
      ∃ node world, reply = ⟨.matched node, world, TokenStream.advance^[j] stream⟩
  | none => ∃ why world, reply = ⟨.noMatch why, world, stream⟩

variable [LawfulTokenStream S] {g : Grammar T} {rank : RuleId → Nat} {r : RuleId}
  {result : Option (List T)}

/-- **A rule does what it recognises.** -/
theorem Grammar.Peg.settlesAhead (hg : g.Ranked g.nullable rank) (hprogress : g.Progressive)
    (build : Builder T N W) (world : W) (hahead : Ahead stream tokens) (hne : tokens ≠ [])
    (h : g.Peg (.nonterm r) tokens result) :
    (g.matchRule build r world stream).SettlesAhead stream tokens result := by
  have hlist : (g.matchList (fun _ => ()) r () tokens).Settles tokens result := by
    cases h with
    | nonterm hrule h =>
      exact hg.rule_settles hne hrule (h.follows hg hprogress (hprogress.admits_alternatives hrule))
  obtain ⟨houtcome, ⟨j, -, hj, hstream, hplace⟩, -, -⟩ :=
    g.matchRule_alike (Models.trivial build) hahead r (w := world) True.intro
  generalize g.matchRule build r world stream = reply at houtcome hstream ⊢
  obtain ⟨outcome, world', stream'⟩ := reply
  dsimp only at houtcome hstream
  subst hstream
  cases result with
  | some rest =>
    obtain ⟨value, hreply⟩ := hlist
    rw [hreply] at houtcome hplace
    cases houtcome with
    | matched => exact ⟨j, hj, hplace, _, _, rfl⟩
  | none =>
    obtain ⟨why, hreply⟩ := hlist
    rw [hreply] at houtcome hplace
    obtain rfl : j = 0 := by
      have hlength : tokens.length = (tokens.drop j).length := congrArg List.length hplace
      rw [List.length_drop] at hlength
      omega
    cases houtcome with
    | noMatch => exact ⟨why, world', rfl⟩

end Rules

/-- **A rule matches just what it recognises.**  Take a grammar without left recursion in which no
rule and no body of a repetition may match without taking a token.  Where there are tokens ahead, a
rule of it matches and goes on at a place exactly if it recognises the tokens up to there, and it does
not match exactly if it recognises nothing. -/
theorem matchRule_iff_peg [TokenStream S T] [LawfulTokenStream S] (g : Grammar T)
    (hrecursive : ¬ g.LeftRecursive) (hprogress : g.Progressive) (build : Builder T N W) (world : W)
    {stream : S} {tokens : List T} (hahead : Ahead stream tokens)
    (hend : TokenStream.atEnd stream = false) {r : RuleId} (hr : r ∈ g.ids) :
    (∀ j ≤ tokens.length,
        (∃ node world', g.matchRule build r world stream =
            ⟨.matched node, world', TokenStream.advance^[j] stream⟩) ↔
          g.Peg (.nonterm r) tokens (some (tokens.drop j))) ∧
      ((∃ why world', g.matchRule build r world stream = ⟨.noMatch why, world', stream⟩) ↔
        g.Peg (.nonterm r) tokens none) := by
  obtain ⟨rank, hg⟩ := g.exists_ranked_iff.mpr hrecursive
  have hne : tokens ≠ [] := by
    rintro rfl
    rw [hahead.atEnd] at hend
    cases hend
  have hadmits : g.Admits (.nonterm r) :=
    ⟨List.cons_subset.mpr ⟨hr, List.nil_subset _⟩, fun _ h => nomatch h⟩
  obtain ⟨result, hpeg⟩ := Grammar.exists_peg hg hprogress hadmits tokens
  have hsettles : ∀ {result}, g.Peg (.nonterm r) tokens result →
      (g.matchRule build r world stream).SettlesAhead stream tokens result :=
    fun h => h.settlesAhead hg hprogress build world hahead hne
  constructor
  · intro j hj
    constructor
    · rintro ⟨node, world', hmatch⟩
      cases result with
      | none =>
        obtain ⟨_, _, hreply⟩ := hsettles hpeg
        cases hmatch.symm.trans hreply
      | some rest =>
        obtain ⟨j', hj', rfl, _, _, hreply⟩ := hsettles hpeg
        have hplace := congrArg Reply.stream (hmatch.symm.trans hreply)
        rwa [hahead.eq_of_iterate_eq hj hj' hplace]
    · intro h
      obtain ⟨j', hj', hdrop, node, world', hreply⟩ := hsettles h
      obtain rfl : j = j' := by
        have hlength := congrArg List.length hdrop
        rw [List.length_drop, List.length_drop] at hlength
        omega
      exact ⟨node, world', hreply⟩
  · constructor
    · rintro ⟨why, world', hmatch⟩
      cases result with
      | none => exact hpeg
      | some rest =>
        obtain ⟨_, _, _, _, _, hreply⟩ := hsettles hpeg
        cases hmatch.symm.trans hreply
    · exact hsettles

/-- In `1 + 2 )` a sum is recognised before the parenthesis. -/
theorem matchRule_iff_peg_sum :
    let tokens : List (Token Calc.Kind) :=
      [⟨.integer, "1", 0⟩, ⟨.plus, "+", 1⟩, ⟨.integer, "2", 2⟩, ⟨.rParens, ")", 3⟩]
    Calc.grammar.Peg (.nonterm Calc.expr) tokens (some [⟨.rParens, ")", 3⟩]) := by
  intro tokens
  let build : Builder (Token Calc.Kind) Unit Unit := fun _ world => ((), world)
  have hrecursive : ¬ Calc.grammar.LeftRecursive :=
    (Grammar.exists_ranked_iff _).mp ⟨_, Calc.ranked_grammar.least⟩
  have hprogress : Calc.grammar.Progressive :=
    Calc.ranked_grammar.progressive (by decide) (by decide)
  have hahead : Ahead (TokenArray.ofList tokens) tokens := TokenArray.ahead_ahead _
  have hmatch : Calc.grammar.matchRule build Calc.expr () (TokenArray.ofList tokens) =
      ⟨.matched (), (), ⟨tokens.toArray, 3⟩⟩ := by cbv
  exact ((matchRule_iff_peg _ hrecursive hprogress build () hahead rfl (by decide)).1 3
    (by decide)).mp ⟨(), (), hmatch⟩

end GrammarKit
