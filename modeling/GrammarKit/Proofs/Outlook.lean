import GrammarKit.Proofs.Recursion
import Mathlib.Data.Fintype.Option

/-!
# The token ahead

An `Outlook` says of each rule which tokens may be ahead where it starts and where it ends, the end
of the tokens counting as one more token.  It fits a grammar if the token ahead always tells which
way to go: which of the items of a choice, whether one more round of a repetition.  That is a
condition on one token at a time, so it is decided by going through the tokens, or through their
kinds.

* `Outlook.Fits`: the condition, which is decidable if there are finitely many tokens.
* `Outlook.Fits.comap`: it passes from kinds of tokens to tokens.
* `Outlook.Fits.startsAt_of_yields`: words start as the outlook says.
* `Outlook.Fits.refuses_of_not_startsAt`: an expression refuses what it does not start with.
-/

namespace GrammarKit

variable {S T X : Type}

/-- What is known of the rules before anything is read. -/
structure Outlook (T : Type) where
  /-- The rules that may match without taking a token. -/
  nullable : RuleId → Bool
  /-- The rank of a rule, which goes down from a rule to the rules that it leads to. -/
  rank : RuleId → Nat
  /-- The tokens that a word of a rule may start with. -/
  starts : RuleId → Option T → Bool
  /-- The tokens that may stand behind a word of a rule. -/
  follows : RuleId → Option T → Bool

/-- The outlook on tokens that are looked at through `f`. -/
def Outlook.comap (f : S → T) (o : Outlook T) : Outlook S where
  nullable := o.nullable
  rank := o.rank
  starts r ahead := o.starts r (ahead.map f)
  follows r ahead := o.follows r (ahead.map f)

/-! ## 1.  The token ahead -/

namespace Expr

mutual

/-- Whether a word of an expression may start with the token ahead. -/
def startsAt (o : Outlook T) (ahead : Option T) : Expr T → Bool
  | .empty => false
  | .term accepts => ahead.any accepts
  | .nonterm rule => o.starts rule ahead
  | .seq items => startsAll o ahead items
  | .choice items => startsAny o ahead items
  | .rep _ body => body.startsAt o ahead
  | .opt body => body.startsAt o ahead

/-- Whether words of the items in a row may start with the token ahead. -/
def startsAll (o : Outlook T) (ahead : Option T) : List (Expr T) → Bool
  | [] => false
  | item :: items =>
    item.startsAt o ahead || (item.mayBeEmpty o.nullable && startsAll o ahead items)

/-- Whether a word of any of the items may start with the token ahead. -/
def startsAny (o : Outlook T) (ahead : Option T) : List (Expr T) → Bool
  | [] => false
  | item :: items => item.startsAt o ahead || startsAny o ahead items

end

mutual

/-- Whether the token ahead never leaves a doubt inside of an expression.  Behind the expression it
may stand if `after` is set. -/
def fits (o : Outlook T) (ahead : Option T) (after : Bool) : Expr T → Bool
  | .empty => true
  | .term _ => true
  | .nonterm rule => !after || (o.follows rule ahead && (ahead.isSome || !o.nullable rule))
  | .seq items => fitsAll o ahead after items
  | .choice items => fitsAny o ahead after items
  | .rep _ body =>
    !body.mayBeEmpty o.nullable && !(after && body.startsAt o ahead) &&
      body.fits o ahead (after || body.startsAt o ahead)
  | .opt body =>
    !body.mayBeEmpty o.nullable && !(after && body.startsAt o ahead) && body.fits o ahead after

/-- Behind an item in a row stands what the items behind it start with, and if they may be empty, also
what stands behind them. -/
def fitsAll (o : Outlook T) (ahead : Option T) (after : Bool) : List (Expr T) → Bool
  | [] => true
  | item :: items =>
    item.fits o ahead (startsAll o ahead items || (allMayBeEmpty o.nullable items && after)) &&
      fitsAll o ahead after items

/-- An item that is tried before others may not be empty, and does not start as the others do, nor
with what stands behind if one of the others may be empty. -/
def fitsAny (o : Outlook T) (ahead : Option T) (after : Bool) : List (Expr T) → Bool
  | [] => true
  | item :: items =>
    item.fits o ahead after && fitsAny o ahead after items &&
      (items.isEmpty || !item.mayBeEmpty o.nullable &&
        !(item.startsAt o ahead &&
          (startsAny o ahead items || (anyMayBeEmpty o.nullable items && after))))

end

end Expr

/-- **The outlook fits the grammar**: it is closed under the rules, the rank goes down, and no rule
leaves a doubt about the way to go. -/
def Outlook.Fits (o : Outlook T) (productions : Productions T) : Prop :=
  ∀ p ∈ productions,
    (Expr.anyMayBeEmpty o.nullable p.2 = true → o.nullable p.1 = true) ∧
    (∀ r ∈ Expr.leadsOfAny o.nullable p.2, o.rank r < o.rank p.1) ∧
    ∀ ahead : Option T, (Expr.startsAny o ahead p.2 = true → o.starts p.1 ahead = true) ∧
      Expr.fitsAny o ahead (o.follows p.1 ahead) p.2 = true

instance [Fintype T] (o : Outlook T) (productions : Productions T) :
    Decidable (o.Fits productions) :=
  inferInstanceAs (Decidable (∀ p ∈ productions, _ ∧ _))

theorem Expr.startsAt_of_mem {o : Outlook T} {ahead : Option T} {item : Expr T}
    {items : List (Expr T)} (hmem : item ∈ items) (h : item.startsAt o ahead = true) :
    startsAny o ahead items = true := by
  induction items with
  | nil => cases hmem
  | cons first items ih =>
    rw [startsAny, Bool.or_eq_true]
    rcases List.mem_cons.mp hmem with rfl | hmem
    · exact Or.inl h
    · exact Or.inr (ih hmem)

/-! ## 2.  Looking at tokens through a map -/

namespace Expr

variable {f : S → T}

mutual

@[simp] theorem mayBeEmpty_comap (nullable : RuleId → Bool) :
    ∀ e : Expr T, (e.comap f).mayBeEmpty nullable = e.mayBeEmpty nullable
  | .empty | .term _ | .nonterm _ | .opt _ => rfl
  | .seq items => allMayBeEmpty_comap nullable items
  | .choice items => anyMayBeEmpty_comap nullable items
  | .rep least body => by rw [comap, mayBeEmpty, mayBeEmpty, mayBeEmpty_comap nullable body]

@[simp] theorem allMayBeEmpty_comap (nullable : RuleId → Bool) :
    ∀ items : List (Expr T), allMayBeEmpty nullable (comapAll f items) = allMayBeEmpty nullable items
  | [] => rfl
  | item :: items => by
    rw [comapAll, allMayBeEmpty, allMayBeEmpty, mayBeEmpty_comap nullable item,
      allMayBeEmpty_comap nullable items]

@[simp] theorem anyMayBeEmpty_comap (nullable : RuleId → Bool) :
    ∀ items : List (Expr T), anyMayBeEmpty nullable (comapAll f items) = anyMayBeEmpty nullable items
  | [] => rfl
  | item :: items => by
    rw [comapAll, anyMayBeEmpty, anyMayBeEmpty, mayBeEmpty_comap nullable item,
      anyMayBeEmpty_comap nullable items]

end

mutual

@[simp] theorem leads_comap (nullable : RuleId → Bool) :
    ∀ e : Expr T, (e.comap f).leads nullable = e.leads nullable
  | .empty | .term _ | .nonterm _ => rfl
  | .seq items => leadsOfAll_comap nullable items
  | .choice items => leadsOfAny_comap nullable items
  | .rep _ body => leads_comap nullable body
  | .opt body => leads_comap nullable body

@[simp] theorem leadsOfAll_comap (nullable : RuleId → Bool) :
    ∀ items : List (Expr T), leadsOfAll nullable (comapAll f items) = leadsOfAll nullable items
  | [] => rfl
  | item :: items => by
    rw [comapAll, leadsOfAll, leadsOfAll, leads_comap nullable item, mayBeEmpty_comap nullable item,
      leadsOfAll_comap nullable items]

@[simp] theorem leadsOfAny_comap (nullable : RuleId → Bool) :
    ∀ items : List (Expr T), leadsOfAny nullable (comapAll f items) = leadsOfAny nullable items
  | [] => rfl
  | item :: items => by
    rw [comapAll, leadsOfAny, leadsOfAny, leads_comap nullable item,
      leadsOfAny_comap nullable items]

end

variable {o : Outlook T} {ahead : Option S}

mutual

@[simp] theorem startsAt_comap :
    ∀ e : Expr T, (e.comap f).startsAt (o.comap f) ahead = e.startsAt o (ahead.map f)
  | .empty | .nonterm _ => rfl
  | .term accepts => by cases ahead <;> rfl
  | .seq items => startsAll_comap items
  | .choice items => startsAny_comap items
  | .rep _ body => startsAt_comap body
  | .opt body => startsAt_comap body

@[simp] theorem startsAll_comap :
    ∀ items : List (Expr T),
      startsAll (o.comap f) ahead (comapAll f items) = startsAll o (ahead.map f) items
  | [] => rfl
  | item :: items => by
    rw [comapAll, startsAll, startsAll, startsAt_comap item, mayBeEmpty_comap, startsAll_comap items]
    rfl

@[simp] theorem startsAny_comap :
    ∀ items : List (Expr T),
      startsAny (o.comap f) ahead (comapAll f items) = startsAny o (ahead.map f) items
  | [] => rfl
  | item :: items => by
    rw [comapAll, startsAny, startsAny, startsAt_comap item, startsAny_comap items]

end

mutual

@[simp] theorem fits_comap (after : Bool) :
    ∀ e : Expr T, (e.comap f).fits (o.comap f) ahead after = e.fits o (ahead.map f) after
  | .empty | .term _ => rfl
  | .nonterm rule => by
    rw [comap, fits, fits, Option.isSome_map]
    rfl
  | .seq items => fitsAll_comap after items
  | .choice items => fitsAny_comap after items
  | .rep _ body => by
    rw [comap, fits, fits, mayBeEmpty_comap, startsAt_comap, fits_comap _ body]
    rfl
  | .opt body => by
    rw [comap, fits, fits, mayBeEmpty_comap, startsAt_comap, fits_comap _ body]
    rfl

@[simp] theorem fitsAll_comap (after : Bool) :
    ∀ items : List (Expr T),
      fitsAll (o.comap f) ahead after (comapAll f items) = fitsAll o (ahead.map f) after items
  | [] => rfl
  | item :: items => by
    rw [comapAll, fitsAll, fitsAll, startsAll_comap, allMayBeEmpty_comap, fits_comap _ item,
      fitsAll_comap _ items]
    rfl

@[simp] theorem fitsAny_comap (after : Bool) :
    ∀ items : List (Expr T),
      fitsAny (o.comap f) ahead after (comapAll f items) = fitsAny o (ahead.map f) after items
  | [] => rfl
  | item :: items => by
    have hempty : (comapAll f items).isEmpty = items.isEmpty := by cases items <;> rfl
    rw [comapAll, fitsAny, fitsAny, startsAny_comap, anyMayBeEmpty_comap, mayBeEmpty_comap,
      startsAt_comap, hempty, fits_comap _ item, fitsAny_comap _ items]
    rfl

end

end Expr

/-- **An outlook on kinds is an outlook on tokens.** -/
theorem Outlook.Fits.comap {o : Outlook T} {productions : Productions T} (h : o.Fits productions)
    (f : S → T) : (o.comap f).Fits (Expr.comapProductions f productions) := by
  intro p hp
  obtain ⟨⟨r, bodies⟩, hmem, rfl⟩ := List.mem_map.mp hp
  obtain ⟨hclosed, hranked, hahead⟩ := h _ hmem
  refine ⟨?_, ?_, fun ahead => ?_⟩
  · rw [Expr.anyMayBeEmpty_comap]
    exact hclosed
  · rw [Expr.leadsOfAny_comap]
    exact hranked
  · rw [Expr.startsAny_comap, Expr.fitsAny_comap]
    exact hahead (ahead.map f)

/-! ## 3.  What a word starts with -/

namespace Outlook.Fits

variable {g : Grammar T} {algebra : Reduction T X → X} {o : Outlook T}

/-- What an outlook says of a rule of the grammar. -/
theorem of_mem_rules (ho : o.Fits g.productions) {rule : Rule T} (h : rule ∈ g.rules.toList) :
    (Expr.anyMayBeEmpty o.nullable (rule.alternatives.map Alternative.expr) = true →
        o.nullable rule.id = true) ∧
      (∀ r ∈ Expr.leadsOfAny o.nullable (rule.alternatives.map Alternative.expr),
        o.rank r < o.rank rule.id) ∧
      ∀ ahead : Option T,
        (Expr.startsAny o ahead (rule.alternatives.map Alternative.expr) = true →
          o.starts rule.id ahead = true) ∧
        Expr.fitsAny o ahead (o.follows rule.id ahead)
          (rule.alternatives.map Alternative.expr) = true :=
  ho (rule.id, rule.alternatives.map Alternative.expr) (List.mem_map_of_mem h)

theorem ranked (ho : o.Fits g.productions) : g.Ranked o.nullable o.rank := by
  constructor
  · intro rule hrule alternative halternative hempty
    exact (ho.of_mem_rules hrule).1
      (Expr.mayBeEmpty_of_mem (List.mem_map_of_mem halternative) hempty)
  · intro rule hrule alternative halternative r hr
    exact (ho.of_mem_rules hrule).2.1 r
      (Expr.mem_leadsOfAny (List.mem_map_of_mem halternative) hr)

/-- **The first token of a word** is one that the expression may start with. -/
theorem startsAt_of_yields (ho : o.Fits g.productions) {e : Expr T} {word : List T}
    {pieces : Pieces T X} (h : g.Yields algebra e word pieces) (hne : word ≠ []) :
    e.startsAt o word.head? = true := by
  induction h with
  | empty => exact absurd rfl hne
  | term haccepts => exact haccepts
  | nonterm hrule hmem _ ih =>
    have hstarts := ((ho.of_mem_rules (Grammar.mem_rules_of_rule? hrule)).2.2 _).1
      (Expr.startsAt_of_mem (List.mem_map_of_mem hmem) (ih hne))
    rwa [Grammar.id_of_rule? hrule] at hstarts
  | seqNil => exact absurd rfl hne
  | @seqCons item items front back first second hitem hitems ihitem ihitems =>
    show Expr.startsAll o _ (item :: items) = true
    rw [Expr.startsAll, Bool.or_eq_true, Bool.and_eq_true]
    by_cases hfront : front = []
    · have hback : back ≠ [] := by
        intro hback
        exact hne (by rw [hfront, hback, List.append_nil])
      refine Or.inr ⟨ho.ranked.mayBeEmpty_of_yields hitem hfront, ?_⟩
      rw [hfront, List.nil_append]
      exact ihitems hback
    · rw [List.head?_append_of_ne_nil _ hfront]
      exact Or.inl (ihitem hfront)
  | choice hmem _ ih => exact Expr.startsAt_of_mem hmem (ih hne)
  | repStop => exact absurd rfl hne
  | @repMore least body front back first second _ _ ihbody ihrest =>
    by_cases hfront : front = []
    · rw [hfront, List.nil_append]
      refine ihrest fun hback => hne ?_
      rw [hfront, hback, List.append_nil]
    · rw [List.head?_append_of_ne_nil _ hfront]
      exact ihbody hfront
  | optNone => exact absurd rfl hne
  | optSome _ ih => exact ih hne

variable {e : Expr T}

/-- An expression refuses tokens that it does not start with. -/
theorem refuses_of_not_startsAt (ho : o.Fits g.productions) (he : e.references ⊆ g.ids)
    (hempty : e.mayBeEmpty o.nullable = false) {tokens : List T}
    (hstarts : e.startsAt o tokens.head? = false) :
    Refuses (fun a => e.attempt (g.matchList algebra) a) tokens := by
  obtain ⟨word, rest, pieces, rfl, hyields, -⟩ | hrefuses :=
    ho.ranked.attempt_decides he tokens
  · have hne : word ≠ [] := by
      intro hword
      rw [ho.ranked.mayBeEmpty_of_yields hyields hword] at hempty
      cases hempty
    rw [List.head?_append_of_ne_nil _ hne, ho.startsAt_of_yields hyields hne] at hstarts
    cases hstarts
  · exact hrefuses

end Outlook.Fits

end GrammarKit
