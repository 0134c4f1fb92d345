import GrammarKit.Proofs.Recursion
import Mathlib.Data.Finset.Card
import Mathlib.Logic.Relation

/-!
# What may match without taking a token

A rule can do without tokens if one of its alternatives can, and an alternative may ask other rules,
itself among them.  What is meant is the least solution of this: `Grammar.Nullable` has a finite
reason for each expression that it holds of.

A rule that leads back to itself before a token is taken is left-recursive.  There are finitely many
rules, so in a grammar without such rules each of them can be given a rank, namely the number of
rules that it leads to.

* `Grammar.Nullable`, `Expr.mayBeEmpty_nullable_iff`: the least solution, and that the computation on
  expressions finds it.
* `Grammar.Ranked.least`: a rank for a larger solution is one for the least.
* `Grammar.LeftRecursive`, `Grammar.exists_ranked_iff`: there is a rank exactly if no rule is
  left-recursive.
-/

namespace GrammarKit

variable {T : Type}

namespace Grammar

/-- **An expression may match without taking a token**, for a finite reason. -/
inductive Nullable (g : Grammar T) : Expr T → Prop where
  | empty : Nullable g .empty
  | nonterm {r : RuleId} {rule : Rule T} {alternative : Alternative T} (hrule : g.rule? r = some rule)
      (hmem : alternative ∈ rule.alternatives) (h : Nullable g alternative.expr) :
      Nullable g (.nonterm r)
  | seq {items : List (Expr T)} (h : ∀ item ∈ items, Nullable g item) : Nullable g (.seq items)
  | choice {item : Expr T} {items : List (Expr T)} (hmem : item ∈ items) (h : Nullable g item) :
      Nullable g (.choice items)
  | repZero (body : Expr T) : Nullable g (.rep 0 body)
  | rep (least : Nat) {body : Expr T} (h : Nullable g body) : Nullable g (.rep least body)
  | opt (body : Expr T) : Nullable g (.opt body)

open Classical in
/-- Whether a rule may match without taking a token. -/
noncomputable def nullable (g : Grammar T) (r : RuleId) : Bool := decide (g.Nullable (.nonterm r))

variable {g : Grammar T} {r : RuleId}

@[simp] theorem nullable_eq_true : g.nullable r = true ↔ g.Nullable (.nonterm r) := by
  simp [nullable]

theorem nullable_seq_iff {items : List (Expr T)} :
    g.Nullable (.seq items) ↔ ∀ item ∈ items, g.Nullable item := by
  constructor
  · rintro ⟨⟩
    assumption
  · exact .seq

theorem nullable_choice_iff {items : List (Expr T)} :
    g.Nullable (.choice items) ↔ ∃ item ∈ items, g.Nullable item := by
  constructor
  · intro h
    cases h with
    | choice hmem h => exact ⟨_, hmem, h⟩
  · rintro ⟨item, hmem, h⟩
    exact .choice hmem h

end Grammar

/-! ## 1.  The computation on expressions -/

namespace Expr

variable {nullable nullable' : RuleId → Bool}

theorem allMayBeEmpty_iff (items : List (Expr T)) :
    allMayBeEmpty nullable items = true ↔ ∀ item ∈ items, item.mayBeEmpty nullable = true := by
  induction items with
  | nil => simp [allMayBeEmpty]
  | cons item items ih => simp [allMayBeEmpty, ih]

variable {g : Grammar T}

mutual

theorem nullable_of_mayBeEmpty :
    ∀ e : Expr T, e.mayBeEmpty g.nullable = true → g.Nullable e
  | .empty, _ => .empty
  | .nonterm _, h => Grammar.nullable_eq_true.mp h
  | .seq items, h => .seq (nullable_of_allMayBeEmpty items h)
  | .choice items, h => by
    obtain ⟨item, hmem, hitem⟩ := nullable_of_anyMayBeEmpty items h
    exact .choice hmem hitem
  | .rep 0 body, _ => .repZero body
  | .rep (least + 1) body, h => by
    rw [mayBeEmpty, Bool.or_eq_true] at h
    exact .rep _ (nullable_of_mayBeEmpty body (h.resolve_left (by simp)))
  | .opt body, _ => .opt body

theorem nullable_of_allMayBeEmpty :
    ∀ items : List (Expr T), allMayBeEmpty g.nullable items = true →
      ∀ item ∈ items, g.Nullable item
  | [], _ => fun _ hmem => absurd hmem List.not_mem_nil
  | item :: items, h => by
    rw [allMayBeEmpty, Bool.and_eq_true] at h
    exact List.forall_mem_cons.mpr
      ⟨nullable_of_mayBeEmpty item h.1, nullable_of_allMayBeEmpty items h.2⟩

theorem nullable_of_anyMayBeEmpty :
    ∀ items : List (Expr T), anyMayBeEmpty g.nullable items = true →
      ∃ item ∈ items, g.Nullable item
  | first :: items, h => by
    rw [anyMayBeEmpty, Bool.or_eq_true] at h
    rcases h with h | h
    · exact ⟨first, List.mem_cons_self, nullable_of_mayBeEmpty first h⟩
    · obtain ⟨item, hmem, hitem⟩ := nullable_of_anyMayBeEmpty items h
      exact ⟨item, List.mem_cons_of_mem _ hmem, hitem⟩

end

end Expr

namespace Grammar

variable {g : Grammar T} {nullable : RuleId → Bool} {rank : RuleId → Nat}

/-- A rule of the list is found under its number. -/
theorem rule?_of_mem_rules {rule : Rule T} (h : rule ∈ g.rules.toList) :
    g.rule? rule.id = some rule := by
  obtain ⟨i, hi⟩ := List.getElem?_of_mem h
  have hplace := ((firstFault?_eq_none_iff g.rules.toList).mp g.faultless).2.1 i rule hi
  rw [rule?, hplace.1, ← Array.getElem?_toList]
  exact hi

/-- What is nullable for a finite reason is so in every solution. -/
theorem Nullable.mayBeEmpty {e : Expr T} (h : g.Nullable e)
    (hclosed : ∀ rule ∈ g.rules.toList, ∀ alternative ∈ rule.alternatives,
      alternative.expr.mayBeEmpty nullable = true → nullable rule.id = true) :
    e.mayBeEmpty nullable = true := by
  induction h with
  | empty => rfl
  | @nonterm r rule alternative hrule hmem _ ih =>
    have hnullable := hclosed rule (mem_rules_of_rule? hrule) alternative hmem ih
    rwa [id_of_rule? hrule] at hnullable
  | seq _ ih => exact (Expr.allMayBeEmpty_iff _).mpr ih
  | choice hmem _ ih => exact Expr.mayBeEmpty_of_mem hmem ih
  | repZero body => rfl
  | rep least _ ih => rw [Expr.mayBeEmpty, ih, Bool.or_true]
  | opt body => rfl

/-- The rules that are nullable for a finite reason are a solution. -/
theorem nullable_closed (g : Grammar T) :
    ∀ rule ∈ g.rules.toList, ∀ alternative ∈ rule.alternatives,
      alternative.expr.mayBeEmpty g.nullable = true → g.nullable rule.id = true := by
  intro rule hrule alternative hmem h
  rw [nullable_eq_true]
  exact .nonterm (rule?_of_mem_rules hrule) hmem (alternative.expr.nullable_of_mayBeEmpty h)

end Grammar

/-- **The computation finds what is nullable.** -/
theorem Expr.mayBeEmpty_nullable_iff {g : Grammar T} (e : Expr T) :
    e.mayBeEmpty g.nullable = true ↔ g.Nullable e :=
  ⟨e.nullable_of_mayBeEmpty, fun h => h.mayBeEmpty g.nullable_closed⟩

/-! ## 2.  Ranks -/

namespace Expr

variable {nullable nullable' : RuleId → Bool}

mutual

theorem mayBeEmpty_mono (h : ∀ r, nullable r = true → nullable' r = true) :
    ∀ e : Expr T, e.mayBeEmpty nullable = true → e.mayBeEmpty nullable' = true
  | .empty, _ => rfl
  | .nonterm r, he => h r he
  | .seq items, he => allMayBeEmpty_mono h items he
  | .choice items, he => anyMayBeEmpty_mono h items he
  | .rep least body, he => by
    rw [mayBeEmpty, Bool.or_eq_true] at he ⊢
    exact he.imp_right (mayBeEmpty_mono h body)
  | .opt _, _ => rfl

theorem allMayBeEmpty_mono (h : ∀ r, nullable r = true → nullable' r = true) :
    ∀ items : List (Expr T), allMayBeEmpty nullable items = true →
      allMayBeEmpty nullable' items = true
  | [], _ => rfl
  | item :: items, he => by
    rw [allMayBeEmpty, Bool.and_eq_true] at he ⊢
    exact ⟨mayBeEmpty_mono h item he.1, allMayBeEmpty_mono h items he.2⟩

theorem anyMayBeEmpty_mono (h : ∀ r, nullable r = true → nullable' r = true) :
    ∀ items : List (Expr T), anyMayBeEmpty nullable items = true →
      anyMayBeEmpty nullable' items = true
  | item :: items, he => by
    rw [anyMayBeEmpty, Bool.or_eq_true] at he ⊢
    exact he.imp (mayBeEmpty_mono h item) (anyMayBeEmpty_mono h items)

end

mutual

/-- The more rules are nullable, the more rules may be started. -/
theorem leads_mono (h : ∀ r, nullable r = true → nullable' r = true) :
    ∀ e : Expr T, e.leads nullable ⊆ e.leads nullable'
  | .empty => List.Subset.refl _
  | .term _ => List.Subset.refl _
  | .nonterm _ => List.Subset.refl _
  | .seq items => leadsOfAll_mono h items
  | .choice items => leadsOfAny_mono h items
  | .rep _ body => leads_mono h body
  | .opt body => leads_mono h body

theorem leadsOfAll_mono (h : ∀ r, nullable r = true → nullable' r = true) :
    ∀ items : List (Expr T), leadsOfAll nullable items ⊆ leadsOfAll nullable' items
  | [] => List.Subset.refl _
  | item :: items => by
    intro r hr
    rw [leadsOfAll, List.mem_append] at hr ⊢
    refine hr.imp (fun hr => leads_mono h item hr) fun hr => ?_
    split at hr
    · next hempty =>
      rw [if_pos (mayBeEmpty_mono h item hempty)]
      exact leadsOfAll_mono h items hr
    · cases hr

theorem leadsOfAny_mono (h : ∀ r, nullable r = true → nullable' r = true) :
    ∀ items : List (Expr T), leadsOfAny nullable items ⊆ leadsOfAny nullable' items
  | [] => List.Subset.refl _
  | item :: items => by
    intro r hr
    rw [leadsOfAny, List.mem_append] at hr ⊢
    exact hr.imp (fun hr => leads_mono h item hr) fun hr => leadsOfAny_mono h items hr

end

end Expr

namespace Grammar

variable {g : Grammar T} {nullable : RuleId → Bool} {rank : RuleId → Nat} {r r' : RuleId}

/-- **A rank for some solution is a rank for the least.** -/
theorem Ranked.least (hg : g.Ranked nullable rank) : g.Ranked g.nullable rank where
  closed := g.nullable_closed
  descends rule hrule alternative hmem r hr := by
    have hle : ∀ r, g.nullable r = true → nullable r = true := fun r h =>
      (nullable_eq_true.mp h).mayBeEmpty hg.closed
    exact hg.descends rule hrule alternative hmem r (Expr.leads_mono hle alternative.expr hr)

/-- A rule may start another one before a token is taken. -/
def LeadsTo (g : Grammar T) (r r' : RuleId) : Prop :=
  ∃ rule, g.rule? r = some rule ∧
    ∃ alternative ∈ rule.alternatives, r' ∈ alternative.expr.leads g.nullable

/-- **A grammar is left-recursive** if a rule leads back to itself before a token is taken. -/
def LeftRecursive (g : Grammar T) : Prop := ∃ r, Relation.TransGen g.LeadsTo r r

theorem mem_ids_of_leadsTo (h : g.LeadsTo r r') : r' ∈ g.ids := by
  obtain ⟨rule, hrule, alternative, hmem, hlead⟩ := h
  exact mem_ids_of_references (mem_rules_of_rule? hrule) hmem
    (alternative.expr.leads_subset_references g.nullable hlead)

theorem Ranked.lt_of_leadsTo (hg : g.Ranked g.nullable rank) (h : g.LeadsTo r r') :
    rank r' < rank r := by
  obtain ⟨rule, hrule, alternative, hmem, hlead⟩ := h
  have hlt := hg.descends rule (mem_rules_of_rule? hrule) alternative hmem r' hlead
  rwa [id_of_rule? hrule] at hlt

open Classical in
/-- The rules that a rule leads to, in one step or more. -/
noncomputable def reached (g : Grammar T) (r : RuleId) : Finset RuleId :=
  g.ids.toFinset.filter (Relation.TransGen g.LeadsTo r)

theorem mem_reached : r' ∈ g.reached r ↔ r' ∈ g.ids ∧ Relation.TransGen g.LeadsTo r r' := by
  simp [reached]

/-- Without left recursion a rule leads to more rules than the rules it leads to. -/
theorem reached_ssubset (hg : ¬ g.LeftRecursive) (h : g.LeadsTo r r') :
    g.reached r' ⊂ g.reached r := by
  refine Finset.ssubset_iff_subset_ne.mpr ⟨fun r'' hr'' => ?_, fun heq => ?_⟩
  · obtain ⟨hid, htrans⟩ := mem_reached.mp hr''
    exact mem_reached.mpr ⟨hid, .head h htrans⟩
  · have hself : r' ∈ g.reached r' := by
      rw [heq]
      exact mem_reached.mpr ⟨mem_ids_of_leadsTo h, .single h⟩
    exact hg ⟨r', (mem_reached.mp hself).2⟩

/-- **There is a rank exactly if no rule is left-recursive.** -/
theorem exists_ranked_iff (g : Grammar T) :
    (∃ rank, g.Ranked g.nullable rank) ↔ ¬ g.LeftRecursive := by
  constructor
  · rintro ⟨rank, hg⟩ ⟨r, hr⟩
    have hless : ∀ {r r'}, Relation.TransGen g.LeadsTo r r' → rank r' < rank r := by
      intro r r' h
      induction h with
      | single h => exact hg.lt_of_leadsTo h
      | tail _ h ih => exact Nat.lt_trans (hg.lt_of_leadsTo h) ih
    exact Nat.lt_irrefl _ (hless hr)
  · intro hg
    refine ⟨fun r => (g.reached r).card, g.nullable_closed, ?_⟩
    intro rule hrule alternative hmem r hr
    exact Finset.card_lt_card
      (reached_ssubset hg ⟨rule, rule?_of_mem_rules hrule, alternative, hmem, hr⟩)

end Grammar

end GrammarKit
