import GrammarKit.Proofs.Validation
import Mathlib.Data.List.Lex

/-!
# Which fault of a list of rules is reported

A list of rules may have many faults at once, and one of them is reported.  An empty list is reported
as such.  Then the rules are gone through for their places and their alternatives, and only if nothing
is found they are gone through once more for their references.

A reference has an address: the number of the rule, the number of the alternative, and then the numbers
of the items on the way down its expression.  References are written in the order of their addresses,
the lexicographic one.  The search knows nothing of addresses, it goes through a list of references that
was collected from all parts of an expression.

* `FirstAt`: the first value of some sort, by addresses.
* `Finds`: what a search for it comes to, with a lemma for each way to put searches together.
* `Expr.referenceAt?`, `referenceAt?`: what is referred to at an address.
* `FirstFault`: for each sort of fault, what makes it the first one.
* `ofRules_exact`: a list of rules is a grammar, or its first fault is reported.
-/

namespace GrammarKit

/-! ## 1.  The first of some values -/

section Search

variable {α β : Type}

/-- The value stands at this address, it is of the sort in question, and no value at a smaller address
is.  The smaller of two addresses is the one with the smaller number where they first differ. -/
def FirstAt (at? : List Nat → Option α) (p : α → Prop) (address : List Nat) (a : α) : Prop :=
  at? address = some a ∧ p a ∧
    ∀ address' < address, ∀ a', at? address' = some a' → ¬ p a'

/-- What is found is the first value of the sort in question; nothing is found only if there are none. -/
def Finds (at? : List Nat → Option α) (p : α → Prop) : Option α → Prop
  | some a => ∃ address, FirstAt at? p address a
  | none => ∀ address a, at? address = some a → ¬ p a

/-- The values below some items next to each other: the number of the item comes first in the address. -/
def atAll? (below : β → List Nat → Option α) (items : List β) : List Nat → Option α
  | [] => none
  | i :: address => items[i]?.bind fun item => below item address

variable {at? : List Nat → Option α} {p : α → Prop} {found? : Option α}

/-- There is but one first value. -/
theorem FirstAt.eq {address address' : List Nat} {a a' : α} (h : FirstAt at? p address a)
    (h' : FirstAt at? p address' a') : a = a' := by
  obtain ⟨hat, hp, hfirst⟩ := h
  obtain ⟨hat', hp', hfirst'⟩ := h'
  rcases lt_trichotomy address address' with hlt | rfl | hlt
  · exact absurd hp (hfirst' address hlt a hat)
  · exact Option.some.inj (hat.symm.trans hat')
  · exact absurd hp' (hfirst address' hlt a' hat')

theorem Finds.eq_some_iff (h : Finds at? p found?) {a : α} :
    found? = some a ↔ ∃ address, FirstAt at? p address a := by
  constructor
  · rintro rfl
    exact h
  · rintro ⟨address, hfirst⟩
    cases found? with
    | none => exact absurd hfirst.2.1 (h address a hfirst.1)
    | some a' =>
      obtain ⟨address', hfirst'⟩ := h
      rw [hfirst'.eq hfirst]

theorem Finds.eq_none_iff (h : Finds at? p found?) :
    found? = none ↔ ∀ address a, at? address = some a → ¬ p a := by
  constructor
  · rintro rfl
    exact h
  · intro hnone
    cases found? with
    | none => rfl
    | some a =>
      obtain ⟨address, hat, hp, -⟩ := h
      exact absurd hp (hnone address a hat)

/-- Where there is nothing, nothing is found. -/
theorem Finds.nothing (h : ∀ address, at? address = none) : Finds at? p none := by
  intro address a hat
  rw [h] at hat
  cases hat

/-- Where there is one value at the top and nothing below, it is this one or nothing. -/
theorem Finds.only {a : α} (htop : at? [] = some a) (hbelow : ∀ i address, at? (i :: address) = none)
    [DecidablePred p] : Finds at? p (if p a then some a else none) := by
  have honly : ∀ address a', at? address = some a' → address = [] ∧ a' = a := by
    rintro (_ | ⟨i, address⟩) a' hat
    · exact ⟨rfl, Option.some.inj (hat.symm.trans htop)⟩
    · rw [hbelow] at hat
      cases hat
  split
  · next hp => exact ⟨[], htop, hp, fun address hlt => absurd hlt (List.not_lt_nil address)⟩
  · next hp =>
    intro address a' hat
    rw [(honly address a' hat).2]
    exact hp

/-- **The first item is searched before the others.** -/
theorem Finds.cons {below : β → List Nat → Option α} {item : β} {items : List β} {more? : Option α}
    (h : Finds (below item) p found?) (hmore : Finds (atAll? below items) p more?) :
    Finds (atAll? below (item :: items)) p (found?.or more?) := by
  cases found? with
  | some a =>
    obtain ⟨address, hat, hp, hfirst⟩ := h
    refine ⟨0 :: address, hat, hp, ?_⟩
    rintro (_ | ⟨i, address'⟩) hlt a' hat'
    · cases hat'
    · rcases List.cons_lt_cons_iff.mp hlt with hi | ⟨rfl, hbelow⟩
      · exact absurd hi (Nat.not_lt_zero i)
      · exact hfirst address' hbelow a' hat'
  | none =>
    cases more? with
    | some a =>
      obtain ⟨_ | ⟨i, address⟩, hat, hp, hfirst⟩ := hmore
      · cases hat
      refine ⟨(i + 1) :: address, hat, hp, ?_⟩
      rintro (_ | ⟨_ | i', address'⟩) hlt a' hat'
      · cases hat'
      · exact h address' a' hat'
      · refine hfirst (i' :: address') (List.cons_lt_cons_iff.mpr ?_) a' hat'
        exact (List.cons_lt_cons_iff.mp hlt).imp Nat.lt_of_succ_lt_succ
          fun heq => ⟨Nat.succ.inj heq.1, heq.2⟩
    | none =>
      rintro (_ | ⟨_ | i, address⟩) a hat
      · cases hat
      · exact h address a hat
      · exact hmore (i :: address) a hat

theorem Finds.nil {below : β → List Nat → Option α} : Finds (atAll? below []) p none :=
  .nothing fun address => by cases address <;> rfl

/-- A search below a single item. -/
theorem Finds.single {below : β → List Nat → Option α} {item : β} (h : Finds (below item) p found?) :
    Finds (atAll? below [item]) p found? := by
  have hnil : Finds (atAll? below []) p none := .nil
  have hcons := h.cons hnil
  rwa [Option.or_none] at hcons

/-- Items are searched one after the other. -/
theorem Finds.findSome? {below : β → List Nat → Option α} {search : β → Option α} {items : List β}
    (h : ∀ item ∈ items, Finds (below item) p (search item)) :
    Finds (atAll? below items) p (items.findSome? search) := by
  induction items with
  | nil => exact .nil
  | cons item items ih =>
    obtain ⟨hitem, hitems⟩ := List.forall_mem_cons.mp h
    have hor : (item :: items).findSome? search = (search item).or (items.findSome? search) := by
      rw [List.findSome?_cons]
      cases search item <;> rfl
    rw [hor]
    exact hitem.cons (ih hitems)

/-- A search for something that goes with the values. -/
theorem Finds.map {f : α → β} {q : β → Prop} (h : Finds at? p found?) (hq : ∀ a, q (f a) ↔ p a) :
    Finds (fun address => (at? address).map f) q (found?.map f) := by
  have hall : ∀ address b, (at? address).map f = some b →
      (∀ a, at? address = some a → ¬ p a) → ¬ q b := by
    intro address b hat hnone
    obtain ⟨a, ha, rfl⟩ := Option.map_eq_some_iff.mp hat
    exact fun hqb => hnone a ha ((hq a).mp hqb)
  cases found? with
  | some a =>
    obtain ⟨address, hat, hp, hfirst⟩ := h
    refine ⟨address, congrArg (Option.map f) hat, (hq a).mpr hp, fun address' hlt b hb => ?_⟩
    exact hall address' b hb (hfirst address' hlt)
  | none => exact fun address b hb => hall address b hb (h address)

end Search

/-! ## 2.  References by their addresses -/

variable {T : Type}

namespace Expr

/-- The items of an expression, from left to right. -/
def children : Expr T → List (Expr T)
  | .empty | .term _ | .nonterm _ => []
  | .seq items | .choice items => items
  | .rep _ body | .opt body => [body]

/-- The rule that an expression stands for by itself. -/
def reference? : Expr T → Option RuleId
  | .nonterm rule => some rule
  | _ => none

/-- The rule that is referred to at an address, the list of the numbers of the items on the way down. -/
def referenceAt? (e : Expr T) : List Nat → Option RuleId
  | [] => e.reference?
  | i :: address => e.children[i]?.bind fun item => item.referenceAt? address

/-- If an expression is not a reference itself, its references are those of its items. -/
theorem referenceAt?_eq_atAll? {e : Expr T} (h : e.reference? = none) :
    e.referenceAt? = atAll? referenceAt? e.children := by
  funext address
  cases address with
  | nil => exact h
  | cons i address => rfl

variable {p : RuleId → Bool}

mutual

/-- **The references of an expression are collected in the order of their addresses**: a search through
the list finds the first by address. -/
theorem finds_references : ∀ e : Expr T,
    Finds e.referenceAt? (fun r => p r = true) (e.references.find? p)
  | .empty | .term _ => .nothing fun address => by cases address <;> rfl
  | .nonterm rule => by
    have hfind : List.find? p [rule] = if p rule = true then some rule else none := by
      rw [List.find?_cons]
      cases p rule <;> rfl
    have htop : (nonterm rule : Expr T).referenceAt? [] = some rule := rfl
    have hbelow : ∀ i address, (nonterm rule : Expr T).referenceAt? (i :: address) = none :=
      fun _ _ => rfl
    rw [references, hfind]
    exact .only htop hbelow
  | .seq items => by
    rw [referenceAt?_eq_atAll? rfl]
    exact finds_referencesOfAll items
  | .choice items => by
    rw [referenceAt?_eq_atAll? rfl]
    exact finds_referencesOfAll items
  | .rep least body => by
    rw [referenceAt?_eq_atAll? rfl]
    exact (finds_references body).single
  | .opt body => by
    rw [referenceAt?_eq_atAll? rfl]
    exact (finds_references body).single

/-- The same for expressions next to each other. -/
theorem finds_referencesOfAll : ∀ items : List (Expr T),
    Finds (atAll? referenceAt? items) (fun r => p r = true) ((referencesOfAll items).find? p)
  | [] => .nil
  | item :: items => by
    rw [referencesOfAll, List.find?_append]
    exact (finds_references item).cons (finds_referencesOfAll items)

end

end Expr

/-- The rule that is referred to at an address below a rule, which begins with the number of the
alternative. -/
def Rule.referenceAt? (rule : Rule T) : List Nat → Option RuleId :=
  atAll? (fun alternative => alternative.expr.referenceAt?) rule.alternatives

/-- The rule at an address of a list of rules, which begins with the number of this rule, and the one
that it refers to there. -/
def referenceAt? (rules : List (Rule T)) : List Nat → Option (RuleId × RuleId) :=
  atAll? (fun rule address => (rule.referenceAt? address).map (rule.id, ·)) rules

theorem Rule.finds_references {p : RuleId → Bool} (rule : Rule T) :
    Finds rule.referenceAt? (fun r => p r = true) (rule.references.find? p) := by
  rw [Rule.references, List.find?_flatMap]
  exact .findSome? fun alternative _ => alternative.expr.finds_references

/-- **The search for a reference that leads out of the list finds the first one.** -/
theorem finds_referenceFault (size : Nat) (rules : List (Rule T)) :
    ∃ found?, rules.findSome? (Rule.referenceFault? size) =
        found?.map (fun ids : RuleId × RuleId => .unknownRule ids.1 ids.2) ∧
      Finds (referenceAt? rules) (fun ids => size ≤ ids.2.index) found? := by
  refine ⟨rules.findSome? fun rule => (rule.references.find? (size ≤ ·.index)).map (rule.id, ·), ?_,
    .findSome? fun rule _ => rule.finds_references.map fun r => decide_eq_true_iff.symm⟩
  rw [List.map_findSome?]
  congr 1
  funext rule
  rw [Rule.referenceFault?, Function.comp_apply, Option.map_map]
  rfl

/-! ## 3.  Places and alternatives -/

/-- A fault of a rule that stands at this position, apart from its references. -/
def Rule.FaultAt (rule : Rule T) (position : Nat) (fault : GrammarError) : Prop :=
  fault = .misplaced position rule.id ∧ rule.id.index ≠ position ∨
    fault = .noAlternatives rule.id ∧ rule.id.index = position ∧ rule.alternatives = []

/-- The first rule is looked at, for its place and then for its alternatives, and if it has no fault,
the others are. -/
theorem layoutFault?_cons_eq_some_iff {position : Nat} {rule : Rule T} {rules : List (Rule T)}
    {fault : GrammarError} :
    layoutFault? position (rule :: rules) = some fault ↔
      rule.FaultAt position fault ∨
        (rule.id.index = position ∧ rule.alternatives ≠ []) ∧
          layoutFault? (position + 1) rules = some fault := by
  rw [layoutFault?]
  by_cases hplace : rule.id.index = position
  · by_cases hempty : rule.alternatives = []
    · rw [if_neg (not_not.mpr hplace), if_pos (List.isEmpty_iff.mpr hempty)]
      simp [Rule.FaultAt, hplace, hempty, eq_comm]
    · rw [if_neg (not_not.mpr hplace), if_neg (fun h => hempty (List.isEmpty_iff.mp h))]
      simp [Rule.FaultAt, hplace, hempty]
  · rw [if_pos hplace]
    simp [Rule.FaultAt, hplace, eq_comm]

/-- **The rules are gone through in order.** -/
theorem layoutFault?_eq_some_iff {fault : GrammarError} (rules : List (Rule T)) :
    ∀ position, layoutFault? position rules = some fault ↔
      ∃ i rule, rules[i]? = some rule ∧ rule.FaultAt (position + i) fault ∧
        ∀ j < i, ∀ rule', rules[j]? = some rule' →
          rule'.id.index = position + j ∧ rule'.alternatives ≠ [] := by
  induction rules with
  | nil => simp [layoutFault?]
  | cons first rules ih =>
    intro position
    rw [layoutFault?_cons_eq_some_iff, ih]
    constructor
    · rintro (hfault | ⟨hfirst, i, rule, hrule, hfault, hbefore⟩)
      · exact ⟨0, first, rfl, hfault, fun j hj => absurd hj (Nat.not_lt_zero j)⟩
      · refine ⟨i + 1, rule, hrule, by rwa [Nat.add_right_comm] at hfault, ?_⟩
        rintro (_ | j) hj rule' hrule'
        · cases hrule'
          exact hfirst
        · have hsound := hbefore j (Nat.lt_of_succ_lt_succ hj) rule' hrule'
          rwa [Nat.add_right_comm] at hsound
    · rintro ⟨_ | i, rule, hrule, hfault, hbefore⟩
      · cases hrule
        exact Or.inl hfault
      · refine Or.inr ⟨hbefore 0 (Nat.succ_pos i) first rfl, i, rule, hrule, ?_, fun j hj => ?_⟩
        · rwa [Nat.add_right_comm]
        · rw [Nat.add_right_comm]
          exact hbefore (j + 1) (Nat.succ_lt_succ hj)

/-! ## 4.  The first fault -/

/-- Before this position each rule stands at the place that is its number and has alternatives. -/
def InPlace (rules : List (Rule T)) (position : Nat) : Prop :=
  ∀ i < position, ∀ rule, rules[i]? = some rule → rule.id.index = i ∧ rule.alternatives ≠ []

/-- **The list has this fault and no fault before it.**  A rule that is out of place comes before one
without alternatives, position by position, and both come before all references. -/
def FirstFault (rules : List (Rule T)) : GrammarError → Prop
  | .noRules => rules = []
  | .misplaced position id => ∃ rule, rules[position]? = some rule ∧ rule.id = id ∧
      id.index ≠ position ∧ InPlace rules position
  | .noAlternatives id => ∃ rule, rules[id.index]? = some rule ∧ rule.id = id ∧
      rule.alternatives = [] ∧ InPlace rules id.index
  | .unknownRule id target => InPlace rules rules.length ∧
      ∃ address, FirstAt (referenceAt? rules) (fun ids => rules.length ≤ ids.2.index) address
        (id, target)

theorem layoutFault?_zero_eq_none_iff (rules : List (Rule T)) :
    layoutFault? 0 rules = none ↔ InPlace rules rules.length := by
  rw [layoutFault?_eq_none_iff]
  refine forall_congr' fun i => ?_
  simp only [Nat.zero_add]
  refine ⟨fun h _ => h, fun h rule hrule => h ?_ rule hrule⟩
  exact (List.getElem?_eq_some_iff.mp hrule).1

/-- The first pass reports the first fault if it reports anything. -/
theorem layoutFault?_zero_eq_some_iff (rules : List (Rule T)) (fault : GrammarError) :
    layoutFault? 0 rules = some fault ↔
      (∃ position id, fault = .misplaced position id ∧ FirstFault rules fault) ∨
        ∃ id, fault = .noAlternatives id ∧ FirstFault rules fault := by
  rw [layoutFault?_eq_some_iff]
  simp only [Nat.zero_add]
  constructor
  · rintro ⟨i, rule, hrule, ⟨rfl, hne⟩ | ⟨rfl, rfl, hnil⟩, hbefore⟩
    · exact Or.inl ⟨i, rule.id, rfl, rule, hrule, rfl, hne, hbefore⟩
    · exact Or.inr ⟨rule.id, rfl, rule, hrule, rfl, hnil, hbefore⟩
  · rintro (⟨position, id, rfl, rule, hrule, rfl, hne, hbefore⟩ |
      ⟨id, rfl, rule, hrule, rfl, hnil, hbefore⟩)
    · exact ⟨position, rule, hrule, Or.inl ⟨rfl, hne⟩, hbefore⟩
    · exact ⟨_, rule, hrule, Or.inr ⟨rfl, rfl, hnil⟩, hbefore⟩

/-- **The fault that is reported is the first.** -/
theorem firstFault?_eq_some_iff (rules : List (Rule T)) (fault : GrammarError) :
    firstFault? rules = some fault ↔ FirstFault rules fault := by
  obtain ⟨found?, hsearch, hfinds⟩ := finds_referenceFault rules.length rules
  cases rules with
  | nil =>
    cases fault with
    | noRules => exact iff_of_true rfl rfl
    | misplaced position id => simp [firstFault?, FirstFault]
    | noAlternatives id => simp [firstFault?, FirstFault]
    | unknownRule id target =>
      refine iff_of_false (by simp [firstFault?]) ?_
      rintro ⟨-, _ | ⟨i, address⟩, hat, -⟩ <;> cases hat
  | cons first rest =>
    rw [firstFault?, if_neg (by simp), Option.or_eq_some_iff, hsearch]
    constructor
    · rintro (hlayout | ⟨hlayout, hreference⟩)
      · rcases (layoutFault?_zero_eq_some_iff _ _).mp hlayout with ⟨_, _, -, h⟩ | ⟨_, -, h⟩ <;>
          exact h
      · obtain ⟨ids, hids, rfl⟩ := Option.map_eq_some_iff.mp hreference
        exact ⟨(layoutFault?_zero_eq_none_iff _).mp hlayout, hfinds.eq_some_iff.mp hids⟩
    · intro h
      cases fault with
      | noRules => cases h
      | misplaced position id =>
        exact Or.inl ((layoutFault?_zero_eq_some_iff _ _).mpr (Or.inl ⟨_, _, rfl, h⟩))
      | noAlternatives id =>
        exact Or.inl ((layoutFault?_zero_eq_some_iff _ _).mpr (Or.inr ⟨_, rfl, h⟩))
      | unknownRule id target =>
        obtain ⟨hplace, hfirst⟩ := h
        refine Or.inr ⟨(layoutFault?_zero_eq_none_iff _).mpr hplace, ?_⟩
        rw [hfinds.eq_some_iff.mpr hfirst]
        rfl

/-- A list has no fault exactly when it is not empty, its rules are in place and have alternatives, and
what is referred to at any address is in the list. -/
theorem firstFault?_eq_none_iff_referenceAt? (rules : List (Rule T)) :
    firstFault? rules = none ↔ rules ≠ [] ∧ InPlace rules rules.length ∧
      ∀ address ids, referenceAt? rules address = some ids → ids.2.index < rules.length := by
  obtain ⟨found?, hsearch, hfinds⟩ := finds_referenceFault rules.length rules
  cases rules with
  | nil => simp [firstFault?]
  | cons first rest =>
    rw [firstFault?, if_neg (by simp), Option.or_eq_none_iff, layoutFault?_zero_eq_none_iff, hsearch,
      Option.map_eq_none_iff, hfinds.eq_none_iff, and_iff_right (List.cons_ne_nil _ _)]
    simp only [Nat.not_le]

/-- **A list of rules is a grammar, or its first fault is reported.**  It is a grammar exactly when it is
not empty, each rule stands at the place that is its number and has alternatives, and whatever is
referred to, at any depth of any alternative, is in the list; and then it is the grammar of these rules.
Otherwise the fault that is reported is one of the list, and the list has no fault before it. -/
theorem ofRules_exact (rules : List (Rule T)) :
    ((∃ g, Grammar.ofRules rules = .ok g) ↔ rules ≠ [] ∧ InPlace rules rules.length ∧
      ∀ address ids, referenceAt? rules address = some ids → ids.2.index < rules.length) ∧
    (∀ g, Grammar.ofRules rules = .ok g → g.rules.toList = rules) ∧
    ∀ fault, Grammar.ofRules rules = .error fault ↔ FirstFault rules fault := by
  rw [← firstFault?_eq_none_iff_referenceAt?]
  simp only [← firstFault?_eq_some_iff]
  unfold Grammar.ofRules
  split
  · next hnone =>
    refine ⟨iff_of_true ⟨_, rfl⟩ hnone, fun g hg => ?_, fun fault => ?_⟩
    · cases hg
      rfl
    · exact iff_of_false (fun h => by cases h) (fun h => by rw [hnone] at h; cases h)
  · next fault hsome =>
    refine ⟨iff_of_false ?_ (fun h => by rw [hsome] at h; cases h), fun g hg => ?_, fun fault' => ?_⟩
    · rintro ⟨g, hg⟩
      cases hg
    · cases hg
    · rw [hsome, Option.some.injEq, Except.error.injEq]

/-- The reference out of the list is written first, and the rule out of place is reported. -/
example :
    let rules : List (Rule Nat) :=
      [⟨⟨0⟩, "first", [⟨.empty, .opt (.nonterm ⟨7⟩)⟩]⟩, ⟨⟨5⟩, "second", []⟩]
    firstFault? rules = some (.misplaced 1 ⟨5⟩) ∧
      referenceAt? rules [0, 0, 0] = some (⟨0⟩, ⟨7⟩) := by
  decide

end GrammarKit
