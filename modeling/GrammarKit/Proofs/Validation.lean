import GrammarKit.Grammar.Basic

/-!
# What a list of rules without faults is

A grammar carries the proof that the search for a fault finds none.  Here that proof is read as what
the parser needs: a rule stands at the place that is its number, it has alternatives, and whatever it
refers to is there.
-/

namespace GrammarKit

variable {T : Type}

theorem layoutFault?_eq_none_iff (rules : List (Rule T)) :
    ∀ position, layoutFault? position rules = none ↔
      ∀ (i : Nat) (rule : Rule T), rules[i]? = some rule →
        rule.id.index = position + i ∧ rule.alternatives ≠ [] := by
  induction rules with
  | nil => simp [layoutFault?]
  | cons first rules ih =>
    intro position
    rw [layoutFault?]
    constructor
    · intro h
      split at h
      · cases h
      · next hplace =>
        split at h
        · cases h
        · next hsome =>
          rintro (_ | i) rule hrule
          · cases hrule
            exact ⟨Decidable.not_not.mp hplace, fun hnil => hsome (by rw [hnil]; rfl)⟩
          · obtain ⟨hindex, halternatives⟩ := (ih (position + 1)).mp h i rule hrule
            exact ⟨by omega, halternatives⟩
    · intro h
      obtain ⟨hindex, halternatives⟩ := h 0 first rfl
      rw [if_neg (by simpa using hindex), if_neg (by simpa using halternatives)]
      refine (ih (position + 1)).mpr fun i rule hrule => ?_
      obtain ⟨hindex, halternatives⟩ := h (i + 1) rule hrule
      exact ⟨by omega, halternatives⟩

theorem referenceFault?_eq_none_iff (size : Nat) (rule : Rule T) :
    rule.referenceFault? size = none ↔ ∀ r ∈ rule.references, r.index < size := by
  simp [Rule.referenceFault?]

/-- **A list of rules has no fault** exactly when it is not empty, every rule stands at its place and
has alternatives, and no reference leads out of the list. -/
theorem firstFault?_eq_none_iff (rules : List (Rule T)) :
    firstFault? rules = none ↔
      rules ≠ [] ∧
      (∀ (i : Nat) (rule : Rule T), rules[i]? = some rule →
        rule.id.index = i ∧ rule.alternatives ≠ []) ∧
      ∀ rule ∈ rules, ∀ r ∈ rule.references, r.index < rules.length := by
  cases rules with
  | nil => simp [firstFault?]
  | cons first rest =>
    have hlayout := layoutFault?_eq_none_iff (first :: rest) 0
    simp only [Nat.zero_add] at hlayout
    rw [firstFault?, if_neg (by simp), Option.or_eq_none_iff, hlayout, List.findSome?_eq_none_iff]
    simp only [referenceFault?_eq_none_iff]
    exact ⟨fun h => ⟨List.cons_ne_nil _ _, h⟩, fun h => h.2⟩

namespace Grammar

/-- A rule of a grammar is found under its own number. -/
theorem id_of_rule? {g : Grammar T} {r : RuleId} {rule : Rule T} (h : g.rule? r = some rule) :
    rule.id = r := by
  have hplace := ((firstFault?_eq_none_iff g.rules.toList).mp g.faultless).2.1 r.index rule
    (by simpa [rule?] using h)
  obtain ⟨⟨id⟩, name, alternatives⟩ := rule
  obtain ⟨index⟩ := r
  exact congrArg RuleId.mk hplace.1

theorem mem_rules_of_rule? {g : Grammar T} {r : RuleId} {rule : Rule T}
    (h : g.rule? r = some rule) : rule ∈ g.rules.toList :=
  Array.mem_toList_iff.mpr (Array.mem_of_getElem? h)

/-- What a rule of a grammar refers to is a rule of the grammar. -/
theorem mem_ids_of_references {g : Grammar T} {rule : Rule T} (hrule : rule ∈ g.rules.toList)
    {alternative : Alternative T} (halternative : alternative ∈ rule.alternatives) {r : RuleId}
    (h : r ∈ alternative.expr.references) : r ∈ g.ids := by
  have hrefs := ((firstFault?_eq_none_iff g.rules.toList).mp g.faultless).2.2 rule hrule
  have hr := hrefs r (List.mem_flatMap.mpr ⟨alternative, halternative, h⟩)
  exact mem_ids.mpr (by simpa using hr)

/-- A grammar has a first rule. -/
theorem start_mem_ids (g : Grammar T) : RuleId.start ∈ g.ids := by
  have hne : g.rules.toList ≠ [] := ((firstFault?_eq_none_iff g.rules.toList).mp g.faultless).1
  refine mem_ids.mpr ?_
  rw [← Array.length_toList]
  exact List.length_pos_iff.mpr hne

theorem exists_rule?_of_mem_ids {g : Grammar T} {r : RuleId} (h : r ∈ g.ids) :
    ∃ rule, g.rule? r = some rule := by
  have hlt : r.index < g.rules.size := mem_ids.mp h
  exact ⟨g.rules[r.index], Array.getElem?_eq_getElem hlt⟩

end Grammar

end GrammarKit
