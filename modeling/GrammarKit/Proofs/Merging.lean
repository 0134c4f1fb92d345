import GrammarKit.Proofs.LeftRecursion
import GrammarKit.Proofs.Obliviousness

/-!
# A rule with one choice

There are two ways to write down an ordered choice.  The alternatives of a rule are tried each with a
production of its own, and the rule puts the stream back in between.  The items of a choice share one
production, and the choice puts back nothing at all.  If all alternatives have the same shape, either
way may be taken for the other: an item that does not match has left the stream and the production as
it found them, so the next item finds what a fresh start would have given it.

The two ways are not told apart from outside either.  Whatever the items said, the rule says that it
does not match; and the nodes that were made in vain are made in both.

* `Rule.merged`: the rule with one alternative, a choice.
* `attemptAlternatives_merged`: the alternatives and the choice come to the same.
* `Grammar.matchFresh_eq_of_matchOnce`: grammars whose rules do the same do so at any depth.
* `merged_matches_alike`: a grammar with the rule written the other way.
-/

namespace GrammarKit

variable {T N W S : Type}

/-! ## 1.  The rule -/

/-- The rule with one alternative in place of all of its own: the choice between them. -/
def Rule.merged (shape : Shape) (rule : Rule T) : Rule T :=
  { rule with alternatives := [⟨shape, .choice (rule.alternatives.map Alternative.expr)⟩] }

/-- It refers to the same rules, in the same order. -/
theorem Rule.references_merged (shape : Shape) (rule : Rule T) :
    (rule.merged shape).references = rule.references := by
  rw [references, merged, List.flatMap_singleton, Expr.references, Expr.referencesOfAll_eq_flatMap,
    List.flatMap_map]
  rfl

variable [TokenStream S T] {build : Builder T N W}

/-- **Alternatives of one shape are tried like the items of a choice.** -/
theorem attemptAlternatives_merged {d : Dispatch N W S} (hd : d.StaysOnMismatch) (id : RuleId)
    {shape : Shape} (stream : S) :
    ∀ alternatives : List (Alternative T), (∀ a ∈ alternatives, a.shape = shape) → ∀ world : W,
      attemptAlternatives build d id [⟨shape, .choice (alternatives.map Alternative.expr)⟩] world
          stream =
        attemptAlternatives build d id alternatives world stream
  | [], _, world => by
    simp only [attemptAlternatives, List.map_nil, Expr.attempt, Expr.attemptFirst]
  | alternative :: alternatives, hshape, world => by
    obtain ⟨hfirst, hrest⟩ := List.forall_mem_cons.mp hshape
    have hrestores := (Expr.attempt_backtracks hd alternative.expr
      ⟨stream, Production.start id shape, world⟩).restores
    have hnext := fun world => attemptAlternatives_merged hd id stream alternatives hrest world
    simp only [attemptAlternatives, List.map_cons, Expr.attempt, Expr.attemptFirst, hfirst] at hnext ⊢
    rcases hstep : alternative.expr.attempt d ⟨stream, Production.start id shape, world⟩ with
      ⟨outcome, b⟩
    rw [hstep] at hrestores
    cases outcome with
    | matched value => rfl
    | noMatch why =>
      -- The choice goes on from where the item has left it, which is where it started.
      obtain ⟨stream', pieces, world'⟩ := b
      obtain ⟨hstream, hpieces⟩ := hrestores why rfl
      dsimp only at hstream hpieces
      rw [hstream, hpieces]
      exact hnext world'
    | failed why => rfl

/-! ## 2.  Grammars -/

namespace Grammar

variable {g g' : Grammar T}

/-- **Grammars whose rules do the same once do the same at any depth**: the rules in progress are the
same, and so are the dispatchers for the rules inside. -/
theorem matchFresh_eq_of_matchOnce (hsize : g'.rules.size = g.rules.size)
    (honce : ∀ d : Dispatch N W S, d.StaysOnMismatch → g'.matchOnce build d = g.matchOnce build d)
    (left : Nat) (fresh : List RuleId) (r : RuleId) (world : W) (stream : S) :
    g'.matchFresh build left fresh r world stream = g.matchFresh build left fresh r world stream := by
  have hids : g'.ids = g.ids := by rw [ids, ids, hsize]
  induction left using Nat.strongRecOn generalizing fresh r world stream with
  | _ left ihleft =>
    induction hcount : fresh.length using Nat.strongRecOn generalizing fresh r world stream with
    | _ count ihfresh =>
      by_cases hfresh : r ∈ fresh
      · rw [matchFresh_of_mem hfresh, matchFresh_of_mem hfresh]
        have hinside : (g'.dispatchWithin build left fresh r : Dispatch N W S) =
            g.dispatchWithin build left fresh r := by
          funext r' world' stream'
          rw [dispatchWithin, dispatchWithin]
          split
          · next hless => rw [hids, ihleft _ hless]
          · refine ihfresh _ ?_ (fresh.erase r) r' world' stream' rfl
            have := List.length_pos_of_mem hfresh
            rw [List.length_erase_of_mem hfresh]
            omega
        rw [hinside, honce _ (g.dispatchWithin_stays build left fresh r)]
      · have hnone : (g'.rule? r).isNone = (g.rule? r).isNone := by
          rw [Bool.eq_iff_iff, Option.isNone_iff_eq_none, Option.isNone_iff_eq_none, rule?, rule?,
            Array.getElem?_eq_none_iff, Array.getElem?_eq_none_iff, hsize]
        rw [matchFresh_of_not_mem hfresh, matchFresh_of_not_mem hfresh, blame, blame, hnone]

/-- The rules with one of them merged have no fault. -/
theorem firstFault?_merged {r : RuleId} {rule : Rule T} (hrule : g.rule? r = some rule)
    (shape : Shape) :
    firstFault? (g.rules.toList.set r.index (rule.merged shape)) = none := by
  obtain ⟨hne, hplaces, hrefs⟩ := (firstFault?_eq_none_iff g.rules.toList).mp g.faultless
  have hget : g.rules.toList[r.index]? = some rule := by rwa [Array.getElem?_toList]
  refine (firstFault?_eq_none_iff _).mpr ⟨?_, fun i other hother => ?_, fun other hother => ?_⟩
  · rwa [Ne, List.set_eq_nil_iff]
  · by_cases hi : r.index = i
    · subst hi
      rw [List.getElem?_set_self (List.getElem?_eq_some_iff.mp hget).1] at hother
      cases hother
      exact ⟨(hplaces _ _ hget).1, List.cons_ne_nil _ _⟩
    · rw [List.getElem?_set_ne hi] at hother
      exact hplaces i other hother
  · rw [List.length_set]
    rcases List.mem_or_eq_of_mem_set hother with hmem | rfl
    · exact hrefs other hmem
    · rw [Rule.references_merged]
      exact hrefs rule (mem_rules_of_rule? hrule)

/-- A rule does the same once, whether it is merged or not. -/
theorem matchOnce_merged {r : RuleId} {rule : Rule T} {shape : Shape}
    (hrule : g.rule? r = some rule) (hshape : ∀ a ∈ rule.alternatives, a.shape = shape)
    (hrules : g'.rules.toList = g.rules.toList.set r.index (rule.merged shape))
    {d : Dispatch N W S} (hd : d.StaysOnMismatch) :
    g'.matchOnce build d = g.matchOnce build d := by
  funext r' world stream
  have hlt : r.index < g.rules.toList.length := by
    rw [Array.length_toList]
    exact (Array.getElem?_eq_some_iff.mp hrule).1
  have hget : g'.rule? r' = if r = r' then some (rule.merged shape) else g.rule? r' := by
    rw [rule?, ← Array.getElem?_toList, hrules]
    by_cases hr : r = r'
    · rw [if_pos hr, ← hr, List.getElem?_set_self hlt]
    · have hindex : r.index ≠ r'.index := fun h => hr (congrArg RuleId.mk h)
      rw [if_neg hr, List.getElem?_set_ne hindex, Array.getElem?_toList, rule?]
  rw [matchOnce, matchOnce, hget]
  by_cases hr : r = r'
  · subst hr
    rw [if_pos rfl, hrule]
    split
    · rfl
    · exact attemptAlternatives_merged hd rule.id stream rule.alternatives hshape world
  · rw [if_neg hr]

end Grammar

/-- **An ordered choice may be written in a rule or in an expression.**  If all alternatives of a rule
have the same shape, then the list of rules in which that rule has one alternative instead, the choice
between their expressions, has no fault either.  Every rule of its grammar gives the same reply as
before, from every world and at every place of every stream: the same outcome with its reason or its
message, the same stream, and the same world of the builder, whichever builder it is.  So all calls of
the builder are the same, in the same order, and each answers the same node.  A whole parse gives the
same answer; and where the match would never return, it does not return in the other grammar. -/
theorem merged_matches_alike (g : Grammar T) {r : RuleId} {rule : Rule T} {shape : Shape}
    (hrule : g.rule? r = some rule) (hshape : ∀ a ∈ rule.alternatives, a.shape = shape) :
    ∃ g' : Grammar T,
      Grammar.ofRules (g.rules.toList.set r.index (rule.merged shape)) = .ok g' ∧
      ∀ {N W S : Type} [TokenStream S T] (build : Builder T N W) (r' : RuleId) (world : W)
          (stream : S),
        g'.matchRule build r' world stream = g.matchRule build r' world stream ∧
        (g'.matchRule build.recorded r' (world, []) stream).world.2 =
          (g.matchRule build.recorded r' (world, []) stream).world.2 ∧
        g'.parse build world stream = g.parse build world stream ∧
        ∀ [LawfulTokenStream S], OffsetsGrow stream → ∀ reply,
          (g'.Returns build r' world stream reply ↔ g.Returns build r' world stream reply) := by
  have hfault := g.firstFault?_merged hrule shape
  let rules := g.rules.toList.set r.index (rule.merged shape)
  let g' : Grammar T := ⟨rules.toArray, by simpa [rules] using hfault⟩
  have hmatch : ∀ {N W S : Type} [TokenStream S T] (build : Builder T N W) (r' : RuleId) (world : W)
      (stream : S), g'.matchRule build r' world stream = g.matchRule build r' world stream := by
    intro N W S _ build r' world stream
    have hsize : g'.rules.size = g.rules.size := by simp [g', rules]
    have honce : ∀ d : Dispatch N W S, d.StaysOnMismatch →
        g'.matchOnce build d = g.matchOnce build d := fun d hd =>
      Grammar.matchOnce_merged hrule hshape rfl hd
    have hids : g'.ids = g.ids := by rw [Grammar.ids, Grammar.ids, hsize]
    rw [Grammar.matchRule, Grammar.matchRule, hids]
    exact Grammar.matchFresh_eq_of_matchOnce hsize honce _ g.ids r' world stream
  refine ⟨g', ?_, fun build r' world stream => ⟨hmatch build r' world stream, ?_, ?_, ?_⟩⟩
  · rw [Grammar.ofRules]
    split
    · rfl
    · next fault hsome => cases hfault.symm.trans hsome
  · rw [hmatch]
  · rw [Grammar.parse, Grammar.parse, hmatch]
  · intro _ hgrow reply
    rw [Grammar.returns_iff hgrow, Grammar.returns_iff hgrow, hmatch]

/-- The fives are made twice in a choice as well: what is looked for first ends with a three. -/
theorem merged_matches_alike_second_way :
    let start := TokenArray.ofList [1, 5, 5, 2]
    ∃ rule g', fives.rule? ⟨0⟩ = some rule ∧
      (∀ a ∈ rule.alternatives, a.shape = .termNontermList) ∧
      Grammar.ofRules (fives.rules.toList.set 0 (rule.merged .termNontermList)) = .ok g' ∧
      (g'.matchRule FreeTree.build ⟨0⟩ () start).outcome =
        .matched (.node [1, 2] [.node [5, 5] []]) ∧
      (g'.matchRule FreeTree.build.recorded ⟨0⟩ ((), []) start).world.2.length = 3 := by
  intro start
  obtain ⟨rule, hrule⟩ := Grammar.exists_rule?_of_mem_ids (g := fives) (r := ⟨0⟩) (by decide)
  have hshape : ∀ a ∈ rule.alternatives, a.shape = .termNontermList :=
    fives_keepsAll rule (Grammar.mem_rules_of_rule? hrule)
  have hmatch : (fives.matchRule FreeTree.build ⟨0⟩ () (TokenArray.ofList [1, 5, 5, 2])).outcome =
      .matched (.node [1, 2] [.node [5, 5] []]) := by cbv
  have hcalls : (fives.matchRule FreeTree.build.recorded ⟨0⟩ ((), [])
      (TokenArray.ofList [1, 5, 5, 2])).world.2.length = 3 := by cbv
  obtain ⟨g', hrules, halike⟩ := merged_matches_alike fives hrule hshape
  obtain ⟨hsame, hsamecalls, -, -⟩ := halike FreeTree.build ⟨0⟩ () start
  exact ⟨rule, g', hrule, hshape, hrules, by rw [hsame]; exact hmatch,
    by rw [hsamecalls]; exact hcalls⟩

end GrammarKit
