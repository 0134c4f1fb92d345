import GrammarKit.Proofs.Conservation
import GrammarKit.Proofs.StreamIndependence
import Mathlib.Algebra.GroupWithZero.Nat
import Mathlib.Data.List.Permutation

/-!
# The parser does not look at nodes

A parser hands the nodes of a builder on, from where they are made to where other nodes are made of
them.  It has no way to look into one.  So two parses of the same tokens with two builders take the
same course: they ask for the same nodes in the same order, also on ways that lead nowhere, and where
one asks for a node made of others, the other asks for one made of what it was given in their place.

To say this, a builder keeps all its calls: what it was asked for and the node that it made.  A node
of one parse and a node of the other are paired if calls of the same number have made them.

One of the builders may make nothing but a record of how it was asked.  From this record the nodes of
any algebra are computed afterwards.

* `Builder.recorded`: a builder that keeps its calls.
* `Corresponding`: the calls of two builders, one by one.
* `Construction.fold`: the value of a record.
* `matchRule_oblivious`: the two parses agree.
-/

namespace GrammarKit

variable {T N W X V Y S : Type}

/-! ## 1.  Calls -/

/-- A call of a builder. -/
structure Call (T N : Type) where
  /-- What was asked for. -/
  request : Reduction T N
  /-- The node that was made. -/
  node : N

/-- The builder that keeps a list of its calls. -/
def Builder.recorded (build : Builder T N W) : Builder T N (W × List (Call T N)) :=
  fun request w =>
    ((build request w.1).1,
      ((build request w.1).2, w.2 ++ [⟨request, (build request w.1).1⟩]))

/-- The two nodes were made by calls of the same number. -/
def Paired (calls : List (Call T N)) (calls' : List (Call T X)) (node : N) (node' : X) : Prop :=
  ∃ (i : Nat) (call : Call T N) (call' : Call T X),
    calls[i]? = some call ∧ calls'[i]? = some call' ∧ call.node = node ∧ call'.node = node'

/-- **The calls of two builders correspond**, one by one: the same is asked for, with the same rule
and the same terms, of nodes that earlier calls of the same numbers have made. -/
inductive Corresponding : List (Call T N) → List (Call T X) → Prop where
  | nil : Corresponding [] []
  | snoc {calls calls' call call'} (h : Corresponding calls calls')
      (hrequest : call.request.Alike (Paired calls calls') call'.request) :
      Corresponding (calls ++ [call]) (calls' ++ [call'])

theorem Corresponding.length_eq {calls : List (Call T N)} {calls' : List (Call T X)}
    (h : Corresponding calls calls') : calls.length = calls'.length := by
  induction h with
  | nil => rfl
  | snoc _ _ ih => rw [List.length_append, List.length_append, ih]; rfl

/-- Nodes that are paired stay so while more calls are made. -/
theorem Paired.mono {calls more : List (Call T N)} {calls' more' : List (Call T X)} {node : N}
    {node' : X} (h : Paired calls calls' node node') (hcalls : calls <+: more)
    (hcalls' : calls' <+: more') : Paired more more' node node' := by
  obtain ⟨i, call, call', hcall, hcall', hnodes⟩ := h
  obtain ⟨hlt, rfl⟩ := List.getElem?_eq_some_iff.mp hcall
  obtain ⟨hlt', rfl⟩ := List.getElem?_eq_some_iff.mp hcall'
  exact ⟨i, _, _, List.prefix_iff_getElem?.mp hcalls i hlt,
    List.prefix_iff_getElem?.mp hcalls' i hlt', hnodes⟩

/-- The nodes made by two calls that have just been made. -/
theorem Corresponding.paired_last {calls : List (Call T N)} {calls' : List (Call T X)}
    (h : Corresponding calls calls') (call : Call T N) (call' : Call T X) :
    Paired (calls ++ [call]) (calls' ++ [call']) call.node call'.node := by
  refine ⟨calls.length, call, call', List.getElem?_concat_length, ?_, rfl, rfl⟩
  rw [h.length_eq]
  exact List.getElem?_concat_length

namespace Coupling

/-- A builder that keeps its calls goes on in step with the builder itself. -/
def recorded (build : Builder T N W) : Coupling build.recorded build where
  good w := w.1.1 = w.2
  grows _ _ := True
  means _ := Eq
  refl _ := True.intro
  trans _ _ := True.intro
  mono _ h := h
  sound hgood h := by
    rw [← hgood, h.eq]
    exact ⟨rfl, True.intro, rfl⟩

/-- **Any two builders that keep their calls go on in step**, and their calls correspond. -/
def corresponding (build : Builder T N W) (build' : Builder T X V) :
    Coupling build.recorded build'.recorded where
  good w := Corresponding w.1.2 w.2.2
  grows w w' := w.1.2 <+: w'.1.2 ∧ w.2.2 <+: w'.2.2
  means w := Paired w.1.2 w.2.2
  refl _ := ⟨List.prefix_rfl, List.prefix_rfl⟩
  trans h h' := ⟨h.1.trans h'.1, h.2.trans h'.2⟩
  mono hgrows h := h.mono hgrows.1 hgrows.2
  sound hgood h :=
    ⟨.snoc hgood h, ⟨List.prefix_append _ _, List.prefix_append _ _⟩, hgood.paired_last _ _⟩

end Coupling

/-! ## 2.  Records of how a node was made -/

/-- How a node was made: what was asked for, with records in place of nodes. -/
inductive Construction (T : Type) where
  /-- The record of one call. -/
  | node (request : Reduction T (Construction T))

namespace Construction

mutual

/-- The node that an algebra makes in this way. -/
def fold (algebra : Reduction T X → X) : Construction T → X
  | .node request => algebra (foldRequest algebra request)

/-- What the algebra is asked for. -/
def foldRequest (algebra : Reduction T X → X) : Reduction T (Construction T) → Reduction T X
  | .null => .null
  | .empty rule => .empty rule
  | .term rule token => .term rule token
  | .nonterm rule record => .nonterm rule (fold algebra record)
  | .termNonterm rule token record => .termNonterm rule token (fold algebra record)
  | .nontermNonterm rule left right =>
    .nontermNonterm rule (fold algebra left) (fold algebra right)
  | .nontermTermNonterm rule left token right =>
    .nontermTermNonterm rule (fold algebra left) token (fold algebra right)
  | .nontermList rule records => .nontermList rule (foldAll algebra records)
  | .termNontermList rule tokens records =>
    .termNontermList rule tokens (foldAll algebra records)

/-- The same for several records. -/
def foldAll (algebra : Reduction T X → X) : List (Construction T) → List X
  | [] => []
  | record :: records => fold algebra record :: foldAll algebra records

end

variable (algebra : Reduction T X → X)

theorem foldAll_eq_map (records : List (Construction T)) :
    foldAll algebra records = records.map (fold algebra) := by
  induction records with
  | nil => rfl
  | cons record records ih => rw [foldAll, ih, List.map_cons]

theorem fold_node (request : Reduction T (Construction T)) :
    (node request).fold algebra = algebra (request.map (fold algebra)) := by
  rw [fold]
  cases request <;> simp only [foldRequest, foldAll_eq_map, Reduction.map]

end Construction

/-- What is asked for of the images of the nodes. -/
theorem Reduction.Alike.map_eq {f : N → X} {reduction : Reduction T N} {reduction' : Reduction T X}
    (h : reduction.Alike (fun node value => f node = value) reduction') :
    reduction.map f = reduction' := by
  have hall : ∀ {nodes : List N} {values : List X},
      List.Forall₂ (fun node value => f node = value) nodes values → nodes.map f = values := by
    intro nodes values h
    rwa [← List.forall₂_eq_eq_eq, List.forall₂_map_left_iff]
  cases h with
  | null => rfl
  | empty rule => rfl
  | term rule token => rfl
  | nonterm rule h => rw [map, h]
  | termNonterm rule token h => rw [map, h]
  | nontermNonterm rule hleft hright => rw [map, hleft, hright]
  | nontermTermNonterm rule token hleft hright => rw [map, hleft, hright]
  | nontermList rule h => rw [map, hall h]
  | termNontermList rule tokens h => rw [map, hall h]

theorem Outcome.Alike.map_eq {f : N → X} {outcome : Outcome N} {outcome' : Outcome X}
    (h : outcome.Alike (fun node value => f node = value) outcome') :
    outcome.map f = outcome' := by
  cases h with
  | matched h => rw [map_matched, h]
  | noMatch why => rfl
  | failed why => rfl

/-- **The records go on in step with any algebra**, whose nodes are their values. -/
def Coupling.fold (algebra : Reduction T X → X) :
    Coupling (algebraBuilder Construction.node) (algebraBuilder algebra) where
  good _ := True
  grows _ _ := True
  means _ record value := record.fold algebra = value
  refl _ := True.intro
  trans _ _ := True.intro
  mono _ h := h
  sound _ h := ⟨True.intro, True.intro, by
    rw [← h.map_eq]
    exact Construction.fold_node algebra _⟩

/-! ## 3.  Two parses -/

namespace Grammar

variable [TokenStream S T] [LawfulTokenStream S] (g : Grammar T) (r : RuleId) (stream : S)

/-- Keeping the calls does not change a match. -/
theorem matchRule_recorded (build : Builder T N W) (w : W) (calls : List (Call T N)) :
    g.matchRule build r w stream =
      ⟨(g.matchRule build.recorded r (w, calls) stream).outcome,
        (g.matchRule build.recorded r (w, calls) stream).world.1,
        (g.matchRule build.recorded r (w, calls) stream).stream⟩ := by
  obtain ⟨tokens, htokens⟩ := exists_ahead stream
  have hboth := g.matchRule_coupled (Coupling.recorded build) ⟨htokens, htokens⟩ r
    (w := ((w, calls), w)) rfl
  obtain ⟨houtcome, ⟨k, -, -, hstream, hstream'⟩, hgood, -⟩ := hboth
  have hworld : (g.matchRule build.recorded r (w, calls) stream).world.1 =
      (g.matchRule build r w stream).world := hgood
  rw [houtcome.eq, hworld, hstream, ← hstream']

/-- The outcomes of two builders are alike. -/
theorem outcome_alike (build : Builder T N W) (build' : Builder T X V) (w : W) (w' : V) :
    ∃ means : N → X → Prop,
      (g.matchRule build r w stream).outcome.Alike means (g.matchRule build' r w' stream).outcome := by
  obtain ⟨tokens, htokens⟩ := exists_ahead stream
  have hboth := g.matchRule_coupled (Coupling.corresponding build build') ⟨htokens, htokens⟩ r
    (w := ((w, []), (w', []))) .nil
  rw [g.matchRule_recorded r stream build w [], g.matchRule_recorded r stream build' w' []]
  exact ⟨_, hboth.1⟩

/-- A rule that returns with one builder returns with every other, and from every world. -/
theorem returns_of_returns {build : Builder T N W} (build' : Builder T X V) {w : W} (w' : V)
    (hgrow : OffsetsGrow stream) {reply : Reply N W S} (h : g.Returns build r w stream reply) :
    g.Returns build' r w' stream (g.matchRule build' r w' stream) := by
  obtain ⟨rfl, hproper⟩ := (returns_iff hgrow).mp h
  obtain ⟨_, halike⟩ := g.outcome_alike r stream build build' w w'
  exact (returns_iff hgrow).mpr ⟨rfl, halike.proper hproper⟩

/-- The values of the records are the nodes of the algebra. -/
theorem matchRule_fold (algebra : Reduction T X → X) :
    (g.matchRule (algebraBuilder Construction.node) r () stream).outcome.map (Construction.fold algebra) =
        (g.matchRule (algebraBuilder algebra) r () stream).outcome ∧
      (g.matchRule (algebraBuilder Construction.node) r () stream).stream =
        (g.matchRule (algebraBuilder algebra) r () stream).stream := by
  obtain ⟨tokens, htokens⟩ := exists_ahead stream
  have hboth := g.matchRule_coupled (Coupling.fold algebra) ⟨htokens, htokens⟩ r (w := ((), ()))
    True.intro
  obtain ⟨houtcome, ⟨k, -, -, hstream, hstream'⟩, -, -⟩ := hboth
  exact ⟨houtcome.map_eq, hstream.trans hstream'.symm⟩

theorem parse_fold (algebra : Reduction T X → X) :
    (g.parse (algebraBuilder Construction.node) () stream).1.map (Construction.fold algebra) =
      (g.parse (algebraBuilder algebra) () stream).1 := by
  have hmatch := g.matchRule_fold RuleId.start stream algebra
  rw [parse, parse]
  rcases hrecord : g.matchRule (algebraBuilder Construction.node) RuleId.start () stream with
    ⟨outcome, world, rest⟩
  rcases hvalue : g.matchRule (algebraBuilder algebra) RuleId.start () stream with
    ⟨outcome', world', rest'⟩
  rw [hrecord, hvalue] at hmatch
  obtain ⟨houtcome, hstream⟩ := hmatch
  dsimp only at houtcome hstream
  subst houtcome hstream
  cases outcome with
  | matched record =>
    dsimp only [Outcome.map]
    split <;> rfl
  | noMatch why => rfl
  | failed why => rfl

/-- **The parser is oblivious to the builder.**  For every grammar, rule and stream and any two
builders, from whatever worlds, the two matches have the same outcome up to the nodes, leave the
stream at the same place, and make calls that correspond one by one; and a match has these calls
whether or not they are kept.  The recursion that keeps no list of the rules in progress returns with
both builders, and also if the calls are kept, or with none.  So a match, and a whole parse, with any
algebra gives the value of the record that is made in its place. -/
theorem matchRule_oblivious (build : Builder T N W) (build' : Builder T X V) (w : W) (w' : V)
    (algebra : Reduction T Y → Y) :
    (let run := g.matchRule build.recorded r (w, []) stream
      let run' := g.matchRule build'.recorded r (w', []) stream
      g.matchRule build r w stream = ⟨run.outcome, run.world.1, run.stream⟩ ∧
        g.matchRule build' r w' stream = ⟨run'.outcome, run'.world.1, run'.stream⟩ ∧
        run.outcome.Alike (Paired run.world.2 run'.world.2) run'.outcome ∧
        run.stream = run'.stream ∧
        Corresponding run.world.2 run'.world.2 ∧
        (OffsetsGrow stream →
          (∀ reply, g.Returns build r w stream reply → reply = g.matchRule build r w stream ∧
            g.Returns build.recorded r (w, []) stream run ∧
            g.Returns build' r w' stream (g.matchRule build' r w' stream)) ∧
          ∀ reply, g.Returns build' r w' stream reply → reply = g.matchRule build' r w' stream ∧
            g.Returns build'.recorded r (w', []) stream run' ∧
            g.Returns build r w stream (g.matchRule build r w stream))) ∧
      (g.matchRule (algebraBuilder Construction.node) r () stream).outcome.map
          (Construction.fold algebra) = (g.matchRule (algebraBuilder algebra) r () stream).outcome ∧
      (g.matchRule (algebraBuilder Construction.node) r () stream).stream =
        (g.matchRule (algebraBuilder algebra) r () stream).stream ∧
      (g.parse (algebraBuilder Construction.node) () stream).1.map (Construction.fold algebra) =
        (g.parse (algebraBuilder algebra) () stream).1 := by
  refine ⟨?_, (g.matchRule_fold r stream algebra).1, (g.matchRule_fold r stream algebra).2,
    g.parse_fold stream algebra⟩
  intro run run'
  obtain ⟨tokens, htokens⟩ := exists_ahead stream
  have hboth := g.matchRule_coupled (Coupling.corresponding build build') ⟨htokens, htokens⟩ r
    (w := ((w, []), (w', []))) .nil
  obtain ⟨houtcome, ⟨k, -, -, hstream, hstream'⟩, hcalls, -⟩ := hboth
  refine ⟨g.matchRule_recorded r stream build w [], g.matchRule_recorded r stream build' w' [],
    houtcome, hstream.trans hstream'.symm, hcalls, fun hgrow => ⟨fun reply h => ?_, fun reply h => ?_⟩⟩
  · exact ⟨((returns_iff hgrow).mp h).1.symm, g.returns_of_returns r stream _ _ hgrow h,
      g.returns_of_returns r stream _ _ hgrow h⟩
  · exact ⟨((returns_iff hgrow).mp h).1.symm, g.returns_of_returns r stream _ _ hgrow h,
      g.returns_of_returns r stream _ _ hgrow h⟩

/-- The fives are made twice, and of three calls two are in the tree. -/
theorem matchRule_oblivious_second_way :
    let start := TokenArray.ofList [1, 5, 5, 2]
    let count : Reduction Nat Nat → Nat := fun request => request.nodes.sum + 1
    let run := fives.matchRule FreeTree.build.recorded ⟨0⟩ ((), []) start
    let run' := fives.matchRule (algebraBuilder count).recorded ⟨0⟩ ((), []) start
    run.world.2.length = 3 ∧ Corresponding run.world.2 run'.world.2 ∧
      (fives.parse (algebraBuilder Construction.node) () start).1.map (Construction.fold count) =
        .ok 2 := by
  intro start count run run'
  have hboth := fives.matchRule_oblivious ⟨0⟩ start FreeTree.build (algebraBuilder count) () () count
  have hcalls : (fives.matchRule FreeTree.build.recorded ⟨0⟩ ((), []) start).world.2.length = 3 := by
    cbv
  have hcount : (fives.parse (algebraBuilder count) () start).1 = .ok 2 := by cbv
  exact ⟨hcalls, hboth.1.2.2.2.2.1, hboth.2.2.2.trans hcount⟩

end Grammar

end GrammarKit
