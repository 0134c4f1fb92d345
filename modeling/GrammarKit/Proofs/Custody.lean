import GrammarKit.Proofs.Simulation
import Mathlib.Data.List.Perm.Subperm

/-!
# The nodes that are held

At each moment of a parse some nodes are held: those in the production at hand, and those in the
productions of the rules that are in progress around it.  What a builder guarantees of its nodes is
often a property of all of these together, say that no two of them share a part.  Such a property has
to survive two things: nodes are dropped when pieces are forgotten, and a new node takes the place of
the nodes that it is made of.  If it does, it holds to the end of the parse.

The builder may rely on what it is asked for.  It is asked for a node only when a rule has matched,
so the pieces are those of a derivation, whether or not the node is forgotten later.

Nothing is asked of the grammar, of the builder or of the stream: this is about all runs, also those
that end in a mismatch or a failure.

* `Grammar.Asks`: what a builder may be asked for.
* `Custody`: a property of the nodes that are held.
* `Custody.attempt_keeps`, `Custody.matchRule_keeps`: it is kept, and what is matched is a word.
-/

namespace GrammarKit

variable {T N W S X : Type}

/-! ## 1.  Nodes with their values -/

/-- The same reduction with other nodes. -/
def Reduction.map (f : N → X) : Reduction T N → Reduction T X
  | .null => .null
  | .empty rule => .empty rule
  | .term rule token => .term rule token
  | .nonterm rule node => .nonterm rule (f node)
  | .termNonterm rule token node => .termNonterm rule token (f node)
  | .nontermNonterm rule left right => .nontermNonterm rule (f left) (f right)
  | .nontermTermNonterm rule left token right => .nontermTermNonterm rule (f left) token (f right)
  | .nontermList rule nodes => .nontermList rule (nodes.map f)
  | .termNontermList rule tokens nodes => .termNontermList rule tokens (nodes.map f)

/-- The nodes that a node is to be made of. -/
def Reduction.nodes : Reduction T N → List N
  | .null | .empty _ | .term _ _ => []
  | .nonterm _ node | .termNonterm _ _ node => [node]
  | .nontermNonterm _ left right | .nontermTermNonterm _ left _ right => [left, right]
  | .nontermList _ nodes | .termNontermList _ _ nodes => nodes

/-- Nodes that mean their values are nodes to be made alike. -/
theorem Reduction.alike_map {means : N → X → Prop} {reduction : Reduction T (N × X)}
    (h : ∀ entry ∈ reduction.nodes, means entry.1 entry.2) :
    (reduction.map Prod.fst).Alike means (reduction.map Prod.snd) := by
  have hall : ∀ {nodes : List (N × X)}, (∀ entry ∈ nodes, means entry.1 entry.2) →
      List.Forall₂ means (nodes.map Prod.fst) (nodes.map Prod.snd) := by
    intro nodes h
    rw [List.forall₂_map_left_iff, List.forall₂_map_right_iff]
    exact List.forall₂_same.mpr h
  cases reduction with
  | null => exact .null
  | empty rule => exact .empty rule
  | term rule token => exact .term rule token
  | nonterm rule node => exact .nonterm rule (h node List.mem_cons_self)
  | termNonterm rule token node => exact .termNonterm rule token (h node List.mem_cons_self)
  | nontermNonterm rule left right =>
    exact .nontermNonterm rule (h left List.mem_cons_self)
      (h right (List.mem_cons_of_mem _ List.mem_cons_self))
  | nontermTermNonterm rule left token right =>
    exact .nontermTermNonterm rule token (h left List.mem_cons_self)
      (h right (List.mem_cons_of_mem _ List.mem_cons_self))
  | nontermList rule nodes => exact .nontermList rule (hall h)
  | termNontermList rule tokens nodes => exact .termNontermList rule tokens (hall h)

/-- The same pieces with other nodes. -/
def Pieces.map (f : N → X) (pieces : Pieces T N) : Pieces T X :=
  ⟨pieces.terms, pieces.values.map f⟩

@[simp] theorem Pieces.map_nil (f : N → X) : (Pieces.nil : Pieces T N).map f = .nil := rfl

@[simp] theorem Pieces.map_append (f : N → X) (p q : Pieces T N) :
    (p ++ q).map f = p.map f ++ q.map f := by
  show Pieces.mk (p.terms ++ q.terms) ((p.values ++ q.values).map f) =
    Pieces.mk (p.terms ++ q.terms) (p.values.map f ++ q.values.map f)
  rw [List.map_append]

/-- The same production with other nodes. -/
def Production.map (f : N → X) (p : Production T N) : Production T X :=
  ⟨p.rule, p.shape, p.terms, p.nonterms.map f⟩

namespace Production

@[simp] theorem map_start (f : N → X) (rule : RuleId) (shape : Shape) :
    (start rule shape : Production T N).map f = start rule shape := by
  simp [map, start]

theorem map_record (f : N → X) (p : Production T N) (pieces : Pieces T N) :
    (p.record pieces).map f = (p.map f).record (pieces.map f) := by
  by_cases hterms : p.shape.keepsTerms = true <;>
    by_cases hnonterms : p.shape.keepsNonterms = true <;>
      simp [map, record, Pieces.map, hterms, hnonterms]

theorem addTerm_map (f : N → X) (p : Production T N) (token : T) :
    (p.map f).addTerm token = (p.record (.ofTerm token)).map f := by
  rw [map_record]
  exact addTerm_eq_record _ _

theorem addNonterm_map (f : N → X) (p : Production T N) (node : N) :
    (p.map f).addNonterm (f node) = (p.record (.ofValue node)).map f := by
  rw [map_record]
  exact addNonterm_eq_record _ _

/-! ### What a production is reduced to -/

/-- The production is reduced to a node that a builder is asked for. -/
def Asked (p : Production T N) (reduction : Reduction T N) : Prop :=
  reduction.nodes.Sublist p.nonterms.toList ∧
    ∀ {M W : Type} (f : N → M) (build : Builder T M W) (w : W),
      (p.map f).reduce build w = build (reduction.map f) w

/-- The production is reduced by a fold from the left. -/
def Folded (p : Production T N) (first : N) (links : List (T × N)) : Prop :=
  (first :: links.map Prod.snd).Sublist p.nonterms.toList ∧
    ∀ {M W : Type} (f : N → M) (build : Builder T M W) (w : W),
      (p.map f).reduce build w =
        foldChain build p.rule (f first) (links.map fun link => (link.1, f link.2)) w

/-- The production is reduced to one of its nodes as it is. -/
def Passed (p : Production T N) (node : N) : Prop :=
  node ∈ p.nonterms.toList ∧
    ∀ {M W : Type} (f : N → M) (build : Builder T M W) (w : W),
      (p.map f).reduce build w = (f node, w)

/-- Where a piece is missing, a builder is asked for the stand-in. -/
theorem asked_null {p : Production T N}
    (h : ∀ {M W : Type} (f : N → M) (build : Builder T M W) (w : W),
      (p.map f).reduce build w = build .null w) : ∃ reduction, p.Asked reduction :=
  ⟨.null, List.nil_sublist _, h⟩

/-- Entries that are paired off are entries. -/
theorem sublist_map_snd_zip {α β : Type} :
    ∀ (xs : List α) (ys : List β), ((xs.zip ys).map Prod.snd).Sublist ys
  | [], ys => List.nil_sublist ys
  | _ :: _, [] => List.Sublist.slnil
  | _ :: xs, y :: ys => (sublist_map_snd_zip xs ys).cons_cons y

/-- **What a production is reduced to**, whoever makes the nodes. -/
theorem reduce_cases (p : Production T N) :
    (∃ reduction, p.Asked reduction) ∨ (∃ first links, p.Folded first links) ∨
      ∃ node, p.Passed node := by
  obtain ⟨rule, shape, terms, ⟨nonterms⟩⟩ := p
  have hmap : ∀ {M : Type} (f : N → M),
      Production.map f ⟨rule, shape, terms, ⟨nonterms⟩⟩ =
        ⟨rule, shape, terms, (nonterms.map f).toArray⟩ := by
    intro M f
    rw [Production.map, List.map_toArray]
  have hback : ∀ {M : Type} (f : N → M),
      (nonterms.map f).toArray.back? = nonterms.getLast?.map f := by
    intro M f
    simp
  have hlast : ∀ {node}, nonterms.getLast? = some node → [node].Sublist nonterms :=
    fun hnode => List.singleton_sublist.mpr (List.mem_of_getLast? hnode)
  cases shape with
  | empty => exact .inl ⟨.empty rule, List.nil_sublist _, fun f build w => rfl⟩
  | term =>
    cases hterm : terms.back? with
    | none =>
      exact .inl (asked_null fun f build w => by simp only [hmap, reduce, hterm])
    | some token =>
      exact .inl ⟨.term rule token, List.nil_sublist _, fun f build w => by
        simp only [hmap, reduce, hterm, Reduction.map]⟩
  | nonterm =>
    cases hnode : nonterms.getLast? with
    | none =>
      exact .inl (asked_null fun f build w => by
        simp only [hmap, reduce, hback, hnode, Option.map_none])
    | some node =>
      exact .inl ⟨.nonterm rule node, hlast hnode, fun f build w => by
        simp only [hmap, reduce, hback, hnode, Option.map_some, Reduction.map]⟩
  | termNonterm =>
    cases hterm : terms.back? with
    | none =>
      exact .inl (asked_null fun f build w => by simp only [hmap, reduce, hterm])
    | some token =>
      cases hnode : nonterms.getLast? with
      | none =>
        exact .inl (asked_null fun f build w => by
          simp only [hmap, reduce, hback, hterm, hnode, Option.map_none])
      | some node =>
        exact .inl ⟨.termNonterm rule token node, hlast hnode, fun f build w => by
          simp only [hmap, reduce, hback, hterm, hnode, Option.map_some, Reduction.map]⟩
  | nontermNonterm =>
    rcases nonterms with _ | ⟨left, _ | ⟨right, more⟩⟩
    · exact .inl (asked_null fun f build w => by rw [hmap]; rfl)
    · exact .inl (asked_null fun f build w => by rw [hmap]; rfl)
    · exact .inl ⟨.nontermNonterm rule left right, List.sublist_append_left [left, right] more,
        fun f build w => by rw [hmap]; rfl⟩
  | nontermTermNonterm =>
    rcases nonterms with _ | ⟨left, _ | ⟨right, more⟩⟩
    · exact .inl (asked_null fun f build w => by rw [hmap]; rfl)
    · exact .inl (asked_null fun f build w => by rw [hmap]; rfl)
    · cases hterm : terms.back? with
      | none =>
        exact .inl (asked_null fun f build w => by simp only [hmap, reduce, hterm, List.map_cons])
      | some token =>
        exact .inl ⟨.nontermTermNonterm rule left token right,
          List.sublist_append_left [left, right] more, fun f build w => by
            simp only [hmap, reduce, hterm, List.map_cons, Reduction.map]⟩
  | chain =>
    cases nonterms with
    | nil => exact .inl (asked_null fun f build w => by rw [hmap]; rfl)
    | cons first operands =>
      refine .inr (.inl ⟨first, terms.toList.zip operands,
        (sublist_map_snd_zip terms.toList operands).cons_cons first, fun f build w => ?_⟩)
      simp only [hmap, reduce, List.map_cons, List.zip_map_right]
      rfl
  | nontermList =>
    exact .inl ⟨.nontermList rule nonterms, List.Sublist.refl _, fun f build w => by
      simp only [hmap, reduce, Reduction.map]⟩
  | termNontermList =>
    exact .inl ⟨.termNontermList rule terms.toList nonterms, List.Sublist.refl _,
      fun f build w => by simp only [hmap, reduce, Reduction.map]⟩
  | bypass =>
    cases hnode : nonterms.getLast? with
    | none =>
      exact .inl (asked_null fun f build w => by
        simp only [hmap, reduce, hback, hnode, Option.map_none])
    | some node =>
      exact .inr (.inr ⟨node, List.mem_of_getLast? hnode, fun f build w => by
        simp only [hmap, reduce, hback, hnode, Option.map_some]⟩)

end Production

/-! ## 2.  What a builder is asked for -/

/-- A builder that makes values and writes down what it is asked for. -/
def recorder (algebra : Reduction T X → X) : Builder T X (List (Reduction T X)) :=
  fun reduction asked => (algebra reduction, asked ++ [reduction])

/-- What a builder is asked for when a rule has matched with these pieces. -/
def Production.requests (algebra : Reduction T X → X) (p : Production T X) :
    List (Reduction T X) :=
  (p.reduce (recorder algebra) []).2

/-- **What a builder may be asked for**: a node of a rule, when an alternative of the rule has
matched a word of valid tokens. -/
def Grammar.Asks (g : Grammar T) (algebra : Reduction T X → X) (valid : T → Prop)
    (reduction : Reduction T X) : Prop :=
  ∃ r rule alternative word pieces, g.rule? r = some rule ∧ alternative ∈ rule.alternatives ∧
    (∀ token ∈ word, valid token) ∧ g.Yields algebra alternative.expr word pieces ∧
    reduction ∈ ((Production.start r alternative.shape).record pieces).requests algebra

/-- **A property of the nodes that are held**, each with its value.  It survives when nodes are
dropped, and when a node is made of some of them in place of these. -/
structure Custody (g : Grammar T) (build : Builder T N W) (algebra : Reduction T X → X)
    (valid : T → Prop) where
  /-- In this world these nodes may be held. -/
  holds : W → List (N × X) → Prop
  drop : ∀ {w held kept}, holds w held → kept.Subperm held → holds w kept
  make : ∀ (reduction : Reduction T (N × X)) {w frame},
    g.Asks algebra valid (reduction.map Prod.snd) → holds w (reduction.nodes ++ frame) →
      holds (build (reduction.map Prod.fst) w).2
        (((build (reduction.map Prod.fst) w).1, algebra (reduction.map Prod.snd)) :: frame)

namespace Custody

variable {g : Grammar T} {build : Builder T N W} {algebra : Reduction T X → X} {valid : T → Prop}
  (c : Custody g build algebra valid)

/-- Of the nodes of a production all may be dropped but those that are used. -/
theorem drop_append {w : W} {held kept frame : List (N × X)} (h : c.holds w (held ++ frame))
    (hkept : kept.Sublist held) : c.holds w (kept ++ frame) :=
  c.drop h (hkept.append_right frame).subperm

/-- A chain is folded from the left, one node at a time. -/
theorem foldChain_holds {rule : RuleId} {frame : List (N × X)} :
    ∀ (links : List (T × (N × X))) {first : N × X} {w : W} {asked : List (Reduction T X)},
      (∀ reduction ∈ (Production.foldChain (recorder algebra) rule first.2
        (links.map fun link => (link.1, link.2.2)) asked).2, g.Asks algebra valid reduction) →
      c.holds w (first :: links.map Prod.snd ++ frame) →
      c.holds
        (Production.foldChain build rule first.1 (links.map fun link => (link.1, link.2.1)) w).2
        (((Production.foldChain build rule first.1 (links.map fun link => (link.1, link.2.1)) w).1,
          (Production.foldChain (algebraBuilder algebra) rule first.2
            (links.map fun link => (link.1, link.2.2)) ()).1) :: frame)
  | [], _, _, _, _, h => h
  | (token, right) :: links, first, w, asked, hasks, h => by
    let reduction : Reduction T (N × X) := .nontermTermNonterm rule first token right
    have hgrows : ∀ (values : List (T × X)) (left : X) (asked : List (Reduction T X)),
        asked <+: (Production.foldChain (recorder algebra) rule left values asked).2 := by
      intro values
      induction values with
      | nil => exact fun _ asked => List.prefix_refl asked
      | cons link values ih => exact fun left asked => (List.prefix_append _ _).trans (ih _ _)
    have hfirst : g.Asks algebra valid (reduction.map Prod.snd) :=
      hasks _ ((hgrows (links.map fun link => (link.1, link.2.2)) _ _).subset
        (List.mem_append_right asked List.mem_cons_self))
    have hmade := c.make reduction hfirst h
    exact foldChain_holds links hasks hmade

/-- **A production is reduced to one node**, which takes the place of all its nodes. -/
theorem reduce_holds {p : Production T (N × X)} {w : W} {frame : List (N × X)}
    (hasks : ∀ reduction ∈ (p.map Prod.snd).requests algebra, g.Asks algebra valid reduction)
    (h : c.holds w (p.nonterms.toList ++ frame)) :
    c.holds ((p.map Prod.fst).reduce build w).2
      ((((p.map Prod.fst).reduce build w).1,
        ((p.map Prod.snd).reduce (algebraBuilder algebra) ()).1) :: frame) := by
  unfold Production.requests at hasks
  rcases p.reduce_cases with
    ⟨reduction, hnodes, heq⟩ | ⟨first, links, hnodes, heq⟩ | ⟨node, hnode, heq⟩
  · rw [heq] at hasks
    rw [heq, heq]
    exact c.make reduction (hasks _ List.mem_cons_self) (c.drop_append h hnodes)
  · rw [heq] at hasks
    rw [heq, heq]
    exact c.foldChain_holds links hasks (c.drop_append h hnodes)
  · rw [heq, heq]
    exact c.drop_append h (List.singleton_sublist.mpr hnode)

end Custody

/-! ## 3.  Places in a stream -/

section Streams

variable [TokenStream S T]

/-- Reading on from `s` over the tokens of a word leads to `s'`. -/
def Spans : S → List T → S → Prop
  | s, [], s' => s' = s
  | s, token :: word, s' => TokenStream.peek s = some token ∧ Spans (TokenStream.advance s) word s'

theorem Spans.append {s s' s'' : S} {front back : List T} (h : Spans s front s')
    (hback : Spans s' back s'') : Spans s (front ++ back) s'' := by
  induction front generalizing s with
  | nil =>
    cases h
    exact hback
  | cons token front ih => exact ⟨h.1, ih h.2⟩

/-- What is read is a prefix of the tokens ahead. -/
theorem Spans.exists_rest {s s' : S} {word tokens : List T} (h : Spans s word s')
    (hahead : Ahead s tokens) : ∃ rest, tokens = word ++ rest ∧ Ahead s' rest := by
  induction word generalizing s tokens with
  | nil =>
    cases h
    exact ⟨tokens, rfl, hahead⟩
  | cons token word ih =>
    have hpeek := hahead.peek
    rw [h.1] at hpeek
    cases tokens with
    | nil => cases hpeek
    | cons token' tokens =>
      cases hpeek
      obtain ⟨rest, htokens, hrest⟩ := ih h.2 hahead.2
      exact ⟨rest, by rw [htokens]; rfl, hrest⟩

/-- The tokens that can be read from here on are valid. -/
def Clean (valid : T → Prop) (s : S) : Prop :=
  ∀ k token, TokenStream.peek (TokenStream.advance^[k] s) = some token → valid token

/-- Those that can be read are those ahead. -/
theorem Ahead.clean [LawfulTokenStream S] {valid : T → Prop} {s : S} {tokens : List T}
    (h : Ahead s tokens) (hvalid : ∀ token ∈ tokens, valid token) : Clean valid s := by
  intro k token htoken
  induction k generalizing s tokens with
  | zero =>
    have hhead : TokenStream.peek s = some token := htoken
    rw [h.peek] at hhead
    exact hvalid token (List.mem_of_head? hhead)
  | succ k ih =>
    rw [Function.iterate_succ_apply] at htoken
    cases tokens with
    | nil =>
      rw [LawfulTokenStream.advance_of_peek_eq_none s h] at htoken
      exact ih h hvalid htoken
    | cons first tokens => exact ih h.2 (List.forall_mem_cons.mp hvalid).2 htoken

theorem Clean.advance {valid : T → Prop} {s : S} (h : Clean valid s) :
    Clean valid (TokenStream.advance s) := fun k token htoken => h (k + 1) token htoken

theorem Clean.spans {valid : T → Prop} {s s' : S} {word : List T} (h : Clean valid s)
    (hspans : Spans s word s') : Clean valid s' ∧ ∀ token ∈ word, valid token := by
  induction word generalizing s with
  | nil =>
    cases hspans
    exact ⟨h, fun token htoken => absurd htoken List.not_mem_nil⟩
  | cons token word ih =>
    obtain ⟨hclean, hword⟩ := ih h.advance hspans.2
    exact ⟨hclean, List.forall_mem_cons.mpr ⟨h 0 token hspans.1, hword⟩⟩

end Streams

/-! ## 4.  Expressions -/

namespace Custody

variable {g : Grammar T} {build : Builder T N W} {algebra : Reduction T X → X} {valid : T → Prop}
  (c : Custody g build algebra valid) [TokenStream S T]

/-- **The result of a step**: either a word is matched, and what is recorded is held with what was
held before, or what was held before still is. -/
inductive Kept (yields : List T → Pieces T X → Prop) (p : Production T (N × X))
    (frame : List (N × X)) (s : S) : Outcome Unit × Attempt T N W S → Prop where
  | matched (word : List T) (pieces : Pieces T (N × X)) {b : Attempt T N W S}
      (hspans : Spans s word b.stream) (hyields : yields word (pieces.map Prod.snd))
      (hpieces : b.pieces = (p.record pieces).map Prod.fst)
      (hholds : c.holds b.world ((p.record pieces).nonterms.toList ++ frame)) :
      Kept yields p frame s (.matched (), b)
  | stopped {outcome : Outcome Unit} {b : Attempt T N W S} (hstopped : outcome.isMatched = false)
      (hholds : c.holds b.world (p.nonterms.toList ++ frame)) : Kept yields p frame s (outcome, b)

/-- From wherever a step starts, it keeps what is held. -/
def StepKeeps (yields : List T → Pieces T X → Prop)
    (step : Attempt T N W S → Outcome Unit × Attempt T N W S) : Prop :=
  ∀ (a : Attempt T N W S) (p : Production T (N × X)) (frame : List (N × X)),
    Clean valid a.stream → a.pieces = p.map Prod.fst →
      c.holds a.world (p.nonterms.toList ++ frame) → c.Kept yields p frame a.stream (step a)

/-- **The reply of a rule**: either a word is matched and its node is held, or what was held before
still is. -/
inductive Replied (r : RuleId) (frame : List (N × X)) (s : S) : Reply N W S → Prop where
  | matched {word : List T} {node : N} {value : X} {w : W} {s' : S} (hspans : Spans s word s')
      (hyields : g.Yields algebra (.nonterm r) word (.ofValue value))
      (hholds : c.holds w ((node, value) :: frame)) : Replied r frame s ⟨.matched node, w, s'⟩
  | stopped {outcome : Outcome N} {w : W} {s' : S} (hstopped : outcome.isMatched = false)
      (hholds : c.holds w frame) : Replied r frame s ⟨outcome, w, s'⟩

/-- A dispatcher keeps what is held, and stays where it is on a mismatch. -/
structure DispatchKeeps (d : Dispatch N W S) : Prop where
  stays : d.StaysOnMismatch
  keeps : ∀ (r : RuleId) (w : W) (s : S) (frame : List (N × X)), Clean valid s →
    c.holds w frame → c.Replied r frame s (d r w s)

variable {c} {yields : List T → Pieces T X → Prop} {p : Production T (N × X)}
  {frame : List (N × X)}

theorem Kept.mono {yields' : List T → Pieces T X → Prop} {s : S}
    {r : Outcome Unit × Attempt T N W S} (h : c.Kept yields p frame s r)
    (hyields : ∀ word pieces, yields word pieces → yields' word pieces) :
    c.Kept yields' p frame s r := by
  cases h with
  | matched _ _ hspans hword hpieces hholds =>
    exact .matched _ _ hspans (hyields _ _ hword) hpieces hholds
  | stopped hstopped hholds => exact .stopped hstopped hholds

/-- A step that matches nothing and records nothing. -/
theorem kept_nil {a : Attempt T N W S} (hyields : yields [] .nil)
    (hpieces : a.pieces = p.map Prod.fst)
    (hholds : c.holds a.world (p.nonterms.toList ++ frame)) :
    c.Kept yields p frame a.stream (.matched (), a) := by
  have hrecord : p.record .nil = p := p.record_nil
  refine .matched [] .nil rfl hyields ?_ ?_
  · rw [hrecord, hpieces]
  · rwa [hrecord]

/-- What is recorded is held with what was held before. -/
theorem holds_record {w : W} {pieces : Pieces T (N × X)}
    (h : c.holds w (pieces.values ++ (p.nonterms.toList ++ frame))) :
    c.holds w ((p.record pieces).nonterms.toList ++ frame) := by
  refine c.drop h ?_
  rw [← List.append_assoc]
  refine (List.subperm_append_right frame).mpr ?_
  simp only [Production.record]
  split
  · rw [Array.toList_append]
    exact List.perm_append_comm.subperm
  · exact (List.sublist_append_right _ _).subperm

/-- What was held before is still held when more is recorded. -/
theorem holds_of_record {w : W} {pieces : Pieces T (N × X)}
    (h : c.holds w ((p.record pieces).nonterms.toList ++ frame)) :
    c.holds w (p.nonterms.toList ++ frame) :=
  c.drop_append h (p.extends_record pieces).nonterms.sublist

/-- One step after another: the second one starts with what the first one has recorded. -/
theorem Kept.next {yields' yields'' : List T → Pieces T X → Prop} {s : S} {b : Attempt T N W S}
    {word : List T} {pieces : Pieces T (N × X)} {r : Outcome Unit × Attempt T N W S}
    (hspans : Spans s word b.stream) (h : c.Kept yields' (p.record pieces) frame b.stream r)
    (hyields : ∀ word' pieces', yields' word' pieces' →
      yields'' (word ++ word') (pieces.map Prod.snd ++ pieces')) :
    c.Kept yields'' p frame s r := by
  cases h with
  | matched _ _ hspans' hword' hpieces' hholds' =>
    rw [Production.record_record] at hpieces' hholds'
    refine .matched _ _ (hspans.append hspans') ?_ hpieces' hholds'
    rw [Pieces.map_append]
    exact hyields _ _ hword'
  | stopped hstopped hholds => exact .stopped hstopped (holds_of_record hholds)

theorem attemptTerm_keeps (accepts : T → Bool) :
    c.StepKeeps (g.Yields algebra (.term accepts)) (S := S) (Expr.attemptTerm accepts) := by
  rintro ⟨stream, pieces, world⟩ p frame hclean hpieces hholds
  dsimp only at hpieces
  simp only [Expr.attemptTerm]
  cases hpeek : TokenStream.peek stream with
  | none => exact .stopped rfl hholds
  | some token =>
    dsimp only
    by_cases haccepts : accepts token = true
    · rw [if_pos haccepts]
      refine .matched [token] (.ofTerm token) ⟨hpeek, rfl⟩ (.term haccepts) ?_
        (holds_record hholds)
      rw [hpieces, Production.addTerm_map]
    · rw [if_neg haccepts]
      exact .stopped rfl hholds

theorem attemptNonterm_keeps {d : Dispatch N W S} (hd : c.DispatchKeeps d) (r : RuleId) :
    c.StepKeeps (g.Yields algebra (.nonterm r)) (Expr.attemptNonterm d r) := by
  rintro ⟨stream, pieces, world⟩ p frame hclean hpieces hholds
  dsimp only at hpieces hclean hholds
  simp only [Expr.attemptNonterm]
  split
  · exact .stopped rfl hholds
  · have hreply := hd.keeps r world stream _ hclean hholds
    rcases hd' : d r world stream with ⟨outcome, world', stream'⟩
    rw [hd'] at hreply
    cases hreply with
    | @matched word node value _ _ hspans hyields hholds' =>
      refine .matched word (.ofValue (node, value)) hspans hyields ?_ (holds_record hholds')
      rw [hpieces, ← Production.addNonterm_map]
    | stopped hstopped hholds' =>
      cases outcome with
      | matched node => cases hstopped
      | noMatch why => exact .stopped rfl hholds'
      | failed why => exact .stopped rfl hholds'

theorem orRestore_keeps {step : Attempt T N W S → Outcome Unit × Attempt T N W S}
    (h : c.StepKeeps yields step) (why : Mismatch) :
    c.StepKeeps yields fun a => Attempt.orRestore a.stream a.pieces.checkpoint why (step a) := by
  intro a p frame hclean hpieces hholds
  have hkept := h a p frame hclean hpieces hholds
  rcases hstep : step a with ⟨outcome, b⟩
  rw [hstep] at hkept
  simp only [hstep]
  cases outcome with
  | matched value => exact hkept
  | noMatch reason =>
    cases hkept with
    | stopped _ hholds' => exact .stopped rfl hholds'
  | failed cause => exact hkept

section Rounds

variable {step : Attempt T N W S → Outcome Unit × Attempt T N W S} {body : Expr T}

/-- The words that a number of rounds may stand for: any more rounds may follow. -/
def YieldsRounds (g : Grammar T) (algebra : Reduction T X → X) (n : Nat) (body : Expr T)
    (word : List T) (pieces : Pieces T X) : Prop :=
  ∀ word' pieces', g.Yields algebra (.rep 0 body) word' pieces' →
    g.Yields algebra (.rep n body) (word ++ word') (pieces ++ pieces')

theorem rounds_keeps (h : c.StepKeeps (g.Yields algebra body) step) (n : Nat) :
    c.StepKeeps (YieldsRounds g algebra n body) (Attempt.rounds step n) := by
  induction n with
  | zero =>
    intro a p frame hclean hpieces hholds
    exact kept_nil (fun word' pieces' hmore => hmore) hpieces hholds
  | succ n ih =>
    intro a p frame hclean hpieces hholds
    have hkept := h a p frame hclean hpieces hholds
    rw [Attempt.rounds]
    rcases hstep : step a with ⟨outcome, b⟩
    rw [hstep] at hkept
    cases hkept with
    | matched _ _ hspans hyields hpieces' hholds' =>
      refine Kept.next hspans (ih b _ frame (hclean.spans hspans).1 hpieces' hholds') ?_
      intro word' pieces' hrounds word'' pieces'' hmore
      rw [List.append_assoc, Pieces.append_assoc]
      exact .repMore hyields (hrounds word'' pieces'' hmore)
    | stopped hstopped hholds' =>
      cases outcome with
      | matched value => cases hstopped
      | noMatch why => exact .stopped rfl hholds'
      | failed why => exact .stopped rfl hholds'

theorem roundsWhileAny_keeps (h : c.StepKeeps (g.Yields algebra body) step)
    (hback : ∀ a, Attempt.Backtracks a (step a)) :
    c.StepKeeps (g.Yields algebra (.rep 0 body)) (Attempt.roundsWhileAny step) := by
  intro a p frame hclean hpieces hholds
  fun_induction Attempt.roundsWhileAny step a generalizing p with
  | case1 a hend => exact kept_nil .repStop hpieces hholds
  | case2 a hend next hstep hless ih =>
    have hkept := h a p frame hclean hpieces hholds
    rw [hstep] at hkept
    cases hkept with
    | matched _ _ hspans hyields hpieces' hholds' =>
      exact Kept.next hspans (ih _ (hclean.spans hspans).1 hpieces' hholds')
        fun word' pieces' hmore => .repMore hyields hmore
    | stopped hstopped hholds' => cases hstopped
  | case3 a hend next hstep hless =>
    have hkept := h a p frame hclean hpieces hholds
    rw [hstep] at hkept
    refine hkept.mono fun word pieces hyields => ?_
    have honce : g.Yields algebra (.rep 0 body) (word ++ []) (pieces ++ .nil) :=
      .repMore hyields .repStop
    rwa [List.append_nil, Pieces.append_nil] at honce
  | case4 a hend why next hstep =>
    have hkept := h a p frame hclean hpieces hholds
    have hrestores := (hback a).restores
    rw [hstep] at hkept hrestores
    obtain ⟨hstream, hsame⟩ := hrestores why rfl
    dsimp only at hstream hsame
    cases hkept with
    | stopped hstopped hholds' =>
      rw [← hstream]
      exact kept_nil .repStop (hsame.trans hpieces) hholds'
  | case5 a hend why next hstep =>
    have hkept := h a p frame hclean hpieces hholds
    rw [hstep] at hkept
    cases hkept with
    | stopped hstopped hholds' => exact .stopped rfl hholds'

end Rounds

mutual

/-- **Matching an expression keeps what is held**, and what it takes is a word of the expression. -/
theorem attempt_keeps {d : Dispatch N W S} (hd : c.DispatchKeeps d) :
    ∀ e : Expr T, c.StepKeeps (g.Yields algebra e) (fun a => e.attempt d a)
  | .empty, a, p, frame, hclean, hpieces, hholds => by
    simp only [Expr.attempt]
    exact kept_nil .empty hpieces hholds
  | .term accepts, a, p, frame, hclean, hpieces, hholds => by
    simp only [Expr.attempt]
    exact attemptTerm_keeps accepts a p frame hclean hpieces hholds
  | .nonterm r, a, p, frame, hclean, hpieces, hholds => by
    simp only [Expr.attempt]
    exact attemptNonterm_keeps hd r a p frame hclean hpieces hholds
  | .seq items, a, p, frame, hclean, hpieces, hholds => by
    simp only [Expr.attempt]
    exact orRestore_keeps (attemptAll_keeps hd items) .sequence a p frame hclean hpieces hholds
  | .choice items, a, p, frame, hclean, hpieces, hholds => by
    simp only [Expr.attempt]
    exact attemptFirst_keeps hd items a p frame hclean hpieces hholds
  | .rep least body, a, p, frame, hclean, hpieces, hholds => by
    have hbody := attempt_keeps hd body
    have hback := Expr.attempt_backtracks hd.stays body
    have hleast := orRestore_keeps (rounds_keeps hbody least) .tooFew a p frame hclean hpieces
      hholds
    simp only [Expr.attempt]
    dsimp only at hleast
    rcases hrounds : Attempt.orRestore a.stream a.pieces.checkpoint .tooFew
        (a.rounds (fun a => body.attempt d a) least) with ⟨outcome, b⟩
    rw [hrounds] at hleast
    cases hleast with
    | matched _ _ hspans hyields hpieces' hholds' =>
      exact Kept.next hspans
        (roundsWhileAny_keeps hbody hback b _ frame (hclean.spans hspans).1 hpieces' hholds')
        hyields
    | stopped hstopped hholds' =>
      cases outcome with
      | matched value => cases hstopped
      | noMatch why => exact .stopped rfl hholds'
      | failed why => exact .stopped rfl hholds'
  | .opt body, a, p, frame, hclean, hpieces, hholds => by
    have hkept := attempt_keeps hd body a p frame hclean hpieces hholds
    have hrestores := (Expr.attempt_backtracks hd.stays body a).restores
    simp only [Expr.attempt]
    dsimp only at hkept
    rcases hstep : body.attempt d a with ⟨outcome, b⟩
    rw [hstep] at hkept hrestores
    cases outcome with
    | matched value => exact hkept.mono fun _ _ => .optSome
    | noMatch why =>
      obtain ⟨hstream, hsame⟩ := hrestores why rfl
      dsimp only at hstream hsame
      cases hkept with
      | stopped hstopped hholds' =>
        rw [← hstream]
        exact kept_nil .optNone (hsame.trans hpieces) hholds'
    | failed why =>
      cases hkept with
      | stopped hstopped hholds' => exact .stopped rfl hholds'

/-- The same for the items of a sequence, whose pieces are forgotten by the sequence. -/
theorem attemptAll_keeps {d : Dispatch N W S} (hd : c.DispatchKeeps d) :
    ∀ items : List (Expr T),
      c.StepKeeps (g.Yields algebra (.seq items)) (fun a => Expr.attemptAll d items a)
  | [], a, p, frame, hclean, hpieces, hholds => by
    simp only [Expr.attemptAll]
    exact kept_nil .seqNil hpieces hholds
  | item :: items, a, p, frame, hclean, hpieces, hholds => by
    have hkept := attempt_keeps hd item a p frame hclean hpieces hholds
    simp only [Expr.attemptAll]
    dsimp only at hkept
    rcases hstep : item.attempt d a with ⟨outcome, b⟩
    rw [hstep] at hkept
    cases hkept with
    | matched _ _ hspans hyields hpieces' hholds' =>
      exact Kept.next hspans
        (attemptAll_keeps hd items b _ frame (hclean.spans hspans).1 hpieces' hholds')
        fun _ _ hitems => .seqCons hyields hitems
    | stopped hstopped hholds' =>
      cases outcome with
      | matched value => cases hstopped
      | noMatch why => exact .stopped rfl hholds'
      | failed why => exact .stopped rfl hholds'

/-- The same for the items of a choice, which are tried from one and the same place. -/
theorem attemptFirst_keeps {d : Dispatch N W S} (hd : c.DispatchKeeps d) :
    ∀ items : List (Expr T),
      c.StepKeeps (g.Yields algebra (.choice items)) (fun a => Expr.attemptFirst d items a)
  | [], a, p, frame, hclean, hpieces, hholds => by
    simp only [Expr.attemptFirst]
    exact .stopped rfl hholds
  | item :: items, a, p, frame, hclean, hpieces, hholds => by
    have hkept := attempt_keeps hd item a p frame hclean hpieces hholds
    have hrestores := (Expr.attempt_backtracks hd.stays item a).restores
    simp only [Expr.attemptFirst]
    dsimp only at hkept
    rcases hstep : item.attempt d a with ⟨outcome, b⟩
    rw [hstep] at hkept hrestores
    cases outcome with
    | matched value => exact hkept.mono fun _ _ => .choice List.mem_cons_self
    | noMatch why =>
      obtain ⟨hstream, hsame⟩ := hrestores why rfl
      dsimp only at hstream hsame
      cases hkept with
      | stopped hstopped hholds' =>
        have hitems := attemptFirst_keeps hd items b p frame (hstream ▸ hclean)
          (hsame.trans hpieces) hholds'
        rw [hstream] at hitems
        refine hitems.mono fun word pieces hyields => ?_
        cases hyields with
        | choice hmem h => exact .choice (List.mem_cons_of_mem _ hmem) h
    | failed why =>
      cases hkept with
      | stopped hstopped hholds' => exact .stopped rfl hholds'

end

/-! ## 5.  Rules -/

/-- The alternatives of a rule keep what is held. -/
theorem attemptAlternatives_keeps {d : Dispatch N W S} (hd : c.DispatchKeeps d) {r : RuleId}
    {rule : Rule T} (hrule : g.rule? r = some rule) {s : S} (hclean : Clean valid s)
    (frame : List (N × X)) :
    ∀ (alternatives : List (Alternative T)), alternatives ⊆ rule.alternatives →
      ∀ w : W, c.holds w frame →
        c.Replied r frame s (attemptAlternatives build d r alternatives w s)
  | [], _, _, hholds => .stopped rfl hholds
  | alternative :: alternatives, hsubset, w, hholds => by
    have hmem : alternative ∈ rule.alternatives := hsubset List.mem_cons_self
    have hkept := attempt_keeps hd alternative.expr
      ⟨s, Production.start r alternative.shape, w⟩ (Production.start r alternative.shape) frame
      hclean (Production.map_start _ _ _).symm hholds
    rw [attemptAlternatives]
    dsimp only at hkept
    rcases hstep : alternative.expr.attempt d ⟨s, Production.start r alternative.shape, w⟩ with
      ⟨outcome, b⟩
    rw [hstep] at hkept
    cases hkept with
    | @matched word pieces _ hspans hyields hpieces' hholds' =>
      have hmap : ((Production.start r alternative.shape).record pieces).map Prod.snd =
          (Production.start r alternative.shape).record (pieces.map Prod.snd) := by
        rw [Production.map_record, Production.map_start]
      have hmade := c.reduce_holds
        (fun reduction hasked => ⟨r, rule, alternative, word, pieces.map Prod.snd, hrule, hmem,
          (hclean.spans hspans).2, hyields, hmap ▸ hasked⟩) hholds'
      rw [hmap, ← hpieces'] at hmade
      exact .matched hspans (.nonterm hrule hmem hyields) hmade
    | stopped hstopped hholds' =>
      cases outcome with
      | matched value => cases hstopped
      | noMatch why =>
        exact attemptAlternatives_keeps hd hrule hclean frame alternatives
          (fun other hother => hsubset (List.mem_cons_of_mem _ hother)) b.world hholds'
      | failed why => exact .stopped rfl hholds'

/-- A rule keeps what is held, whichever rules are in progress. -/
theorem matchFresh_keeps (c : Custody g build algebra valid) (left : Nat) (fresh : List RuleId)
    (r : RuleId) (w : W) (s : S) (frame : List (N × X)) (hclean : Clean valid s)
    (hholds : c.holds w frame) : c.Replied r frame s (g.matchFresh build left fresh r w s) := by
  obtain ⟨why, hfailed⟩ | ⟨rule, -, hrule, hmem, heq⟩ := g.matchFresh_cases build left fresh r w s
  · rw [hfailed]
    exact .stopped rfl hholds
  · rw [heq, Grammar.id_of_rule? hrule]
    refine attemptAlternatives_keeps ⟨g.dispatchWithin_stays build left fresh r, ?_⟩ hrule hclean
      frame rule.alternatives (List.Subset.refl _) w hholds
    intro r' w' s' frame' hclean' hholds'
    by_cases hless : TokenStream.remaining s' < left
    · rw [Grammar.dispatchWithin, if_pos hless]
      exact matchFresh_keeps c _ g.ids r' w' s' frame' hclean' hholds'
    · rw [Grammar.dispatchWithin, if_neg hless]
      exact matchFresh_keeps c left (fresh.erase r) r' w' s' frame' hclean' hholds'
termination_by (left, fresh.length)
decreasing_by
  · exact Prod.Lex.left _ _ hless
  · refine Prod.Lex.right _ ?_
    have := List.length_pos_of_mem hmem
    rw [List.length_erase_of_mem hmem]
    omega

/-- **Matching a rule keeps what is held**, and what it takes is a word of the rule. -/
theorem matchRule_keeps (c : Custody g build algebra valid) (r : RuleId) {w : W} {s : S}
    {frame : List (N × X)} (hclean : Clean valid s) (hholds : c.holds w frame) :
    c.Replied r frame s (g.matchRule build r w s) :=
  matchFresh_keeps c _ g.ids r w s frame hclean hholds

/-- **A parse that succeeds** has read all tokens as a word of the first rule, and its node is
held. -/
theorem parse_keeps (c : Custody g build algebra valid) {w w' : W} {s : S} {node : N}
    {tokens : List T} (hahead : Ahead s tokens) (hclean : Clean valid s)
    (hholds : c.holds w []) (h : g.parse build w s = (.ok node, w')) :
    ∃ value, g.Yields algebra (.nonterm .start) tokens (.ofValue value) ∧
      c.holds w' [(node, value)] := by
  have hreply := c.matchRule_keeps .start hclean hholds
  rw [Grammar.parse] at h
  cases hreply' : g.matchRule build .start w s with
  | mk outcome world stream =>
    rw [hreply'] at h hreply
    cases hreply with
    | @matched word node' value _ _ hspans hyields hholds' =>
      dsimp only at h
      split at h
      · next hend =>
        cases h
        obtain ⟨rest, htokens, hrest⟩ := hspans.exists_rest hahead
        rw [hrest.atEnd] at hend
        cases rest with
        | nil =>
          rw [List.append_nil] at htokens
          exact ⟨value, htokens ▸ hyields, hholds'⟩
        | cons token rest => cases hend
      · cases h
    | stopped hstopped _ =>
      cases outcome with
      | matched node => cases hstopped
      | noMatch why => cases h
      | failed why => cases h

end Custody

end GrammarKit
