import GrammarKit.Proofs.Custody

/-!
# No token is lost

If all rules of a grammar keep all of their pieces, the tree of a match holds the tokens that were
taken, each of them once, and the tokens of one node in the order of the text.  A token that was taken
on a way that led nowhere is not in the tree.

Tokens may be alike, so the order among them is one of their places.  The tree is therefore read off
a tree of tokens with their places, in which no two tokens are alike.

* `FreeTree`: a tree that keeps everything.
* `exists_placed`: the pieces of a derivation, with their places.
* `matchRule_conserves`: the tree of a match holds the tokens that were taken.
-/

namespace GrammarKit

variable {T N W S X : Type}

/-! ## 1.  Free trees -/

/-- A tree whose nodes keep the tokens and the nodes that they are made of. -/
inductive FreeTree (T : Type) where
  /-- A node with its tokens and the nodes below it. -/
  | node (terms : List T) (children : List (FreeTree T))

namespace FreeTree

/-- The tokens of the node at the top. -/
def terms : FreeTree T → List T
  | .node terms _ => terms

mutual

/-- The tokens of all nodes. -/
def tokens : FreeTree T → List T
  | .node terms children => terms ++ tokensOfAll children

/-- The tokens of several trees. -/
def tokensOfAll : List (FreeTree T) → List T
  | [] => []
  | tree :: trees => tree.tokens ++ tokensOfAll trees

end

mutual

/-- The tree itself and all trees below it. -/
def subtrees : FreeTree T → List (FreeTree T)
  | .node terms children => .node terms children :: subtreesOfAll children

/-- The same for several trees. -/
def subtreesOfAll : List (FreeTree T) → List (FreeTree T)
  | [] => []
  | tree :: trees => tree.subtrees ++ subtreesOfAll trees

end

mutual

/-- The same tree with other tokens. -/
def map (f : S → T) : FreeTree S → FreeTree T
  | .node terms children => .node (terms.map f) (mapAll f children)

/-- The same for several trees. -/
def mapAll (f : S → T) : List (FreeTree S) → List (FreeTree T)
  | [] => []
  | tree :: trees => tree.map f :: mapAll f trees

end

theorem tokensOfAll_append (front back : List (FreeTree T)) :
    tokensOfAll (front ++ back) = tokensOfAll front ++ tokensOfAll back := by
  induction front with
  | nil => rfl
  | cons tree front ih => rw [List.cons_append, tokensOfAll, ih, tokensOfAll, List.append_assoc]

theorem subtreesOfAll_append (front back : List (FreeTree T)) :
    subtreesOfAll (front ++ back) = subtreesOfAll front ++ subtreesOfAll back := by
  induction front with
  | nil => rfl
  | cons tree front ih =>
    rw [List.cons_append, subtreesOfAll, ih, subtreesOfAll, List.append_assoc]

theorem mapAll_append (f : S → T) (front back : List (FreeTree S)) :
    mapAll f (front ++ back) = mapAll f front ++ mapAll f back := by
  induction front with
  | nil => rfl
  | cons tree front ih => rw [List.cons_append, mapAll, ih, mapAll, List.cons_append]

mutual

theorem tokens_map (f : S → T) : ∀ tree : FreeTree S, (tree.map f).tokens = tree.tokens.map f
  | .node terms children => by
    rw [map, tokens, tokens, List.map_append, tokensOfAll_mapAll f children]

theorem tokensOfAll_mapAll (f : S → T) :
    ∀ trees : List (FreeTree S), tokensOfAll (mapAll f trees) = (tokensOfAll trees).map f
  | [] => rfl
  | tree :: trees => by
    rw [mapAll, tokensOfAll, tokensOfAll, List.map_append, tokens_map f tree,
      tokensOfAll_mapAll f trees]

end

/-- The algebra of free trees. -/
def algebra : Reduction T (FreeTree T) → FreeTree T
  | .termNontermList _ terms children => .node terms children
  | _ => .node [] []

end FreeTree

/-! ## 2.  Pieces with their places -/

/-- **Pieces with their places**: they hold the tokens of a word from the place `k` on, each of them
once; and the tokens recorded by themselves, as well as those of each node, are in order. -/
structure Placed (k : Nat) (word : List T) (pieces : Pieces T (FreeTree T))
    (placed : Pieces (T × Nat) (FreeTree (T × Nat))) : Prop where
  terms_eq : placed.terms.map Prod.fst = pieces.terms
  values_eq : FreeTree.mapAll Prod.fst placed.values = pieces.values
  perm : (placed.terms ++ FreeTree.tokensOfAll placed.values).Perm (word.zipIdx k)
  ordered : placed.terms.Sublist (word.zipIdx k)
  parts : ∀ part ∈ FreeTree.subtreesOfAll placed.values, part.terms.Sublist (word.zipIdx k)

namespace Placed

variable {k : Nat}

theorem nil : Placed k ([] : List T) .nil .nil :=
  ⟨rfl, rfl, List.Perm.refl _, List.Sublist.refl _, fun _ hpart => absurd hpart List.not_mem_nil⟩

theorem ofTerm (token : T) : Placed k [token] (.ofTerm token) (.ofTerm (token, k)) :=
  ⟨rfl, rfl, List.Perm.refl _, List.Sublist.refl _, fun _ hpart => absurd hpart List.not_mem_nil⟩

variable {front back word : List T} {first second pieces : Pieces T (FreeTree T)}
  {firstPlaced secondPlaced placed : Pieces (T × Nat) (FreeTree (T × Nat))}

/-- The pieces of two words in a row. -/
theorem append (h : Placed k front first firstPlaced)
    (h' : Placed (k + front.length) back second secondPlaced) :
    Placed k (front ++ back) (first ++ second) (firstPlaced ++ secondPlaced) := by
  constructor
  · rw [Pieces.terms_append, Pieces.terms_append, List.map_append, h.terms_eq, h'.terms_eq]
  · rw [Pieces.values_append, Pieces.values_append, FreeTree.mapAll_append, h.values_eq,
      h'.values_eq]
  · rw [Pieces.terms_append, Pieces.values_append, FreeTree.tokensOfAll_append,
      List.zipIdx_append]
    refine List.Perm.trans ?_ (h.perm.append h'.perm)
    rw [List.append_assoc, List.append_assoc]
    refine List.Perm.append_left _ ?_
    rw [← List.append_assoc, ← List.append_assoc]
    exact List.perm_append_comm.append_right _
  · rw [Pieces.terms_append, List.zipIdx_append]
    exact h.ordered.append h'.ordered
  · intro part hpart
    rw [Pieces.values_append, FreeTree.subtreesOfAll_append, List.mem_append] at hpart
    rw [List.zipIdx_append]
    rcases hpart with hpart | hpart
    · exact (h.parts part hpart).trans (List.sublist_append_left _ _)
    · exact (h'.parts part hpart).trans (List.sublist_append_right _ _)

/-- Pieces that are gathered in one node. -/
theorem gather (h : Placed k word pieces placed) :
    Placed k word (.ofValue (.node pieces.terms pieces.values))
      (.ofValue (.node placed.terms placed.values)) := by
  constructor
  · rfl
  · show [FreeTree.node (placed.terms.map Prod.fst) (FreeTree.mapAll Prod.fst placed.values)] =
      [FreeTree.node pieces.terms pieces.values]
    rw [h.terms_eq, h.values_eq]
  · show (placed.terms ++ FreeTree.tokensOfAll placed.values ++ []).Perm (word.zipIdx k)
    rw [List.append_nil]
    exact h.perm
  · exact List.nil_sublist _
  · intro part hpart
    have hmem : part ∈ FreeTree.node placed.terms placed.values ::
        FreeTree.subtreesOfAll placed.values ++ [] := hpart
    rw [List.append_nil] at hmem
    rcases List.mem_cons.mp hmem with rfl | hbelow
    · exact h.ordered
    · exact h.parts part hbelow

end Placed

/-! ## 3.  Grammars that keep everything -/

/-- All rules of the grammar keep all of their pieces. -/
def Grammar.KeepsAll (g : Grammar T) : Prop :=
  ∀ rule ∈ g.rules.toList, ∀ alternative ∈ rule.alternatives,
    alternative.shape = .termNontermList

namespace Grammar.KeepsAll

variable {g : Grammar T}

/-- **The pieces of a derivation are those of its word**, each in its place. -/
theorem exists_placed (hg : g.KeepsAll) {e : Expr T} {word : List T}
    {pieces : Pieces T (FreeTree T)} (h : g.Yields FreeTree.algebra e word pieces) (k : Nat) :
    ∃ placed, Placed k word pieces placed := by
  induction h generalizing k with
  | empty => exact ⟨_, .nil⟩
  | term _ => exact ⟨_, .ofTerm _⟩
  | @nonterm r rule alternative word pieces hrule hmem _ ih =>
    obtain ⟨placed, hplaced⟩ := ih k
    have hshape := hg rule (mem_rules_of_rule? hrule) alternative hmem
    have hvalue : alternative.shape.value FreeTree.algebra r pieces =
        .node pieces.terms pieces.values := by
      rw [hshape]
      simp [Shape.value, Production.record, Production.start, Production.reduce, Shape.keepsTerms,
        Shape.keepsNonterms, algebraBuilder, FreeTree.algebra]
    rw [hvalue]
    exact ⟨_, hplaced.gather⟩
  | seqNil => exact ⟨_, .nil⟩
  | @seqCons item items front back first second _ _ ihitem ihitems =>
    obtain ⟨firstPlaced, hfirst⟩ := ihitem k
    obtain ⟨secondPlaced, hsecond⟩ := ihitems (k + front.length)
    exact ⟨_, hfirst.append hsecond⟩
  | choice _ _ ih => exact ih k
  | repStop => exact ⟨_, .nil⟩
  | @repMore least body front back first second _ _ ihbody ihrest =>
    obtain ⟨firstPlaced, hfirst⟩ := ihbody k
    obtain ⟨secondPlaced, hsecond⟩ := ihrest (k + front.length)
    exact ⟨_, hfirst.append hsecond⟩
  | optNone => exact ⟨_, .nil⟩
  | optSome _ ih => exact ih k

/-- Nothing is asked for but nodes that keep everything. -/
theorem eq_of_asks (hg : g.KeepsAll) {algebra : Reduction T X → X} {valid : T → Prop}
    {reduction : Reduction T X} (h : g.Asks algebra valid reduction) :
    ∃ r terms values, reduction = .termNontermList r terms values := by
  obtain ⟨r, rule, alternative, word, pieces, hrule, hmem, -, -, hasked⟩ := h
  rw [hg rule (mem_rules_of_rule? hrule) alternative hmem] at hasked
  exact ⟨_, _, _, List.mem_singleton.mp hasked⟩

/-- Each node that is held is the free tree of what was matched. -/
def custody (hg : g.KeepsAll) {build : Builder T (FreeTree T) W}
    (hbuild : ∀ r terms children w,
      (build (.termNontermList r terms children) w).1 = .node terms children) :
    Custody g build FreeTree.algebra fun _ => True where
  holds _ held := ∀ entry ∈ held, entry.1 = entry.2
  drop h hkept entry hentry := h entry (hkept.subset hentry)
  make reduction {_ _} hasks h := by
    obtain ⟨r, terms, values, heq⟩ := hg.eq_of_asks hasks
    cases reduction <;> cases heq
    next nodes =>
      obtain ⟨hnodes, hframe⟩ := List.forall_mem_append.mp h
      have hsame : ∀ entry ∈ nodes, entry.1 = entry.2 := hnodes
      refine List.forall_mem_cons.mpr ⟨?_, hframe⟩
      show (build (.termNontermList r terms (nodes.map Prod.fst)) _).1 = .node terms _
      rw [hbuild, List.map_congr_left hsame]

end Grammar.KeepsAll

/-- **No token is lost, taken twice or left over from a way that led nowhere.**  When a rule is
matched, the tree holds the tokens of the word that was read, and each node holds its own tokens in
the order of their places. -/
theorem matchRule_conserves [TokenStream S T] {g : Grammar T} (hg : g.KeepsAll)
    {build : Builder T (FreeTree T) W}
    (hbuild : ∀ r terms children w,
      (build (.termNontermList r terms children) w).1 = .node terms children)
    {r : RuleId} {w w' : W} {s s' : S} {tree : FreeTree T}
    (h : g.matchRule build r w s = ⟨.matched tree, w', s'⟩) :
    ∃ word, Spans s word s' ∧ tree.tokens.Perm word ∧
      ∃ placed : FreeTree (T × Nat), placed.map Prod.fst = tree ∧
        placed.tokens.Perm word.zipIdx ∧
        ∀ part ∈ placed.subtrees, part.terms.Sublist word.zipIdx := by
  have hreply : (hg.custody hbuild).Replied r [] s (g.matchRule build r w s) :=
    (hg.custody hbuild).matchRule_keeps r (fun _ _ _ => True.intro)
      fun _ hentry => absurd hentry List.not_mem_nil
  rw [h] at hreply
  cases hreply with
  | @matched word node value _ _ hspans hyields hholds =>
    have hvalue : tree = value := hholds _ List.mem_cons_self
    obtain ⟨⟨terms, trees⟩, hterms, hvalues, hperm, -, hparts⟩ := hg.exists_placed hyields 0
    rw [List.map_eq_nil_iff.mp hterms, List.nil_append] at hperm
    match trees with
    | [] => cases hvalues
    | _ :: _ :: _ => cases hvalues
    | [placed] =>
      have hplaced : placed.map Prod.fst = tree := (List.cons.inj hvalues).1.trans hvalue.symm
      rw [FreeTree.tokensOfAll, FreeTree.tokensOfAll, List.append_nil] at hperm
      rw [FreeTree.subtreesOfAll, FreeTree.subtreesOfAll, List.append_nil] at hparts
      refine ⟨word, hspans, ?_, placed, hplaced, hperm, hparts⟩
      have htokens := hperm.map Prod.fst
      rwa [← FreeTree.tokens_map, hplaced, List.zipIdx_map_fst] at htokens
  | stopped hstopped _ => cases hstopped

/-- A one, some fives and a two; a three in the place of the two is looked for first. -/
def fives : Grammar Nat where
  rules := #[
    ⟨⟨0⟩, "row", [
      ⟨.termNontermList, .seq [.term (· == 1), .nonterm ⟨1⟩, .term (· == 3)]⟩,
      ⟨.termNontermList, .seq [.term (· == 1), .nonterm ⟨1⟩, .term (· == 2)]⟩]⟩,
    ⟨⟨1⟩, "fives", [⟨.termNontermList, Expr.oneOrMore (.term (· == 5))⟩]⟩]
  faultless := by decide

theorem fives_keepsAll : fives.KeepsAll := by
  intro rule hrule alternative halternative
  simp only [fives, List.mem_cons, List.not_mem_nil, or_false] at hrule
  rcases hrule with rfl | rfl
  · simp only [List.mem_cons, List.not_mem_nil, or_false] at halternative
    rcases halternative with rfl | rfl <;> rfl
  · simp only [List.mem_singleton] at halternative
    rw [halternative]

/-- The builder of free trees. -/
def FreeTree.build : Builder Nat (FreeTree Nat) Unit := fun reduction world =>
  (FreeTree.algebra reduction, world)

/-- The one and the fives are taken twice, and what was taken first is forgotten. -/
theorem matchRule_conserves_second_way :
    let start := TokenArray.ofList [1, 5, 5, 2]
    let tree : FreeTree Nat := .node [1, 2] [.node [5, 5] []]
    (fives.matchRule FreeTree.build ⟨0⟩ () start).outcome = .matched tree ∧
      ∃ word, Spans start word ⟨#[1, 5, 5, 2], 4⟩ ∧ tree.tokens.Perm word := by
  intro start tree
  have hmatch : fives.matchRule FreeTree.build ⟨0⟩ () start =
      ⟨.matched tree, (), ⟨#[1, 5, 5, 2], 4⟩⟩ := by cbv
  obtain ⟨word, hspans, hperm, -⟩ :=
    matchRule_conserves fives_keepsAll (fun _ _ _ _ => rfl) hmatch
  exact ⟨congrArg Reply.outcome hmatch, word, hspans, hperm⟩

end GrammarKit
