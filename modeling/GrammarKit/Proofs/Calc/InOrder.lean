import GrammarKit.Proofs.Calc.Custody
import GrammarKit.Proofs.Chains
import Mathlib.Data.Finset.Card
import Mathlib.Data.Finset.Range

/-!
# No node is made in vain

A builder keeps what it has made, also for ways that lead nowhere.  So a parse may leave nodes in the
arena that are no part of the tree.  The calculator does make such nodes: of `1 + (2` it makes the
two before it finds that a parenthesis is missing.  But then the text is no expression, since the plus
that was given back is in the way of everything that may come next.

The argument follows the levels of the grammar.  A factor is recognised by its first token, so
nothing is made in vain before the right alternative.  A chain may have made nodes for an operand that
it gave up, and then an operator of the chain stands where it ends.  Whoever asked for the chain finds
that operator: a chain of sums cannot go on at a sign of products, a parenthesis is not closed by
either, and neither is the end of the text.

* `Tree.inOrder`: the texts in a tree from left to right.
* `Arena.Spells`: the same as a relation, which does not mind how the arena grows.
* `Stalled`, `Thrifty`: an operator is left over; if none is, no node was made in vain.
* `parse_wastes_nothing`: the tree of a text has one node for each token that is no parenthesis.
-/

namespace GrammarKit

/-! ## 1.  From left to right -/

/-- The texts in the nodes below a node from left to right, an operator before its only operand or
between its two, along ways of at most `height` nodes. -/
def Arena.inOrder (arena : Arena) : (height : Nat) → NodeId → List String
  | 0, _ => []
  | height + 1, id =>
    match arena.get id with
    | .ok (.const _ text) => [text]
    | .ok (.unary _ symbol operand) => symbol :: arena.inOrder height operand
    | .ok (.binary _ symbol left right) =>
      arena.inOrder height left ++ symbol :: arena.inOrder height right
    | _ => []

/-- The texts in a tree from left to right. -/
def Tree.inOrder (tree : Tree) : List String := tree.arena.inOrder tree.height tree.root

namespace Arena

/-- **The node stands for these texts**, in the order of the tree. -/
inductive Spells (arena : Arena) : NodeId → List String → Prop where
  | const {id : NodeId} {kind : NumberKind} {text : String}
      (hget : arena.get id = .ok (.const kind text)) : Spells arena id [text]
  | unary {id operand : NodeId} {op : UnaryOp} {symbol : String} {texts : List String}
      (hget : arena.get id = .ok (.unary op symbol operand)) (h : Spells arena operand texts) :
      Spells arena id (symbol :: texts)
  | binary {id left right : NodeId} {op : BinaryOp} {symbol : String} {texts texts' : List String}
      (hget : arena.get id = .ok (.binary op symbol left right))
      (hleft : Spells arena left texts) (hright : Spells arena right texts') :
      Spells arena id (texts ++ symbol :: texts')

namespace Spells

variable {arena before after : Arena} {id : NodeId} {texts : List String}

theorem grows (h : before.Spells id texts) (hgrows : before.Grows after) :
    after.Spells id texts := by
  induction h with
  | const hget => exact .const (hgrows.get hget)
  | unary hget _ ih => exact .unary (hgrows.get hget) ih
  | binary hget _ _ ihleft ihright => exact .binary (hgrows.get hget) ihleft ihright

/-- A walk that may be long enough reads all of them. -/
theorem inOrder_eq (h : arena.Spells id texts) (htidy : arena.Tidy) {height : Nat}
    (hheight : id.index < height) : arena.inOrder height id = texts := by
  induction h generalizing height with
  | const hget =>
    obtain ⟨height, rfl⟩ := Nat.exists_eq_add_of_le' (Nat.one_le_of_lt hheight)
    rw [inOrder, hget]
  | unary hget _ ih =>
    obtain ⟨height, rfl⟩ := Nat.exists_eq_add_of_le' (Nat.one_le_of_lt hheight)
    have hlt := htidy.link_lt _ _ hget _ List.mem_cons_self
    rw [inOrder, hget]
    dsimp only
    rw [ih (by omega)]
  | binary hget _ _ ihleft ihright =>
    obtain ⟨height, rfl⟩ := Nat.exists_eq_add_of_le' (Nat.one_le_of_lt hheight)
    have hlt := htidy.link_lt _ _ hget _ List.mem_cons_self
    have hlt' := htidy.link_lt _ _ hget _ (List.mem_cons_of_mem _ List.mem_cons_self)
    rw [inOrder, hget]
    dsimp only
    rw [ihleft (by omega), ihright (by omega)]

/-- There is one text for each node that is met on the way down. -/
theorem length_below (h : arena.Spells id texts) (htidy : arena.Tidy) :
    (arena.below id).length = texts.length := by
  induction h with
  | const hget =>
    rw [htidy.below_eq, links_of_get hget]
    rfl
  | unary hget _ ih =>
    rw [htidy.below_eq, links_of_get hget]
    simp only [Node.links, List.flatMap_cons, List.flatMap_nil, List.append_nil, List.length_cons, ih]
  | binary hget _ _ ihleft ihright =>
    rw [htidy.below_eq, links_of_get hget]
    simp only [Node.links, List.flatMap_cons, List.flatMap_nil, List.append_nil, List.length_cons,
      List.length_append, ihleft, ihright]
    omega

end Spells

/-- **Where there are as many nodes below the root as in the arena**, every node is reached. -/
theorem Apart.reaches_of_length_below {arena : Arena} {root : NodeId} (h : arena.Apart [root])
    (hlength : (arena.below root).length = arena.size) {id : NodeId} (hid : arena.InRange id) :
    arena.Reaches root id := by
  have hnodup : ((arena.below root).map NodeId.index).Nodup := by
    have hall := h.nodup
    rw [List.flatMap_singleton] at hall
    exact hall.map fun ⟨i⟩ ⟨j⟩ hij => congrArg NodeId.mk hij
  have hsubset : ((arena.below root).map NodeId.index).toFinset ⊆ Finset.range arena.size := by
    intro i hi
    obtain ⟨x, hx, rfl⟩ := List.mem_map.mp (List.mem_toFinset.mp hi)
    exact Finset.mem_range.mpr (Nat.lt_of_le_of_lt (h.tidy.le_of_mem_below hx)
      (h.inRange root List.mem_cons_self))
  have hall := Finset.eq_of_subset_of_card_le hsubset (by
    rw [Finset.card_range, List.toFinset_card_of_nodup hnodup, List.length_map, hlength])
  have hmem : id.index ∈ ((arena.below root).map NodeId.index).toFinset := by
    rw [hall]
    exact Finset.mem_range.mpr hid
  obtain ⟨x, hx, hindex⟩ := List.mem_map.mp (List.mem_toFinset.mp hmem)
  have hsame : x = id := by
    obtain ⟨i⟩ := x
    exact congrArg NodeId.mk hindex
  exact h.tidy.reaches_of_mem_below (hsame ▸ hx)

end Arena

namespace Calc

variable {S : Type} [TokenStream S (Token Kind)]

/-! ## 2.  What is counted -/

/-- All tokens count but parentheses. -/
def counts (token : Token Kind) : Bool := token.kind ≠ .lParens && token.kind ≠ .rParens

/-- The texts of the tokens that count. -/
def counted (word : List (Token Kind)) : List String := (word.filter counts).map Token.text

theorem counted_append (front back : List (Token Kind)) :
    counted (front ++ back) = counted front ++ counted back := by
  rw [counted, List.filter_append, List.map_append]
  rfl

theorem counted_cons_of_not_counts {token : Token Kind} (h : counts token = false)
    (word : List (Token Kind)) : counted (token :: word) = counted word := by
  rw [counted, List.filter_cons_of_neg (by rw [h]; exact Bool.false_ne_true)]
  rfl

theorem counted_cons_of_counts {token : Token Kind} (h : counts token = true)
    (word : List (Token Kind)) : counted (token :: word) = token.text :: counted word := by
  rw [counted, List.filter_cons_of_pos h, List.map_cons]
  rfl

/-- The operators that may be left over behind a rule. -/
def trailing (r : RuleId) : List Kind :=
  if r = expr then [.multiply, .divide, .plus, .minus]
  else if r = term then [.multiply, .divide]
  else []

/-- An operator is left over here. -/
def Stalled (r : RuleId) (s : S) : Prop :=
  ∃ token, TokenStream.peek s = some token ∧ token.kind ∈ trailing r

/-- **Tokens and nodes balance** between two places: the node spells the tokens in between that count,
and just so many nodes have been made, if no operator is left over. -/
def Balances (r : RuleId) (arena : Arena) (s : S) (id : NodeId) (arena' : Arena) (s' : S) : Prop :=
  ∃ word, Spans s word s' ∧ arena'.Spells id (counted word) ∧
    (arena'.size = arena.size + (counted word).length ∨ Stalled r s')

/-- Tokens and nodes balance whenever the rule matches from here on. -/
def Thrifty (r : RuleId) (s : S) : Prop :=
  ∀ (arena arena' : Arena) (id : NodeId) (s' : S),
    grammar.matchRule build r arena s = ⟨.matched id, arena', s'⟩ →
      Balances r arena s id arena' s'

/-- Nodes are only ever added. -/
theorem matchRule_grows [LawfulTokenStream S] (r : RuleId) (arena : Arena) (s : S) :
    arena.Grows (grammar.matchRule build r arena s).world := by
  obtain ⟨tokens, htokens⟩ := exists_ahead s
  exact (grammar.matchRule_coupled readingModel.coupling ⟨htokens, htokens⟩ r (w := (arena, ()))
    True.intro).grows

theorem grows_linked [LawfulTokenStream S] {operators : List (Token Kind → Bool)} {operand : RuleId}
    {arena arena' : Arena} {s s' : S} {links : List (Token Kind × NodeId)}
    {words : List (Token Kind)}
    (h : grammar.Linked build operators operand arena s links words arena' s') :
    arena.Grows arena' := by
  induction h with
  | nil arena s => exact .refl arena
  | @cons arena u arena' s _ _ _ _ _ _ _ _ hoperand _ _ ih =>
    have hgrows := matchRule_grows operand arena (TokenStream.advance s)
    rw [hoperand] at hgrows
    exact hgrows.trans ih

/-! ## 3.  Chains -/

section Chains

/-- The operators of these kinds. -/
def accepting (kinds : List Kind) : List (Token Kind → Bool) :=
  kinds.map fun k token => token.kind == k

theorem kind_mem_of_operatorAt? {kinds : List Kind} {s : S} {token : Token Kind}
    (h : operatorAt? (accepting kinds) s = some token) :
    TokenStream.peek s = some token ∧ token.kind ∈ kinds := by
  obtain ⟨hpeek, accepts, hmem, haccepts⟩ := operatorAt?_eq_some_iff.mp h
  obtain ⟨k, hk, rfl⟩ := List.mem_map.mp hmem
  exact ⟨hpeek, beq_iff_eq.mp haccepts ▸ hk⟩

/-- **A level of the grammar**: a chain whose operators make nodes, and that are not left over behind
its operands. -/
structure Level (r operand : RuleId) (kinds : List Kind) : Prop where
  exists_rule : ∃ rule, grammar.rule? r = some rule ∧
    rule.alternatives = [⟨.chain, .chain ((accepting kinds).map .term) operand⟩]
  isSome_op : ∀ k ∈ kinds, (binaryOp? r k).isSome = true
  ne_parens : ∀ k ∈ kinds, k ≠ .lParens ∧ k ≠ .rParens
  apart : ∀ k ∈ kinds, k ∉ trailing operand
  trailing_eq : trailing r = trailing operand ++ kinds

theorem level_expr : Level expr term [.plus, .minus] :=
  ⟨⟨_, rfl, rfl⟩, by decide, by decide, by decide, rfl⟩

theorem level_term : Level term factor [.multiply, .divide] :=
  ⟨⟨_, rfl, rfl⟩, by decide, by decide, by decide, rfl⟩

namespace Level

variable {r operand : RuleId} {kinds : List Kind} (h : Level r operand kinds)
include h

/-- The operators of a level count. -/
theorem counts {token : Token Kind} (hkind : token.kind ∈ kinds) : counts token = true := by
  obtain ⟨hleft, hright⟩ := h.ne_parens _ hkind
  simp [Calc.counts, hleft, hright]

/-- At an operator of the level its operands are not stalled. -/
theorem not_stalled {s : S} {token : Token Kind}
    (hoperator : operatorAt? (accepting kinds) s = some token) : ¬ Stalled operand s := by
  obtain ⟨hpeek, hkind⟩ := kind_mem_of_operatorAt? hoperator
  rintro ⟨token', hpeek', htrailing⟩
  obtain rfl := Option.some_inj.mp (hpeek.symm.trans hpeek')
  exact h.apart _ hkind htrailing

/-- Where the operands are stalled or an operator is left over, the level is stalled. -/
theorem stalled {s : S} (hstalled : Stalled operand s ∨
    ∃ token, operatorAt? (accepting kinds) s = some token) : Stalled r s := by
  rw [Stalled, h.trailing_eq]
  rcases hstalled with ⟨token, hpeek, htrailing⟩ | ⟨token, hoperator⟩
  · exact ⟨token, hpeek, List.mem_append_left _ htrailing⟩
  · obtain ⟨hpeek, hkind⟩ := kind_mem_of_operatorAt? hoperator
    exact ⟨token, hpeek, List.mem_append_right _ hkind⟩

variable [LawfulTokenStream S]

/-- An operator between two nodes makes one node more. -/
theorem spells_build {arena : Arena} {left right : NodeId} {token : Token Kind}
    {texts texts' : List String} (hkind : token.kind ∈ kinds) (hleft : arena.Spells left texts)
    (hright : arena.Spells right texts') :
    (build (.nontermTermNonterm r left token right) arena).2.Spells
        (build (.nontermTermNonterm r left token right) arena).1
        (texts ++ token.text :: texts') ∧
      arena.Grows (build (.nontermTermNonterm r left token right) arena).2 ∧
      (build (.nontermTermNonterm r left token right) arena).2.size = arena.size + 1 := by
  obtain ⟨op, hop⟩ := Option.isSome_iff_exists.mp (h.isSome_op _ hkind)
  have hbuild : build (.nontermTermNonterm r left token right) arena =
      arena.alloc (.binary op token.text left right) := by
    rw [build, node, hop]
    intro _ _ _ h
    cases h
  have hgrows := arena.grows_alloc (.binary op token.text left right)
  rw [hbuild]
  exact ⟨.binary (arena.get_alloc_self _) (hleft.grows hgrows) (hright.grows hgrows), hgrows,
    Array.size_push _⟩

/-- **A complete round**: its operand balances, the text of its operator counts, and what comes behind
it is shorter. -/
theorem round_balances {arena u : Arena} {s place : S} {token : Token Kind} {node : NodeId}
    {word : List (Token Kind)} (hoperator : operatorAt? (accepting kinds) s = some token)
    (hoperand : grammar.matchRule build operand arena (TokenStream.advance s) =
      ⟨.matched node, u, place⟩)
    (hspans : Spans (TokenStream.advance s) word place)
    (hoperands : ∀ t : S, TokenStream.remaining t < TokenStream.remaining s → Thrifty operand t) :
    u.Spells node (counted word) ∧
      (u.size = arena.size + (counted word).length ∨ Stalled operand place) ∧
      (∀ words, counted (token :: word ++ words) = token.text :: counted word ++ counted words) ∧
      ∀ t : S, TokenStream.remaining t < TokenStream.remaining place → Thrifty operand t := by
  obtain ⟨hpeek, hkind⟩ := kind_mem_of_operatorAt? hoperator
  have hless := remaining_advance_lt_of_peek hpeek
  obtain ⟨word', hspans', hspells, hmade⟩ := hoperands _ hless _ _ _ _ hoperand
  obtain rfl := hspans.unique hspans'
  have hplace := Nat.lt_of_le_of_lt hspans.remaining_le hless
  refine ⟨hspells, hmade, fun words => ?_, fun t ht => hoperands t (Nat.lt_trans ht hplace)⟩
  rw [counted_append, counted_cons_of_counts (h.counts hkind)]

/-- **Complete rounds make as many nodes as their operands have texts**, unless the last operand is
stalled. -/
theorem size_linked {arena arena' : Arena} {s s' : S} {links : List (Token Kind × NodeId)}
    {words : List (Token Kind)}
    (hlinked : grammar.Linked build (accepting kinds) operand arena s links words arena' s')
    (hoperands : ∀ t : S, TokenStream.remaining t < TokenStream.remaining s → Thrifty operand t)
    {n : Nat} (hsize : arena.size = n ∨ Stalled operand s) :
    arena'.size + links.length = n + (counted words).length ∨ Stalled operand s' := by
  induction hlinked generalizing n with
  | nil arena s => exact hsize
  | @cons arena u arena' s place s' token node links word words hoperator hoperand hspans _ ih =>
    obtain ⟨-, hmade, hcounted, hbehind⟩ := h.round_balances hoperator hoperand hspans hoperands
    have hexact : arena.size = n := hsize.resolve_right (h.not_stalled hoperator)
    have hrest := ih hbehind (n := n + (counted word).length)
      (hmade.imp_left fun hmade => by rw [hmade, hexact])
    refine hrest.imp_left fun hrest => ?_
    rw [hcounted, List.length_append, List.length_cons, List.length_cons]
    omega

/-- **The rounds are grouped** to a node that spells them behind the first operand. -/
theorem spells_foldChain {arena arena' : Arena} {s s' : S} {links : List (Token Kind × NodeId)}
    {words : List (Token Kind)}
    (hlinked : grammar.Linked build (accepting kinds) operand arena s links words arena' s')
    (hoperands : ∀ t : S, TokenStream.remaining t < TokenStream.remaining s → Thrifty operand t)
    {later : Arena} {first : NodeId} {front : List String} (hlater : arena'.Grows later)
    (hfirst : later.Spells first front) :
    (Production.foldChain build r first links later).2.Spells
        (Production.foldChain build r first links later).1 (front ++ counted words) ∧
      (Production.foldChain build r first links later).2.size = later.size + links.length := by
  induction hlinked generalizing later first front with
  | nil arena s =>
    rw [counted, List.filter_nil, List.map_nil, List.append_nil]
    exact ⟨hfirst, rfl⟩
  | @cons arena u arena' s place s' token node links word words hoperator hoperand hspans hrest ih =>
    obtain ⟨hnode, -, hcounted, hbehind⟩ := h.round_balances hoperator hoperand hspans hoperands
    obtain ⟨hspells, hgrows, hsize⟩ := h.spells_build (kind_mem_of_operatorAt? hoperator).2 hfirst
      ((hnode.grows (grows_linked hrest)).grows hlater)
    obtain ⟨hspells', hsize'⟩ := ih hbehind (hlater.trans hgrows) hspells
    rw [hcounted, ← List.append_assoc]
    refine ⟨hspells', hsize'.trans ?_⟩
    rw [hsize, List.length_cons]
    omega

/-- **Nodes are made in vain only behind an operator that is left over.** -/
theorem grows_declined {arena arena' : Arena} {s : S}
    (hdeclines : grammar.Declines build (accepting kinds) operand arena s arena') :
    arena.Grows arena' ∧ (arena' = arena ∨ Stalled r s) := by
  cases hdeclines with
  | noOperator => exact ⟨.refl arena, Or.inl rfl⟩
  | atEnd => exact ⟨.refl arena, Or.inl rfl⟩
  | refused hoperator hrefused =>
    have hgrows := matchRule_grows operand arena (TokenStream.advance s)
    rw [hrefused] at hgrows
    exact ⟨hgrows, Or.inr (h.stalled (Or.inr ⟨_, hoperator⟩))⟩

/-- **A level is thrifty if its operands are.** -/
theorem thrifty {s : S} (hfirst : Thrifty operand s)
    (hoperands : ∀ t : S, TokenStream.remaining t < TokenStream.remaining s → Thrifty operand t) :
    Thrifty r s := by
  intro arena arena' id s' hmatch
  obtain ⟨rule, hrule, hchain⟩ := h.exists_rule
  obtain ⟨first, links, words, u₀, u₁, u₂, place, hoperand, hlinked, hdeclines, hfold⟩ :=
    Grammar.matchRule_chain hrule hchain hmatch
  obtain ⟨word, hspans, hspells, hmade⟩ := hfirst _ _ _ _ hoperand
  have hrounds : ∀ t : S, TokenStream.remaining t < TokenStream.remaining place →
      Thrifty operand t := fun t ht => hoperands t (Nat.lt_of_lt_of_le ht hspans.remaining_le)
  obtain ⟨hgrows, hexact⟩ := h.grows_declined hdeclines
  have hsize := h.size_linked hlinked hrounds hmade
  obtain ⟨hspells', hsize'⟩ := h.spells_foldChain hlinked hrounds hgrows
    ((hspells.grows (grows_linked hlinked)).grows hgrows)
  rw [hfold] at hspells' hsize'
  refine ⟨word ++ words, hspans.append hlinked.spans, by rwa [counted_append], ?_⟩
  rcases hexact with rfl | hstalled
  · rcases hsize with hsize | hstalled
    · refine Or.inl ?_
      rw [counted_append, List.length_append]
      dsimp only at hsize'
      omega
    · exact Or.inr (h.stalled (Or.inl hstalled))
  · exact Or.inr hstalled

end Level

end Chains

/-! ## 4.  Factors -/

section Factors

/-- The alternative starts with a token of this kind. -/
def Led (k : Kind) (alternative : Alternative (Token Kind)) : Prop :=
  alternative.expr = kind k ∨ ∃ items, alternative.expr = .seq (kind k :: items)

variable {d : Dispatch NodeId Arena S} {r : RuleId} {arena arena' : Arena} {s s' : S}
  {token : Token Kind} {id : NodeId}

/-- An alternative that starts with another token is passed over, and nothing is made. -/
theorem attemptAlternatives_cons_of_led (hpeek : TokenStream.peek s = some token) {k : Kind}
    {alternative : Alternative (Token Kind)} (hled : Led k alternative) (hk : token.kind ≠ k)
    (alternatives : List (Alternative (Token Kind))) :
    attemptAlternatives build d r (alternative :: alternatives) arena s =
      attemptAlternatives build d r alternatives arena s := by
  have hrefuses : ∀ pieces, (kind k).attempt d ⟨s, pieces, arena⟩ =
      (.noMatch .term, (⟨s, pieces, arena⟩ : Attempt (Token Kind) NodeId Arena S)) := by
    intro pieces
    simp [kind, Expr.attempt, Expr.attemptTerm, hpeek, hk]
  have hfirst : ∃ why, alternative.expr.attempt d ⟨s, Production.start r alternative.shape, arena⟩ =
      (.noMatch why, ⟨s, Production.start r alternative.shape, arena⟩) := by
    rcases hled with hexpr | ⟨items, hexpr⟩
    · exact ⟨_, by rw [hexpr, hrefuses]⟩
    · refine ⟨.sequence, ?_⟩
      rw [hexpr, Expr.attempt, Expr.attemptAll, hrefuses]
      simp only [Attempt.orRestore, Attempt.restore, Production.rollback_checkpoint]
  obtain ⟨why, hfirst⟩ := hfirst
  rw [attemptAlternatives, hfirst]

variable {entries : List (Kind × Alternative (Token Kind))}

/-- If all of them start with another token, none matches. -/
theorem attemptAlternatives_of_not_mem (hpeek : TokenStream.peek s = some token)
    (hled : ∀ entry ∈ entries, Led entry.1 entry.2) (hk : token.kind ∉ entries.map Prod.fst) :
    attemptAlternatives build d r (entries.map Prod.snd) arena s = ⟨.noMatch .rule, arena, s⟩ := by
  induction entries with
  | nil => rfl
  | cons entry entries ih =>
    obtain ⟨hfirst, hrest⟩ := List.forall_mem_cons.mp hled
    rw [List.map_cons, List.mem_cons, not_or] at hk
    obtain ⟨hne, hk⟩ := hk
    rw [List.map_cons, attemptAlternatives_cons_of_led hpeek hfirst hne, ih hrest hk]

/-- **The first token decides** between alternatives that start with different kinds: the one that
matches is the only one that has made anything. -/
theorem exists_singleton_of_matched (hpeek : TokenStream.peek s = some token)
    (hled : ∀ entry ∈ entries, Led entry.1 entry.2) (hnodup : (entries.map Prod.fst).Nodup)
    (h : attemptAlternatives build d r (entries.map Prod.snd) arena s =
      ⟨.matched id, arena', s'⟩) :
    ∃ entry ∈ entries,
      attemptAlternatives build d r [entry.2] arena s = ⟨.matched id, arena', s'⟩ := by
  induction entries with
  | nil => cases h
  | cons entry entries ih =>
    obtain ⟨hfirst, hrest⟩ := List.forall_mem_cons.mp hled
    rw [List.map_cons, List.nodup_cons] at hnodup
    rw [List.map_cons] at h
    by_cases hk : token.kind = entry.1
    · refine ⟨entry, List.mem_cons_self, ?_⟩
      rw [attemptAlternatives] at h ⊢
      rcases hstep : entry.2.expr.attempt d ⟨s, Production.start r entry.2.shape, arena⟩ with
        ⟨outcome, b⟩
      rw [hstep] at h
      cases outcome with
      | matched value => exact h
      | noMatch why =>
        dsimp only at h
        rw [attemptAlternatives_of_not_mem hpeek hrest (hk ▸ hnodup.1)] at h
        cases h
      | failed why => cases h
    · rw [attemptAlternatives_cons_of_led hpeek hfirst hk] at h
      obtain ⟨found, hmem, hfound⟩ := ih hrest hnodup.2 h
      exact ⟨found, List.mem_cons_of_mem _ hmem, hfound⟩

/-- A token of a kind is taken. -/
theorem attempt_kind_eq_matched {k : Kind} {a b : Attempt (Token Kind) NodeId Arena S} :
    (kind k).attempt d a = (.matched (), b) ↔
      ∃ token, TokenStream.peek a.stream = some token ∧ token.kind = k ∧
        b = ⟨TokenStream.advance a.stream, a.pieces.addTerm token, a.world⟩ := by
  rw [kind, Expr.attempt, Expr.attemptTerm_eq_matched]
  simp only [beq_iff_eq]

/-- A sign is followed by a factor. -/
theorem of_attempt_sign {k : Kind}
    (h : attemptAlternatives build d r [⟨.termNonterm, .seq [kind k, .nonterm factor]⟩] arena s =
      ⟨.matched id, arena', s'⟩) :
    ∃ token child u, TokenStream.peek s = some token ∧ token.kind = k ∧
      d factor arena (TokenStream.advance s) = ⟨.matched child, u, s'⟩ ∧
      build (.termNonterm r token child) u = (id, arena') := by
  obtain ⟨b, hattempt, hnode, rfl⟩ := attemptAlternatives_singleton_eq_matched.mp h
  rw [Expr.attempt_seq_eq_matched, Expr.attemptAll_cons_eq_matched] at hattempt
  obtain ⟨_, hsign, hrest⟩ := hattempt
  obtain ⟨token, hpeek, hkind, rfl⟩ := attempt_kind_eq_matched.mp hsign
  obtain ⟨_, hoperand, hnil⟩ := Expr.attemptAll_cons_eq_matched.mp hrest
  obtain rfl := Expr.attemptAll_nil_eq_matched.mp hnil
  rw [Expr.attempt, Expr.attemptNonterm_eq_matched] at hoperand
  obtain ⟨-, child, u, place, hchild, rfl⟩ := hoperand
  exact ⟨token, child, u, hpeek, hkind, hchild, hnode⟩

/-- An expression in parentheses stands for both. -/
theorem of_attempt_parens
    (h : attemptAlternatives build d r
      [⟨.bypass, .seq [kind .lParens, .nonterm expr, kind .rParens]⟩] arena s =
        ⟨.matched id, arena', s'⟩) :
    ∃ opening closing place, TokenStream.peek s = some opening ∧ opening.kind = .lParens ∧
      d expr arena (TokenStream.advance s) = ⟨.matched id, arena', place⟩ ∧
      TokenStream.peek place = some closing ∧ closing.kind = .rParens ∧
      s' = TokenStream.advance place := by
  obtain ⟨b, hattempt, hnode, rfl⟩ := attemptAlternatives_singleton_eq_matched.mp h
  rw [Expr.attempt_seq_eq_matched, Expr.attemptAll_cons_eq_matched] at hattempt
  obtain ⟨_, hopening, hrest⟩ := hattempt
  obtain ⟨opening, hpeek, hkind, rfl⟩ := attempt_kind_eq_matched.mp hopening
  obtain ⟨_, hinside, hlast⟩ := Expr.attemptAll_cons_eq_matched.mp hrest
  rw [Expr.attempt, Expr.attemptNonterm_eq_matched] at hinside
  obtain ⟨-, inside, u, place, hinside, rfl⟩ := hinside
  obtain ⟨_, hclosing, hnil⟩ := Expr.attemptAll_cons_eq_matched.mp hlast
  obtain ⟨closing, hpeek', hkind', rfl⟩ := attempt_kind_eq_matched.mp hclosing
  obtain rfl := Expr.attemptAll_nil_eq_matched.mp hnil
  cases hnode
  exact ⟨opening, closing, place, hpeek, hkind, hinside, hpeek', hkind', rfl⟩

/-- An integer stands alone. -/
theorem of_attempt_integer
    (h : attemptAlternatives build d r [⟨.term, kind .integer⟩] arena s =
      ⟨.matched id, arena', s'⟩) :
    ∃ token, TokenStream.peek s = some token ∧ token.kind = .integer ∧
      s' = TokenStream.advance s ∧ build (.term r token) arena = (id, arena') := by
  obtain ⟨b, hattempt, hnode, rfl⟩ := attemptAlternatives_singleton_eq_matched.mp h
  obtain ⟨token, hpeek, hkind, rfl⟩ := attempt_kind_eq_matched.mp hattempt
  exact ⟨token, hpeek, hkind, rfl, hnode⟩

/-- The alternatives of a factor, each with the kind that it starts with. -/
def factors : List (Kind × Alternative (Token Kind)) :=
  [ (.plus, ⟨.termNonterm, .seq [kind .plus, .nonterm factor]⟩),
    (.minus, ⟨.termNonterm, .seq [kind .minus, .nonterm factor]⟩),
    (.lParens, ⟨.bypass, .seq [kind .lParens, .nonterm expr, kind .rParens]⟩),
    (.integer, ⟨.term, kind .integer⟩) ]

theorem led_factors : ∀ entry ∈ factors, Led entry.1 entry.2 :=
  List.forall_mem_cons.mpr ⟨Or.inr ⟨_, rfl⟩, List.forall_mem_cons.mpr ⟨Or.inr ⟨_, rfl⟩,
    List.forall_mem_cons.mpr ⟨Or.inr ⟨_, rfl⟩, List.forall_mem_singleton.mpr (Or.inl rfl)⟩⟩⟩

/-- Behind a factor no operator is left over. -/
theorem not_stalled_factor : ¬ Stalled factor s := by
  rintro ⟨token, -, htrailing⟩
  exact List.not_mem_nil htrailing

/-- A sign makes one node. -/
theorem balances_sign {op : UnaryOp} {child : NodeId} {u : Arena}
    (hpeek : TokenStream.peek s = some token) (hop : unaryOp? token.kind = some op)
    (hchild : Balances factor arena (TokenStream.advance s) child u s')
    (hbuild : build (.termNonterm factor token child) u = (id, arena')) :
    Balances factor arena s id arena' s' := by
  obtain ⟨word, hspans, hspells, hsize⟩ := hchild
  have hcounts : counts token = true := by
    rw [counts]
    cases hkind : token.kind <;> rw [hkind] at hop <;> cases hop <;> rfl
  have hmade : build (.termNonterm factor token child) u = u.alloc (.unary op token.text child) := by
    simp only [build, node, if_true, hop]
  rw [hmade] at hbuild
  cases hbuild
  refine ⟨token :: word, ⟨hpeek, hspans⟩, ?_, Or.inl ?_⟩
  · rw [counted_cons_of_counts hcounts]
    exact .unary (u.get_alloc_self _) (hspells.grows (u.grows_alloc _))
  · rw [counted_cons_of_counts hcounts, List.length_cons, ← Nat.add_assoc,
      ← hsize.resolve_right not_stalled_factor]
    exact Array.size_push _

/-- Parentheses make none, and where one of them closes no operator is left over. -/
theorem balances_parens {opening closing : Token Kind} {place : S}
    (hpeek : TokenStream.peek s = some opening) (hopening : opening.kind = .lParens)
    (hinside : Balances expr arena (TokenStream.advance s) id arena' place)
    (hpeek' : TokenStream.peek place = some closing) (hclosing : closing.kind = .rParens) :
    Balances factor arena s id arena' (TokenStream.advance place) := by
  obtain ⟨word, hspans, hspells, hsize⟩ := hinside
  have hstalled : ¬ Stalled expr place := by
    rintro ⟨token, htoken, htrailing⟩
    obtain rfl := Option.some_inj.mp (hpeek'.symm.trans htoken)
    rw [hclosing] at htrailing
    exact absurd htrailing (by decide)
  have hspans' : Spans place [closing] (TokenStream.advance place) := ⟨hpeek', rfl⟩
  have hcounted : counted (opening :: (word ++ [closing])) = counted word := by
    rw [counted_cons_of_not_counts (by simp [counts, hopening]), counted_append,
      counted_cons_of_not_counts (by simp [counts, hclosing])]
    exact List.append_nil _
  refine ⟨opening :: (word ++ [closing]), ⟨hpeek, hspans.append hspans'⟩, ?_, Or.inl ?_⟩
  · rwa [hcounted]
  · rw [hcounted]
    exact hsize.resolve_right hstalled

/-- An integer makes one node. -/
theorem balances_integer (hpeek : TokenStream.peek s = some token) (hkind : token.kind = .integer)
    (hbuild : build (.term factor token) arena = (id, arena')) :
    Balances factor arena s id arena' (TokenStream.advance s) := by
  have hmade : build (.term factor token) arena = arena.alloc (.const .integer token.text) := by
    simp only [build, node, hkind, and_self, if_true]
  rw [hmade] at hbuild
  cases hbuild
  have hcounts : counts token = true := by simp [counts, hkind]
  refine ⟨[token], ⟨hpeek, rfl⟩, ?_, Or.inl ?_⟩
  · rw [counted_cons_of_counts hcounts]
    exact .const (arena.get_alloc_self _)
  · rw [counted_cons_of_counts hcounts]
    exact Array.size_push _

variable [LawfulTokenStream S]

/-- **A factor is thrifty if what stands inside of it is**: a factor behind a sign, or an expression
in parentheses. -/
theorem thrifty_factor (hfactor : ∀ t : S, TokenStream.remaining t < TokenStream.remaining s →
      Thrifty factor t)
    (hexpr : ∀ t : S, TokenStream.remaining t < TokenStream.remaining s → Thrifty expr t) :
    Thrifty factor s := by
  intro arena arena' id s' h
  obtain ⟨why, hfailed⟩ | ⟨rule, hend, hrule, -, heq⟩ :=
    grammar.matchFresh_cases build (TokenStream.remaining s) grammar.ids factor arena s
  · rw [Grammar.matchRule, hfailed] at h
    cases h
  · cases hrule
    obtain ⟨token, hpeek⟩ := TokenStream.atEnd_eq_false_iff.mp hend
    have hless := remaining_advance_lt_of_peek hpeek
    have hinside : ∀ {r child u place}, Thrifty r (TokenStream.advance s) →
        grammar.dispatchWithin build (TokenStream.remaining s) grammar.ids factor r arena
          (TokenStream.advance s) = ⟨.matched child, u, place⟩ →
        Balances r arena (TokenStream.advance s) child u place := fun hthrifty hmatch =>
      hthrifty _ _ _ _ ((if_pos hless).symm.trans hmatch)
    have hchoice : attemptAlternatives build (grammar.dispatchWithin build
        (TokenStream.remaining s) grammar.ids factor) factor (factors.map Prod.snd) arena s =
          ⟨.matched id, arena', s'⟩ := heq.symm.trans h
    obtain ⟨entry, hmem, hentry⟩ :=
      exists_singleton_of_matched hpeek led_factors (by decide) hchoice
    simp only [factors, List.mem_cons, List.not_mem_nil, or_false] at hmem
    rcases hmem with rfl | rfl | rfl | rfl
    · obtain ⟨token, child, u, hpeek, hkind, hchild, hbuild⟩ := of_attempt_sign hentry
      have hop : unaryOp? token.kind = some .plus := by rw [hkind]; rfl
      exact balances_sign hpeek hop (hinside (hfactor _ hless) hchild) hbuild
    · obtain ⟨token, child, u, hpeek, hkind, hchild, hbuild⟩ := of_attempt_sign hentry
      have hop : unaryOp? token.kind = some .minus := by rw [hkind]; rfl
      exact balances_sign hpeek hop (hinside (hfactor _ hless) hchild) hbuild
    · obtain ⟨opening, closing, place, hpeek, hkind, hexpr', hpeek', hkind', rfl⟩ :=
        of_attempt_parens hentry
      exact balances_parens hpeek hkind (hinside (hexpr _ hless) hexpr') hpeek' hkind'
    · obtain ⟨token, hpeek, hkind, rfl, hbuild⟩ := of_attempt_integer hentry
      exact balances_integer hpeek hkind hbuild

end Factors

/-! ## 5.  Texts -/

/-- **Every rule is thrifty everywhere**, by the number of tokens ahead and then by the levels. -/
theorem thrifty [LawfulTokenStream S] (s : S) :
    Thrifty factor s ∧ Thrifty term s ∧ Thrifty expr s := by
  induction hn : TokenStream.remaining s using Nat.strongRecOn generalizing s with
  | _ n ih =>
    subst hn
    have hless := fun t ht => ih (TokenStream.remaining t) ht t rfl
    have hfactor : Thrifty factor s :=
      thrifty_factor (fun t ht => (hless t ht).1) fun t ht => (hless t ht).2.2
    have hterm : Thrifty term s := level_term.thrifty hfactor fun t ht => (hless t ht).1
    exact ⟨hfactor, hterm, level_expr.thrifty hterm fun t ht => (hless t ht).2.1⟩

/-- A text that is parsed is matched up to its end. -/
theorem exists_match_of_parse {source : String} {tree : Tree} (h : parse source = .ok tree) :
    ∃ place : Cursor Kind, grammar.matchRule build expr .empty (Cursor.start table source) =
      ⟨.matched tree.root, tree.arena, place⟩ ∧ TokenStream.atEnd place = true := by
  rw [parse, Grammar.parse] at h
  rcases hmatch : grammar.matchRule build .start .empty (Cursor.start table source) with
    ⟨outcome, arena, place⟩
  rw [hmatch] at h
  cases outcome with
  | matched root =>
    dsimp only at h
    cases hend : TokenStream.atEnd place with
    | true =>
      rw [if_pos hend] at h
      cases h
      exact ⟨place, hmatch, hend⟩
    | false =>
      rw [if_neg (by rw [hend]; exact Bool.false_ne_true)] at h
      cases h
  | noMatch why => cases h
  | failed why => cases h

/-- **No node is made in vain.**  If a text is parsed, the arena holds one node for each token that is
no parenthesis, the root is the last of them, and all are reached from the root.  Read from left to
right, with an operator before its only operand or between its two, the tree is the list of the texts
of these tokens, in the order of the text. -/
theorem parse_wastes_nothing {source : String} {tree : Tree} (h : parse source = .ok tree) :
    let kept := (Cursor.start table source).tokens.filter counts
    tree.arena.size = kept.length ∧ tree.root.index + 1 = tree.arena.size ∧
      (∀ id, tree.arena.InRange id → tree.arena.Reaches tree.root id) ∧
      tree.inOrder = kept.map Token.text := by
  intro kept
  obtain ⟨-, -, hapart⟩ := exists_arith_of_parse h
  have hroot : tree.arena.InRange tree.root := hapart.inRange _ List.mem_cons_self
  obtain ⟨hspells, hsize⟩ : tree.arena.Spells tree.root (kept.map Token.text) ∧
      tree.arena.size = kept.length := by
    obtain ⟨place, hmatch, hend⟩ := exists_match_of_parse h
    obtain ⟨word, hspans, hspells, hsize⟩ := (thrifty _).2.2 _ _ _ _ hmatch
    -- At the end of the text there is no operator that could be left over.
    have hstalled : ¬ Stalled expr place := by
      rintro ⟨token, hpeek, -⟩
      exact absurd (hpeek.symm.trans (TokenStream.atEnd_iff.mp hend)) (Option.some_ne_none _)
    obtain ⟨rest, htokens, hrest⟩ := hspans.exists_rest (Cursor.ahead_tokens _)
    rw [hrest.atEnd] at hend
    cases rest with
    | cons token rest => cases hend
    | nil =>
      have hword : counted word = kept.map Token.text := by
        rw [List.append_nil] at htokens
        rw [counted, ← htokens]
      rw [hword] at hspells hsize
      refine ⟨hspells, ?_⟩
      rw [hsize.resolve_right hstalled, List.length_map]
      exact Nat.zero_add _
  have hlength : (tree.arena.below tree.root).length = tree.arena.size := by
    rw [hspells.length_below hapart.tidy, List.length_map, hsize]
  have hreaches : ∀ id, tree.arena.InRange id → tree.arena.Reaches tree.root id := fun id hid =>
    hapart.reaches_of_length_below hlength hid
  refine ⟨hsize, ?_, hreaches, ?_⟩
  · have hpos : 0 < tree.arena.size := Nat.lt_of_le_of_lt (Nat.zero_le _) hroot
    have hlast : tree.arena.InRange ⟨tree.arena.size - 1⟩ := Nat.sub_lt hpos Nat.one_pos
    have hle := hapart.tidy.le_of_reaches (hreaches _ hlast)
    have hlt : tree.root.index < tree.arena.size := hroot
    dsimp only at hle
    omega
  · exact hspells.inOrder_eq hapart.tidy (Nat.lt_succ_of_lt hroot)

/-- Of six tokens two are parentheses, and the first sign stands in front of the whole. -/
theorem parse_wastes_nothing_negated :
    ∃ tree, parse "-(2 + 3)" = .ok tree ∧ tree.arena.size = 4 ∧
      tree.inOrder = ["-", "2", "+", "3"] := by
  let two : Numeral := ⟨['2'], rfl⟩
  let three : Numeral := ⟨['3'], rfl⟩
  have hsum : Prints 1 (.binary .add (.literal two) (.literal three))
      ([.number two] ++ .sign Operator.add.sign :: [.number three]) :=
    .binary (Nat.le_refl 1) (.literal 1 two) (.literal 2 three)
  have hprints : Prints 1 (.unary .minus (.binary .add (.literal two) (.literal three)))
      (.sign (signOf .minus) :: .sign .opening :: (_ ++ [.sign .closing])) :=
    .unary 1 .minus (.parens 3 hsum)
  have hspaced : Spaced [.sign .minus, .sign .opening, .number two, .sign .plus, .number three,
      .sign .closing] "-(2 + 3)".toList :=
    .cons 0 _ (.cons 0 _ (.cons 0 _ (.cons 1 _ (.cons 1 _ (.cons 0 _ (.nil 0))))))
  have htokens := spelling_of_spaced hprints.operand.isChain hspaced
  obtain ⟨tree, hparse, -, -⟩ := exists_tree_of_reads (reads_expr (hprints.readsAt _ htokens))
  obtain ⟨hsize, -, -, hinOrder⟩ := parse_wastes_nothing hparse
  have hspellings : ∀ tokens : List (Token Kind), counted tokens =
      ((tokens.map spelling).filter fun spelled =>
        spelled.1 ≠ .lParens && spelled.1 ≠ .rParens).map Prod.snd := by
    intro tokens
    rw [List.filter_map, List.map_map]
    rfl
  have hkept : counted (Cursor.start table "-(2 + 3)").tokens = ["-", "2", "+", "3"] := by
    rw [hspellings, htokens]
    decide
  refine ⟨tree, hparse, ?_, hinOrder.trans hkept⟩
  rw [hsize, ← List.length_map Token.text]
  exact congrArg List.length hkept

end Calc

end GrammarKit
