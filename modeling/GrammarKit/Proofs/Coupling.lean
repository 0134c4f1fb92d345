import GrammarKit.Proofs.Ahead
import GrammarKit.Proofs.Backtracking
import Mathlib.Data.List.Forall2

/-!
# Two runs side by side

The course of a match is settled by the tokens alone.  It does not depend on how a stream gets hold
of them, nor on the nodes that a builder makes, which are recorded and handed on but never looked at.
So two matches of the same expression over the same tokens go on in step, whatever their streams and
their builders are.

What the nodes of the two runs have to do with each other is said by a coupling of the builders.
Worlds are part of this.  A world is not put back where the pieces are, so what two nodes mean to each
other has to survive all that is made later.

* `Coupling`: what it takes for two builders to go on in step.
* `Attempt.Coupled`: the two runs stand at the same place with the same pieces.
* `Expr.attempt_coupled`, `Grammar.matchRule_coupled`: they stay so.
-/

namespace GrammarKit

variable {T N W S X V S' : Type}

/-! ## 1.  Reductions and productions -/

/-- The same is asked for, of nodes and of what they mean. -/
inductive Reduction.Alike (means : N → X → Prop) : Reduction T N → Reduction T X → Prop where
  | null : Alike means .null .null
  | empty (rule : RuleId) : Alike means (.empty rule) (.empty rule)
  | term (rule : RuleId) (token : T) : Alike means (.term rule token) (.term rule token)
  | nonterm (rule : RuleId) {node : N} {value : X} (h : means node value) :
      Alike means (.nonterm rule node) (.nonterm rule value)
  | termNonterm (rule : RuleId) (token : T) {node : N} {value : X} (h : means node value) :
      Alike means (.termNonterm rule token node) (.termNonterm rule token value)
  | nontermNonterm (rule : RuleId) {left right : N} {left' right' : X} (hleft : means left left')
      (hright : means right right') :
      Alike means (.nontermNonterm rule left right) (.nontermNonterm rule left' right')
  | nontermTermNonterm (rule : RuleId) (token : T) {left right : N} {left' right' : X}
      (hleft : means left left') (hright : means right right') :
      Alike means (.nontermTermNonterm rule left token right)
        (.nontermTermNonterm rule left' token right')
  | nontermList (rule : RuleId) {nodes : List N} {values : List X}
      (h : List.Forall₂ means nodes values) :
      Alike means (.nontermList rule nodes) (.nontermList rule values)
  | termNontermList (rule : RuleId) (tokens : List T) {nodes : List N} {values : List X}
      (h : List.Forall₂ means nodes values) :
      Alike means (.termNontermList rule tokens nodes) (.termNontermList rule tokens values)

theorem Reduction.Alike.mono {means means' : N → X → Prop} {reduction : Reduction T N}
    {reduction' : Reduction T X} (h : reduction.Alike means reduction')
    (hmeans : ∀ node value, means node value → means' node value) :
    reduction.Alike means' reduction' := by
  cases h with
  | null => exact .null
  | empty rule => exact .empty rule
  | term rule token => exact .term rule token
  | nonterm rule h => exact .nonterm rule (hmeans _ _ h)
  | termNonterm rule token h => exact .termNonterm rule token (hmeans _ _ h)
  | nontermNonterm rule hleft hright =>
    exact .nontermNonterm rule (hmeans _ _ hleft) (hmeans _ _ hright)
  | nontermTermNonterm rule token hleft hright =>
    exact .nontermTermNonterm rule token (hmeans _ _ hleft) (hmeans _ _ hright)
  | nontermList rule h => exact .nontermList rule (h.imp hmeans)
  | termNontermList rule tokens h => exact .termNontermList rule tokens (h.imp hmeans)

/-- What is asked for of the same nodes is the same. -/
theorem Reduction.Alike.eq {reduction reduction' : Reduction T N}
    (h : reduction.Alike Eq reduction') : reduction = reduction' := by
  cases h with
  | null => rfl
  | empty rule => rfl
  | term rule token => rfl
  | nonterm rule h => rw [h]
  | termNonterm rule token h => rw [h]
  | nontermNonterm rule hleft hright => rw [hleft, hright]
  | nontermTermNonterm rule token hleft hright => rw [hleft, hright]
  | nontermList rule h =>
    rw [List.forall₂_eq_eq_eq] at h
    rw [h]
  | termNontermList rule tokens h =>
    rw [List.forall₂_eq_eq_eq] at h
    rw [h]

/-- The same pieces, once with nodes and once with what they mean. -/
structure Production.Alike (means : N → X → Prop) (p : Production T N) (p' : Production T X) :
    Prop where
  rule : p.rule = p'.rule
  shape : p.shape = p'.shape
  terms : p.terms = p'.terms
  nonterms : List.Forall₂ means p.nonterms.toList p'.nonterms.toList

namespace Production.Alike

variable {means means' : N → X → Prop} {p : Production T N} {p' : Production T X}

theorem start (means : N → X → Prop) (rule : RuleId) (shape : Shape) :
    Production.Alike (T := T) means (.start rule shape) (.start rule shape) :=
  ⟨rfl, rfl, rfl, .nil⟩

theorem mono (h : p.Alike means p') (hmeans : ∀ node value, means node value → means' node value) :
    p.Alike means' p' :=
  ⟨h.rule, h.shape, h.terms, h.nonterms.imp hmeans⟩

theorem addTerm (h : p.Alike means p') (token : T) :
    (p.addTerm token).Alike means (p'.addTerm token) := by
  unfold Production.addTerm
  rw [h.shape]
  split
  · exact ⟨h.rule, rfl, by rw [h.terms], h.nonterms⟩
  · exact h

theorem addNonterm (h : p.Alike means p') {node : N} {value : X} (hnode : means node value) :
    (p.addNonterm node).Alike means (p'.addNonterm value) := by
  unfold Production.addNonterm
  rw [h.shape]
  split
  · refine ⟨h.rule, rfl, h.terms, ?_⟩
    simp only [Array.toList_push]
    exact List.rel_append h.nonterms (.cons hnode .nil)
  · exact h

theorem checkpoint (h : p.Alike means p') : p.checkpoint = p'.checkpoint := by
  have hlength := h.nonterms.length_eq
  rw [Array.length_toList, Array.length_toList] at hlength
  rw [Production.checkpoint, Production.checkpoint, h.terms, hlength]

theorem rollback (h : p.Alike means p') (mark : Checkpoint) :
    (p.rollback mark).Alike means (p'.rollback mark) := by
  refine ⟨h.rule, h.shape, by simp only [Production.rollback, h.terms], ?_⟩
  simp only [Production.rollback, Array.toList_shrink]
  exact List.forall₂_take mark.nonterms h.nonterms

end Production.Alike

/-- The last entries of two lists that agree entry by entry. -/
theorem forall₂_getLast? {R : N → X → Prop} {nodes : List N} {values : List X}
    (h : List.Forall₂ R nodes values) :
    (nodes.getLast? = none ∧ values.getLast? = none) ∨
      ∃ node value, nodes.getLast? = some node ∧ values.getLast? = some value ∧ R node value := by
  induction h with
  | nil => exact Or.inl ⟨rfl, rfl⟩
  | @cons node value nodes values hhead htail ih =>
    refine Or.inr ?_
    rcases ih with ⟨hnodes, hvalues⟩ | ⟨node', value', hnodes, hvalues, hlast⟩
    · rw [List.getLast?_eq_none_iff] at hnodes hvalues
      subst hnodes hvalues
      exact ⟨node, value, rfl, rfl, hhead⟩
    · refine ⟨node', value', ?_, ?_, hlast⟩
      · rw [List.getLast?_cons, hnodes]
        rfl
      · rw [List.getLast?_cons, hvalues]
        rfl

/-- Operators with their operands agree entry by entry if the operands do. -/
theorem forall₂_zip_terms {R : N → X → Prop} :
    ∀ (terms : List T) {nodes : List N} {values : List X}, List.Forall₂ R nodes values →
      List.Forall₂ (fun link link' => link.1 = link'.1 ∧ R link.2 link'.2) (terms.zip nodes)
        (terms.zip values)
  | [], _, _, _ => .nil
  | _ :: _, _, _, .nil => .nil
  | _ :: terms, _, _, .cons hhead htail => .cons ⟨rfl, hhead⟩ (forall₂_zip_terms terms htail)

/-! ## 2.  Builders -/

/-- **Two builders that go on in step.**  When both are asked for the same, of nodes that mean each
other, they make nodes that mean each other, and the nodes made before keep their meaning. -/
structure Coupling (build : Builder T N W) (build' : Builder T X V) where
  /-- The worlds in which the builders work as they should. -/
  good : W × V → Prop
  /-- Worlds come out of other ones by making nodes. -/
  grows : W × V → W × V → Prop
  /-- What a node of one builder is on the side of the other. -/
  means : W × V → N → X → Prop
  refl : ∀ w, grows w w
  trans : ∀ {w w' w''}, grows w w' → grows w' w'' → grows w w''
  mono : ∀ {w w' node value}, grows w w' → means w node value → means w' node value
  sound : ∀ {w reduction reduction'}, good w → Reduction.Alike (means w) reduction reduction' →
    good ((build reduction w.1).2, (build' reduction' w.2).2) ∧
      grows w ((build reduction w.1).2, (build' reduction' w.2).2) ∧
      means ((build reduction w.1).2, (build' reduction' w.2).2) (build reduction w.1).1
        (build' reduction' w.2).1

namespace Coupling

/-- A builder goes on in step with itself. -/
def same (build : Builder T N W) : Coupling build build where
  good w := w.1 = w.2
  grows _ _ := True
  means _ := Eq
  refl _ := True.intro
  trans _ _ := True.intro
  mono _ h := h
  sound hgood h := by
    rw [hgood, h.eq]
    exact ⟨rfl, True.intro, rfl⟩

/-- Any two builders go on in step, if nothing is to be known of their nodes. -/
def any (build : Builder T N W) (build' : Builder T X V) : Coupling build build' where
  good _ := True
  grows _ _ := True
  means _ _ _ := True
  refl _ := True.intro
  trans _ _ := True.intro
  mono _ _ := True.intro
  sound _ _ := ⟨True.intro, True.intro, True.intro⟩

variable {build : Builder T N W} {build' : Builder T X V} (c : Coupling build build')

/-- What a step of the two builders leaves behind: good worlds that have grown, and nodes that mean
each other. -/
structure Made (w : W × V) (made : N × W) (made' : X × V) : Prop where
  good : c.good (made.2, made'.2)
  grows : c.grows w (made.2, made'.2)
  means : c.means (made.2, made'.2) made.1 made'.1

variable {c}

theorem made {w : W × V} (hgood : c.good w) {reduction : Reduction T N}
    {reduction' : Reduction T X} (h : reduction.Alike (c.means w) reduction') :
    c.Made w (build reduction w.1) (build' reduction' w.2) :=
  ⟨(c.sound hgood h).1, (c.sound hgood h).2.1, (c.sound hgood h).2.2⟩

/-- A chain is folded from the left in the same way. -/
theorem made_foldChain {rule : RuleId} {links : List (T × N)} {links' : List (T × X)} {w : W × V}
    (hlinks : List.Forall₂ (fun link link' => link.1 = link'.1 ∧ c.means w link.2 link'.2) links
      links') :
    ∀ {u : W × V} {first : N} {first' : X}, c.grows w u → c.good u → c.means u first first' →
      c.Made u (Production.foldChain build rule first links u.1)
        (Production.foldChain build' rule first' links' u.2) := by
  induction hlinks with
  | nil => exact fun _ hgood hfirst => ⟨hgood, c.refl _, hfirst⟩
  | @cons link link' links links' hlink _ ih =>
    intro u first first' hgrows hgood hfirst
    obtain ⟨token, node⟩ := link
    obtain ⟨token', node'⟩ := link'
    obtain ⟨rfl, hnode⟩ := hlink
    have hstep := made hgood (.nontermTermNonterm rule token hfirst (c.mono hgrows hnode))
    have hrest := ih (c.trans hgrows hstep.grows) hstep.good hstep.means
    exact ⟨hrest.good, c.trans hstep.grows hrest.grows, hrest.means⟩

/-- **Two productions with the same pieces** are reduced to nodes that mean each other. -/
theorem made_reduce {w : W × V} (hgood : c.good w) {p : Production T N} {p' : Production T X}
    (h : p.Alike (c.means w) p') : c.Made w (p.reduce build w.1) (p'.reduce build' w.2) := by
  obtain ⟨rule, shape, terms, nonterms⟩ := p
  obtain ⟨rule', shape', terms', nonterms'⟩ := p'
  obtain ⟨rfl, rfl, rfl, hnonterms⟩ := h
  obtain ⟨nonterms⟩ := nonterms
  obtain ⟨nonterms'⟩ := nonterms'
  have hback : ∀ {α : Type} (xs : List α), xs.toArray.back? = xs.getLast? := by
    intro α xs
    simp
  cases shape with
  | empty => exact made hgood (.empty rule)
  | term =>
    simp only [Production.reduce]
    cases terms.back? with
    | none => exact made hgood .null
    | some token => exact made hgood (.term rule token)
  | nonterm =>
    simp only [Production.reduce, hback]
    rcases forall₂_getLast? hnonterms with ⟨hnode, hvalue⟩ | ⟨node, value, hnode, hvalue, hmeans⟩
    · rw [hnode, hvalue]
      exact made hgood .null
    · rw [hnode, hvalue]
      exact made hgood (.nonterm rule hmeans)
  | termNonterm =>
    simp only [Production.reduce, hback]
    rcases forall₂_getLast? hnonterms with ⟨hnode, hvalue⟩ | ⟨node, value, hnode, hvalue, hmeans⟩
    · rw [hnode, hvalue]
      cases terms.toList.getLast? <;> exact made hgood .null
    · rw [hnode, hvalue]
      cases terms.toList.getLast? with
      | none => exact made hgood .null
      | some token => exact made hgood (.termNonterm rule token hmeans)
  | nontermNonterm =>
    simp only [Production.reduce]
    rcases hnonterms with _ | ⟨hleft, _ | ⟨hright, _⟩⟩
    · exact made hgood .null
    · exact made hgood .null
    · exact made hgood (.nontermNonterm rule hleft hright)
  | nontermTermNonterm =>
    simp only [Production.reduce]
    rcases hnonterms with _ | ⟨hleft, _ | ⟨hright, _⟩⟩
    · exact made hgood .null
    · exact made hgood .null
    · cases terms.back? with
      | none => exact made hgood .null
      | some token => exact made hgood (.nontermTermNonterm rule token hleft hright)
  | chain =>
    simp only [Production.reduce]
    rcases hnonterms with _ | ⟨hfirst, hoperands⟩
    · exact made hgood .null
    · exact made_foldChain (forall₂_zip_terms terms.toList hoperands) (c.refl w) hgood hfirst
  | nontermList => exact made hgood (.nontermList rule hnonterms)
  | termNontermList => exact made hgood (.termNontermList rule terms.toList hnonterms)
  | bypass =>
    simp only [Production.reduce, hback]
    rcases forall₂_getLast? hnonterms with ⟨hnode, hvalue⟩ | ⟨node, value, hnode, hvalue, hmeans⟩
    · rw [hnode, hvalue]
      exact made hgood .null
    · rw [hnode, hvalue]
      exact ⟨hgood, c.refl w, hmeans⟩

end Coupling

/-! ## 3.  Expressions -/

variable [TokenStream S T] [TokenStream S' T] {build : Builder T N W} {build' : Builder T X V}

/-- From both places the same tokens are read. -/
structure SameAhead (origin : S) (origin' : S') (tokens : List T) : Prop where
  left : Ahead origin tokens
  right : Ahead origin' tokens

theorem SameAhead.iterate {origin : S} {origin' : S'} {tokens : List T}
    (h : SameAhead origin origin' tokens) {k : Nat} (hk : k ≤ tokens.length) :
    SameAhead (TokenStream.advance^[k] origin) (TokenStream.advance^[k] origin')
      (tokens.drop k) :=
  ⟨h.left.iterate_advance hk, h.right.iterate_advance hk⟩

theorem SameAhead.atEnd {origin : S} {origin' : S'} {tokens : List T}
    (h : SameAhead origin origin' tokens) :
    TokenStream.atEnd origin = TokenStream.atEnd origin' := by
  rw [h.left.atEnd, h.right.atEnd]

/-- It is seen in what remains whether tokens have been taken. -/
theorem Ahead.remaining_lt_iff [LawfulTokenStream S] {origin : S} {tokens : List T}
    (h : Ahead origin tokens) {k k' : Nat} (hle : k ≤ k') (hk' : k' ≤ tokens.length) :
    TokenStream.remaining (TokenStream.advance^[k'] origin) <
        TokenStream.remaining (TokenStream.advance^[k] origin) ↔ k < k' := by
  obtain ⟨j, rfl⟩ := Nat.exists_eq_add_of_le hle
  rw [Nat.add_comm k j, Function.iterate_add_apply]
  by_cases hj : j = 0
  · subst hj
    simp
  · have hless := (h.iterate_advance (k := k) (by omega)).remaining_lt (k := j) (by omega)
      (by rw [List.length_drop]; omega)
    exact ⟨fun _ => by omega, fun _ => hless⟩

/-- **The two runs stand at the same place**, `k` tokens behind where both of them started, and have
recorded the same pieces. -/
structure Attempt.Coupled (c : Coupling build build') (origin : S) (origin' : S')
    (tokens : List T) (k : Nat) (a : Attempt T N W S) (a' : Attempt T X V S') : Prop where
  le : k ≤ tokens.length
  stream : a.stream = TokenStream.advance^[k] origin
  stream' : a'.stream = TokenStream.advance^[k] origin'
  good : c.good (a.world, a'.world)
  pieces : a.pieces.Alike (c.means (a.world, a'.world)) a'.pieces

/-- **The two runs end in the same way**, at a place that is not before `k`. -/
structure Attempt.EndsCoupled (c : Coupling build build') (origin : S) (origin' : S')
    (tokens : List T) (k : Nat) (w : W × V) (r : Outcome Unit × Attempt T N W S)
    (r' : Outcome Unit × Attempt T X V S') : Prop where
  outcome : r.1 = r'.1
  place : ∃ k', k ≤ k' ∧ r.2.Coupled c origin origin' tokens k' r'.2
  grows : c.grows w (r.2.world, r'.2.world)

/-- The same outcome, with nodes that mean what the values say. -/
inductive Outcome.Alike (means : N → X → Prop) : Outcome N → Outcome X → Prop where
  | matched {node : N} {value : X} (h : means node value) :
      Alike means (.matched node) (.matched value)
  | noMatch (why : Mismatch) : Alike means (.noMatch why) (.noMatch why)
  | failed (why : Failure) : Alike means (.failed why) (.failed why)

/-- The same reply to a question that was asked at place `k`. -/
structure Reply.Coupled (c : Coupling build build') (origin : S) (origin' : S')
    (tokens : List T) (k : Nat) (w : W × V) (r : Reply N W S) (r' : Reply X V S') : Prop where
  outcome : r.outcome.Alike (c.means (r.world, r'.world)) r'.outcome
  place : ∃ k', k ≤ k' ∧ k' ≤ tokens.length ∧ r.stream = TokenStream.advance^[k'] origin ∧
    r'.stream = TokenStream.advance^[k'] origin'
  good : c.good (r.world, r'.world)
  grows : c.grows w (r.world, r'.world)

/-- The two dispatchers reply alike to whatever may be asked in a match. -/
def Dispatch.Coupled (c : Coupling build build') (origin : S) (origin' : S') (tokens : List T)
    (d : Dispatch N W S) (d' : Dispatch X V S') : Prop :=
  ∀ r k w, k ≤ tokens.length → c.good w →
    (d r w.1 (TokenStream.advance^[k] origin)).Coupled c origin origin' tokens k w
      (d' r w.2 (TokenStream.advance^[k] origin'))

section Expressions

variable {c : Coupling build build'} {origin : S} {origin' : S'} {tokens : List T} {k : Nat}
  {a : Attempt T N W S} {a' : Attempt T X V S'}

theorem Attempt.Coupled.ends (h : a.Coupled c origin origin' tokens k a')
    (outcome : Outcome Unit) :
    Attempt.EndsCoupled c origin origin' tokens k (a.world, a'.world) (outcome, a) (outcome, a') :=
  ⟨rfl, ⟨k, Nat.le_refl k, h⟩, c.refl _⟩

theorem Attempt.EndsCoupled.exists_eq {w : W × V} {r : Outcome Unit × Attempt T N W S}
    {r' : Outcome Unit × Attempt T X V S'}
    (h : Attempt.EndsCoupled c origin origin' tokens k w r r') :
    ∃ outcome b b' k', r = (outcome, b) ∧ r' = (outcome, b') ∧ k ≤ k' ∧
      b.Coupled c origin origin' tokens k' b' ∧ c.grows w (b.world, b'.world) := by
  obtain ⟨outcome, b⟩ := r
  obtain ⟨outcome', b'⟩ := r'
  obtain ⟨houtcome, ⟨k', hle, hb⟩, hgrows⟩ := h
  cases houtcome
  exact ⟨outcome, b, b', k', rfl, rfl, hle, hb, hgrows⟩

theorem Attempt.EndsCoupled.from_earlier {k' : Nat} {w w' : W × V}
    {r : Outcome Unit × Attempt T N W S} {r' : Outcome Unit × Attempt T X V S'}
    (h : Attempt.EndsCoupled c origin origin' tokens k' w' r r') (hle : k ≤ k')
    (hgrows : c.grows w w') : Attempt.EndsCoupled c origin origin' tokens k w r r' := by
  obtain ⟨houtcome, ⟨end', hend, hcoupled⟩, hmore⟩ := h
  exact ⟨houtcome, ⟨end', Nat.le_trans hle hend, hcoupled⟩, c.trans hgrows hmore⟩

theorem Attempt.Coupled.sameAhead (h : a.Coupled c origin origin' tokens k a')
    (hsame : SameAhead origin origin' tokens) :
    SameAhead a.stream a'.stream (tokens.drop k) := by
  rw [h.stream, h.stream']
  exact hsame.iterate h.le

theorem attemptTerm_coupled (hsame : SameAhead origin origin' tokens) (accepts : T → Bool)
    (h : a.Coupled c origin origin' tokens k a') :
    Attempt.EndsCoupled c origin origin' tokens k (a.world, a'.world)
      (Expr.attemptTerm accepts a) (Expr.attemptTerm accepts a') := by
  have hhere := h.sameAhead hsame
  obtain ⟨stream, pieces, world⟩ := a
  obtain ⟨stream', pieces', world'⟩ := a'
  dsimp only at hhere
  simp only [Expr.attemptTerm, hhere.left.peek, hhere.right.peek]
  cases hhead : (tokens.drop k).head? with
  | none => exact h.ends _
  | some token =>
    by_cases haccepts : accepts token = true
    · simp only [if_pos haccepts]
      have hlt : k < tokens.length := by
        refine Nat.lt_of_not_le fun hle => ?_
        rw [List.drop_eq_nil_of_le hle] at hhead
        cases hhead
      refine ⟨rfl, ⟨k + 1, Nat.le_succ k, hlt, ?_, ?_, h.good, h.pieces.addTerm token⟩, c.refl _⟩
      · rw [Function.iterate_succ_apply']
        exact congrArg TokenStream.advance h.stream
      · rw [Function.iterate_succ_apply']
        exact congrArg TokenStream.advance h.stream'
    · simp only [if_neg haccepts]
      exact h.ends _

theorem attemptNonterm_coupled (hsame : SameAhead origin origin' tokens) {d : Dispatch N W S}
    {d' : Dispatch X V S'} (hd : Dispatch.Coupled c origin origin' tokens d d') (r : RuleId)
    (h : a.Coupled c origin origin' tokens k a') :
    Attempt.EndsCoupled c origin origin' tokens k (a.world, a'.world) (Expr.attemptNonterm d r a)
      (Expr.attemptNonterm d' r a') := by
  have hend := (h.sameAhead hsame).atEnd
  have hreply := hd r k (a.world, a'.world) h.le h.good
  obtain ⟨stream, pieces, world⟩ := a
  obtain ⟨stream', pieces', world'⟩ := a'
  obtain ⟨hle, hstream, hstream', hgood, hpieces⟩ := h
  dsimp only at hend hreply hstream hstream' hgood hpieces
  rw [← hstream, ← hstream'] at hreply
  simp only [Expr.attemptNonterm, hend]
  split
  · exact ⟨rfl, ⟨k, Nat.le_refl k, hle, hstream, hstream', hgood, hpieces⟩, c.refl _⟩
  · rcases hfirst : d r world stream with ⟨outcome, next, place⟩
    rcases hsecond : d' r world' stream' with ⟨outcome', next', place'⟩
    rw [hfirst, hsecond] at hreply
    obtain ⟨houtcome, ⟨k', hle', hk', hplace, hplace'⟩, hgood', hgrows⟩ := hreply
    dsimp only at houtcome hplace hplace' hgood' hgrows
    have hkept := hpieces.mono fun _ _ => c.mono hgrows
    cases houtcome with
    | matched hmeans =>
      exact ⟨rfl, ⟨k', hle', hk', hplace, hplace', hgood', hkept.addNonterm hmeans⟩, hgrows⟩
    | noMatch why => exact ⟨rfl, ⟨k', hle', hk', hplace, hplace', hgood', hkept⟩, hgrows⟩
    | failed why => exact ⟨rfl, ⟨k', hle', hk', hplace, hplace', hgood', hkept⟩, hgrows⟩

/-- Both runs are put back alike. -/
theorem orRestore_coupled (h : a.Coupled c origin origin' tokens k a') (why : Mismatch)
    {r : Outcome Unit × Attempt T N W S} {r' : Outcome Unit × Attempt T X V S'}
    (hends : Attempt.EndsCoupled c origin origin' tokens k (a.world, a'.world) r r') :
    Attempt.EndsCoupled c origin origin' tokens k (a.world, a'.world)
      (Attempt.orRestore a.stream a.pieces.checkpoint why r)
      (Attempt.orRestore a'.stream a'.pieces.checkpoint why r') := by
  obtain ⟨outcome, b, b', k', rfl, rfl, -, hb, hgrows⟩ := hends.exists_eq
  cases outcome with
  | matched value => exact hends
  | noMatch reason =>
    refine ⟨rfl, ⟨k, Nat.le_refl k, h.le, h.stream, h.stream', hb.good, ?_⟩, hgrows⟩
    rw [h.pieces.checkpoint]
    exact hb.pieces.rollback _
  | failed cause => exact hends

variable {step : Attempt T N W S → Outcome Unit × Attempt T N W S}
  {step' : Attempt T X V S' → Outcome Unit × Attempt T X V S'}

/-- The two steps go alike from wherever they start alike. -/
def StepsCoupled (c : Coupling build build') (origin : S) (origin' : S') (tokens : List T)
    (step : Attempt T N W S → Outcome Unit × Attempt T N W S)
    (step' : Attempt T X V S' → Outcome Unit × Attempt T X V S') : Prop :=
  ∀ k a a', Attempt.Coupled c origin origin' tokens k a a' →
    Attempt.EndsCoupled c origin origin' tokens k (a.world, a'.world) (step a) (step' a')

theorem rounds_coupled (hstep : StepsCoupled c origin origin' tokens step step') (n : Nat) :
    StepsCoupled c origin origin' tokens (Attempt.rounds step n) (Attempt.rounds step' n) := by
  induction n with
  | zero => exact fun k a a' h => h.ends _
  | succ n ih =>
    intro k a a' h
    obtain ⟨outcome, b, b', k', hb, hb', hle, hcoupled, hgrows⟩ := (hstep k a a' h).exists_eq
    rw [Attempt.rounds, Attempt.rounds, hb, hb']
    cases outcome with
    | matched value => exact (ih k' b b' hcoupled).from_earlier hle hgrows
    | noMatch why => exact ⟨rfl, ⟨k', hle, hcoupled⟩, hgrows⟩
    | failed why => exact ⟨rfl, ⟨k', hle, hcoupled⟩, hgrows⟩

theorem roundsWhileAny_coupled [LawfulTokenStream S] [LawfulTokenStream S']
    (hsame : SameAhead origin origin' tokens)
    (hstep : StepsCoupled c origin origin' tokens step step') :
    StepsCoupled c origin origin' tokens (Attempt.roundsWhileAny step)
      (Attempt.roundsWhileAny step') := by
  intro k a a' h
  induction hn : tokens.length - k using Nat.strongRecOn generalizing k a a' with
  | _ n ih =>
    obtain ⟨outcome, b, b', k', hb, hb', hle, hcoupled, hgrows⟩ := (hstep k a a' h).exists_eq
    rw [Attempt.roundsWhileAny, Attempt.roundsWhileAny, (h.sameAhead hsame).atEnd, hb, hb']
    split
    · exact h.ends _
    · cases outcome with
      | matched value =>
        have hless := hsame.left.remaining_lt_iff hle hcoupled.le
        have hless' := hsame.right.remaining_lt_iff hle hcoupled.le
        rw [← hcoupled.stream, ← h.stream] at hless
        rw [← hcoupled.stream', ← h.stream'] at hless'
        dsimp only
        by_cases hmoved : k < k'
        · rw [if_pos (hless.mpr hmoved), if_pos (hless'.mpr hmoved)]
          have hbound := hcoupled.le
          exact (ih _ (by omega) k' b b' hcoupled rfl).from_earlier hle hgrows
        · rw [if_neg fun hlt => hmoved (hless.mp hlt), if_neg fun hlt => hmoved (hless'.mp hlt)]
          exact ⟨rfl, ⟨k', hle, hcoupled⟩, hgrows⟩
      | noMatch why => exact ⟨rfl, ⟨k', hle, hcoupled⟩, hgrows⟩
      | failed why => exact ⟨rfl, ⟨k', hle, hcoupled⟩, hgrows⟩

namespace Expr

variable {d : Dispatch N W S} {d' : Dispatch X V S'}

mutual

/-- **An expression is matched alike**, if the dispatchers reply alike. -/
theorem attempt_coupled [LawfulTokenStream S] [LawfulTokenStream S']
    (hsame : SameAhead origin origin' tokens)
    (hd : Dispatch.Coupled c origin origin' tokens d d') :
    ∀ e : Expr T, StepsCoupled c origin origin' tokens (fun a => e.attempt d a)
      (fun a => e.attempt d' a)
  | .empty, k, a, a', h => by
    simp only [attempt]
    exact h.ends _
  | .term accepts, k, a, a', h => by
    simp only [attempt]
    exact attemptTerm_coupled hsame accepts h
  | .nonterm r, k, a, a', h => by
    simp only [attempt]
    exact attemptNonterm_coupled hsame hd r h
  | .seq items, k, a, a', h => by
    simp only [attempt]
    exact orRestore_coupled h .sequence (attemptAll_coupled hsame hd items k a a' h)
  | .choice items, k, a, a', h => by
    simp only [attempt]
    exact attemptFirst_coupled hsame hd items k a a' h
  | .rep least body, k, a, a', h => by
    have hbody := attempt_coupled hsame hd body
    obtain ⟨outcome, b, b', k', hb, hb', hle, hcoupled, hgrows⟩ :=
      (orRestore_coupled h .tooFew (rounds_coupled hbody least k a a' h)).exists_eq
    simp only [attempt, hb, hb']
    cases outcome with
    | matched value =>
      exact (roundsWhileAny_coupled hsame hbody k' b b' hcoupled).from_earlier hle hgrows
    | noMatch why => exact ⟨rfl, ⟨k', hle, hcoupled⟩, hgrows⟩
    | failed why => exact ⟨rfl, ⟨k', hle, hcoupled⟩, hgrows⟩
  | .opt body, k, a, a', h => by
    obtain ⟨outcome, b, b', k', hb, hb', hle, hcoupled, hgrows⟩ :=
      (attempt_coupled hsame hd body k a a' h).exists_eq
    dsimp only at hb hb'
    simp only [attempt, hb, hb']
    cases outcome with
    | matched value => exact ⟨rfl, ⟨k', hle, hcoupled⟩, hgrows⟩
    | noMatch why => exact ⟨rfl, ⟨k', hle, hcoupled⟩, hgrows⟩
    | failed why => exact ⟨rfl, ⟨k', hle, hcoupled⟩, hgrows⟩

/-- The same for the items of a sequence. -/
theorem attemptAll_coupled [LawfulTokenStream S] [LawfulTokenStream S']
    (hsame : SameAhead origin origin' tokens)
    (hd : Dispatch.Coupled c origin origin' tokens d d') :
    ∀ items : List (Expr T), StepsCoupled c origin origin' tokens
      (fun a => attemptAll d items a) (fun a => attemptAll d' items a)
  | [], k, a, a', h => by
    simp only [attemptAll]
    exact h.ends _
  | item :: items, k, a, a', h => by
    obtain ⟨outcome, b, b', k', hb, hb', hle, hcoupled, hgrows⟩ :=
      (attempt_coupled hsame hd item k a a' h).exists_eq
    dsimp only at hb hb'
    simp only [attemptAll, hb, hb']
    cases outcome with
    | matched value =>
      exact (attemptAll_coupled hsame hd items k' b b' hcoupled).from_earlier hle hgrows
    | noMatch why => exact ⟨rfl, ⟨k', hle, hcoupled⟩, hgrows⟩
    | failed why => exact ⟨rfl, ⟨k', hle, hcoupled⟩, hgrows⟩

/-- The same for the items of a choice. -/
theorem attemptFirst_coupled [LawfulTokenStream S] [LawfulTokenStream S']
    (hsame : SameAhead origin origin' tokens)
    (hd : Dispatch.Coupled c origin origin' tokens d d') :
    ∀ items : List (Expr T), StepsCoupled c origin origin' tokens
      (fun a => attemptFirst d items a) (fun a => attemptFirst d' items a)
  | [], k, a, a', h => by
    simp only [attemptFirst]
    exact h.ends _
  | item :: items, k, a, a', h => by
    obtain ⟨outcome, b, b', k', hb, hb', hle, hcoupled, hgrows⟩ :=
      (attempt_coupled hsame hd item k a a' h).exists_eq
    dsimp only at hb hb'
    simp only [attemptFirst, hb, hb']
    cases outcome with
    | matched value => exact ⟨rfl, ⟨k', hle, hcoupled⟩, hgrows⟩
    | noMatch why =>
      exact (attemptFirst_coupled hsame hd items k' b b' hcoupled).from_earlier hle hgrows
    | failed why => exact ⟨rfl, ⟨k', hle, hcoupled⟩, hgrows⟩

end

end Expr

end Expressions

/-! ## 4.  Rules -/

variable {c : Coupling build build'} {origin : S} {origin' : S'} {tokens : List T}

/-- The alternatives of a rule are tried alike. -/
theorem attemptAlternatives_coupled [LawfulTokenStream S] [LawfulTokenStream S']
    (hsame : SameAhead origin origin' tokens) {d : Dispatch N W S} {d' : Dispatch X V S'}
    (hd : Dispatch.Coupled c origin origin' tokens d d') (r : RuleId) :
    ∀ (alternatives : List (Alternative T)) (w : W × V), c.good w →
      (attemptAlternatives build d r alternatives w.1 origin).Coupled c origin origin' tokens 0 w
        (attemptAlternatives build' d' r alternatives w.2 origin')
  | [], w, hgood =>
    ⟨.noMatch .rule, ⟨0, Nat.le_refl 0, Nat.zero_le _, rfl, rfl⟩, hgood, c.refl w⟩
  | alternative :: alternatives, w, hgood => by
    have hstart : Attempt.Coupled c origin origin' tokens 0
        ⟨origin, Production.start r alternative.shape, w.1⟩
        ⟨origin', Production.start r alternative.shape, w.2⟩ :=
      ⟨Nat.zero_le _, rfl, rfl, hgood, Production.Alike.start _ r alternative.shape⟩
    obtain ⟨outcome, b, b', k, hb, hb', hle, hcoupled, hgrows⟩ :=
      (alternative.expr.attempt_coupled hsame hd 0 _ _ hstart).exists_eq
    dsimp only at hb hb'
    rw [attemptAlternatives, attemptAlternatives, hb, hb']
    cases outcome with
    | matched value =>
      have hmade := Coupling.made_reduce hcoupled.good hcoupled.pieces
      exact ⟨.matched hmade.means, ⟨k, hle, hcoupled.le, hcoupled.stream, hcoupled.stream'⟩,
        hmade.good, c.trans hgrows hmade.grows⟩
    | noMatch why =>
      obtain ⟨houtcome, hplace, hgood', hmore⟩ :=
        attemptAlternatives_coupled hsame hd r alternatives (b.world, b'.world) hcoupled.good
      exact ⟨houtcome, hplace, hgood', c.trans hgrows hmore⟩
    | failed why =>
      exact ⟨.failed why, ⟨k, hle, hcoupled.le, hcoupled.stream, hcoupled.stream'⟩, hcoupled.good,
        hgrows⟩

/-- A reply to a question at place `k`, seen from where the match of the whole started. -/
theorem Reply.Coupled.from_origin {k : Nat} {w : W × V} {r : Reply N W S} {r' : Reply X V S'}
    (hk : k ≤ tokens.length)
    (h : r.Coupled c (TokenStream.advance^[k] origin) (TokenStream.advance^[k] origin')
      (tokens.drop k) 0 w r') :
    r.Coupled c origin origin' tokens k w r' := by
  obtain ⟨houtcome, ⟨j, -, hj, hstream, hstream'⟩, hgood, hgrows⟩ := h
  rw [List.length_drop] at hj
  refine ⟨houtcome, ⟨j + k, Nat.le_add_left k j, by omega, ?_, ?_⟩, hgood, hgrows⟩
  · rw [hstream, Function.iterate_add_apply]
  · rw [hstream', Function.iterate_add_apply]

/-- Two failures where the match stands. -/
theorem Reply.Coupled.of_failed {w : W × V} (why : Failure) (hgood : c.good w) :
    Reply.Coupled c origin origin' tokens 0 w ⟨.failed why, w.1, origin⟩
      ⟨.failed why, w.2, origin'⟩ :=
  ⟨.failed why, ⟨0, Nat.le_refl 0, Nat.zero_le _, rfl, rfl⟩, hgood, c.refl w⟩

namespace Grammar

variable [LawfulTokenStream S] [LawfulTokenStream S']

/-- A rule is matched once alike, if the dispatchers for the rules inside of it reply alike. -/
theorem matchOnce_coupled (g : Grammar T) (hsame : SameAhead origin origin' tokens)
    {d : Dispatch N W S} {d' : Dispatch X V S'}
    (hd : Dispatch.Coupled c origin origin' tokens d d') (r : RuleId) {w : W × V}
    (hgood : c.good w) :
    (g.matchOnce build d r w.1 origin).Coupled c origin origin' tokens 0 w
      (g.matchOnce build' d' r w.2 origin') := by
  rw [matchOnce, matchOnce, hsame.atEnd]
  split
  · exact .of_failed _ hgood
  · cases g.rule? r with
    | none => exact .of_failed _ hgood
    | some rule => exact attemptAlternatives_coupled hsame hd rule.id rule.alternatives w hgood

theorem matchFresh_coupled (g : Grammar T) (hsame : SameAhead origin origin' tokens)
    (fresh : List RuleId) (r : RuleId) {w : W × V} (hgood : c.good w) :
    (g.matchFresh build (TokenStream.remaining origin) fresh r w.1 origin).Coupled c origin origin'
      tokens 0 w (g.matchFresh build' (TokenStream.remaining origin') fresh r w.2 origin') := by
  induction hlength : tokens.length using Nat.strongRecOn
    generalizing origin origin' tokens fresh r w with
  | _ length ihlength =>
    subst hlength
    induction hfresh : fresh.length using Nat.strongRecOn generalizing fresh r w with
    | _ count ihfresh =>
      by_cases hmem : r ∈ fresh
      · rw [matchFresh_of_mem hmem, matchFresh_of_mem hmem]
        refine g.matchOnce_coupled hsame (fun r' k w hk hgood => ?_) r hgood
        have hless := hsame.left.remaining_lt_iff (Nat.zero_le k) hk
        have hless' := hsame.right.remaining_lt_iff (Nat.zero_le k) hk
        rw [Function.iterate_zero_apply] at hless hless'
        simp only [dispatchWithin]
        by_cases hmoved : 0 < k
        · rw [if_pos (hless.mpr hmoved), if_pos (hless'.mpr hmoved)]
          have hshort : (tokens.drop k).length < tokens.length := by
            rw [List.length_drop]
            omega
          exact (ihlength _ hshort (hsame.iterate hk) g.ids r' hgood rfl).from_origin hk
        · rw [if_neg fun hlt => hmoved (hless.mp hlt), if_neg fun hlt => hmoved (hless'.mp hlt)]
          obtain rfl : k = 0 := by omega
          have herase : (fresh.erase r).length < fresh.length := by
            have := List.length_pos_of_mem hmem
            rw [List.length_erase_of_mem hmem]
            omega
          exact ihfresh _ (hfresh ▸ herase) (fresh.erase r) r' hgood rfl
      · rw [matchFresh_of_not_mem hmem, matchFresh_of_not_mem hmem, hsame.atEnd]
        exact .of_failed _ hgood

/-- **A rule is matched alike** over any two streams of the same tokens and with any two builders
that go on in step. -/
theorem matchRule_coupled (g : Grammar T) (c : Coupling build build')
    (hsame : SameAhead origin origin' tokens) (r : RuleId) {w : W × V} (hgood : c.good w) :
    (g.matchRule build r w.1 origin).Coupled c origin origin' tokens 0 w
      (g.matchRule build' r w.2 origin') :=
  g.matchFresh_coupled hsame g.ids r hgood

end Grammar

end GrammarKit
