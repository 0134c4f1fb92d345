import GrammarKit.Grammar.RuleId

/-!
# From matched pieces to a node

While a rule matches, the terms and the nodes of its nonterminals are recorded in a production.
When it has matched, the production is reduced to one node.  Which pieces count is the shape of the
rule; how a node is made is the business of a builder, which is asked for one `Reduction` at a time
and may keep a world of its own, such as the arena its nodes live in.

* `Production.addTerm`, `addNonterm` record a piece if the shape has a use for it.
* `Production.checkpoint`, `rollback` forget what was recorded in between.
* `Production.reduce` asks the builder for the node.
-/

namespace GrammarKit

/-- Which pieces of a match make up its node. -/
inductive Shape where
  /-- No piece. -/
  | empty
  /-- The last term. -/
  | term
  /-- The last nonterminal. -/
  | nonterm
  /-- The last term and the last nonterminal. -/
  | termNonterm
  /-- The first two nonterminals. -/
  | nontermNonterm
  /-- The first two nonterminals and the last term. -/
  | nontermTermNonterm
  /-- Operands with operators between them, grouped to the left. -/
  | chain
  /-- All nonterminals. -/
  | nontermList
  /-- All terms and all nonterminals. -/
  | termNontermList
  /-- The last nonterminal, as it is. -/
  | bypass
  deriving DecidableEq, Repr

namespace Shape

/-- The name under which a shape is shown. -/
def name : Shape → String
  | .empty => "Empty"
  | .term => "Term"
  | .nonterm => "NonTerm"
  | .termNonterm => "TermNonTerm"
  | .nontermNonterm => "NonTermNonTerm"
  | .nontermTermNonterm => "NonTermTermNonTerm"
  | .chain => "InfixChain"
  | .nontermList => "NonTermList"
  | .termNontermList => "TermNonTermList"
  | .bypass => "Bypass"

/-- Whether terms count. -/
def keepsTerms : Shape → Bool
  | .term | .termNonterm | .nontermTermNonterm | .chain | .termNontermList => true
  | _ => false

/-- Whether nonterminals count. -/
def keepsNonterms : Shape → Bool
  | .empty | .term => false
  | _ => true

end Shape

/-- A node that a builder is asked for, and what it is to be made of. -/
inductive Reduction (T N : Type) where
  /-- A stand-in for a node whose pieces are missing. -/
  | null
  /-- A rule that matched nothing. -/
  | empty (rule : RuleId)
  /-- A term alone. -/
  | term (rule : RuleId) (term : T)
  /-- A nonterminal alone. -/
  | nonterm (rule : RuleId) (node : N)
  /-- A term before a nonterminal. -/
  | termNonterm (rule : RuleId) (term : T) (node : N)
  /-- Two nonterminals. -/
  | nontermNonterm (rule : RuleId) (left right : N)
  /-- Two nonterminals around a term. -/
  | nontermTermNonterm (rule : RuleId) (left : N) (term : T) (right : N)
  /-- Any number of nonterminals. -/
  | nontermList (rule : RuleId) (nodes : List N)
  /-- Any number of terms and of nonterminals. -/
  | termNontermList (rule : RuleId) (terms : List T) (nodes : List N)
  deriving DecidableEq, Repr

/-- Makes nodes, and changes its world `W` in doing so. -/
abbrev Builder (T N W : Type) := Reduction T N → W → N × W

/-- The pieces matched so far in one attempt at a rule. -/
structure Production (T N : Type) where
  /-- The rule that is attempted. -/
  rule : RuleId
  /-- Which pieces count. -/
  shape : Shape
  /-- The terms, in the order in which they were matched. -/
  terms : Array T
  /-- The nodes of the nonterminals, in the order in which they were matched. -/
  nonterms : Array N

namespace Production

variable {T N W : Type}

/-- The production at the start of an attempt. -/
def start (rule : RuleId) (shape : Shape) : Production T N := ⟨rule, shape, #[], #[]⟩

/-- Records a term, if terms count. -/
def addTerm (p : Production T N) (term : T) : Production T N :=
  if p.shape.keepsTerms then { p with terms := p.terms.push term } else p

/-- Records the node of a nonterminal, if nonterminals count. -/
def addNonterm (p : Production T N) (node : N) : Production T N :=
  if p.shape.keepsNonterms then { p with nonterms := p.nonterms.push node } else p

/-- How many pieces were recorded at some moment. -/
structure Checkpoint where
  /-- The number of terms. -/
  terms : Nat
  /-- The number of nonterminals. -/
  nonterms : Nat
  deriving DecidableEq, Repr

/-- The number of pieces recorded now. -/
def checkpoint (p : Production T N) : Checkpoint := ⟨p.terms.size, p.nonterms.size⟩

/-- Forgets the pieces recorded since the checkpoint. -/
def rollback (p : Production T N) (mark : Checkpoint) : Production T N :=
  { p with terms := p.terms.shrink mark.terms, nonterms := p.nonterms.shrink mark.nonterms }

/-- Groups operands to the left: `((n₀ t₀ n₁) t₁ n₂) …`.  An operand without an operator before it,
and an operator without an operand behind it, are left out. -/
def foldChain (build : Builder T N W) (rule : RuleId) (first : N) (links : List (T × N)) (w : W) :
    N × W :=
  links.foldl (fun (left, w) (op, right) => build (.nontermTermNonterm rule left op right) w)
    (first, w)

/-- The node that the recorded pieces make, or the builder's stand-in if a needed piece is missing. -/
def reduce (build : Builder T N W) (p : Production T N) (w : W) : N × W :=
  match p.shape with
  | .empty => build (.empty p.rule) w
  | .term =>
    match p.terms.back? with
    | some t => build (.term p.rule t) w
    | none => build .null w
  | .nonterm =>
    match p.nonterms.back? with
    | some n => build (.nonterm p.rule n) w
    | none => build .null w
  | .termNonterm =>
    match p.terms.back?, p.nonterms.back? with
    | some t, some n => build (.termNonterm p.rule t n) w
    | _, _ => build .null w
  | .nontermNonterm =>
    match p.nonterms.toList with
    | left :: right :: _ => build (.nontermNonterm p.rule left right) w
    | _ => build .null w
  | .nontermTermNonterm =>
    match p.nonterms.toList, p.terms.back? with
    | left :: right :: _, some t => build (.nontermTermNonterm p.rule left t right) w
    | _, _ => build .null w
  | .chain =>
    match p.nonterms.toList with
    | first :: operands => foldChain build p.rule first (p.terms.toList.zip operands) w
    | [] => build .null w
  | .nontermList => build (.nontermList p.rule p.nonterms.toList) w
  | .termNontermList => build (.termNontermList p.rule p.terms.toList p.nonterms.toList) w
  | .bypass =>
    match p.nonterms.back? with
    | some n => (n, w)
    | none => build .null w

@[simp] theorem rollback_checkpoint (p : Production T N) : p.rollback p.checkpoint = p := by
  simp [rollback, checkpoint]

end Production

end GrammarKit
