import GrammarKit.Proofs.Obliviousness

/-!
# Only the pieces that count are recorded

A production leaves out the pieces that its shape has no use for.  That this is not seen in the node
depends on two things.  One table says which pieces a shape keeps, another one which pieces its node
is made of, and every piece in the second has to be in the first.  And a checkpoint is a pair of
lengths, of lists that are shorter where pieces were left out, so going back to it has to forget the
same of the pieces that count.

The production is compared with one of the same shape that records every piece.  The two do not hold
the same pieces, and the checkpoints taken of them are different numbers.  But at any moment the first
one is what the shape keeps of the second one, and so are its checkpoints.  Whatever is done to both
leaves this as it is.

* `Production.Event`: what is done to a production before it is reduced.
* `Production.Recorder`: how pieces are recorded; `selective` and `unselective`.
* `Production.kept`, `Checkpoint.kept`: what a shape keeps.
* `Recorder.run_selective`: the two productions, after the same events.
* `reduce_kept`: a node is made of what its shape keeps.
* `selection_unobservable`: the two are reduced to the same node by the same calls.
-/

namespace GrammarKit

variable {T N W : Type}

namespace Production

/-! ## 1.  The course of an attempt -/

/-- What may happen to a production before it is reduced. -/
inductive Event (T N : Type) where
  /-- A term is matched. -/
  | term (term : T)
  /-- A nonterminal is matched, and this is its node. -/
  | nonterm (node : N)
  /-- A checkpoint is taken. -/
  | checkpoint
  /-- All since a checkpoint is forgotten.  The checkpoints are numbered from `0` as they are taken,
  and keep their numbers. -/
  | rollback (number : Nat)

/-- A production and the checkpoints that were taken of it. -/
structure Course (T N : Type) where
  /-- The pieces recorded now. -/
  pieces : Production T N
  /-- The checkpoints, in the order in which they were taken. -/
  marks : List Checkpoint

/-- How the pieces of a production are recorded. -/
structure Recorder (T N : Type) where
  /-- Records a term. -/
  addTerm : Production T N → T → Production T N
  /-- Records the node of a nonterminal. -/
  addNonterm : Production T N → N → Production T N

namespace Recorder

/-- Records the pieces that count. -/
def selective : Recorder T N := ⟨Production.addTerm, Production.addNonterm⟩

/-- Records every piece. -/
def unselective : Recorder T N where
  addTerm p term := { p with terms := p.terms.push term }
  addNonterm p node := { p with nonterms := p.nonterms.push node }

/-- What an event does.  There is nothing to go back to if no checkpoint of that number was taken. -/
def step (r : Recorder T N) (c : Course T N) : Event T N → Course T N
  | .term term => { c with pieces := r.addTerm c.pieces term }
  | .nonterm node => { c with pieces := r.addNonterm c.pieces node }
  | .checkpoint => { c with marks := c.marks ++ [c.pieces.checkpoint] }
  | .rollback number =>
    match c.marks[number]? with
    | some mark => { c with pieces := c.pieces.rollback mark }
    | none => c

/-- What all the events do to a new production, one after the other. -/
def run (r : Recorder T N) (rule : RuleId) (shape : Shape) (events : List (Event T N)) :
    Course T N :=
  events.foldl r.step ⟨start rule shape, []⟩

end Recorder

/-! ## 2.  What a shape keeps -/

/-- The production with the pieces alone that its shape keeps. -/
def kept (p : Production T N) : Production T N :=
  { p with
    terms := if p.shape.keepsTerms then p.terms else #[]
    nonterms := if p.shape.keepsNonterms then p.nonterms else #[] }

/-- The checkpoint that is taken if only those pieces are recorded that a shape keeps. -/
def Checkpoint.kept (shape : Shape) (mark : Checkpoint) : Checkpoint where
  terms := if shape.keepsTerms then mark.terms else 0
  nonterms := if shape.keepsNonterms then mark.nonterms else 0

/-- The course that is taken if only those pieces are recorded that the shape keeps. -/
def Course.kept (c : Course T N) : Course T N :=
  ⟨c.pieces.kept, c.marks.map (Checkpoint.kept c.pieces.shape)⟩

@[simp] theorem kept_start (rule : RuleId) (shape : Shape) :
    (start rule shape : Production T N).kept = start rule shape := by
  by_cases hterms : shape.keepsTerms = true <;>
    by_cases hnonterms : shape.keepsNonterms = true <;> simp [kept, start, hterms, hnonterms]

theorem addTerm_kept (p : Production T N) (term : T) :
    p.kept.addTerm term = (Recorder.unselective.addTerm p term).kept := by
  by_cases hterms : p.shape.keepsTerms = true <;>
    by_cases hnonterms : p.shape.keepsNonterms = true <;>
      simp [kept, addTerm, Recorder.unselective, hterms, hnonterms]

theorem addNonterm_kept (p : Production T N) (node : N) :
    p.kept.addNonterm node = (Recorder.unselective.addNonterm p node).kept := by
  by_cases hterms : p.shape.keepsTerms = true <;>
    by_cases hnonterms : p.shape.keepsNonterms = true <;>
      simp [kept, addNonterm, Recorder.unselective, hterms, hnonterms]

theorem checkpoint_kept (p : Production T N) :
    p.kept.checkpoint = p.checkpoint.kept p.shape := by
  simp only [checkpoint, kept, Checkpoint.kept, apply_ite Array.size, List.size_toArray,
    List.length_nil]

/-- Going back forgets the same of the pieces that a shape keeps: of a list that is not kept, nothing
is left either way. -/
theorem rollback_kept (p : Production T N) (mark : Checkpoint) :
    p.kept.rollback (mark.kept p.shape) = (p.rollback mark).kept := by
  by_cases hterms : p.shape.keepsTerms = true <;>
    by_cases hnonterms : p.shape.keepsNonterms = true <;>
      simp [kept, rollback, Checkpoint.kept, hterms, hnonterms]

namespace Recorder

/-- **One event**: the two productions stay what they are to each other. -/
theorem step_selective (c : Course T N) (event : Event T N) :
    selective.step c.kept event = (unselective.step c event).kept := by
  cases event with
  | term term => exact congrArg (Course.mk · _) (addTerm_kept c.pieces term)
  | nonterm node => exact congrArg (Course.mk · _) (addNonterm_kept c.pieces node)
  | checkpoint =>
    show Course.mk c.pieces.kept (c.marks.map _ ++ [c.pieces.kept.checkpoint]) =
      Course.mk c.pieces.kept ((c.marks ++ [c.pieces.checkpoint]).map _)
    rw [checkpoint_kept, List.map_append, List.map_singleton]
    rfl
  | rollback number =>
    have hmark : c.kept.marks[number]? =
        c.marks[number]?.map (Checkpoint.kept c.pieces.shape) := List.getElem?_map
    rw [step, step, hmark]
    cases c.marks[number]? with
    | none => rfl
    | some mark => exact congrArg (Course.mk · _) (rollback_kept c.pieces mark)

/-- **All events**: what is recorded selectively is what the shape keeps of everything. -/
theorem run_selective (rule : RuleId) (shape : Shape) (events : List (Event T N)) :
    selective.run rule shape events = (unselective.run rule shape events).kept := by
  have hstart : (Course.kept ⟨start rule shape, []⟩ : Course T N) = ⟨start rule shape, []⟩ := by
    rw [Course.kept, kept_start, List.map_nil]
  rw [run, run, ← List.foldl_hom Course.kept step_selective, hstart]

end Recorder

/-! ## 3.  What a node is made of -/

/-- **A node is made of pieces that its shape keeps.**  The shapes are gone through one by one, since
each of them picks its pieces in its own way. -/
theorem reduce_kept (build : Builder T N W) (p : Production T N) (w : W) :
    p.kept.reduce build w = p.reduce build w := by
  obtain ⟨rule, shape, terms, nonterms⟩ := p
  cases shape <;> rfl

/-- **Selective recording is not seen.**  Take a production that records the pieces its shape keeps and
one that records every piece, and let the same events happen to both: terms and nodes are added,
checkpoints are taken, and what came after a checkpoint is forgotten, in any order and as often as one
likes.  A checkpoint may be used again, and even one of pieces that were forgotten since.  Then the
first production holds just those pieces of the second that the shape keeps, and whatever the builder
is, the two are reduced to the same node, in the same world, by the same calls. -/
theorem selection_unobservable (rule : RuleId) (shape : Shape) (events : List (Event T N))
    (build : Builder T N W) (w : W) :
    let selected := (Recorder.selective.run rule shape events).pieces
    let everything := (Recorder.unselective.run rule shape events).pieces
    selected = everything.kept ∧
      selected.reduce build w = everything.reduce build w ∧
      selected.reduce build.recorded (w, []) = everything.reduce build.recorded (w, []) := by
  intro selected everything
  have hkept : selected = everything.kept :=
    congrArg Course.pieces (Recorder.run_selective rule shape events)
  refine ⟨hkept, ?_, ?_⟩
  · rw [hkept, reduce_kept]
  · rw [hkept, reduce_kept]

/-- The brackets are recorded in vain, and the node in between is the one after the checkpoint. -/
example :
    let events : List (Event Char Nat) :=
      [.term '(', .checkpoint, .nonterm 1, .rollback 0, .nonterm 2, .term ')']
    let selected := (Recorder.selective.run ⟨0⟩ .bypass events).pieces
    let everything := (Recorder.unselective.run ⟨0⟩ .bypass events).pieces
    selected.terms.size = 0 ∧ everything.terms.size = 2 ∧
      selected.nonterms = #[2] ∧ everything.nonterms = #[2] := by
  decide

end Production

end GrammarKit
