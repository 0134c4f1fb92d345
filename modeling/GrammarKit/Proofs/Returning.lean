import GrammarKit.Grammar.Parse
import GrammarKit.Proofs.Validation

/-!
# What a match returns

A rule asks for other rules, and nothing keeps a rule from asking for itself, again and again at the
same place.  A parser that just goes on never returns then.  This is about such a parser: the plain
recursion, which keeps no list of the rules in progress, and whose repetitions look at offsets alone.
It is written as a relation.  A question may have no reply, and a match that asks it has no end; so to
return is to have a derivation, and all derivations are finite.

* `Expr.Returns`: the ends of a match, given the replies to its questions.
* `Grammar.RuleReturns`: the replies of a rule, given the replies to the questions inside of it.
* `Grammar.Returns`: the replies of the plain recursion.
* `Grammar.ReturnsThrough`: the same, with something known of all replies on the way.
* `Grammar.ParseReturns`: the answers of a parse.
-/

namespace GrammarKit

variable {T N W S : Type}

/-- Replies to the questions of a match.  A question may have none. -/
abbrev Replies (N W S : Type) := RuleId → W → S → Reply N W S → Prop

/-- Whatever replies. -/
def Replies.any : Replies N W S := fun _ _ _ _ => True

/-- The ends that a match may come to. -/
abbrev Ends (T N W S : Type) := Attempt T N W S → Outcome Unit × Attempt T N W S → Prop

/-! ## 1.  Ways to go on -/

namespace Ends

/-- A match at once. -/
def Done : Ends T N W S := fun a r => r = (.matched (), a)

/-- A mismatch at once. -/
def Refused (why : Mismatch) : Ends T N W S := fun a r => r = (.noMatch why, a)

/-- `next` goes on where `first` has matched. -/
inductive AndThen (first next : Ends T N W S) : Ends T N W S where
  | matched {a b r} (hfirst : first a (.matched (), b)) (hnext : next b r) : AndThen first next a r
  | noMatch {a b why} (hfirst : first a (.noMatch why, b)) : AndThen first next a (.noMatch why, b)
  | failed {a b why} (hfirst : first a (.failed why, b)) : AndThen first next a (.failed why, b)

/-- `next` goes on where `first` has not matched. -/
inductive OrElse (first next : Ends T N W S) : Ends T N W S where
  | noMatch {a b r why} (hfirst : first a (.noMatch why, b)) (hnext : next b r) :
      OrElse first next a r
  | matched {a b} (hfirst : first a (.matched (), b)) : OrElse first next a (.matched (), b)
  | failed {a b why} (hfirst : first a (.failed why, b)) : OrElse first next a (.failed why, b)

/-- Stream and pieces are put back after a mismatch. -/
inductive Restored (why : Mismatch) (ends : Ends T N W S) : Ends T N W S where
  | intro {a r} (h : ends a r) :
      Restored why ends a (Attempt.orRestore a.stream a.pieces.checkpoint why r)

/-- A number of rounds, each of which has to match. -/
def Rounds (step : Ends T N W S) : Nat → Ends T N W S
  | 0 => Done
  | n + 1 => AndThen step (Rounds step n)

/-- All failures among the ends are of a kind. -/
def FailsOnly (P : Failure → Prop) (ends : Ends T N W S) : Prop :=
  ∀ a why b, ends a (.failed why, b) → P why

section Steps

variable {first first' next next' step step' : Ends T N W S} {a : Attempt T N W S}
  {r : Outcome Unit × Attempt T N W S} {P : Failure → Prop}

theorem AndThen.mono (hfirst : ∀ a r, first a r → first' a r)
    (hnext : ∀ a r, next a r → next' a r) (h : AndThen first next a r) :
    AndThen first' next' a r := by
  cases h with
  | matched h hthen => exact .matched (hfirst _ _ h) (hnext _ _ hthen)
  | noMatch h => exact .noMatch (hfirst _ _ h)
  | failed h => exact .failed (hfirst _ _ h)

theorem OrElse.mono (hfirst : ∀ a r, first a r → first' a r)
    (hnext : ∀ a r, next a r → next' a r) (h : OrElse first next a r) :
    OrElse first' next' a r := by
  cases h with
  | noMatch h helse => exact .noMatch (hfirst _ _ h) (hnext _ _ helse)
  | matched h => exact .matched (hfirst _ _ h)
  | failed h => exact .failed (hfirst _ _ h)

theorem Restored.mono {why : Mismatch} (hfirst : ∀ a r, first a r → first' a r)
    (h : Restored why first a r) : Restored why first' a r := by
  cases h with
  | intro h => exact .intro (hfirst _ _ h)

theorem rounds_mono (hstep : ∀ a r, step a r → step' a r) (n : Nat) :
    ∀ (a : Attempt T N W S) (r : Outcome Unit × Attempt T N W S),
      Rounds step n a r → Rounds step' n a r := by
  induction n with
  | zero => exact fun _ _ h => h
  | succ n ih => exact fun _ _ h => AndThen.mono hstep ih h

theorem FailsOnly.andThen (hfirst : first.FailsOnly P) (hnext : next.FailsOnly P) :
    (AndThen first next).FailsOnly P := by
  intro a why b h
  cases h with
  | matched _ hthen => exact hnext _ _ _ hthen
  | failed h => exact hfirst _ _ _ h

theorem FailsOnly.orElse (hfirst : first.FailsOnly P) (hnext : next.FailsOnly P) :
    (OrElse first next).FailsOnly P := by
  intro a why b h
  cases h with
  | noMatch _ helse => exact hnext _ _ _ helse
  | failed h => exact hfirst _ _ _ h

theorem FailsOnly.restored (hfirst : first.FailsOnly P) (reason : Mismatch) :
    (Restored reason first).FailsOnly P := by
  intro a why b h
  generalize hend : (Outcome.failed why, b) = r at h
  obtain ⟨h⟩ := h
  next r =>
    obtain ⟨outcome, b'⟩ := r
    cases outcome with
    | matched => cases hend
    | noMatch => cases hend
    | failed cause =>
      cases hend
      exact hfirst _ _ _ h

theorem failsOnly_done : (Done : Ends T N W S).FailsOnly P := by
  intro a why b h
  cases h

theorem FailsOnly.rounds (hstep : step.FailsOnly P) : ∀ n, (Rounds step n).FailsOnly P
  | 0 => failsOnly_done
  | n + 1 => hstep.andThen (FailsOnly.rounds hstep n)

end Steps

variable [TokenStream S T]

/-- Rounds while there are tokens, the step matches, and **the offset has changed**. -/
inductive WhileAny (step : Ends T N W S) : Ends T N W S where
  | atEnd {a} (hend : TokenStream.atEnd a.stream = true) : WhileAny step a (.matched (), a)
  | same {a b} (hend : TokenStream.atEnd a.stream = false) (hstep : step a (.matched (), b))
      (hoffset : TokenStream.offset b.stream = TokenStream.offset a.stream) :
      WhileAny step a (.matched (), b)
  | moved {a b r} (hend : TokenStream.atEnd a.stream = false) (hstep : step a (.matched (), b))
      (hoffset : TokenStream.offset b.stream ≠ TokenStream.offset a.stream)
      (hrest : WhileAny step b r) : WhileAny step a r
  | noMatch {a b why} (hend : TokenStream.atEnd a.stream = false)
      (hstep : step a (.noMatch why, b)) : WhileAny step a (.matched (), b)
  | failed {a b why} (hend : TokenStream.atEnd a.stream = false)
      (hstep : step a (.failed why, b)) : WhileAny step a (.failed why, b)

theorem WhileAny.mono {step step' : Ends T N W S} {a : Attempt T N W S}
    {r : Outcome Unit × Attempt T N W S} (hstep : ∀ a r, step a r → step' a r)
    (h : WhileAny step a r) : WhileAny step' a r := by
  induction h with
  | atEnd hend => exact .atEnd hend
  | same hend h hoffset => exact .same hend (hstep _ _ h) hoffset
  | moved hend h hoffset _ ih => exact .moved hend (hstep _ _ h) hoffset ih
  | noMatch hend h => exact .noMatch hend (hstep _ _ h)
  | failed hend h => exact .failed hend (hstep _ _ h)

theorem FailsOnly.whileAny {step : Ends T N W S} {P : Failure → Prop}
    (hstep : step.FailsOnly P) : (WhileAny step).FailsOnly P := by
  intro a why b h
  generalize hend : (Outcome.failed why, b) = r at h
  induction h with
  | atEnd => cases hend
  | same => cases hend
  | moved _ _ _ _ ih => exact ih hend
  | noMatch => cases hend
  | failed _ h =>
    cases hend
    exact hstep _ _ _ h

/-- A rule is asked for, unless the tokens are used up. -/
inductive Asks (replies : Replies N W S) (rule : RuleId) : Ends T N W S where
  | atEnd {a} (hend : TokenStream.atEnd a.stream = true) :
      Asks replies rule a (.noMatch .nontermAtEnd, a)
  | matched {stream pieces world stream' world' node} (hend : TokenStream.atEnd stream = false)
      (h : replies rule world stream ⟨.matched node, world', stream'⟩) :
      Asks replies rule ⟨stream, pieces, world⟩
        (.matched (), ⟨stream', pieces.addNonterm node, world'⟩)
  | noMatch {stream pieces world stream' world' why} (hend : TokenStream.atEnd stream = false)
      (h : replies rule world stream ⟨.noMatch why, world', stream'⟩) :
      Asks replies rule ⟨stream, pieces, world⟩ (.noMatch why, ⟨stream', pieces, world'⟩)
  | failed {stream pieces world stream' world' why} (hend : TokenStream.atEnd stream = false)
      (h : replies rule world stream ⟨.failed why, world', stream'⟩) :
      Asks replies rule ⟨stream, pieces, world⟩ (.failed why, ⟨stream', pieces, world'⟩)

end Ends

/-! ## 2.  Expressions and rules -/

namespace Expr

variable [TokenStream S T]

mutual

/-- **The ends of a match of an expression**, if the questions have these replies. -/
def Returns (replies : Replies N W S) : Expr T → Ends T N W S
  | .empty => Ends.Done
  | .term accepts => fun a r => r = attemptTerm accepts a
  | .nonterm rule => Ends.Asks replies rule
  | .seq items => Ends.Restored .sequence (AllReturn replies items)
  | .choice items => FirstReturns replies items
  | .rep least body =>
    Ends.AndThen (Ends.Restored .tooFew (Ends.Rounds (body.Returns replies) least))
      (Ends.WhileAny (body.Returns replies))
  | .opt body => Ends.OrElse (body.Returns replies) Ends.Done

/-- The ends of a match of all the expressions of a list, one after the other. -/
def AllReturn (replies : Replies N W S) : List (Expr T) → Ends T N W S
  | [] => Ends.Done
  | item :: items => Ends.AndThen (item.Returns replies) (AllReturn replies items)

/-- The ends of a match of the first expression of a list that does. -/
def FirstReturns (replies : Replies N W S) : List (Expr T) → Ends T N W S
  | [] => Ends.Refused .choice
  | item :: items => Ends.OrElse (item.Returns replies) (FirstReturns replies items)

end

end Expr

variable [TokenStream S T]

/-- The replies of the alternatives of a rule, tried in order from the same place. -/
inductive AlternativesReturn (build : Builder T N W) (replies : Replies N W S) (id : RuleId) :
    List (Alternative T) → W → S → Reply N W S → Prop where
  | nil {world stream} :
      AlternativesReturn build replies id [] world stream ⟨.noMatch .rule, world, stream⟩
  | matched {alternative alternatives world stream b}
      (h : alternative.expr.Returns replies
        ⟨stream, Production.start id alternative.shape, world⟩ (.matched (), b)) :
      AlternativesReturn build replies id (alternative :: alternatives) world stream
        ⟨.matched (b.pieces.reduce build b.world).1, (b.pieces.reduce build b.world).2, b.stream⟩
  | noMatch {alternative alternatives world stream why b reply}
      (h : alternative.expr.Returns replies
        ⟨stream, Production.start id alternative.shape, world⟩ (.noMatch why, b))
      (hrest : AlternativesReturn build replies id alternatives b.world stream reply) :
      AlternativesReturn build replies id (alternative :: alternatives) world stream reply
  | failed {alternative alternatives world stream why b}
      (h : alternative.expr.Returns replies
        ⟨stream, Production.start id alternative.shape, world⟩ (.failed why, b)) :
      AlternativesReturn build replies id (alternative :: alternatives) world stream
        ⟨.failed why, b.world, b.stream⟩

namespace Grammar

/-- The replies of a rule, if the questions inside of it have these replies. -/
inductive RuleReturns (g : Grammar T) (build : Builder T N W) (replies : Replies N W S) :
    Replies N W S where
  | atEnd {r world stream} (hend : TokenStream.atEnd stream = true) :
      RuleReturns g build replies r world stream ⟨.failed (.unexpectedEnd r), world, stream⟩
  | undefined {r world stream} (hend : TokenStream.atEnd stream = false)
      (hrule : g.rule? r = none) :
      RuleReturns g build replies r world stream ⟨.failed (.undefinedRule r), world, stream⟩
  | rule {r rule world stream reply} (hend : TokenStream.atEnd stream = false)
      (hrule : g.rule? r = some rule)
      (h : AlternativesReturn build replies rule.id rule.alternatives world stream reply) :
      RuleReturns g build replies r world stream reply

/-- The replies that take at most so many rules one inside the other, and with replies of `inner`
inside. -/
def ReturnsWithin (g : Grammar T) (build : Builder T N W) (inner : Replies N W S) :
    Nat → Replies N W S
  | 0 => fun _ _ _ _ => False
  | depth + 1 => g.RuleReturns build fun r world stream reply =>
      g.ReturnsWithin build inner depth r world stream reply ∧ inner r world stream reply

/-- The rule returns this reply, and all replies on the way are of `inner`. -/
def ReturnsThrough (g : Grammar T) (build : Builder T N W) (inner : Replies N W S) :
    Replies N W S := fun r world stream reply =>
  ∃ depth, g.ReturnsWithin build inner depth r world stream reply

/-- **The rule returns this reply.** -/
def Returns (g : Grammar T) (build : Builder T N W) : Replies N W S :=
  g.ReturnsThrough build .any

/-- What a parse makes of the reply of the first rule. -/
def verdict : Reply N W S → Except ParseError N × W
  | ⟨.matched node, world, stream⟩ =>
    if TokenStream.atEnd stream then (.ok node, world)
    else (.error (.tokensLeft (TokenStream.offset stream)), world)
  | ⟨.noMatch _, world, _⟩ => (.error .noMatch, world)
  | ⟨.failed why, world, _⟩ => (.error (.failed why), world)

/-- **The parse returns this answer.** -/
def ParseReturns (g : Grammar T) (build : Builder T N W) (world : W) (stream : S)
    (answer : Except ParseError N × W) : Prop :=
  ∃ reply, g.Returns build RuleId.start world stream reply ∧ verdict reply = answer

end Grammar

/-! ## 3.  More replies -/

namespace Expr

variable {replies replies' : Replies N W S}

/-- The second replies have those of the first that these rules may be asked for. -/
def RepliesInclude (references : List RuleId) (replies replies' : Replies N W S) : Prop :=
  ∀ r ∈ references, ∀ world stream reply, TokenStream.atEnd stream = false →
    replies r world stream reply → replies' r world stream reply

theorem RepliesInclude.mono {references references' : List RuleId}
    (h : RepliesInclude references replies replies') (hsub : references' ⊆ references) :
    RepliesInclude references' replies replies' := fun r hr => h r (hsub hr)

mutual

/-- **With more replies there are more ends.**  An expression asks only for rules that it refers to,
and not at the end of the tokens. -/
theorem Returns.mono : ∀ e : Expr T, RepliesInclude e.references replies replies' →
    ∀ (a : Attempt T N W S) (r : Outcome Unit × Attempt T N W S),
      e.Returns replies a r → e.Returns replies' a r
  | .empty, _, _, _, h => h
  | .term _, _, _, _, h => h
  | .nonterm rule, hmono, _, _, h => by
    have hrule := hmono rule List.mem_cons_self
    cases h with
    | atEnd hend => exact .atEnd hend
    | matched hend h => exact .matched hend (hrule _ _ _ hend h)
    | noMatch hend h => exact .noMatch hend (hrule _ _ _ hend h)
    | failed hend h => exact .failed hend (hrule _ _ _ hend h)
  | .seq items, hmono, _, _, h => Ends.Restored.mono (AllReturn.mono items hmono) h
  | .choice items, hmono, a, r, h => FirstReturns.mono items hmono a r h
  | .rep least body, hmono, _, _, h =>
    Ends.AndThen.mono
      (fun _ _ => Ends.Restored.mono (Ends.rounds_mono (Returns.mono body hmono) least))
      (fun _ _ => Ends.WhileAny.mono (Returns.mono body hmono)) h
  | .opt body, hmono, _, _, h => Ends.OrElse.mono (Returns.mono body hmono) (fun _ _ h => h) h

theorem AllReturn.mono : ∀ items : List (Expr T),
    RepliesInclude (referencesOfAll items) replies replies' →
      ∀ (a : Attempt T N W S) (r : Outcome Unit × Attempt T N W S),
        AllReturn replies items a r → AllReturn replies' items a r
  | [], _, _, _, h => h
  | item :: items, hmono, _, _, h =>
    Ends.AndThen.mono (Returns.mono item (hmono.mono (List.subset_append_left _ _)))
      (AllReturn.mono items (hmono.mono (List.subset_append_right _ _))) h

theorem FirstReturns.mono : ∀ items : List (Expr T),
    RepliesInclude (referencesOfAll items) replies replies' →
      ∀ (a : Attempt T N W S) (r : Outcome Unit × Attempt T N W S),
        FirstReturns replies items a r → FirstReturns replies' items a r
  | [], _, _, _, h => h
  | item :: items, hmono, _, _, h =>
    Ends.OrElse.mono (Returns.mono item (hmono.mono (List.subset_append_left _ _)))
      (FirstReturns.mono items (hmono.mono (List.subset_append_right _ _))) h

end

end Expr

theorem AlternativesReturn.mono {build : Builder T N W} {replies replies' : Replies N W S}
    {id : RuleId} {alternatives : List (Alternative T)}
    (hmono : ∀ alternative ∈ alternatives,
      Expr.RepliesInclude alternative.expr.references replies replies')
    {world : W} {stream : S} {reply : Reply N W S}
    (h : AlternativesReturn build replies id alternatives world stream reply) :
    AlternativesReturn build replies' id alternatives world stream reply := by
  induction h with
  | nil => exact .nil
  | matched h => exact .matched (Expr.Returns.mono _ (hmono _ List.mem_cons_self) _ _ h)
  | noMatch h _ ih =>
    exact .noMatch (Expr.Returns.mono _ (hmono _ List.mem_cons_self) _ _ h)
      (ih fun alternative hmem => hmono alternative (List.mem_cons_of_mem _ hmem))
  | failed h => exact .failed (Expr.Returns.mono _ (hmono _ List.mem_cons_self) _ _ h)

namespace Grammar

variable {g : Grammar T} {build : Builder T N W} {replies replies' inner : Replies N W S}
  {r : RuleId} {world : W} {stream : S} {reply : Reply N W S}

/-- A rule asks only for rules of the grammar, and not at the end of the tokens. -/
theorem repliesInclude_of_mem {rule : Rule T} (hrule : g.rule? r = some rule)
    (hmono : ∀ r ∈ g.ids, ∀ world stream reply, TokenStream.atEnd stream = false →
      replies r world stream reply → replies' r world stream reply) :
    ∀ alternative ∈ rule.alternatives,
      Expr.RepliesInclude alternative.expr.references replies replies' :=
  fun _ hmem r' hr' => hmono r' (mem_ids_of_references (mem_rules_of_rule? hrule) hmem hr')

theorem RuleReturns.mono
    (hmono : ∀ r ∈ g.ids, ∀ world stream reply, TokenStream.atEnd stream = false →
      replies r world stream reply → replies' r world stream reply)
    (h : g.RuleReturns build replies r world stream reply) :
    g.RuleReturns build replies' r world stream reply := by
  cases h with
  | atEnd hend => exact .atEnd hend
  | undefined hend hrule => exact .undefined hend hrule
  | rule hend hrule h => exact .rule hend hrule (h.mono (repliesInclude_of_mem hrule hmono))

theorem ReturnsWithin.mono {depth depth' : Nat} (hle : depth ≤ depth')
    (h : g.ReturnsWithin build inner depth r world stream reply) :
    g.ReturnsWithin build inner depth' r world stream reply := by
  induction depth generalizing depth' r world stream reply with
  | zero => exact h.elim
  | succ depth ih =>
    cases depth' with
    | zero => exact absurd hle (Nat.not_succ_le_zero depth)
    | succ depth' =>
      exact RuleReturns.mono
        (fun _ _ _ _ _ _ h => ⟨ih (Nat.le_of_succ_le_succ hle) h.1, h.2⟩) h

end Grammar

/-! ## 4.  Failures -/

/-- All failures among the replies that these rules may be asked for are of a kind. -/
def Replies.FailsOnly (P : Failure → Prop) (references : List RuleId) (replies : Replies N W S) :
    Prop :=
  ∀ r ∈ references, ∀ world stream why world' stream', TokenStream.atEnd stream = false →
    replies r world stream ⟨.failed why, world', stream'⟩ → P why

theorem Replies.FailsOnly.mono {P : Failure → Prop} {references references' : List RuleId}
    {replies : Replies N W S} (h : Replies.FailsOnly P references replies)
    (hsub : references' ⊆ references) : Replies.FailsOnly P references' replies :=
  fun r hr => h r (hsub hr)

namespace Expr

variable {P : Failure → Prop} {replies : Replies N W S}

theorem attemptTerm_not_failed (accepts : T → Bool) (a : Attempt T N W S) (why : Failure) :
    (attemptTerm accepts a).1 ≠ .failed why := by
  obtain ⟨stream, pieces, world⟩ := a
  simp only [attemptTerm]
  split
  · split <;> exact fun h => nomatch h
  · exact fun h => nomatch h

mutual

/-- **A match fails only as the questions in it do.** -/
theorem returns_failsOnly : ∀ e : Expr T, Replies.FailsOnly P e.references replies →
    (e.Returns replies).FailsOnly P
  | .empty, _ => Ends.failsOnly_done
  | .term accepts, _ => fun a why _ h =>
    absurd (congrArg Prod.fst h).symm (attemptTerm_not_failed accepts a why)
  | .nonterm rule, hfails => by
    intro a why b h
    cases h with
    | failed hend h => exact hfails rule List.mem_cons_self _ _ _ _ _ hend h
  | .seq items, hfails => (allReturn_failsOnly items hfails).restored .sequence
  | .choice items, hfails => firstReturns_failsOnly items hfails
  | .rep least body, hfails =>
    (((returns_failsOnly body hfails).rounds least).restored .tooFew).andThen
      (returns_failsOnly body hfails).whileAny
  | .opt body, hfails => (returns_failsOnly body hfails).orElse Ends.failsOnly_done

theorem allReturn_failsOnly : ∀ items : List (Expr T),
    Replies.FailsOnly P (referencesOfAll items) replies →
      Ends.FailsOnly P (AllReturn replies items)
  | [], _ => Ends.failsOnly_done
  | item :: items, hfails =>
    (returns_failsOnly item (hfails.mono (List.subset_append_left _ _))).andThen
      (allReturn_failsOnly items (hfails.mono (List.subset_append_right _ _)))

theorem firstReturns_failsOnly : ∀ items : List (Expr T),
    Replies.FailsOnly P (referencesOfAll items) replies →
      Ends.FailsOnly P (FirstReturns replies items)
  | [], _ => fun _ _ _ h => nomatch h
  | item :: items, hfails =>
    (returns_failsOnly item (hfails.mono (List.subset_append_left _ _))).orElse
      (firstReturns_failsOnly items (hfails.mono (List.subset_append_right _ _)))

end

end Expr

theorem AlternativesReturn.failsOnly {P : Failure → Prop} {build : Builder T N W}
    {replies : Replies N W S} {id : RuleId} {alternatives : List (Alternative T)} {world : W}
    {stream : S} {reply : Reply N W S}
    (h : AlternativesReturn build replies id alternatives world stream reply)
    (hfails : ∀ alternative ∈ alternatives,
      Replies.FailsOnly P alternative.expr.references replies)
    {why : Failure} (hwhy : reply.outcome = .failed why) : P why := by
  induction h with
  | nil => cases hwhy
  | matched => cases hwhy
  | noMatch _ _ ih =>
    exact ih (fun alternative hmem => hfails alternative (List.mem_cons_of_mem _ hmem)) hwhy
  | failed h =>
    cases hwhy
    exact Expr.returns_failsOnly _ (hfails _ List.mem_cons_self) _ _ _ h

end GrammarKit
