import GrammarKit.Proofs.Coupling
import GrammarKit.Proofs.Recursion

/-!
# Streams and builders do not matter to a match

A match over a stream with a builder that has a world is followed, step by step, by a match over the
list of the tokens ahead with an algebra in place of the builder.  The outcomes are the same, the
streams move by the same number of tokens, and the nodes that the builder makes mean what the
algebra says.

This is the case of two runs side by side in which one of the streams is a list and one of the
builders has no world, so nothing of that side is left but tokens and values.

* `Models`: what it takes for a builder to carry out an algebra.
* `Grammar.matchRule_alike`: a rule is matched alike.
-/

namespace GrammarKit

variable {T N W S X : Type}

/-! ## Builders and algebras -/

/-- **A builder carries out an algebra.**  In a good world it makes nodes that mean what the algebra
says, the world stays good, and the nodes made before keep their meaning. -/
structure Models (build : Builder T N W) (algebra : Reduction T X → X) where
  /-- The worlds in which the builder works as it should. -/
  good : W → Prop
  /-- A world comes out of another one by making nodes. -/
  grows : W → W → Prop
  /-- What a node means in a world. -/
  means : W → N → X → Prop
  refl : ∀ w, grows w w
  trans : ∀ {w w' w''}, grows w w' → grows w' w'' → grows w w''
  mono : ∀ {w w' node value}, grows w w' → means w node value → means w' node value
  sound : ∀ {w reduction reduction'}, good w → Reduction.Alike (means w) reduction reduction' →
    good (build reduction w).2 ∧ grows w (build reduction w).2 ∧
      means (build reduction w).2 (build reduction w).1 (algebra reduction')

variable {build : Builder T N W} {algebra : Reduction T X → X}

/-- A builder that carries out an algebra goes on in step with it. -/
def Models.coupling (m : Models build algebra) : Coupling build (algebraBuilder algebra) where
  good w := m.good w.1
  grows w w' := m.grows w.1 w'.1
  means w := m.means w.1
  refl w := m.refl w.1
  trans := m.trans
  mono := m.mono
  sound := m.sound

/-! ## Rules -/

variable [TokenStream S T]

/-- The same reply to a question that was asked at place `k`. -/
structure Reply.Alike (m : Models build algebra) (origin : S) (tokens : List T) (k : Nat) (w : W)
    (r : Reply N W S) (r' : Reply X Unit (List T)) : Prop where
  outcome : r.outcome.Alike (m.means r.world) r'.outcome
  place : ∃ k', k ≤ k' ∧ k' ≤ tokens.length ∧ r.stream = TokenStream.advance^[k'] origin ∧
    r'.stream = tokens.drop k'
  good : m.good r.world
  grows : m.grows w r.world

/-- **A rule is matched alike** over any stream of the tokens and with any builder that carries out
the algebra. -/
theorem Grammar.matchRule_alike [LawfulTokenStream S] (g : Grammar T) (m : Models build algebra)
    {origin : S} {tokens : List T} (hahead : Ahead origin tokens) (r : RuleId) {w : W}
    (hgood : m.good w) :
    (g.matchRule build r w origin).Alike m origin tokens 0 w (g.matchList algebra r () tokens) := by
  obtain ⟨houtcome, ⟨k, hle, hk, hstream, hstream'⟩, hgood', hgrows⟩ :=
    g.matchRule_coupled m.coupling ⟨hahead, ahead_list tokens⟩ r (w := (w, ())) hgood
  rw [TokenStream.iterate_advance_list] at hstream'
  exact ⟨houtcome, ⟨k, hle, hk, hstream, hstream'⟩, hgood', hgrows⟩

end GrammarKit
