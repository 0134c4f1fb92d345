import GrammarKit.Proofs.Ownership
import Mathlib.Data.Finset.Card
import Mathlib.Data.Finset.Range

/-!
# Trees whose ways down come to an end

A builder leaves an arena tidy: every number leads to an older node.  A tree that was put together in
another way need not be, and still nothing is wrong with it as long as no number that is met leads out
of the arena and no way down closes into a cycle.

Then each way down has an end.  How far it is to the end is counted by `Arena.depth`, which goes down
with each step and stays below the number of nodes; so a walk that counts down from there meets no
node at zero.

* `Arena.Grounded`: all that is reached from a node is in the arena and not on a cycle.
* `Grounded.depth_lt_of_mem_links`, `Grounded.depth_lt_size`: the count.
* `Grounded.induction`, `Grounded.exists_lower`: proofs and walks that follow it.
* `grounded_of_rank`, `Tidy.grounded`: a tidy arena is grounded everywhere.
-/

namespace GrammarKit.Arena

variable {arena : Arena} {id link : NodeId}

/-- The node is reached from the other one by at least one step. -/
def Descends (arena : Arena) : NodeId → NodeId → Prop :=
  Relation.TransGen fun id link => link ∈ arena.links id

/-- All that is reached from the node is in the arena, and none of it is reached from itself. -/
structure Grounded (arena : Arena) (id : NodeId) : Prop where
  inRange : ∀ x, arena.Reaches id x → arena.InRange x
  acyclic : ∀ x, arena.Reaches id x → ¬ arena.Descends x x

theorem Grounded.of_reaches (h : arena.Grounded id) {x : NodeId} (hx : arena.Reaches id x) :
    arena.Grounded x :=
  ⟨fun y hy => h.inRange y (hx.trans hy), fun y hy => h.acyclic y (hx.trans hy)⟩

theorem Grounded.of_mem_links (h : arena.Grounded id) (hlink : link ∈ arena.links id) :
    arena.Grounded link :=
  h.of_reaches (.single hlink)

theorem Grounded.exists_get (h : arena.Grounded id) : ∃ node, arena.get id = .ok node :=
  Arena.exists_get (h.inRange id .refl)

/-- Where all steps stay in the arena and go down in some rank, every way has an end. -/
theorem grounded_of_rank {rank : NodeId → Nat}
    (h : ∀ x, arena.InRange x → ∀ link ∈ arena.links x, arena.InRange link ∧ rank link < rank x)
    (hid : arena.InRange id) : arena.Grounded id := by
  have hreached : ∀ x, arena.Reaches id x → arena.InRange x := by
    intro x hx
    induction hx with
    | refl => exact hid
    | tail _ hlink ih => exact (h _ ih _ hlink).1
  have hdescends : ∀ x y, arena.InRange x → arena.Descends x y → rank y < rank x := by
    intro x y hx hy
    induction hy using Relation.TransGen.head_induction_on with
    | single hlink => exact (h _ hx _ hlink).2
    | head hlink _ ih =>
      obtain ⟨hrange, hlt⟩ := h _ hx _ hlink
      exact Nat.lt_trans (ih hrange) hlt
  exact ⟨hreached, fun x hx hcycle => Nat.lt_irrefl _ (hdescends x x (hreached x hx) hcycle)⟩

/-- A tidy arena leads nowhere else and closes no cycle. -/
theorem Tidy.grounded (h : arena.Tidy) (hid : arena.InRange id) : arena.Grounded id := by
  have hrank : ∀ x, arena.InRange x → ∀ link ∈ arena.links x,
      arena.InRange link ∧ link.index < x.index := fun x hx link hlink =>
    ⟨Nat.lt_trans (h.lt_of_mem_links hlink) hx, h.lt_of_mem_links hlink⟩
  exact grounded_of_rank hrank hid

/-! ## Counting down -/

open Classical in
/-- The number of nodes that are reached from a node by at least one step. -/
noncomputable def depth (arena : Arena) (id : NodeId) : Nat :=
  ((Finset.range arena.size).filter fun index => arena.Descends id ⟨index⟩).card

/-- **Each step counts.** -/
theorem Grounded.depth_lt_of_mem_links (h : arena.Grounded id) (hlink : link ∈ arena.links id) :
    arena.depth link < arena.depth id := by
  classical
  refine Finset.card_lt_card ((Finset.ssubset_iff_of_subset fun index hindex => ?_).mpr ?_)
  · rw [Finset.mem_filter] at hindex ⊢
    exact ⟨hindex.1, .head hlink hindex.2⟩
  · -- The node one step down is left behind: nothing leads back to it.
    have hlinked : arena.Reaches id link := .single hlink
    refine ⟨link.index, ?_, ?_⟩
    · rw [Finset.mem_filter, Finset.mem_range]
      exact ⟨h.inRange link hlinked, .single hlink⟩
    · rw [Finset.mem_filter, not_and]
      exact fun _ => h.acyclic link hlinked

theorem Grounded.depth_lt_size (h : arena.Grounded id) : arena.depth id < arena.size := by
  classical
  have hself : arena.InRange id := h.inRange id .refl
  have hle : arena.depth id ≤ ((Finset.range arena.size).erase id.index).card := by
    refine Finset.card_le_card fun index hindex => ?_
    obtain ⟨hrange, hreached⟩ := Finset.mem_filter.mp hindex
    refine Finset.mem_erase.mpr ⟨?_, hrange⟩
    rintro rfl
    exact h.acyclic id .refl hreached
  rw [Finset.card_erase_of_mem (Finset.mem_range.mpr hself), Finset.card_range] at hle
  have hpos : 0 < arena.size := Nat.zero_lt_of_lt hself
  omega

theorem Grounded.depth_lt_height (h : arena.Grounded id) : arena.depth id < arena.height :=
  Nat.lt_succ_of_lt h.depth_lt_size

/-- A count that is high enough for a node goes down by one and is high enough for the next. -/
theorem Grounded.exists_lower (h : arena.Grounded id) {node : Node} (hget : arena.get id = .ok node)
    {height : Nat} (hheight : arena.depth id < height) :
    ∃ lower, height = lower + 1 ∧
      ∀ link ∈ node.links, arena.Grounded link ∧ arena.depth link < lower := by
  obtain ⟨lower, rfl⟩ := Nat.exists_eq_add_of_le' (Nat.one_le_of_lt hheight)
  refine ⟨lower, rfl, fun link hlink => ?_⟩
  rw [← links_of_get hget] at hlink
  exact ⟨h.of_mem_links hlink,
    Nat.lt_of_lt_of_le (h.depth_lt_of_mem_links hlink) (Nat.le_of_lt_succ hheight)⟩

/-- What holds of a node when it holds of the nodes that it keeps holds of all of a tree. -/
@[elab_as_elim]
theorem Grounded.induction {motive : NodeId → Prop} (h : arena.Grounded id)
    (step : ∀ id node, arena.Grounded id → arena.get id = .ok node →
      (∀ link ∈ node.links, motive link) → motive id) : motive id := by
  induction hn : arena.depth id using Nat.strongRecOn generalizing id with
  | _ n ih =>
    obtain ⟨node, hget⟩ := h.exists_get
    refine step id node h hget fun link hlink => ?_
    rw [← links_of_get hget] at hlink
    exact ih _ (hn ▸ h.depth_lt_of_mem_links hlink) (h.of_mem_links hlink) rfl

end GrammarKit.Arena
