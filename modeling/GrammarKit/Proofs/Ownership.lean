import GrammarKit.Proofs.Arena
import Mathlib.Data.List.Flatten
import Mathlib.Data.List.Nodup
import Mathlib.Data.List.Perm.Subperm
import Mathlib.Logic.ExistsUnique
import Mathlib.Logic.Relation

/-!
# Nodes have one owner

The numbers that a node keeps are plain data.  Nothing in an arena keeps two nodes from sharing a
child, or a node from being its own descendant.  A builder that makes nodes of older nodes only, and
uses up the nodes that it is given, never makes such a tree.

* `Node.links`: the numbers that a node keeps.
* `Arena.Tidy`: these are smaller than the number of the node, and no node is a stand-in.
* `Arena.below`: a node and all nodes that are reached from it, once for each way.
* `Arena.Apart`: some nodes of a tidy arena share nothing; `Apart.alloc` and `Apart.allocAll` say that
  this is kept.
* `Arena.Keeps`: what is more, each of them stores a meaning.
* `Arena.Apart.existsUnique_path`: then there is one way to each node.
-/

namespace GrammarKit

/-- The numbers that a node keeps, in order. -/
def Node.links : Node → List NodeId
  | .unary _ _ operand => [operand]
  | .binary _ _ left right => [left, right]
  | .compound statements => statements
  | .program name body => [name, body]
  | .block declarations body => declarations ++ [body]
  | .rawList items => items
  | _ => []

namespace Arena

/-- The numbers that the node of that number keeps. -/
def links (arena : Arena) (id : NodeId) : List NodeId :=
  match arena.get id with
  | .ok node => node.links
  | .error _ => []

variable {arena before after : Arena} {id root : NodeId} {node : Node}

theorem links_of_get (h : arena.get id = .ok node) : arena.links id = node.links := by
  rw [links, h]

/-- A node keeps the numbers of older nodes only, and there are no stand-ins. -/
structure Tidy (arena : Arena) : Prop where
  link_lt : ∀ id node, arena.get id = .ok node → ∀ link ∈ node.links, link.index < id.index
  ne_null : ∀ id, arena.get id ≠ .ok .null

theorem tidy_empty : Arena.empty.Tidy := by
  have hget : ∀ id node, Arena.empty.get id ≠ .ok node := fun id node h => by
    cases Arena.get_eq_ok_iff.mp h
  exact ⟨fun id node h => absurd h (hget id node), fun id => hget id .null⟩

theorem Tidy.lt_of_mem_links (h : arena.Tidy) {link : NodeId} (hlink : link ∈ arena.links id) :
    link.index < id.index := by
  unfold links at hlink
  split at hlink
  · next node hget => exact h.link_lt id node hget link hlink
  · exact absurd hlink List.not_mem_nil

/-! ## All nodes below a node -/

/-- The node and what is reached from it by a way of at most `height` nodes. -/
def walk (arena : Arena) : (height : Nat) → NodeId → List NodeId
  | 0, _ => []
  | height + 1, id => id :: (arena.links id).flatMap (arena.walk height)

/-- The node and all that is reached from it, once for each way that leads there. -/
def below (arena : Arena) (id : NodeId) : List NodeId := arena.walk (id.index + 1) id

/-- A walk that may be long enough is a walk to the end. -/
theorem Tidy.walk_eq_below (h : arena.Tidy) {height : Nat} (hheight : id.index < height) :
    arena.walk height id = arena.below id := by
  induction hn : id.index using Nat.strongRecOn generalizing id height with
  | _ n ih =>
    obtain ⟨height, rfl⟩ := Nat.exists_eq_add_of_le' (Nat.one_le_of_lt hheight)
    rw [below, walk, walk]
    refine congrArg (id :: ·) (List.flatMap_congr fun link hlink => ?_)
    have hlt := h.lt_of_mem_links hlink
    rw [ih link.index (by omega) (show link.index < height by omega) rfl,
      ih link.index (by omega) (show link.index < id.index by omega) rfl]

theorem Tidy.below_eq (h : arena.Tidy) (id : NodeId) :
    arena.below id = id :: (arena.links id).flatMap arena.below := by
  rw [below, walk]
  refine congrArg (id :: ·) (List.flatMap_congr fun link hlink => ?_)
  exact h.walk_eq_below (h.lt_of_mem_links hlink)

theorem mem_below_self (arena : Arena) (id : NodeId) : id ∈ arena.below id := List.mem_cons_self

theorem Tidy.le_of_mem_below (h : arena.Tidy) {x : NodeId} (hx : x ∈ arena.below id) :
    x.index ≤ id.index := by
  induction hn : id.index using Nat.strongRecOn generalizing id with
  | _ n ih =>
    rw [h.below_eq, List.mem_cons, List.mem_flatMap] at hx
    rcases hx with rfl | ⟨link, hlink, hx⟩
    · omega
    · have hlt := h.lt_of_mem_links hlink
      have := ih link.index (by omega) hx rfl
      omega

theorem Grows.links_eq (h : before.Grows after) (hid : before.InRange id) :
    after.links id = before.links id := by
  obtain ⟨node, hnode⟩ := exists_get hid
  rw [links_of_get hnode, links_of_get (h.get hnode)]

/-- What is below a node stays the same. -/
theorem Grows.below_eq (h : before.Grows after) (hbefore : before.Tidy) (hafter : after.Tidy)
    (hid : before.InRange id) : after.below id = before.below id := by
  induction hn : id.index using Nat.strongRecOn generalizing id with
  | _ n ih =>
    rw [hafter.below_eq, hbefore.below_eq, h.links_eq hid]
    refine congrArg (id :: ·) (List.flatMap_congr fun link hlink => ?_)
    have hlt := hbefore.lt_of_mem_links hlink
    exact ih link.index (by omega) (Nat.lt_trans hlt hid) rfl

/-! ## Nodes that share nothing -/

/-- The nodes of a tidy arena share nothing, neither with each other nor within themselves. -/
structure Apart (arena : Arena) (held : List NodeId) : Prop where
  tidy : arena.Tidy
  inRange : ∀ id ∈ held, arena.InRange id
  nodup : (held.flatMap arena.below).Nodup

namespace Apart

variable {held kept used frame : List NodeId}

theorem empty : Arena.empty.Apart [] :=
  ⟨tidy_empty, fun _ hid => absurd hid List.not_mem_nil, List.nodup_nil⟩

/-- Nodes may be dropped, and their order does not matter. -/
theorem mono (h : arena.Apart held) (hkept : kept.Subperm held) : arena.Apart kept := by
  refine ⟨h.tidy, fun id hid => h.inRange id (hkept.subset hid), ?_⟩
  obtain ⟨chosen, hperm, hsublist⟩ := hkept
  exact ((hperm.flatMap_right _).nodup_iff).mp (h.nodup.sublist (hsublist.flatMap _))

/-- An arena with one more node is as tidy as the node. -/
theorem tidy_alloc (h : arena.Apart held) (hnull : node ≠ .null)
    (hlinks : ∀ link ∈ node.links, arena.InRange link) : (arena.alloc node).2.Tidy := by
  have hold : ∀ {id node'}, (arena.alloc node).2.get id = .ok node' →
      arena.get id = .ok node' ∨ id.index = arena.size ∧ node' = node := by
    intro id node' hget
    by_cases hlt : id.index < arena.size
    · rw [get_alloc_of_lt hlt] at hget
      exact Or.inl hget
    · have hle : id.index < arena.size + 1 := by
        have hrange := inRange_of_get hget
        rwa [InRange, size, alloc, Array.size_push] at hrange
      have hid : id = (arena.alloc node).1 := by
        obtain ⟨index⟩ := id
        exact congrArg NodeId.mk (Nat.le_antisymm (Nat.le_of_lt_succ hle) (Nat.le_of_not_lt hlt))
      rw [hid, get_alloc_self] at hget
      exact Or.inr ⟨by omega, (Except.ok.inj hget).symm⟩
  constructor
  · intro id node' hget link hlink
    rcases hold hget with hget | ⟨hindex, rfl⟩
    · exact h.tidy.link_lt id node' hget link hlink
    · rw [hindex]
      exact hlinks link hlink
  · intro id hget
    rcases hold hget with hget | ⟨-, heq⟩
    · exact h.tidy.ne_null id hget
    · exact hnull heq.symm

/-- **A new node takes the place of the nodes that it uses up.** -/
theorem alloc (h : arena.Apart (used ++ frame)) (hnull : node ≠ .null)
    (hlinks : (node.links.flatMap arena.below).Sublist (used.flatMap arena.below)) :
    (arena.alloc node).2.Apart ((arena.alloc node).1 :: frame) := by
  have hrange : ∀ link ∈ node.links, arena.InRange link := by
    intro link hlink
    have hmem : link ∈ used.flatMap arena.below :=
      hlinks.subset (List.mem_flatMap.mpr ⟨link, hlink, arena.mem_below_self link⟩)
    obtain ⟨id, hid, hbelow⟩ := List.mem_flatMap.mp hmem
    exact Nat.lt_of_le_of_lt (h.tidy.le_of_mem_below hbelow)
      (h.inRange id (List.mem_append_left frame hid))
  have htidy := h.tidy_alloc hnull hrange
  have hgrows := arena.grows_alloc node
  have hsame : ∀ id, arena.InRange id → (arena.alloc node).2.below id = arena.below id :=
    fun id hid => hgrows.below_eq h.tidy htidy hid
  have hframe : ∀ id ∈ frame, arena.InRange id := fun id hid =>
    h.inRange id (List.mem_append_right used hid)
  refine ⟨htidy, ?_, ?_⟩
  · exact List.forall_mem_cons.mpr ⟨arena.inRange_alloc node, fun id hid =>
      hgrows.inRange (hframe id hid)⟩
  · have hnew : (arena.alloc node).2.below (arena.alloc node).1 =
        (arena.alloc node).1 :: node.links.flatMap arena.below := by
      rw [htidy.below_eq, links_of_get (arena.get_alloc_self node)]
      exact congrArg _ (List.flatMap_congr fun link hlink => hsame link (hrange link hlink))
    rw [List.flatMap_cons, hnew, List.flatMap_congr fun id hid => hsame id (hframe id hid),
      List.cons_append, List.nodup_cons]
    have hall := h.nodup
    rw [List.flatMap_append] at hall
    have hsublist := hlinks.append_right (frame.flatMap arena.below)
    refine ⟨fun hmem => ?_, hall.sublist hsublist⟩
    -- The number of the new node is not in use yet.
    have hmem' := hsublist.subset hmem
    rw [← List.flatMap_append] at hmem'
    obtain ⟨id, hid, hbelow⟩ := List.mem_flatMap.mp hmem'
    have hle := h.tidy.le_of_mem_below hbelow
    have hlt := h.inRange id hid
    exact absurd (Nat.lt_of_le_of_lt hle hlt) (Nat.lt_irrefl _)

/-- Each of several new nodes is there. -/
theorem forall₂_get_allocAll (nodes : List Node) (arena : Arena) :
    List.Forall₂ (fun node id => (arena.allocAll nodes).2.get id = .ok node) nodes
      (arena.allocAll nodes).1 := by
  induction nodes generalizing arena with
  | nil => exact .nil
  | cons node nodes ih =>
    rw [allocAll_cons]
    refine .cons ?_ (ih _)
    exact (grows_allocAll (arena.alloc node).2 nodes).get (arena.get_alloc_self node)

/-- New nodes that keep no numbers share nothing. -/
theorem allocAll {nodes : List Node} (h : arena.Apart frame)
    (hnodes : ∀ node ∈ nodes, node ≠ .null ∧ node.links = []) :
    (arena.allocAll nodes).2.Apart ((arena.allocAll nodes).1 ++ frame) := by
  induction nodes generalizing arena frame with
  | nil => simpa [Arena.allocAll] using h
  | cons node nodes ih =>
    obtain ⟨⟨hnull, hlinks⟩, hrest⟩ := List.forall_mem_cons.mp hnodes
    have hfirst : (arena.alloc node).2.Apart ((arena.alloc node).1 :: frame) := by
      have hnothing : arena.Apart ([] ++ frame) := h
      refine hnothing.alloc hnull ?_
      rw [hlinks]
    rw [allocAll_cons]
    exact (ih hfirst hrest).mono List.perm_middle.symm.subperm

end Apart

/-! ## Nodes that mean something -/

/-- What is stored stays stored, whatever is made later. -/
def Lasting {P : Type} (stored : Arena → P → NodeId → Prop) : Prop :=
  ∀ ⦃before after : Arena⦄ ⦃part : P⦄ ⦃id : NodeId⦄, before.Grows after → stored before part id →
    stored after part id

/-- **Nodes that mean something and share nothing.**  Each is held with its meaning, and stores it. -/
structure Keeps {P : Type} (stored : Arena → P → NodeId → Prop) (arena : Arena)
    (held : List (NodeId × Option P)) : Prop where
  apart : arena.Apart (held.map Prod.fst)
  stored : ∀ entry ∈ held, ∃ part, entry.2 = some part ∧ stored arena part entry.1

namespace Keeps

variable {P : Type} {stored : Arena → P → NodeId → Prop} {held kept used frame : List (NodeId × Option P)}

theorem empty : Keeps stored .empty [] :=
  ⟨.empty, fun _ hentry => absurd hentry List.not_mem_nil⟩

theorem mono (h : Keeps stored arena held) (hkept : kept.Subperm held) :
    Keeps stored arena kept := by
  refine ⟨h.apart.mono ?_, fun entry hentry => h.stored entry (hkept.subset hentry)⟩
  obtain ⟨chosen, hperm, hsublist⟩ := hkept
  exact ⟨_, hperm.map _, hsublist.map _⟩

/-- What a node means is stored for good. -/
theorem grows (hlasting : Lasting stored) (h : Keeps stored before held)
    (hgrows : before.Grows after) :
    ∀ entry ∈ held, ∃ part, entry.2 = some part ∧ stored after part entry.1 := by
  intro entry hentry
  obtain ⟨part, hpart, hstored⟩ := h.stored entry hentry
  exact ⟨part, hpart, hlasting hgrows hstored⟩

/-- **A new node that stores its meaning** takes the place of the nodes that it uses up. -/
theorem alloc (hlasting : Lasting stored) (h : Keeps stored arena (used ++ frame))
    (hnull : node ≠ .null)
    (hlinks : (node.links.flatMap arena.below).Sublist ((used.map Prod.fst).flatMap arena.below))
    {part : P} (hstored : stored (arena.alloc node).2 part (arena.alloc node).1) :
    Keeps stored (arena.alloc node).2 (((arena.alloc node).1, some part) :: frame) := by
  have hold := h.grows hlasting (arena.grows_alloc node)
  have hapart := h.apart
  rw [List.map_append] at hapart
  refine ⟨hapart.alloc hnull hlinks, List.forall_mem_cons.mpr ⟨⟨part, rfl, hstored⟩, ?_⟩⟩
  exact fun entry hentry => hold entry (List.mem_append_right used hentry)

end Keeps

/-! ## Ways down -/

/-- Where one gets to from a node by following the numbers at these places. -/
def follow (arena : Arena) : NodeId → List Nat → Option NodeId
  | id, [] => some id
  | id, place :: path =>
    match (arena.links id)[place]? with
    | some link => arena.follow link path
    | none => none

/-- The node is reached from the other one. -/
def Reaches (arena : Arena) : NodeId → NodeId → Prop :=
  Relation.ReflTransGen fun id link => link ∈ arena.links id

theorem Reaches.exists_path {x : NodeId} (h : arena.Reaches root x) :
    ∃ path, arena.follow root path = some x := by
  induction h using Relation.ReflTransGen.head_induction_on with
  | refl => exact ⟨[], rfl⟩
  | head hlink _ ih =>
    obtain ⟨path, hpath⟩ := ih
    obtain ⟨place, hplace⟩ := List.mem_iff_getElem?.mp hlink
    refine ⟨place :: path, ?_⟩
    rw [follow, hplace]
    exact hpath

/-- A way leads to a node below. -/
theorem Tidy.mem_below_of_follow (h : arena.Tidy) {x : NodeId} {path : List Nat}
    (hpath : arena.follow id path = some x) : x ∈ arena.below id := by
  induction path generalizing id with
  | nil =>
    cases hpath
    exact arena.mem_below_self x
  | cons place path ih =>
    rw [follow] at hpath
    split at hpath
    · next link hlink =>
      rw [h.below_eq]
      refine List.mem_cons_of_mem _ (List.mem_flatMap.mpr ⟨link, ?_, ih hpath⟩)
      exact List.mem_of_getElem? hlink
    · cases hpath

/-- What is reached is no younger. -/
theorem Tidy.le_of_reaches (h : arena.Tidy) {x : NodeId} (hx : arena.Reaches id x) :
    x.index ≤ id.index := by
  obtain ⟨path, hpath⟩ := hx.exists_path
  exact h.le_of_mem_below (h.mem_below_of_follow hpath)

/-- What stands below is reached. -/
theorem Tidy.reaches_of_mem_below (h : arena.Tidy) {x : NodeId} (hx : x ∈ arena.below id) :
    arena.Reaches id x := by
  induction hn : id.index using Nat.strongRecOn generalizing id with
  | _ n ih =>
    rw [h.below_eq, List.mem_cons, List.mem_flatMap] at hx
    rcases hx with rfl | ⟨link, hlink, hx⟩
    · exact .refl
    · exact .head hlink (ih link.index (hn ▸ h.lt_of_mem_links hlink) hx rfl)

/-- Two ways to one node are the same, where nothing is shared. -/
theorem Tidy.path_unique (h : arena.Tidy) {x : NodeId} {path path' : List Nat}
    (hnodup : (arena.below id).Nodup) (hpath : arena.follow id path = some x)
    (hpath' : arena.follow id path' = some x) : path = path' := by
  have hdown : ∀ {id link : NodeId} {place : Nat}, (arena.links id)[place]? = some link →
      link.index < id.index :=
    fun hlink => h.lt_of_mem_links (List.mem_of_getElem? hlink)
  induction path generalizing id path' with
  | nil =>
    cases hpath
    cases path' with
    | nil => rfl
    | cons place path' =>
      rw [follow] at hpath'
      split at hpath'
      · next link hlink =>
        have hle := h.le_of_mem_below (h.mem_below_of_follow hpath')
        exact absurd (hdown hlink) (Nat.not_lt_of_le hle)
      · cases hpath'
  | cons place path ih =>
    rw [follow] at hpath
    split at hpath
    · next link hlink =>
      cases path' with
      | nil =>
        cases hpath'
        have hle := h.le_of_mem_below (h.mem_below_of_follow hpath)
        exact absurd (hdown hlink) (Nat.not_lt_of_le hle)
      | cons place' path' =>
        rw [follow] at hpath'
        split at hpath'
        · next link' hlink' =>
          rw [h.below_eq, List.nodup_cons, List.nodup_flatMap] at hnodup
          obtain ⟨-, hwithin, hbetween⟩ := hnodup
          have hx := h.mem_below_of_follow hpath
          have hx' := h.mem_below_of_follow hpath'
          obtain ⟨hlt, hget⟩ := List.getElem?_eq_some_iff.mp hlink
          obtain ⟨hlt', hget'⟩ := List.getElem?_eq_some_iff.mp hlink'
          have hplaces : place = place' := by
            rcases Nat.lt_trichotomy place place' with hless | heq | hless
            · have hdisjoint := List.pairwise_iff_getElem.mp hbetween _ _ hlt hlt' hless
              exact absurd (hget' ▸ hx') (hdisjoint (hget ▸ hx))
            · exact heq
            · have hdisjoint := List.pairwise_iff_getElem.mp hbetween _ _ hlt' hlt hless
              exact absurd (hget ▸ hx) (hdisjoint (hget' ▸ hx'))
          subst hplaces
          rw [hlink] at hlink'
          cases hlink'
          rw [ih (hwithin link (List.mem_of_getElem? hlink)) hpath hpath']
        · cases hpath'
    · cases hpath

/-- **There is one way to each node that is reached.** -/
theorem Apart.existsUnique_path (h : arena.Apart [root]) {x : NodeId} (hx : arena.Reaches root x) :
    ∃! path, arena.follow root path = some x := by
  have hnodup : (arena.below root).Nodup := by
    have hall := h.nodup
    rwa [List.flatMap_singleton] at hall
  obtain ⟨path, hpath⟩ := hx.exists_path
  exact ⟨path, hpath, fun path' hpath' => h.tidy.path_unique hnodup hpath' hpath⟩

end Arena

end GrammarKit
