import GrammarKit.Proofs.Grounded
import GrammarKit.Proofs.Visiting

/-!
# What a drawing shows

A drawing is a list of statements, and the numbers in it come from a count that goes on while the tree
is walked.  What it shows is a tree of labels, without numbers.  A node that is reached on several ways
is shown once for each of them, the name of a program is shown in its label, and the two texts of a
declaration are shown as leaves.

A place of that tree is given by its address, the list of the indices of the children on the way down
from the top.  All places in pre-order, that is, in the order of their addresses, are the numbers of a
drawing: the node statements count them off.  The lines out of a place lead to the places whose
addresses have one index more, in the order of these indices.

* `Display`, `Display.places`: trees of labels, and their places.
* `Display.lines`, `Display.forall₂_targets`: numbered lines, and where they lead.
* `Arena.Displays`: what is shown for a node.
* `Drawing.draws_addNode`: what the walk adds to a drawing.
* `draw_shows`: the document of a tree.
-/

namespace GrammarKit

/-! ## 1.  Trees of labels -/

/-- A tree of labels. -/
inductive Display where
  /-- A label with the trees below it. -/
  | node (label : String) (children : List Display)

namespace Display

/-- The label at the top. -/
def label : Display → String
  | .node label _ => label

/-- The trees below the top. -/
def children : Display → List Display
  | .node _ children => children

/-- A label with nothing below it. -/
def leaf (label : String) : Display := .node label []

mutual

/-- The places of a tree in pre-order, each with its address and with the tree that is there. -/
def places : Display → List (List Nat × Display)
  | .node label children => ([], .node label children) :: placesAll 0 children

/-- The places of trees next to each other, the first of which has this index. -/
def placesAll (index : Nat) : List Display → List (List Nat × Display)
  | [] => []
  | display :: displays =>
    display.places.map (Prod.map (index :: ·) id) ++ placesAll (index + 1) displays

end

/-- The number of places. -/
def size (display : Display) : Nat := display.places.length

/-- The number of places of trees next to each other. -/
def sizeAll : List Display → Nat
  | [] => 0
  | display :: displays => display.size + sizeAll displays

mutual

/-- The lines of a tree whose places are numbered from `me`, from a number to the number of a child.
There is one to each place but the first, and they are in the order of these places. -/
def lines (me : Nat) : Display → List (Nat × Nat)
  | .node _ children => linesAll me (me + 1) children

/-- The lines of trees next to each other that are numbered from `next`, and those that lead to them
from their parent. -/
def linesAll (parent next : Nat) : List Display → List (Nat × Nat)
  | [] => []
  | display :: displays =>
    (parent, next) :: (display.lines next ++ linesAll parent (next + display.size) displays)

end

theorem sizeAll_append (front back : List Display) :
    sizeAll (front ++ back) = sizeAll front + sizeAll back := by
  induction front with
  | nil => exact (Nat.zero_add _).symm
  | cons display front ih => rw [List.cons_append, sizeAll, sizeAll, ih, Nat.add_assoc]

theorem length_placesAll (index : Nat) (displays : List Display) :
    (placesAll index displays).length = sizeAll displays := by
  induction displays generalizing index with
  | nil => rfl
  | cons display displays ih =>
    rw [placesAll, List.length_append, List.length_map, ih]
    rfl

@[simp] theorem size_node (label : String) (children : List Display) :
    (node label children).size = sizeAll children + 1 := by
  rw [size, places, List.length_cons, length_placesAll]

/-- The labels in pre-order. -/
def labels (display : Display) : List String := display.places.map fun place => place.2.label

theorem labels_placesAll (index : Nat) (displays : List Display) :
    (placesAll index displays).map (fun place => place.2.label) = displays.flatMap labels := by
  induction displays generalizing index with
  | nil => rfl
  | cons display displays ih =>
    rw [placesAll, List.map_append, List.map_map, ih, List.flatMap_cons]
    rfl

theorem labels_node (label : String) (children : List Display) :
    (node label children).labels = label :: children.flatMap labels := by
  rw [labels, places, List.map_cons, labels_placesAll]
  rfl

theorem length_labels (display : Display) : display.labels.length = display.size :=
  List.length_map _

theorem length_flatMap_labels (displays : List Display) :
    (displays.flatMap labels).length = sizeAll displays := by
  induction displays with
  | nil => rfl
  | cons display displays ih =>
    rw [List.flatMap_cons, List.length_append, length_labels, ih, sizeAll]

/-- An address of trees next to each other starts with the index of one of them. -/
theorem exists_of_mem_placesAll {index : Nat} {displays : List Display}
    {place : List Nat × Display} (h : place ∈ placesAll index displays) :
    ∃ i path, index ≤ i ∧ place.1 = i :: path := by
  induction displays generalizing index with
  | nil => cases h
  | cons display displays ih =>
    rw [placesAll, List.mem_append] at h
    rcases h with h | h
    · obtain ⟨⟨path, t⟩, -, rfl⟩ := List.mem_map.mp h
      exact ⟨index, path, Nat.le_refl _, rfl⟩
    · obtain ⟨i, path, hi, hplace⟩ := ih h
      exact ⟨i, path, Nat.le_of_succ_le hi, hplace⟩

mutual

/-- **Places come in the order of their addresses**, so no two of them have the same. -/
theorem pairwise_addresses : ∀ display : Display,
    (display.places.map Prod.fst).Pairwise (List.Lex (· < ·))
  | .node label children => by
    rw [places, List.map_cons, List.pairwise_cons]
    refine ⟨fun path hpath => ?_, pairwise_addressesAll 0 children⟩
    obtain ⟨place, hplace, rfl⟩ := List.mem_map.mp hpath
    obtain ⟨i, path, -, hcons⟩ := exists_of_mem_placesAll hplace
    rw [hcons]
    exact .nil

theorem pairwise_addressesAll : ∀ (index : Nat) (displays : List Display),
    ((placesAll index displays).map Prod.fst).Pairwise (List.Lex (· < ·))
  | _, [] => .nil
  | index, display :: displays => by
    rw [placesAll, List.map_append, List.pairwise_append]
    refine ⟨?_, pairwise_addressesAll (index + 1) displays, ?_⟩
    · have hinner := List.pairwise_map.mp (pairwise_addresses display)
      rw [List.pairwise_map, List.pairwise_map]
      exact hinner.imp .cons
    · intro path hpath path' hpath'
      obtain ⟨_, hfirst, rfl⟩ := List.mem_map.mp hpath
      obtain ⟨place, -, rfl⟩ := List.mem_map.mp hfirst
      obtain ⟨place', hplace', rfl⟩ := List.mem_map.mp hpath'
      obtain ⟨i, path, hi, hcons⟩ := exists_of_mem_placesAll hplace'
      rw [hcons]
      exact .rel hi

end

/-! ## 2.  Where the lines lead -/

/-- The numbers that the lines out of `parent` lead to, in order. -/
def targets (parent : Nat) (lines : List (Nat × Nat)) : List Nat :=
  lines.filterMap fun line => if line.1 = parent then some line.2 else none

theorem targets_append (parent : Nat) (front back : List (Nat × Nat)) :
    targets parent (front ++ back) = targets parent front ++ targets parent back :=
  List.filterMap_append

theorem targets_cons_self (parent child : Nat) (lines : List (Nat × Nat)) :
    targets parent ((parent, child) :: lines) = child :: targets parent lines :=
  List.filterMap_cons_some (if_pos rfl)

theorem targets_cons_of_ne {parent parent' : Nat} (h : parent' ≠ parent) (child : Nat)
    (lines : List (Nat × Nat)) : targets parent ((parent', child) :: lines) = targets parent lines :=
  List.filterMap_cons_none (if_neg h)

theorem targets_eq_nil {parent : Nat} {lines : List (Nat × Nat)}
    (h : ∀ line ∈ lines, line.1 ≠ parent) : targets parent lines = [] :=
  List.filterMap_eq_nil_iff.mpr fun line hline => if_neg (h line hline)

mutual

/-- The lines of a tree start at its numbers. -/
theorem range_of_mem_lines {me : Nat} {line : Nat × Nat} :
    ∀ {display : Display}, line ∈ display.lines me → me ≤ line.1 ∧ line.1 < me + display.size
  | .node label children, h => by
    rw [lines] at h
    rw [size_node]
    have hrange := range_of_mem_linesAll h
    omega

theorem range_of_mem_linesAll {parent next : Nat} {line : Nat × Nat} :
    ∀ {displays : List Display}, line ∈ linesAll parent next displays →
      line.1 = parent ∨ next ≤ line.1 ∧ line.1 < next + sizeAll displays
  | [], h => by cases h
  | display :: displays, h => by
    rw [linesAll, List.mem_cons, List.mem_append] at h
    rw [sizeAll]
    rcases h with rfl | h | h
    · exact Or.inl rfl
    · have hrange := range_of_mem_lines h
      omega
    · have hrange := range_of_mem_linesAll h
      omega

end

/-- The lines at the side of a tree do not start at its numbers. -/
theorem targets_linesAll_of_lt {parent next i : Nat} {displays : List Display}
    (hparent : parent ≠ i) (hi : i < next) : targets i (linesAll parent next displays) = [] := by
  refine targets_eq_nil fun line hline => ?_
  have hrange := range_of_mem_linesAll hline
  omega

theorem targets_lines_of_not_range {me i : Nat} {display : Display}
    (h : i < me ∨ me + display.size ≤ i) : targets i (display.lines me) = [] := by
  refine targets_eq_nil fun line hline => ?_
  have hrange := range_of_mem_lines hline
  omega

/-- The numbers are the children of the place with that address, in order, where places are
numbered. -/
def Leads (numbered : List ((List Nat × Display) × Nat)) (path : List Nat) (targets : List Nat)
    (children : List (Display × Nat)) : Prop :=
  List.Forall₂ (fun number child => ((path ++ [child.2], child.1), number) ∈ numbered) targets
    children

theorem Leads.mono {numbered numbered' : List ((List Nat × Display) × Nat)} {path : List Nat}
    {targets : List Nat} {children : List (Display × Nat)} (h : Leads numbered path targets children)
    (hsubset : numbered ⊆ numbered') : Leads numbered' path targets children :=
  h.imp fun _ _ hmem => hsubset hmem

/-- Below a child all addresses have its index in front. -/
theorem Leads.below {display : Display} {next index : Nat} {path : List Nat} {targets : List Nat}
    {children : List (Display × Nat)} (h : Leads (display.places.zipIdx next) path targets children) :
    Leads ((display.places.map (Prod.map (index :: ·) id)).zipIdx next) (index :: path) targets
      children := by
  refine h.imp fun number child hmem => ?_
  rw [List.zipIdx_map]
  exact List.mem_map.mpr ⟨_, hmem, rfl⟩

theorem zipIdx_placesAll_cons (index next : Nat) (display : Display) (displays : List Display) :
    (placesAll index (display :: displays)).zipIdx next =
      (display.places.map (Prod.map (index :: ·) id)).zipIdx next ++
        (placesAll (index + 1) displays).zipIdx (next + display.size) := by
  rw [placesAll, List.zipIdx_append, List.length_map]
  rfl

/-- The lines out of the parent lead to the trees next to each other. -/
theorem leads_parent {parent next : Nat} (index : Nat) (displays : List Display)
    (hparent : parent < next) :
    Leads ((placesAll index displays).zipIdx next) [] (targets parent (linesAll parent next displays))
      (displays.zipIdx index) := by
  induction displays generalizing index next with
  | nil => exact .nil
  | cons display displays ih =>
    -- The parent is older than all that is below it, so the tree itself has no such line.
    rw [linesAll, targets_cons_self, targets_append,
      targets_lines_of_not_range (Or.inl hparent), List.nil_append, List.zipIdx_cons,
      zipIdx_placesAll_cons]
    refine .cons (List.mem_append_left _ ?_) ?_
    · obtain ⟨label, children⟩ := display
      rw [places, List.map_cons, List.zipIdx_cons]
      exact List.mem_cons_self
    · exact (ih (index + 1) (Nat.lt_add_right display.size hparent)).mono
        (List.subset_append_right _ _)

mutual

/-- **The lines out of a place lead to its children, in order.** -/
theorem leads_of_mem_places {me : Nat} {path : List Nat} {t : Display} {i : Nat} :
    ∀ {display : Display}, ((path, t), i) ∈ display.places.zipIdx me →
      Leads (display.places.zipIdx me) path (targets i (display.lines me)) t.children.zipIdx
  | .node label children, h => by
    rw [places, List.zipIdx_cons, List.mem_cons] at h
    rw [places, List.zipIdx_cons, lines]
    rcases h with h | h
    · obtain ⟨⟨rfl, rfl⟩, rfl⟩ := by simpa only [Prod.mk.injEq] using h
      exact (leads_parent 0 children (Nat.lt_succ_self i)).mono (List.subset_cons_self _ _)
    · exact (leads_of_mem_placesAll (Nat.lt_succ_self me) h).mono (List.subset_cons_self _ _)

theorem leads_of_mem_placesAll {parent next index : Nat} {path : List Nat} {t : Display} {i : Nat}
    (hparent : parent < next) :
    ∀ {displays : List Display}, ((path, t), i) ∈ (placesAll index displays).zipIdx next →
      Leads ((placesAll index displays).zipIdx next) path
        (targets i (linesAll parent next displays)) t.children.zipIdx
  | [], h => by cases h
  | display :: displays, h => by
    have hi := List.mem_zipIdx h
    rw [zipIdx_placesAll_cons] at h ⊢
    rw [linesAll, targets_cons_of_ne (by omega), targets_append]
    -- The place is in the first tree or behind it, and no line out of it is in the other part.
    rcases List.mem_append.mp h with h | h
    · rw [List.zipIdx_map] at h
      obtain ⟨⟨⟨path, t⟩, i⟩, hplace, heq⟩ := List.mem_map.mp h
      simp only [Prod.map, id, Prod.mk.injEq] at heq
      obtain ⟨⟨rfl, rfl⟩, rfl⟩ := heq
      have hbefore : i < next + display.size := (List.mem_zipIdx hplace).2.1
      rw [targets_linesAll_of_lt (by omega) hbefore, List.append_nil]
      exact (leads_of_mem_places hplace).below.mono (List.subset_append_left _ _)
    · have hrange := List.mem_zipIdx h
      rw [targets_lines_of_not_range (Or.inr hrange.1), List.nil_append]
      exact (leads_of_mem_placesAll (Nat.lt_add_right display.size hparent) h).mono
        (List.subset_append_right _ _)

end

/-- Trees next to each other are numbered one after the other. -/
theorem linesAll_append (parent next : Nat) (front back : List Display) :
    linesAll parent next (front ++ back) =
      linesAll parent next front ++ linesAll parent (next + sizeAll front) back := by
  induction front generalizing next with
  | nil => rfl
  | cons display front ih =>
    rw [List.cons_append, linesAll, linesAll, ih, sizeAll, Nat.add_assoc, List.cons_append,
      List.append_assoc]

end Display

/-! ## 3.  What is shown for a node -/

/-- **What is shown for a node.** -/
inductive Arena.Displays (arena : Arena) : NodeId → Display → Prop where
  | null {id : NodeId} (hget : arena.get id = .ok .null) : arena.Displays id (.leaf "Null")
  | nop {id : NodeId} (hget : arena.get id = .ok .nop) : arena.Displays id (.leaf "Nop")
  | integer {id : NodeId} {text : String} (hget : arena.get id = .ok (.const .integer text)) :
      arena.Displays id (.leaf ("(int)" ++ labelBreak ++ text))
  | real {id : NodeId} {text : String} (hget : arena.get id = .ok (.const .real text)) :
      arena.Displays id (.leaf ("(float)" ++ labelBreak ++ text))
  | var {id : NodeId} {name : String} (hget : arena.get id = .ok (.var name)) :
      arena.Displays id (.leaf ("Var:" ++ labelBreak ++ name))
  | raw {id : NodeId} {text : String} (hget : arena.get id = .ok (.raw text)) :
      arena.Displays id (.leaf text)
  | unary {id operand : NodeId} {op : UnaryOp} {symbol : String} {below : Display}
      (hget : arena.get id = .ok (.unary op symbol operand)) (h : arena.Displays operand below) :
      arena.Displays id (.node ("unary " ++ op.symbol) [below])
  | binary {id left right : NodeId} {op : BinaryOp} {symbol : String} {first second : Display}
      (hget : arena.get id = .ok (.binary op symbol left right)) (hleft : arena.Displays left first)
      (hright : arena.Displays right second) : arena.Displays id (.node op.symbol [first, second])
  | compound {id : NodeId} {statements : List NodeId} {below : List Display}
      (hget : arena.get id = .ok (.compound statements))
      (h : List.Forall₂ arena.Displays statements below) :
      arena.Displays id (.node "CompoundStatement" below)
  | titled {id name body : NodeId} {title : String} {below : Display}
      (hget : arena.get id = .ok (.program name body)) (hname : arena.get name = .ok (.var title))
      (h : arena.Displays body below) :
      arena.Displays id (.node ("Program" ++ labelBreak ++ title) [below])
  | untitled {id name body : NodeId} {other : Node} {below : Display}
      (hget : arena.get id = .ok (.program name body)) (hname : arena.get name = .ok other)
      (hother : ∀ title, other ≠ .var title) (h : arena.Displays body below) :
      arena.Displays id (.node ("Program" ++ labelBreak) [below])
  | block {id body : NodeId} {declarations : List NodeId} {first : List Display} {last : Display}
      (hget : arena.get id = .ok (.block declarations body))
      (hdeclarations : List.Forall₂ arena.Displays declarations first)
      (hbody : arena.Displays body last) : arena.Displays id (.node "Block" (first ++ [last]))
  | varDecl {id : NodeId} {name type : String} (hget : arena.get id = .ok (.varDecl name type)) :
      arena.Displays id (.node "VarDecl" [.leaf name, .leaf type])
  | rawList {id : NodeId} {items : List NodeId} {below : List Display}
      (hget : arena.get id = .ok (.rawList items)) (h : List.Forall₂ arena.Displays items below) :
      arena.Displays id (.node "List" below)

namespace Arena

variable {arena : Arena} {id : NodeId} {display : Display}

/-- A list of trees splits where the list of nodes does. -/
theorem forall₂_append_left {A B : Type} {R : A → B → Prop} {front back : List A} {bs : List B}
    (h : List.Forall₂ R (front ++ back) bs) :
    ∃ bs₁ bs₂, List.Forall₂ R front bs₁ ∧ List.Forall₂ R back bs₂ ∧ bs = bs₁ ++ bs₂ := by
  induction front generalizing bs with
  | nil => exact ⟨[], bs, .nil, h, rfl⟩
  | cons a front ih =>
    obtain ⟨b, rest, hb, hrest, rfl⟩ := List.forall₂_cons_left_iff.mp h
    obtain ⟨bs₁, bs₂, hfront, hback, rfl⟩ := ih hrest
    exact ⟨b :: bs₁, bs₂, .cons hb hfront, hback, rfl⟩

theorem exists_of_forall₂_singleton {A B : Type} {R : A → B → Prop} {a : A} {bs : List B}
    (h : List.Forall₂ R [a] bs) : ∃ b, R a b ∧ bs = [b] := by
  obtain ⟨b, rest, hb, hrest, rfl⟩ := List.forall₂_cons_left_iff.mp h
  rw [List.forall₂_nil_left_iff.mp hrest]
  exact ⟨b, hb, rfl⟩

/-- What is shown for a node is its label, with its leaves and its children below it. -/
theorem displays_iff :
    arena.Displays id display ↔ ∃ node label below, arena.get id = .ok node ∧
      arena.label node = .ok label ∧ List.Forall₂ arena.Displays node.children below ∧
      display = .node label ((Drawing.leaves node).map .leaf ++ below) := by
  constructor
  · intro h
    cases h with
    | null hget | nop hget | integer hget | real hget | var hget | raw hget | varDecl hget =>
      exact ⟨_, _, [], hget, rfl, .nil, rfl⟩
    | unary hget h => exact ⟨_, _, _, hget, rfl, .cons h .nil, rfl⟩
    | binary hget hleft hright => exact ⟨_, _, _, hget, rfl, .cons hleft (.cons hright .nil), rfl⟩
    | compound hget h | rawList hget h => exact ⟨_, _, _, hget, rfl, h, rfl⟩
    | titled hget hname h =>
      exact ⟨_, _, _, hget, by rw [label, hname], .cons h .nil, rfl⟩
    | @untitled _ name body other _ hget hname hother h =>
      refine ⟨_, _, _, hget, ?_, .cons h .nil, rfl⟩
      rw [label, hname]
      cases other with
      | var title => exact absurd rfl (hother title)
      | _ => rfl
    | block hget hdeclarations hbody =>
      exact ⟨_, _, _, hget, rfl, List.rel_append hdeclarations (.cons hbody .nil), rfl⟩
  · rintro ⟨node, label, below, hget, hlabel, hbelow, rfl⟩
    cases node with
    | null | nop | var | raw | varDecl =>
      cases hlabel
      cases hbelow
      constructor
      exact hget
    | const kind text =>
      cases hbelow
      cases kind <;> cases hlabel
      · exact .integer hget
      · exact .real hget
    | unary op symbol operand =>
      cases hlabel
      obtain ⟨first, hfirst, rfl⟩ := exists_of_forall₂_singleton hbelow
      exact .unary hget hfirst
    | binary op symbol left right =>
      cases hlabel
      obtain ⟨first, rest, hfirst, hrest, rfl⟩ := List.forall₂_cons_left_iff.mp hbelow
      obtain ⟨second, hsecond, rfl⟩ := exists_of_forall₂_singleton hrest
      exact .binary hget hfirst hsecond
    | compound statements =>
      cases hlabel
      exact .compound hget hbelow
    | rawList items =>
      cases hlabel
      exact .rawList hget hbelow
    | block declarations body =>
      cases hlabel
      obtain ⟨first, rest, hfirst, hrest, rfl⟩ := forall₂_append_left hbelow
      obtain ⟨last, hlast, rfl⟩ := exists_of_forall₂_singleton hrest
      exact .block hget hfirst hlast
    | program name body =>
      obtain ⟨first, hfirst, rfl⟩ := exists_of_forall₂_singleton hbelow
      rw [Arena.label] at hlabel
      cases hname : arena.get name with
      | error fault =>
        rw [hname] at hlabel
        cases hlabel
      | ok other =>
        rw [hname] at hlabel
        cases other with
        | var title =>
          cases hlabel
          exact .titled hget hname hfirst
        | _ =>
          cases hlabel
          exact .untitled hget hname (fun _ => Node.noConfusion) hfirst

/-- If each node of a list stands for one tree, the list stands for one list of trees. -/
theorem existsUnique_forall₂ {A B : Type} {R : A → B → Prop} {as : List A}
    (h : ∀ a ∈ as, ∃! b, R a b) : ∃! bs, List.Forall₂ R as bs := by
  induction as with
  | nil => exact ⟨[], .nil, fun bs hbs => List.forall₂_nil_left_iff.mp hbs⟩
  | cons a as ih =>
    obtain ⟨⟨b, hb, hbunique⟩, has⟩ := List.forall_mem_cons.mp h
    obtain ⟨bs, hbs, hbsunique⟩ := ih has
    refine ⟨b :: bs, .cons hb hbs, fun bs' hbs' => ?_⟩
    obtain ⟨b', rest, hb', hrest, rfl⟩ := List.forall₂_cons_left_iff.mp hbs'
    rw [hbunique b' hb', hbsunique rest hrest]

/-- **One tree is shown for each node** whose ways down come to an end. -/
theorem Grounded.existsUnique_displays (h : arena.Grounded id) :
    ∃! display, arena.Displays id display := by
  refine h.induction fun id node hgrounded hget hbelow => ?_
  have hlinks : ∀ link ∈ node.links, arena.InRange link := fun link hlink => by
    rw [← links_of_get hget] at hlink
    exact hgrounded.inRange link (.single hlink)
  obtain ⟨label, hlabel⟩ := Drawing.exists_label hlinks
  obtain ⟨below, hchildren, hunique⟩ := existsUnique_forall₂ fun child hchild =>
    hbelow child (Drawing.children_subset_links node hchild)
  refine ⟨_, displays_iff.mpr ⟨node, label, below, hget, hlabel, hchildren, rfl⟩, ?_⟩
  intro other hother
  obtain ⟨node', label', below', hget', hlabel', hchildren', rfl⟩ := displays_iff.mp hother
  cases hget.symm.trans hget'
  cases hlabel.symm.trans hlabel'
  rw [hunique below' hchildren']

end Arena

/-! ## 4.  What the walk adds -/

namespace Drawing

/-- The node statements of a drawing, each label with its number. -/
def nodes (drawing : Drawing) : List (String × Nat) :=
  drawing.toList.filterMap fun
    | .node number label => some (label, number)
    | .line _ _ => none

/-- The line statements of a drawing, from a number to a number. -/
def lines (drawing : Drawing) : List (Nat × Nat) :=
  drawing.toList.filterMap fun
    | .node _ _ => none
    | .line parent child => some (parent, child)

variable {drawing before between after : Drawing}

@[simp] theorem nodes_push_node (drawing : Drawing) (number : Nat) (label : String) :
    nodes (drawing.push (.node number label)) = drawing.nodes ++ [(label, number)] := by
  rw [nodes, Array.toList_push, List.filterMap_append]
  rfl

@[simp] theorem nodes_push_line (drawing : Drawing) (parent child : Nat) :
    nodes (drawing.push (.line parent child)) = drawing.nodes := by
  rw [nodes, Array.toList_push, List.filterMap_append]
  exact List.append_nil _

@[simp] theorem lines_push_node (drawing : Drawing) (number : Nat) (label : String) :
    lines (drawing.push (.node number label)) = drawing.lines := by
  rw [lines, Array.toList_push, List.filterMap_append]
  exact List.append_nil _

@[simp] theorem lines_push_line (drawing : Drawing) (parent child : Nat) :
    lines (drawing.push (.line parent child)) = drawing.lines ++ [(parent, child)] := by
  rw [lines, Array.toList_push, List.filterMap_append]
  rfl

/-- One drawing goes on from another with these statements. -/
structure Adds (before after : Drawing) (labels : List (String × Nat)) (links : List (Nat × Nat)) :
    Prop where
  nodes_eq : after.nodes = before.nodes ++ labels
  lines_eq : after.lines = before.lines ++ links

/-- Below `parent` the trees are drawn next to each other, the first of them as number `last + 1`. -/
def AddsAll (parent : Nat) (displays : List Display) (before after : Nat × Drawing) : Prop :=
  after.1 = before.1 + Display.sizeAll displays ∧
    before.2.Adds after.2 ((displays.flatMap Display.labels).zipIdx (before.1 + 1))
      (Display.linesAll parent (before.1 + 1) displays)

theorem Adds.trans {labels labels' : List (String × Nat)} {links links' : List (Nat × Nat)}
    (h : before.Adds between labels links) (h' : between.Adds after labels' links') :
    before.Adds after (labels ++ labels') (links ++ links') := by
  refine ⟨?_, ?_⟩
  · rw [h'.nodes_eq, h.nodes_eq, List.append_assoc]
  · rw [h'.lines_eq, h.lines_eq, List.append_assoc]

theorem AddsAll.append {parent : Nat} {front back : List Display} {s s' s'' : Nat × Drawing}
    (h : AddsAll parent front s s') (h' : AddsAll parent back s' s'') :
    AddsAll parent (front ++ back) s s'' := by
  obtain ⟨hlast, hadds⟩ := h
  obtain ⟨hlast', hadds'⟩ := h'
  refine ⟨?_, ?_⟩
  · rw [hlast', hlast, Display.sizeAll_append, Nat.add_assoc]
  · have hnext : s'.1 + 1 = s.1 + 1 + Display.sizeAll front := by omega
    rw [hnext] at hadds'
    rw [List.flatMap_append, List.zipIdx_append, Display.length_flatMap_labels,
      Display.linesAll_append]
    exact hadds.trans hadds'

/-- A line to a tree, and the tree. -/
theorem AddsAll.single {parent last last' : Nat} {display : Display}
    (hlast : last' = last + display.size)
    (h : Adds (drawing.push (.line parent (last + 1))) after (display.labels.zipIdx (last + 1))
      (display.lines (last + 1))) :
    AddsAll parent [display] (last, drawing) (last', after) := by
  refine ⟨hlast, ?_, ?_⟩
  · rw [h.nodes_eq, nodes_push_line, List.flatMap_singleton]
  · rw [h.lines_eq, lines_push_line, Display.linesAll, Display.linesAll, List.append_nil,
      List.append_assoc, List.singleton_append]

/-- The leaves of a declaration are drawn like trees, though the lines to them come behind them. -/
theorem addsAll_addLeaves (parent last : Nat) (texts : List String) (drawing : Drawing) :
    AddsAll parent (texts.map .leaf) (last, drawing) (addLeaves parent last texts drawing) := by
  induction texts generalizing last drawing with
  | nil => exact ⟨rfl, (List.append_nil _).symm, (List.append_nil _).symm⟩
  | cons text texts ih =>
    have hfirst : AddsAll parent [.leaf text] (last, drawing)
        (last + 1, (drawing.push (.node (last + 1) text)).push (.line parent (last + 1))) := by
      refine ⟨rfl, ?_, ?_⟩
      · rw [nodes_push_line, nodes_push_node]
        rfl
      · rw [lines_push_line, lines_push_node]
        rfl
    exact hfirst.append (ih (last + 1) _)

/-- The node is drawn as the tree, with any number at its top and behind any drawing. -/
def Draws (add : Nat → NodeId → Drawing → Except TreeFault (Nat × Drawing)) (id : NodeId)
    (display : Display) : Prop :=
  ∀ me drawing, ∃ last after, add me id drawing = .ok (last, after) ∧
    last + 1 = me + display.size ∧
    drawing.Adds after (display.labels.zipIdx me) (display.lines me)

/-- Children that are drawn one after the other. -/
theorem exists_addsAll {add : Nat → NodeId → Drawing → Except TreeFault (Nat × Drawing)} {me : Nat}
    {ids : List NodeId} {displays : List Display}
    (h : List.Forall₂ (Draws add) ids displays)
    (start : Nat × Drawing) :
    ∃ result, ids.foldlM (fun (last, drawing) child =>
        add (last + 1) child (drawing.push (.line me (last + 1)))) start = .ok result ∧
      AddsAll me displays start result := by
  induction h generalizing start with
  | nil => exact ⟨start, rfl, rfl, (List.append_nil _).symm, (List.append_nil _).symm⟩
  | @cons id display ids displays hdraws _ ih =>
    obtain ⟨last, drawing⟩ := start
    obtain ⟨last', after, hadd, hlast, hadds⟩ :=
      hdraws (last + 1) (drawing.push (.line me (last + 1)))
    obtain ⟨result, hrest, hresult⟩ := ih (last', after)
    refine ⟨result, ?_, (AddsAll.single (by omega) hadds).append hresult⟩
    rw [List.foldlM_cons]
    dsimp only
    rw [hadd]
    exact hrest

/-- **A node is drawn as what is shown for it.** -/
theorem draws_addNode {arena : Arena} {id : NodeId} {display : Display} (h : arena.Grounded id)
    {height : Nat} (hheight : arena.depth id < height) (hdisplay : arena.Displays id display) :
    Draws (addNode arena height) id display := by
  induction height generalizing id display with
  | zero => exact absurd hheight (Nat.not_lt_zero _)
  | succ height ih =>
    obtain ⟨node, label, below, hget, hlabel, hbelow, rfl⟩ := Arena.displays_iff.mp hdisplay
    obtain ⟨lower, hlower, hlinks⟩ := h.exists_lower hget hheight
    cases hlower
    intro me drawing
    have hchildren : List.Forall₂ (Draws (addNode arena height)) node.children below := by
      have hmem : ∀ child ∈ node.children, child ∈ node.links := children_subset_links node
      refine ((List.forall₂_and_left _ _).mpr ⟨hmem, hbelow⟩).imp fun child display hchild => ?_
      exact ih (hlinks child hchild.1).1 (hlinks child hchild.1).2 hchild.2
    have hleaves := addsAll_addLeaves me me (leaves node) (drawing.push (.node me label))
    obtain ⟨⟨last, after⟩, hfold, hrest⟩ := exists_addsAll hchildren
      (addLeaves me me (leaves node) (drawing.push (.node me label)))
    obtain ⟨hlast, hadds⟩ := hleaves.append hrest
    refine ⟨last, after, ?_, ?_, ?_, ?_⟩
    · rw [addNode, hget]
      dsimp only
      rw [hlabel]
      exact hfold
    · rw [Display.size_node]
      omega
    · rw [hadds.nodes_eq, nodes_push_node, Display.labels_node, List.zipIdx_cons,
        List.append_assoc, List.singleton_append]
    · rw [hadds.lines_eq, lines_push_node]
      rfl

/-- A document is a header, one line for each statement, and a brace. -/
theorem render_eq_join (drawing : Drawing) :
    drawing.render = header ++ String.join (drawing.toList.map Stroke.text) ++ "\x7d\n" := by
  have hfold : ∀ (strokes : List Stroke) (document : String),
      strokes.foldl (fun document stroke => document ++ stroke.text) document =
        document ++ String.join (strokes.map Stroke.text) := by
    intro strokes
    induction strokes with
    | nil => exact fun document => String.append_empty.symm
    | cons stroke strokes ih =>
      intro document
      rw [List.foldl_cons, ih, List.map_cons, String.join_cons, String.append_assoc]
  rw [render, ← Array.foldl_toList, hfold]

end Drawing

/-! ## 5.  Documents -/

/-- **The document of a tree shows the tree.**  Between the header and the closing brace there is a line
for each statement: the number and the label of a node, each quote of the label behind a backslash, or
two numbers with an arrow.  The node statements count off the places in the order of their addresses,
each with its label.  No line starts elsewhere, and the lines out of the number of a place lead to the
numbers of its children, in order and once to each. -/
theorem draw_shows {arena : Arena} {root : NodeId} (h : arena.Grounded root) :
    ∃ display, arena.Displays root display ∧
      (∀ other, arena.Displays root other → other = display) ∧
      (display.places.map Prod.fst).Pairwise (List.Lex (· < ·)) ∧
      ∃ drawing : Drawing,
        Tree.draw ⟨arena, root⟩ = .ok
          ("digraph astgraph \x7b\n" ++
            "node [shape=circle, fontsize=12, fontname=\"Courier\", height=.1];\n" ++
            "ranksep=.3;\n" ++
            "edge [arrowsize=.5]\n\n" ++
            String.join (drawing.toList.map fun
              | .node number label => "  node" ++ toString number ++ " [label=\"" ++
                  String.ofList (label.toList.flatMap fun c =>
                    if c = '"' then ['\\', '"'] else [c]) ++ "\"]\n"
              | .line parent child =>
                  "  node" ++ toString parent ++ " -> node" ++ toString child ++ "\n") ++
            "\x7d\n") ∧
        drawing.nodes = (display.places.map fun place => place.2.label).zipIdx ∧
        (∀ line ∈ drawing.lines, line.1 < display.places.length) ∧
        ∀ i path t, display.places[i]? = some (path, t) →
          List.Forall₂ (fun j child => display.places[j]? = some (path ++ [child.2], child.1))
            (Display.targets i drawing.lines) t.children.zipIdx := by
  obtain ⟨display, hdisplay, hunique⟩ := h.existsUnique_displays
  obtain ⟨last, drawing, hadd, -, hadds⟩ :=
    Drawing.draws_addNode h h.depth_lt_height hdisplay 0 #[]
  have hlines : drawing.lines = display.lines 0 := hadds.lines_eq
  refine ⟨display, hdisplay, hunique, display.pairwise_addresses, drawing, ?_, hadds.nodes_eq, ?_,
    ?_⟩
  · have hdraw : Tree.draw ⟨arena, root⟩ = .ok drawing.render := by
      rw [Tree.draw, Drawing.ofTree, Tree.height, hadd]
      rfl
    rw [hdraw, Drawing.render_eq_join]
    refine congrArg (fun lines => Except.ok (Drawing.header ++ String.join lines ++ "\x7d\n"))
      (List.map_congr_left fun stroke _ => ?_)
    cases stroke with
    | node number label => rfl
    | line parent child => rfl
  · intro line hline
    rw [hlines] at hline
    have hrange := Display.range_of_mem_lines hline
    rw [Nat.zero_add] at hrange
    exact hrange.2
  · intro i path t hplace
    rw [hlines]
    have hleads := Display.leads_of_mem_places (List.mk_mem_zipIdx_iff_getElem?.mpr hplace)
    exact hleads.imp fun j child hmem => List.mk_mem_zipIdx_iff_getElem?.mp hmem

/-- A program whose one statement is run twice: it is shown twice, behind the leaves of the
declaration. -/
theorem draw_shows_shared :
    let arena : Arena := ⟨#[.var "p", .varDecl "x" "INTEGER", .const .integer "1",
      .unary .minus "-" ⟨2⟩, .var "x", .binary .assign ":=" ⟨4⟩ ⟨3⟩, .compound [⟨5⟩, ⟨5⟩],
      .block [⟨1⟩] ⟨6⟩, .program ⟨0⟩ ⟨7⟩]⟩
    let document : String :=
      "digraph astgraph \x7b\n" ++
      "node [shape=circle, fontsize=12, fontname=\"Courier\", height=.1];\n" ++
      "ranksep=.3;\n" ++
      "edge [arrowsize=.5]\n\n" ++
      "  node0 [label=\"Program\\np\"]\n  node0 -> node1\n" ++
      "  node1 [label=\"Block\"]\n  node1 -> node2\n" ++
      "  node2 [label=\"VarDecl\"]\n" ++
      "  node3 [label=\"x\"]\n  node2 -> node3\n" ++
      "  node4 [label=\"INTEGER\"]\n  node2 -> node4\n" ++
      "  node1 -> node5\n  node5 [label=\"CompoundStatement\"]\n" ++
      "  node5 -> node6\n  node6 [label=\":=\"]\n" ++
      "  node6 -> node7\n  node7 [label=\"Var:\\nx\"]\n" ++
      "  node6 -> node8\n  node8 [label=\"unary -\"]\n" ++
      "  node8 -> node9\n  node9 [label=\"(int)\\n1\"]\n" ++
      "  node5 -> node10\n  node10 [label=\":=\"]\n" ++
      "  node10 -> node11\n  node11 [label=\"Var:\\nx\"]\n" ++
      "  node10 -> node12\n  node12 [label=\"unary -\"]\n" ++
      "  node12 -> node13\n  node13 [label=\"(int)\\n1\"]\n" ++
      "\x7d\n"
    let negated : Display :=
      .node ("unary " ++ UnaryOp.minus.symbol) [.leaf ("(int)" ++ labelBreak ++ "1")]
    let assigned : Display :=
      .node BinaryOp.assign.symbol [.leaf ("Var:" ++ labelBreak ++ "x"), negated]
    arena.Grounded ⟨8⟩ ∧ Tree.draw ⟨arena, ⟨8⟩⟩ = .ok document ∧
      ∃ display, arena.Displays ⟨8⟩ display ∧ ∃ drawing : Drawing, document = drawing.render ∧
        drawing.nodes = [("Program\\np", 0), ("Block", 1), ("VarDecl", 2), ("x", 3),
          ("INTEGER", 4), ("CompoundStatement", 5), (":=", 6), ("Var:\\nx", 7), ("unary -", 8),
          ("(int)\\n1", 9), (":=", 10), ("Var:\\nx", 11), ("unary -", 12), ("(int)\\n1", 13)] ∧
        List.Forall₂ (fun j child => display.places[j]? = some ([0, 1] ++ [child.2], child.1))
          (Display.targets 5 drawing.lines) [(assigned, 0), (assigned, 1)] := by
  intro arena document negated assigned
  have hrank : ∀ x, arena.InRange x → ∀ link ∈ arena.links x,
      arena.InRange link ∧ link.index < x.index := by
    rintro ⟨index⟩ hindex
    have hall : ∀ index < 9, ∀ link ∈ arena.links ⟨index⟩,
        link.index < 9 ∧ link.index < index := by decide
    exact hall index hindex
  have hgrounded : arena.Grounded ⟨8⟩ := Arena.grounded_of_rank hrank (show 8 < 9 by decide)
  have hassigned : arena.Displays ⟨5⟩ assigned := .binary rfl (.var rfl) (.unary rfl (.integer rfl))
  have hblock : arena.Displays ⟨7⟩ (.node "Block" ([.node "VarDecl" [.leaf "x", .leaf "INTEGER"]] ++
      [.node "CompoundStatement" [assigned, assigned]])) :=
    .block rfl (.cons (.varDecl rfl) .nil)
      (.compound rfl (.cons hassigned (.cons hassigned .nil)))
  have hprogram : arena.Displays ⟨8⟩ (.node ("Program" ++ labelBreak ++ "p") [_]) :=
    .titled rfl rfl hblock
  have hdocument : Tree.draw ⟨arena, ⟨8⟩⟩ = .ok document := by decide +kernel
  obtain ⟨display, hdisplay, hunique, -, drawing, hdraw, hnodes, -, hlines⟩ := draw_shows hgrounded
  cases hunique _ hprogram
  refine ⟨hgrounded, hdocument, _, hdisplay, drawing, ?_, hnodes.trans (by decide),
    hlines 5 [0, 1] _ rfl⟩
  have hwritten := Except.ok.inj (hdocument.symm.trans hdraw)
  rw [hwritten, Drawing.render_eq_join]
  rfl

end GrammarKit
