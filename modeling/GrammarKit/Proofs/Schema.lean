import GrammarKit.Proofs.Calc.Evaluation
import GrammarKit.Proofs.Ownership
import GrammarKit.Proofs.Pascal.Programs

/-!
# What the nodes of a tree may be

One set of nodes serves both languages, and some nodes serve neither: stand-ins, and pieces that are
on their way into a node.  A schema says which nodes belong into a tree.  Each node plays a role; the
schema says which nodes may play it, and in which roles the nodes follow whose numbers they keep.

## Why a schema besides the stored trees

`Calc.Arith.Stored` and `Pascal.Program.Stored` say more than a schema does, for they name the
expression or the program that is stored.  But they are read from the top down.  A schema is asked of
one node at a time, which is what a reader of the arena has in hand: `Arena.Obeys.of_reaches` says
that a node that is reached has a role and obeys.

* `Arena.Obeys`: a node and all that is reached from it obey a schema.
* `Calc.Allows`, `Pascal.Allows`: the schemas of the two languages.
* `Calc.Arith.Stored.obeys`, `Pascal.Program.Stored.obeys`: what is stored obeys.
-/

namespace GrammarKit

/-! ## Schemas -/

/-- Which nodes may play a role, and in which roles the nodes follow whose numbers they keep. -/
abbrev Schema (R : Type) := R → Node → List R → Prop

namespace Arena

/-- The node may play the role, and the nodes whose numbers it keeps obey in theirs. -/
inductive Obeys {R : Type} (schema : Schema R) (arena : Arena) : R → NodeId → Prop
  | intro {role : R} {id : NodeId} {node : Node} {roles : List R} :
    arena.get id = .ok node → schema role node roles →
    List.Forall₂ (Obeys schema arena) roles node.links → Obeys schema arena role id

variable {R : Type} {schema : Schema R} {arena : Arena} {role : R} {id : NodeId} {node : Node}

/-- A node that keeps no numbers. -/
theorem Obeys.leaf (hget : arena.get id = .ok node) (hschema : schema role node [])
    (hlinks : node.links = []) : arena.Obeys schema role id :=
  .intro hget hschema (hlinks ▸ .nil)

/-- A node whose number is kept obeys in one of the roles that follow. -/
theorem Obeys.of_link (h : arena.Obeys schema role id) {link : NodeId}
    (hlink : link ∈ arena.links id) :
    ∃ node roles, schema role node roles ∧ ∃ role' ∈ roles, arena.Obeys schema role' link := by
  obtain ⟨hget, hschema, hlinks⟩ := h
  rw [links_of_get hget] at hlink
  obtain ⟨place, hlt, rfl⟩ := List.mem_iff_getElem.mp hlink
  have hlt' := hlinks.length_eq ▸ hlt
  exact ⟨_, _, hschema, _, List.getElem_mem hlt', hlinks.get hlt' hlt⟩

/-- What is reached obeys in one of the roles that are never left. -/
theorem Obeys.of_reaches_within {P : R → Prop}
    (hclosed : ∀ role node roles, P role → schema role node roles → ∀ role' ∈ roles, P role')
    (hrole : P role) (h : arena.Obeys schema role id) {x : NodeId} (hx : arena.Reaches id x) :
    ∃ role', P role' ∧ arena.Obeys schema role' x := by
  induction hx with
  | refl => exact ⟨role, hrole, h⟩
  | tail _ hlink ih =>
    obtain ⟨middle, hmiddle, hobeys⟩ := ih
    obtain ⟨node, roles, hschema, role', hrole', hobeys'⟩ := hobeys.of_link hlink
    exact ⟨role', hclosed middle node roles hmiddle hschema role' hrole', hobeys'⟩

/-- **What is reached obeys.** -/
theorem Obeys.of_reaches (h : arena.Obeys schema role id) {x : NodeId} (hx : arena.Reaches id x) :
    ∃ role', arena.Obeys schema role' x := by
  have hclosed : ∀ role node roles, True → schema role node roles → ∀ role' ∈ roles, True :=
    fun _ _ _ _ _ _ _ => True.intro
  obtain ⟨role', -, hobeys⟩ := h.of_reaches_within hclosed True.intro hx
  exact ⟨role', hobeys⟩

/-- Several nodes in one role. -/
theorem forall₂_obeys_iff {ids : List NodeId} :
    List.Forall₂ (arena.Obeys schema) (ids.map fun _ => role) ids ↔
      ∀ id ∈ ids, arena.Obeys schema role id := by
  rw [List.forall₂_map_left_iff, List.forall₂_same]

end Arena

/-! ## The calculator -/

namespace Calc

/-- The nodes of the calculator: integers, signs, and operators between integers.  There is one
role. -/
inductive Allows : Unit → Node → List Unit → Prop
  | integer {text : String} : Decimal.isNumeral text.toList = true →
    Allows () (.const .integer text) []
  | unary (op : UnaryOp) (symbol : String) (operand : NodeId) :
    Allows () (.unary op symbol operand) [()]
  | binary {op : BinaryOp} (symbol : String) (left right : NodeId) :
    op ∈ [BinaryOp.add, .sub, .mul, .intDiv] → Allows () (.binary op symbol left right) [(), ()]

/-- **An expression that is stored obeys.** -/
theorem Arith.Stored.obeys {arena : Arena} {t : Arith} {id : NodeId} (h : t.Stored arena id) :
    arena.Obeys Allows () id := by
  induction t generalizing id with
  | literal n =>
    exact .leaf h (.integer (String.toList_ofList ▸ n.isNumeral)) rfl
  | unary op operand ih =>
    obtain ⟨child, hget, hchild⟩ := h
    exact .intro hget (.unary _ _ _) (.cons (ih hchild) .nil)
  | binary op left right ihleft ihright =>
    obtain ⟨i, j, hget, hleft, hright⟩ := h
    refine .intro hget (.binary _ _ _ ?_) (.cons (ihleft hleft) (.cons (ihright hright) .nil))
    cases op <;> decide

end Calc

/-! ## Pascal -/

namespace Pascal

/-- What a node of a program is for. -/
inductive Role where
  /-- The program. -/
  | program
  /-- The name of the program, or a variable that is assigned to. -/
  | name
  /-- The declarations with the statements that they are for. -/
  | block
  /-- The declaration of one variable. -/
  | declaration
  /-- The statements of the block. -/
  | compound
  /-- A statement. -/
  | statement
  /-- An expression. -/
  | expression

/-- The nodes of a program. -/
inductive Allows : Role → Node → List Role → Prop
  | program (name block : NodeId) : Allows .program (.program name block) [.name, .block]
  | name (text : String) : Allows .name (.var text) []
  | block (declarations : List NodeId) (body : NodeId) :
    Allows .block (.block declarations body)
      ((declarations.map fun _ => .declaration) ++ [.compound])
  | declaration (name : String) {type : String} : type.toLower = "integer" ∨ type.toLower = "real" →
    Allows .declaration (.varDecl name type) []
  | body (statements : List NodeId) :
    Allows .compound (.compound statements) (statements.map fun _ => .statement)
  | compound (statements : List NodeId) :
    Allows .statement (.compound statements) (statements.map fun _ => .statement)
  | nop : Allows .statement .nop []
  | assign (symbol : String) (left right : NodeId) :
    Allows .statement (.binary .assign symbol left right) [.name, .expression]
  | integer {text : String} : Decimal.isNumeral text.toList = true →
    Allows .expression (.const .integer text) []
  | real {text : String} {whole fraction : List Char} :
    Decimal.isNumeral whole = true → Decimal.isNumeral fraction = true →
    text.toList = whole ++ '.' :: fraction → Allows .expression (.const .real text) []
  | var (text : String) : Allows .expression (.var text) []
  | unary (op : UnaryOp) (symbol : String) (operand : NodeId) :
    Allows .expression (.unary op symbol operand) [.expression]
  | binary {op : BinaryOp} (symbol : String) (left right : NodeId) : op ≠ .assign →
    Allows .expression (.binary op symbol left right) [.expression, .expression]

variable {arena : Arena} {id : NodeId}

theorem allows_number (n : Number) : Allows .expression (.const n.kind n.text) [] := by
  cases n with
  | integer n => exact .integer (String.toList_ofList ▸ n.isNumeral)
  | real whole fraction => exact .real whole.isNumeral fraction.isNumeral String.toList_ofList

theorem allows_declaration (name : String) (t : TypeName) :
    Allows .declaration (.varDecl name t.text) [] := by
  cases t with
  | integer word => exact .declaration name (Or.inl word.toLower_eq)
  | real word => exact .declaration name (Or.inr word.toLower_eq)

theorem Expression.Stored.obeys {e : Expression} (h : e.Stored arena id) :
    arena.Obeys Allows .expression id := by
  induction e generalizing id with
  | number n => exact .leaf h (allows_number n) rfl
  | var name => exact .leaf h (.var _) rfl
  | unary op operand ih =>
    obtain ⟨child, hget, hchild⟩ := h
    exact .intro hget (.unary _ _ _) (.cons (ih hchild) .nil)
  | binary op left right ihleft ihright =>
    obtain ⟨symbol, i, j, hget, -, hleft, hright⟩ := h
    refine .intro hget (.binary _ _ _ ?_) (.cons (ihleft hleft) (.cons (ihright hright) .nil))
    cases op <;> decide

mutual

theorem Statement.Stored.obeys : ∀ {s : Statement} {id : NodeId}, s.Stored arena id →
    arena.Obeys Allows .statement id
  | .compound statements, _, h => by
    rw [Statement.Stored] at h
    obtain ⟨ids, hget, hall⟩ := h
    exact .intro hget (.compound ids) (Arena.forall₂_obeys_iff.mpr (Statement.StoredAll.obeys hall))
  | .assign name value, _, h => by
    rw [Statement.Stored] at h
    obtain ⟨left, right, hget, hleft, hright⟩ := h
    have hname : arena.Obeys Allows .name left := .leaf hleft (.name _) rfl
    exact .intro hget (.assign _ _ _) (.cons hname (.cons hright.obeys .nil))
  | .empty, _, h => by
    rw [Statement.Stored] at h
    exact .leaf h .nop rfl

theorem Statement.StoredAll.obeys : ∀ {statements : List Statement} {ids : List NodeId},
    Statement.StoredAll arena statements ids → ∀ id ∈ ids, arena.Obeys Allows .statement id
  | [], [], _ => fun _ hid => absurd hid List.not_mem_nil
  | statement :: statements, id :: ids, h => by
    rw [Statement.StoredAll] at h
    exact List.forall_mem_cons.mpr ⟨Statement.Stored.obeys h.1, Statement.StoredAll.obeys h.2⟩
  | [], _ :: _, h => h.elim
  | _ :: _, [], h => h.elim

end

theorem StoredDeclarations.obeys {declarations : List Declaration} {ids : List NodeId}
    (h : StoredDeclarations arena declarations ids) :
    ∀ id ∈ ids, arena.Obeys Allows .declaration id := by
  intro id hid
  obtain ⟨place, hlt, rfl⟩ := List.mem_iff_getElem.mp hid
  exact .leaf (h.get (h.length_eq ▸ hlt) hlt) (allows_declaration _ _) rfl

theorem StoredBlock.obeys {declarations : List Declaration} {statements : List Statement}
    (h : StoredBlock arena declarations statements id) : arena.Obeys Allows .block id := by
  obtain ⟨ids, body, hget, hdeclarations, hbody⟩ := h
  rw [Statement.Stored] at hbody
  obtain ⟨parts, hparts, hall⟩ := hbody
  have hcompound : arena.Obeys Allows .compound body :=
    .intro hparts (.body parts) (Arena.forall₂_obeys_iff.mpr (Statement.StoredAll.obeys hall))
  refine .intro hget (.block ids body) (List.rel_append ?_ (.cons hcompound .nil))
  exact Arena.forall₂_obeys_iff.mpr hdeclarations.obeys

/-- **A program that is stored obeys.** -/
theorem Program.Stored.obeys {p : Program} (h : p.Stored arena id) :
    arena.Obeys Allows .program id := by
  obtain ⟨name, block, hget, hname, hblock⟩ := h
  have hname' : arena.Obeys Allows .name name := .leaf hname (.name _) rfl
  exact .intro hget (.program name block) (.cons hname' (.cons hblock.obeys .nil))

end Pascal

end GrammarKit
