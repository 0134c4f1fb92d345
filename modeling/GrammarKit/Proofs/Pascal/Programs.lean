import GrammarKit.Pascal.Syntax
import GrammarKit.Proofs.Arena
import GrammarKit.Proofs.Calc.Lexing

/-!
# Programs

Programs of the Pascal subset as trees of their own: declarations, statements and expressions, with
names, numbers and types that are written as the language asks for.  What a program is made of carries
the proof that it is.

* `Name`, `Number`, `TypeName`: what is written as it is.
* `Expression`, `Statement`, `Program`: what is built from it.
* `Expression.Stored`, `Statement.Stored`, `Program.Stored`: an arena stores it, with this node at the
  top.  Names are stored in small letters, and declarations one by one.
-/

namespace GrammarKit.Pascal

/-! ## Words, names and numbers -/

/-- The words with a meaning. -/
inductive Keyword where
  /-- The word `DIV`. -/
  | div
  /-- The word `PROGRAM`. -/
  | program
  /-- The word `INTEGER`. -/
  | integer
  /-- The word `REAL`. -/
  | real
  /-- The word `VAR`. -/
  | var
  /-- The word `BEGIN`. -/
  | begin
  /-- The word `END`. -/
  | end
  deriving DecidableEq

/-- The word in small letters. -/
def Keyword.letters : Keyword → String
  | .div => "div"
  | .program => "program"
  | .integer => "integer"
  | .real => "real"
  | .var => "var"
  | .begin => "begin"
  | .end => "end"

/-- A way to write a word with a meaning: each letter is capital or small. -/
structure Word (k : Keyword) where
  /-- The letters as they are written. -/
  chars : List Char
  isWord : chars.map Char.toLower = k.letters.toList

/-- The characters are written as this word, if they are. -/
def Word.ofChars? (k : Keyword) (chars : List Char) : Option (Word k) :=
  if h : chars.map Char.toLower = k.letters.toList then some ⟨chars, h⟩ else none

theorem toLower_eq_iff {s t : String} : s.toLower = t ↔ s.toList.map Char.toLower = t.toList := by
  show s.map Char.toLower = t ↔ _
  rw [← String.toList_inj, String.toList_map]

/-- A word with a meaning is known by its small letters. -/
theorem Word.toLower_eq {k : Keyword} (word : Word k) :
    (String.ofList word.chars).toLower = k.letters :=
  toLower_eq_iff.mpr (String.toList_ofList ▸ word.isWord)

/-- A letter or an underscore, and then letters and digits. -/
def isName : List Char → Bool
  | [] => false
  | c :: chars => (c.isAlpha || c == '_') && chars.all Char.isAlphanum

/-- A name. -/
structure Name where
  /-- The characters as they are written. -/
  chars : List Char
  isName : isName chars = true

namespace Name

/-- The characters are a name, if they are. -/
def ofChars? (chars : List Char) : Option Name :=
  if h : Pascal.isName chars = true then some ⟨chars, h⟩ else none

/-- The name as it is written. -/
def text (name : Name) : String := String.ofList name.chars

/-- The name in small letters, by which a variable is known. -/
def folded (name : Name) : String := name.text.toLower

/-- The name does not begin like a word with a meaning, in capital or small letters. -/
def Free (name : Name) : Prop :=
  ∀ k : Keyword, ¬ k.letters.toList <+: name.chars.map Char.toLower

end Name

/-- A number. -/
inductive Number where
  /-- Digits. -/
  | integer (digits : Calc.Numeral)
  /-- Digits, a point, digits. -/
  | real (whole fraction : Calc.Numeral)

namespace Number

/-- The sort of the number. -/
def kind : Number → NumberKind
  | .integer _ => .integer
  | .real _ _ => .real

/-- The number as it is written. -/
def chars : Number → List Char
  | .integer n => n.digits
  | .real whole fraction => whole.digits ++ '.' :: fraction.digits

/-- The number as it is written. -/
def text (n : Number) : String := String.ofList n.chars

end Number

/-- A type. -/
inductive TypeName where
  /-- The type of integers. -/
  | integer (word : Word .integer)
  /-- The type of reals. -/
  | real (word : Word .real)

/-- The type as it is written. -/
def TypeName.text : TypeName → String
  | .integer word => String.ofList word.chars
  | .real word => String.ofList word.chars

/-! ## Programs -/

/-- The operators between two operands. -/
inductive Operator where
  /-- Addition. -/
  | add
  /-- Subtraction. -/
  | sub
  /-- Multiplication. -/
  | mul
  /-- Division that drops the fraction. -/
  | intDiv
  /-- Division that keeps the fraction. -/
  | floatDiv
  deriving DecidableEq

namespace Operator

/-- The operator in a syntax tree. -/
def op : Operator → BinaryOp
  | .add => .add
  | .sub => .sub
  | .mul => .mul
  | .intDiv => .intDiv
  | .floatDiv => .floatDiv

/-- How tightly it binds; a sign in front of an operand binds with `3`. -/
def precedence : Operator → Nat
  | .add | .sub => 1
  | .mul | .intDiv | .floatDiv => 2

end Operator

/-- An expression. -/
inductive Expression where
  /-- A number. -/
  | number (n : Number)
  /-- A variable. -/
  | var (name : Name)
  /-- A sign in front of an operand. -/
  | unary (op : UnaryOp) (operand : Expression)
  /-- An operator between two operands. -/
  | binary (op : Operator) (left right : Expression)

/-- A statement. -/
inductive Statement where
  /-- Statements to be run one after the other. -/
  | compound (statements : List Statement)
  /-- An assignment. -/
  | assign (name : Name) (value : Expression)
  /-- The statement that does nothing. -/
  | empty

/-- A line of declarations: at least one name, and the type of them all. -/
structure Declaration where
  /-- The first name. -/
  first : Name
  /-- The names behind it. -/
  others : List Name
  /-- The type. -/
  type : TypeName

/-- The variables of a line, each with its type. -/
def Declaration.variables (d : Declaration) : List (Name × TypeName) :=
  (d.first :: d.others).map fun name => (name, d.type)

/-- A program. -/
structure Program where
  /-- The name. -/
  name : Name
  /-- The lines of declarations. -/
  declarations : List Declaration
  /-- The statements. -/
  body : List Statement

/-! ## Stored programs -/

/-- The expression is stored, with this node at the top.  An operator is stored as it is written, in
capital or small letters. -/
def Expression.Stored (arena : Arena) : Expression → NodeId → Prop
  | .number n, id => arena.get id = .ok (.const n.kind n.text)
  | .var name, id => arena.get id = .ok (.var name.folded)
  | .unary op operand, id =>
    ∃ child, arena.get id = .ok (.unary op op.symbol child) ∧ operand.Stored arena child
  | .binary op left right, id =>
    ∃ symbol i j, arena.get id = .ok (.binary op.op symbol i j) ∧
      symbol.toLower = op.op.symbol ∧ left.Stored arena i ∧ right.Stored arena j

mutual

/-- The statement is stored, with this node at the top. -/
def Statement.Stored (arena : Arena) : Statement → NodeId → Prop
  | .compound statements, id =>
    ∃ ids, arena.get id = .ok (.compound ids) ∧ Statement.StoredAll arena statements ids
  | .assign name value, id =>
    ∃ left right, arena.get id = .ok (.binary .assign ":=" left right) ∧
      arena.get left = .ok (.var name.folded) ∧ value.Stored arena right
  | .empty, id => arena.get id = .ok .nop

/-- The statements are stored in order, each at its node. -/
def Statement.StoredAll (arena : Arena) : List Statement → List NodeId → Prop
  | [], [] => True
  | statement :: statements, id :: ids =>
    statement.Stored arena id ∧ Statement.StoredAll arena statements ids
  | _, _ => False

end

/-- The lines of declarations are stored, one node for each name. -/
def StoredDeclarations (arena : Arena) (declarations : List Declaration) (ids : List NodeId) :
    Prop :=
  List.Forall₂
    (fun entry id => arena.get id = .ok (.varDecl entry.1.text entry.2.text))
    (declarations.flatMap Declaration.variables) ids

/-- The declarations and the statements are stored as a block. -/
def StoredBlock (arena : Arena) (declarations : List Declaration) (statements : List Statement)
    (id : NodeId) : Prop :=
  ∃ ids body, arena.get id = .ok (.block ids body) ∧ StoredDeclarations arena declarations ids ∧
    (Statement.compound statements).Stored arena body

/-- The program is stored, with this node at the top. -/
def Program.Stored (arena : Arena) (p : Program) (id : NodeId) : Prop :=
  ∃ name block, arena.get id = .ok (.program name block) ∧
    arena.get name = .ok (.var p.name.folded) ∧ StoredBlock arena p.declarations p.body block

/-! ## Growing arenas -/

variable {before after : Arena} {id : NodeId}

theorem Expression.Stored.grows {e : Expression} (h : e.Stored before id)
    (hgrows : before.Grows after) : e.Stored after id := by
  induction e generalizing id with
  | number n => exact hgrows.get h
  | var name => exact hgrows.get h
  | unary op operand ih =>
    obtain ⟨child, hget, hchild⟩ := h
    exact ⟨child, hgrows.get hget, ih hchild⟩
  | binary op left right ihleft ihright =>
    obtain ⟨symbol, i, j, hget, hsymbol, hleft, hright⟩ := h
    exact ⟨symbol, i, j, hgrows.get hget, hsymbol, ihleft hleft, ihright hright⟩

mutual

theorem Statement.Stored.grows (hgrows : before.Grows after) :
    ∀ {s : Statement} {id : NodeId}, s.Stored before id → s.Stored after id
  | .compound statements, _, h => by
    rw [Statement.Stored] at h ⊢
    obtain ⟨ids, hget, hall⟩ := h
    exact ⟨ids, hgrows.get hget, Statement.StoredAll.grows hgrows hall⟩
  | .assign name value, _, h => by
    rw [Statement.Stored] at h ⊢
    obtain ⟨left, right, hget, hleft, hright⟩ := h
    exact ⟨left, right, hgrows.get hget, hgrows.get hleft, hright.grows hgrows⟩
  | .empty, _, h => by
    rw [Statement.Stored] at h ⊢
    exact hgrows.get h

theorem Statement.StoredAll.grows (hgrows : before.Grows after) :
    ∀ {statements : List Statement} {ids : List NodeId},
      Statement.StoredAll before statements ids → Statement.StoredAll after statements ids
  | [], [], _ => True.intro
  | statement :: statements, id :: ids, h => by
    rw [Statement.StoredAll] at h ⊢
    exact ⟨Statement.Stored.grows hgrows h.1, Statement.StoredAll.grows hgrows h.2⟩
  | [], _ :: _, h => h.elim
  | _ :: _, [], h => h.elim

end

theorem StoredDeclarations.grows {declarations : List Declaration} {ids : List NodeId}
    (h : StoredDeclarations before declarations ids) (hgrows : before.Grows after) :
    StoredDeclarations after declarations ids :=
  List.Forall₂.imp (fun _ _ hget => hgrows.get hget) h

theorem StoredBlock.grows {declarations : List Declaration} {statements : List Statement}
    (h : StoredBlock before declarations statements id) (hgrows : before.Grows after) :
    StoredBlock after declarations statements id := by
  obtain ⟨ids, body, hget, hdeclarations, hbody⟩ := h
  exact ⟨ids, body, hgrows.get hget, hdeclarations.grows hgrows, Statement.Stored.grows hgrows hbody⟩

theorem Program.Stored.grows {p : Program} (h : p.Stored before id) (hgrows : before.Grows after) :
    p.Stored after id := by
  obtain ⟨name, block, hget, hname, hblock⟩ := h
  exact ⟨name, block, hgrows.get hget, hgrows.get hname, hblock.grows hgrows⟩

end GrammarKit.Pascal
