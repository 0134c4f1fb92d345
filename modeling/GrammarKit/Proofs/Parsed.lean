import GrammarKit.Language
import GrammarKit.Proofs.Calc.Custody
import GrammarKit.Proofs.Pascal.Printing
import GrammarKit.Proofs.Running

/-!
# Trees that were parsed

What holds of the tree of every text, in either language.  The arena also holds what the parser tried
in vain, but none of that is reached from the root: the nodes that are belong to one expression or to
one program, and they share nothing.  So whoever walks down the tree may do without the checks that an
arena asks for.

* `Language.parse_obeys`: the nodes are those of the language, and little may stop a run.
* `Language.parse_walks`: there is one way to each node, and walks come by it at most once.
-/

namespace GrammarKit

/-- The walk comes to the result.  It looks up nodes that are reached from the root, and none of them
twice. -/
structure Traced.LooksOnce {A : Type} (walk : Traced A) (tree : Tree) (result : A) : Prop where
  value : walk.value = result
  reached : ∀ id ∈ walk.visited, tree.arena.Reaches tree.root id
  nodup : walk.visited.Nodup

theorem Traced.looksOnce_of_sublist {A : Type} {walk : Traced A} {tree : Tree} {result : A}
    (h : tree.arena.Apart [tree.root]) (hvalue : walk.value = result)
    (hvisited : walk.visited.Sublist (tree.arena.below tree.root)) :
    walk.LooksOnce tree result := by
  have hnodup := h.nodup
  rw [List.flatMap_singleton] at hnodup
  exact ⟨hvalue, fun id hid => h.tidy.reaches_of_mem_below (hvisited.subset hid),
    hnodup.sublist hvisited⟩

theorem of_mapError_eq_ok {E F A : Type} {f : E → F} {x : Except E A} {a : A}
    (h : x.mapError f = .ok a) : x = .ok a := by
  cases x with
  | error why => cases h
  | ok a' => exact congrArg Except.ok (Except.ok.inj h)

namespace Language

variable {lang : Language} {source : String} {tree : Tree}

theorem apart_of_parse (h : lang.parse source = .ok tree) : tree.arena.Apart [tree.root] := by
  cases lang
  · obtain ⟨-, -, hapart⟩ := Calc.exists_arith_of_parse (of_mapError_eq_ok h)
    exact hapart
  · obtain ⟨-, -, -, hapart⟩ := Pascal.exists_yields_of_parse (of_mapError_eq_ok h)
    exact hapart

theorem obeys_of_calc_parse (h : Language.calc.parse source = .ok tree) :
    tree.arena.Obeys Calc.Allows () tree.root := by
  obtain ⟨t, hstored, -⟩ := Calc.exists_arith_of_parse (of_mapError_eq_ok h)
  exact hstored.obeys

theorem obeys_of_pascal_parse (h : Language.pascal.parse source = .ok tree) :
    tree.arena.Obeys Pascal.Allows .program tree.root := by
  obtain ⟨p, -, hstored, -⟩ := Pascal.exists_yields_of_parse (of_mapError_eq_ok h)
  exact hstored.obeys

/-- What is printed in the calculator is parsed, and comes to its outcome. -/
theorem exists_calc_parse {t : Calc.Arith} {lexemes : List Calc.Lexeme}
    (hprints : Calc.Prints 1 t lexemes) (hspaced : Calc.Spaced lexemes source.toList) :
    ∃ tree, Language.calc.parse source = .ok tree ∧ Calc.eval tree = t.outcome := by
  have htokens := Calc.spelling_of_spaced hprints.operand.isChain hspaced
  obtain ⟨tree, hparse, hstored, hdepth⟩ :=
    Calc.exists_tree_of_reads (Calc.reads_expr (hprints.readsAt _ htokens))
  exact ⟨tree, by rw [Language.parse, hparse]; rfl, hstored.evalNode_eq hdepth⟩

/-- What is printed in Pascal is parsed. -/
theorem exists_pascal_parse {p : Pascal.Program} {lexemes : List Pascal.Lexeme}
    (hprints : p.Prints lexemes) (hfree : ∀ name ∈ p.names, name.Free)
    (hlaid : Pascal.LaidOut lexemes source.toList) :
    ∃ tree, Language.pascal.parse source = .ok tree := by
  have htokens := Pascal.spelling_of_laidOut (hprints.free hfree) hlaid
  obtain ⟨tree, hparse, -⟩ := Pascal.exists_tree_of_reads (hprints.reads htokens)
  exact ⟨tree, by rw [Language.parse, hparse]; rfl⟩

/-- **The tree of a text obeys the schema of its language**, and nowhere in the arena is there a
stand-in.  Of the calculator only a literal that is too large is refused, and all nodes have values.
A run of Pascal, whatever the variables are, is stopped by a division by zero, by a variable without a
value, or by nothing. -/
theorem parse_obeys (h : lang.parse source = .ok tree) :
    (∀ id, tree.arena.get id ≠ .ok .null) ∧
    (lang = .calc →
      tree.arena.Obeys Calc.Allows () tree.root ∧
      (∀ id, tree.arena.Reaches tree.root id → tree.arena.Obeys Calc.Allows () id) ∧
      (∀ node, Calc.eval tree ≠ .error (.unsupported node)) ∧
      ∀ text, Calc.eval tree = .error (.invalidNumber text) →
        2147483647 < Nat.ofDigitChars 10 text.toList 0 ∧
        ∃ id, tree.arena.Reaches tree.root id ∧ tree.arena.get id = .ok (.const .integer text)) ∧
    (lang = .pascal →
      tree.arena.Obeys Pascal.Allows .program tree.root ∧
      (∀ id, tree.arena.Reaches tree.root id → ∃ role, tree.arena.Obeys Pascal.Allows role id) ∧
      ∀ store,
        (Pascal.run tree store).1 = .ok () ∨
        (Pascal.run tree store).1 = .error .divisionByZero ∨
        ∃ name, (Pascal.run tree store).1 = .error (.undefinedVariable name)) := by
  have hapart := apart_of_parse h
  have hroot := hapart.inRange tree.root List.mem_cons_self
  refine ⟨hapart.tidy.ne_null, ?_, ?_⟩
  · rintro rfl
    have hobeys := obeys_of_calc_parse h
    have hstop : ∀ {why}, Calc.eval tree = .error why → Calc.MayStop tree.arena tree.root why :=
      fun herror => Calc.mayStop_of_evalNode hapart.tidy hobeys (Nat.lt_succ_of_lt hroot) herror
    refine ⟨hobeys, fun id hid => (hobeys.of_reaches hid).choose_spec, ?_, ?_⟩
    · intro node herror
      cases hstop herror
    · intro text herror
      cases hstop herror with
      | invalidNumber hid hget hlarge => exact ⟨hlarge, _, hid, hget⟩
  · rintro rfl
    have hobeys := obeys_of_pascal_parse h
    refine ⟨hobeys, fun id hid => hobeys.of_reaches hid, fun store => ?_⟩
    have hlevels : tree.root.index < tree.height + Pascal.spareLevels :=
      Nat.lt_of_lt_of_le (Nat.lt_succ_of_lt hroot) (Nat.le_add_right _ _)
    cases hrun : (Pascal.run tree store).1 with
    | ok result => exact Or.inl rfl
    | error why =>
      cases Pascal.mayStop_of_runNode hapart.tidy rfl hobeys hlevels hrun with
      | divisionByZero => exact Or.inr (Or.inl rfl)
      | undefinedVariable name => exact Or.inr (Or.inr ⟨name, rfl⟩)

/-- A literal that is too large, and an assignment of a variable that may have no value. -/
theorem parse_obeys_literal_assignment :
    (∃ tree, Language.calc.parse " 4000000000" = .ok tree ∧
      Calc.eval tree = .error (.invalidNumber "4000000000") ∧
      ∃ id, tree.arena.Reaches tree.root id ∧
        tree.arena.get id = .ok (.const .integer "4000000000")) ∧
    ∃ tree, Language.pascal.parse "PROGRAM p ; BEGIN x := y END ." = .ok tree ∧
      tree.arena.Obeys Pascal.Allows .program tree.root ∧
      ∀ store,
        (Pascal.run tree store).1 = .ok () ∨
        (Pascal.run tree store).1 = .error .divisionByZero ∨
        ∃ name, (Pascal.run tree store).1 = .error (.undefinedVariable name) := by
  constructor
  · let n : Calc.Numeral := ⟨"4000000000".toList, rfl⟩
    have hspaced : Calc.Spaced [.number n] " 4000000000".toList := .cons 1 (.number n) (.nil 0)
    obtain ⟨tree, hparse, heval⟩ := exists_calc_parse (.literal 1 n) hspaced
    have hrefused : Calc.eval tree = .error (.invalidNumber "4000000000") := heval.trans (by decide)
    obtain ⟨-, hcalc, -⟩ := parse_obeys hparse
    obtain ⟨-, -, -, hliteral⟩ := hcalc rfl
    exact ⟨tree, hparse, hrefused, (hliteral _ hrefused).2⟩
  · let p : Pascal.Name := ⟨['p'], rfl⟩
    let x : Pascal.Name := ⟨['x'], rfl⟩
    let y : Pascal.Name := ⟨['y'], rfl⟩
    let copy : Pascal.Program := ⟨p, [], [.assign x (.var y)]⟩
    let lexemes : List Pascal.Lexeme := [.word (⟨"PROGRAM".toList, rfl⟩ : Pascal.Word .program),
      .name p, .sign .semi, .word (⟨"BEGIN".toList, rfl⟩ : Pascal.Word .begin), .name x,
      .sign .assign, .name y, .word (⟨"END".toList, rfl⟩ : Pascal.Word .end), .sign .dot]
    have hbody : (Pascal.Statement.compound copy.body).Prints _ :=
      .compound ⟨"BEGIN".toList, rfl⟩ ⟨"END".toList, rfl⟩ (.single (.assign x (.var 1 y)))
    have hprints : copy.Prints lexemes := .mk (p := copy) ⟨"PROGRAM".toList, rfl⟩ .nothing hbody
    have hfree : ∀ name ∈ copy.names, name.Free := by
      intro name hname k
      fin_cases hname <;> cases k <;> decide
    have hnext : ∀ {l lexemes chars}, Pascal.Behind lexemes chars →
        Pascal.Behind (l :: lexemes) ([' '] ++ [] ++ (l.chars ++ chars)) := .cons (.blank rfl) .nil
    obtain ⟨chars, hlaid, rfl⟩ : ∃ chars, Pascal.LaidOut lexemes chars ∧
        chars = "PROGRAM p ; BEGIN x := y END .".toList :=
      ⟨_, .cons .nil (hnext (hnext (hnext (hnext (hnext (hnext (hnext (hnext (.nil .nil))))))))), by decide⟩
    obtain ⟨tree, hparse⟩ := exists_pascal_parse hprints hfree hlaid
    obtain ⟨-, -, hpascal⟩ := parse_obeys hparse
    obtain ⟨hobeys, -, hrun⟩ := hpascal rfl
    exact ⟨tree, hparse, hobeys, hrun⟩

/-- **There is one way to each node of the tree of a text, and all walks end.**  Nodes are made of
older nodes, so the numbers on a way down decrease.  Values, runs and drawings come to no fault of the
tree: they are not cut short, and each number that they look up leads to a node.  They look up no node
twice. -/
theorem parse_walks (h : lang.parse source = .ok tree) :
    (∀ id node, tree.arena.get id = .ok node → ∀ link ∈ node.links, link.index < id.index) ∧
    tree.arena.InRange tree.root ∧
    (∀ id, tree.arena.Reaches tree.root id →
      tree.arena.InRange id ∧ ∃! path, tree.arena.follow tree.root path = some id) ∧
    (∀ fault, Calc.eval tree ≠ .error (.tree fault)) ∧
    (∀ store fault, (Pascal.run tree store).1 ≠ .error (.tree fault)) ∧
    (∃ document, tree.draw = .ok document) ∧
    (Calc.arithmetic.evalWith tree.arena.look tree.height tree.root).LooksOnce tree
      (Calc.eval tree) ∧
    (∀ store, (Pascal.runWith tree.arena.look tree.height (tree.height + Pascal.spareLevels)
      tree.root store).LooksOnce tree (Pascal.run tree store)) ∧
    (Drawing.addWith tree.arena.look tree.height 0 tree.root #[]).LooksOnce tree
      (Drawing.addNode tree.arena tree.height 0 tree.root #[]) := by
  have hapart := apart_of_parse h
  have htidy := hapart.tidy
  have hroot := hapart.inRange tree.root List.mem_cons_self
  have hheight : tree.root.index < tree.height := Nat.lt_succ_of_lt hroot
  have hlevels : tree.root.index < tree.height + Pascal.spareLevels :=
    Nat.lt_of_lt_of_le hheight (Nat.le_add_right _ _)
  refine ⟨htidy.link_lt, hroot, fun id hid => ⟨?_, hapart.existsUnique_path hid⟩, ?_, ?_, ?_, ?_, ?_, ?_⟩
  · exact Nat.lt_of_le_of_lt (htidy.le_of_reaches hid) hroot
  · exact fun fault => Calc.evalNode_ne_tree htidy hroot hheight fault
  · exact fun store fault => Pascal.runNode_ne_tree htidy hroot hlevels store fault
  · obtain ⟨⟨last, drawing⟩, hdrawing⟩ := Drawing.exists_addNode htidy hroot hheight 0 #[]
    exact ⟨drawing.render, by rw [Tree.draw, Drawing.ofTree, hdrawing]; rfl⟩
  · exact Traced.looksOnce_of_sublist hapart (Calc.value_evalWith _ _ _)
      (Arithmetic.visited_evalWith htidy _ _)
  · exact fun store => Traced.looksOnce_of_sublist hapart (Pascal.value_runWith _ _ _ _)
      (Pascal.visited_runWith htidy _ _ _ _)
  · exact Traced.looksOnce_of_sublist hapart (Drawing.value_addWith _ _ _ _ _)
      (Drawing.visited_addWith htidy _ _ _ _)

/-- The operands of a difference are looked up once, though they are written alike. -/
theorem parse_walks_difference :
    ∃ tree, Language.calc.parse "7 - 7" = .ok tree ∧
      (∀ id, tree.arena.Reaches tree.root id → ∃! path, tree.arena.follow tree.root path = some id) ∧
      (Calc.arithmetic.evalWith tree.arena.look tree.height tree.root).LooksOnce tree (.ok 0) := by
  let n : Calc.Numeral := ⟨['7'], rfl⟩
  have hprints : Calc.Prints 1 (.binary .sub (.literal n) (.literal n))
      ([.number n] ++ .sign Calc.Operator.sub.sign :: [.number n]) :=
    .binary (Nat.le_refl 1) (.literal 1 n) (.literal 2 n)
  have hspaced : Calc.Spaced [.number n, .sign .minus, .number n] "7 - 7".toList :=
    .cons 0 _ (.cons 1 _ (.cons 1 _ (.nil 0)))
  obtain ⟨tree, hparse, heval⟩ := exists_calc_parse hprints hspaced
  obtain ⟨-, -, hpaths, -, -, -, hvalue, -⟩ := parse_walks hparse
  have hzero : Calc.eval tree = .ok 0 := heval.trans (by decide)
  exact ⟨tree, hparse, fun id hid => (hpaths id hid).2, hzero ▸ hvalue⟩

end Language

end GrammarKit
