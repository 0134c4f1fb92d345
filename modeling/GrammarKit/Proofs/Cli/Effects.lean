import GrammarKit.Cli.Command
import GrammarKit.Proofs.Files
import GrammarKit.Proofs.Parsed

/-!
# What a command does to the files

A command is a plan, so what it may do can be read off before it is carried out: only `parse` has a
write in it, and it is the last thing that it does.  All that can go wrong before, from a bad option to
a text that does not match, ends the plan without a write.

Nothing here depends on how files are kept.  `FileSystem` is any kind of files whose writes are carried
out or change nothing; a `FileTree` is one of that kind.

* `Interaction.Within`: what is read off a plan, and then holds wherever it is carried out.
* `Command.Parses`: what it takes to come to a drawing.
* `Command.ofArgs_spares_files`: only a drawing changes files, and only its own.
-/

namespace GrammarKit

/-! ## 1.  Plans on any files -/

/-- Files that can be read and written, in whatever way they are kept.  A write is carried out, and
then it changes what is at the place that its path leads to, or it is refused and changes nothing. -/
structure FileSystem where
  /-- All that is kept. -/
  State : Type
  /-- Where a file can be. -/
  Place : Type
  /-- The place that a path leads to. -/
  place? : State → String → Option Place
  /-- The content of the file at a place. -/
  content? : State → Place → Option (List UInt8)
  /-- Reads the file that a path leads to. -/
  read : State → String → Except FileError (List UInt8)
  /-- Writes the file that a path leads to. -/
  write : State → String → List UInt8 → Except FileError Unit × State
  /-- A write that is refused changes nothing. -/
  write_refused : ∀ {before path content why after},
    write before path content = (.error why, after) → after = before
  /-- A write that is carried out changes one file. -/
  write_done : ∀ {before path content after}, write before path content = (.ok (), after) →
    ∃ place, place? before path = some place ∧ content? after place = some content ∧
      ∀ other, other ≠ place → content? after other = content? before other

/-- Carries out a plan on files of any kind. -/
def Interaction.runOn (files : FileSystem) : Interaction → files.State → Report × files.State
  | .finish report, before => (report, before)
  | .read path next, before => (next (files.read before path)).runOn files before
  | .write path content next, before =>
    (next (files.write before path content.toUTF8.toList).1).runOn files
      (files.write before path content.toUTF8.toList).2

/-- A tree of files, with its own way to read and to write. -/
def FileTree.system : FileSystem where
  State := FileTree
  Place := Place
  place? tree path := (tree.follow path).toOption.map Target.place
  content? := FileTree.content?
  read := FileTree.read
  write := FileTree.write
  write_refused := write_eq_error
  write_done h := by
    obtain ⟨target, hfollow, hwritten⟩ := content?_write h
    refine ⟨target.place, by rw [hfollow]; rfl, (hwritten _).trans (if_pos rfl), ?_⟩
    exact fun other hother => (hwritten other).trans (if_neg hother)

theorem Interaction.runOn_system (plan : Interaction) (tree : FileTree) :
    plan.runOn FileTree.system tree = plan.run tree := by
  induction plan generalizing tree with
  | finish report => rfl
  | read path next ih => exact ih _ tree
  | write path content next ih => exact ih _ _

/-! ## 2.  What is read off a plan -/

namespace Interaction

variable {files : FileSystem} {before : files.State} {plan : Interaction}
variable {mayWrite mayWrite' : Prop} {mayEnd : Report → Prop}

/-- However its reads and writes turn out, the plan ends with such a report, and it comes to no write
unless it may. -/
def Within (mayWrite : Prop) (mayEnd : Report → Prop) : Interaction → Prop
  | finish report => mayEnd report
  | read _ next => ∀ answer, (next answer).Within mayWrite mayEnd
  | write _ _ next => mayWrite ∧ ∀ answer, (next answer).Within mayWrite mayEnd

theorem Within.mono (h : plan.Within mayWrite mayEnd) (himp : mayWrite → mayWrite') :
    plan.Within mayWrite' mayEnd := by
  induction plan with
  | finish report => exact h
  | read path next ih => exact fun answer => ih answer (h answer)
  | write path content next ih => exact ⟨himp h.1, fun answer => ih answer (h.2 answer)⟩

/-- The report is one with which the plan may end. -/
theorem Within.runOn_fst (h : plan.Within mayWrite mayEnd) :
    mayEnd (plan.runOn files before).1 := by
  induction plan generalizing before with
  | finish report => exact h
  | read path next ih => exact ih _ (h _)
  | write path content next ih => exact ih _ (h.2 _)

/-- A plan that may not write leaves all files as they were. -/
theorem Within.runOn_snd (h : plan.Within False mayEnd) :
    (plan.runOn files before).2 = before := by
  induction plan with
  | finish report => rfl
  | read path next ih => exact ih _ (h _)
  | write path content next => exact h.1.elim

end Interaction

/-- Either it went well and there is no complaint, or it did not and nothing is printed. -/
def Report.OneSided (report : Report) : Prop :=
  report.status = 0 ∧ report.stderr = "" ∨ report.status = 1 ∧ report.stdout = ""

namespace Command

open Interaction

/-! ## 3.  Commands over a file -/

section

variable {mayWrite : Prop} {name path : String} {options : Options} {rest : List String}
variable {lang : Language} {next : String → Interaction} {action : String → Options → Interaction}

theorem succeed_within (stdout : String) :
    (Interaction.succeed stdout).Within mayWrite Report.OneSided :=
  Or.inl ⟨rfl, rfl⟩

theorem fail_within (message : String) :
    (Interaction.fail message).Within mayWrite Report.OneSided :=
  Or.inr ⟨rfl, rfl⟩

theorem withSource_within (h : ∀ source, (next source).Within mayWrite Report.OneSided) :
    (withSource lang path next).Within mayWrite Report.OneSided := by
  rintro (why | content)
  · exact fail_within _
  · dsimp only
    split
    · exact fail_within _
    · exact h _

theorem onFile_within (h : ∀ path options, (action path options).Within mayWrite Report.OneSided) :
    (onFile name action rest).Within mayWrite Report.OneSided := by
  rw [onFile]
  split
  · exact fail_within _
  · split
    · exact Or.inr ⟨rfl, rfl⟩
    · exact h _ _

theorem lexFile_within : (lexFile path options).Within False Report.OneSided := by
  rw [lexFile]
  exact withSource_within fun _ => succeed_within _

theorem runFile_within : (runFile path options).Within False Report.OneSided := by
  rw [runFile]
  refine withSource_within fun source => ?_
  split
  · exact fail_within _
  · exact succeed_within _

theorem parseFile_within : (parseFile path options).Within True Report.OneSided := by
  rw [parseFile]
  refine withSource_within fun source => ?_
  split
  · exact fail_within _
  · refine ⟨trivial, ?_⟩
    rintro (why | ⟨⟨⟩⟩)
    · exact fail_within _
    · exact succeed_within _

theorem evalExpr_within : (evalExpr rest).Within False Report.OneSided := by
  rw [evalExpr.eq_def]
  split
  · exact Or.inr ⟨rfl, rfl⟩
  · split
    · exact fail_within _
    · exact succeed_within _

end

/-! ## 4.  Coming to a drawing -/

/-- The arguments are those of `parse` with valid options, and the file that they name can be read, is
text, and matches the grammar of its language: the drawing of its tree goes to that path. -/
inductive Parses (read : String → Except FileError (List UInt8)) : List String → String → Tree → Prop
  | mk {rest : List String} {options : Options} {path : String} {content : List UInt8}
      {text : String} {tree : Tree} :
      Options.parse rest = .ok options → options.input? = some path → read path = .ok content →
      String.fromUTF8? (ByteArray.mk content.toArray) = some text →
      (options.languageFor path).parse (sourceOf (options.languageFor path) text) = .ok tree →
      Parses read ("parse" :: rest) options.dotPath tree

variable {files : FileSystem} {before : files.State} {args rest : List String}

/-- A text that is parsed is drawn. -/
theorem exists_draw_of_parse {lang : Language} {source : String} {tree : Tree}
    (h : lang.parse source = .ok tree) :
    ∃ document, tree.draw = .ok document ∧ lang.draw source = .ok document := by
  obtain ⟨-, -, -, -, -, ⟨document, hdraw⟩, -⟩ := Language.parse_walks h
  exact ⟨document, hdraw, by simp only [Language.draw, h, hdraw]; rfl⟩

/-- With all that it takes, the plan comes down to one write and a report on it. -/
theorem runOn_of_parses {target : String} {tree : Tree}
    (h : Parses (files.read before) args target tree) :
    ∃ document, tree.draw = .ok document ∧
      ((ofArgs args).runOn files before).2 =
        (files.write before target document.toUTF8.toList).2 ∧
      (((ofArgs args).runOn files before).1.status = 0 ↔
        (files.write before target document.toUTF8.toList).1 = .ok ()) := by
  obtain ⟨hoptions, hinput, hread, htext, hparse⟩ := h
  obtain ⟨document, hdraw, hdrawn⟩ := exists_draw_of_parse hparse
  refine ⟨document, hdraw, ?_⟩
  rw [ofArgs, onFile, hoptions]
  simp only [hinput]
  rw [parseFile, withSource, runOn, hread]
  simp only [htext, hdrawn]
  rw [runOn]
  rcases files.write before _ document.toUTF8.toList with ⟨why | ⟨⟨⟩⟩, after⟩
  · exact ⟨rfl, iff_of_false Nat.one_ne_zero nofun⟩
  · exact ⟨rfl, iff_of_true rfl rfl⟩

/-- If any of it is missing, the plan comes to no write. -/
theorem runOn_of_not_parses (h : ∀ target tree, ¬ Parses (files.read before) args target tree) :
    ((ofArgs args).runOn files before).2 = before := by
  rw [ofArgs.eq_def]
  split
  · rfl
  · exact (onFile_within fun _ _ => lexFile_within).runOn_snd
  · -- Each way out of `parse` but the last comes before the write, and the last needs a tree.
    next rest =>
    rw [onFile]
    split
    · rfl
    · next options hoptions =>
      split
      · rfl
      · next path hinput =>
        rw [parseFile, withSource, runOn]
        split
        · rfl
        · next content hread =>
          split
          · rfl
          · next text htext =>
            rw [Language.draw]
            split
            · rfl
            · next document hdraw =>
              split at hdraw
              · next tree hparse => exact absurd (.mk hoptions hinput hread htext hparse) (h _ _)
              · cases hdraw
  · exact (onFile_within fun _ _ => runFile_within).runOn_snd
  · exact evalExpr_within.runOn_snd
  all_goals rfl

/-- The commands that work on a text.  The others only speak of the program. -/
def workNames : List String := ["lex", "parse", "run", "eval"]

theorem ofArgs_within {name : String} (hname : name ∈ workNames) :
    (ofArgs (name :: rest)).Within True Report.OneSided := by
  simp only [workNames, List.mem_cons, List.not_mem_nil, or_false] at hname
  rcases hname with rfl | rfl | rfl | rfl
  · exact (onFile_within fun _ _ => lexFile_within).mono False.elim
  · exact onFile_within fun _ _ => parseFile_within
  · exact (onFile_within fun _ _ => runFile_within).mono False.elim
  · exact evalExpr_within.mono False.elim

/-! ## 5.  The files after a command -/

/-- What `args` may do to files, and to the terminal. -/
structure SparesFiles (files : FileSystem) (args : List String) (before : files.State)
    (report : Report) (after : files.State) : Prop where
  /-- Without a tree to draw, no file changes. -/
  kept : (∀ target tree, ¬ Parses (files.read before) args target tree) → after = before
  /-- A tree is drawn, and the files change by the write of its drawing, if at all. -/
  drawn : ∀ target tree, Parses (files.read before) args target tree →
    ∃ document, tree.draw = .ok document ∧
      (∀ why changed, files.write before target document.toUTF8.toList = (.error why, changed) →
        report.status ≠ 0 ∧ after = before) ∧
      ∀ changed, files.write before target document.toUTF8.toList = (.ok (), changed) →
        report.status = 0 ∧ after = changed ∧
          ∃ place, files.place? before target = some place ∧
            files.content? after place = some document.toUTF8.toList ∧
            ∀ other, other ≠ place → files.content? after other = files.content? before other
  /-- Whoever fails leaves all files as they were. -/
  failed : report.status ≠ 0 → after = before
  /-- The commands that work on a text fail without a result, or succeed without a complaint. -/
  oneSided : ∀ name rest, args = name :: rest → name ∈ workNames → report.OneSided

theorem runOn_spares_files :
    SparesFiles files args before ((ofArgs args).runOn files before).1
      ((ofArgs args).runOn files before).2 where
  kept := runOn_of_not_parses
  drawn target tree h := by
    obtain ⟨document, hdraw, hafter, hstatus⟩ := runOn_of_parses h
    refine ⟨document, hdraw, fun why changed hwrite => ?_, fun changed hwrite => ?_⟩
    · rw [hwrite] at hafter hstatus
      exact ⟨fun hzero => (nomatch hstatus.mp hzero), hafter.trans (files.write_refused hwrite)⟩
    · rw [hwrite] at hafter hstatus
      obtain ⟨place, hplace, hcontent, hothers⟩ := files.write_done hwrite
      rw [hafter]
      exact ⟨hstatus.mpr rfl, rfl, place, hplace, hcontent, hothers⟩
  failed hstatus := by
    by_cases h : ∃ target tree, Parses (files.read before) args target tree
    · obtain ⟨target, tree, hparses⟩ := h
      obtain ⟨document, -, hafter, hzero⟩ := runOn_of_parses hparses
      rw [hafter]
      cases hwrite : files.write before target document.toUTF8.toList with
      | mk answer changed =>
        cases answer with
        | error why => exact files.write_refused hwrite
        | ok done =>
          rw [hwrite] at hzero
          exact absurd (hzero.mpr rfl) hstatus
    · exact runOn_of_not_parses fun target tree hparses => h ⟨target, tree, hparses⟩
  oneSided name rest hargs hname := by
    subst hargs
    exact (ofArgs_within hname).runOn_fst

/-- **The command line changes no file but the one it draws into.**  Whatever the arguments are and
however files are kept, all files stay as they were unless the command is `parse`, its options are
valid, its input can be read and is parsed, and the write is carried out.  Then the file at the path
of the drawing holds the drawing of the input as it was before, even where the two are one file, and
all other files stay.  `lex`, `parse`, `run` and `eval` print nothing if they fail, and do not complain
if they succeed.  In a tree of files the drawing is also what is read there next. -/
theorem ofArgs_spares_files (args : List String) :
    (∀ (files : FileSystem) (before : files.State),
      SparesFiles files args before ((ofArgs args).runOn files before).1
        ((ofArgs args).runOn files before).2) ∧
    ∀ before : FileTree,
      SparesFiles FileTree.system args before ((ofArgs args).run before).1
        ((ofArgs args).run before).2 ∧
      ∀ target tree document, Parses before.read args target tree → tree.draw = .ok document →
        ((ofArgs args).run before).1.status = 0 →
        ((ofArgs args).run before).2.read target = .ok document.toUTF8.toList := by
  refine ⟨fun files before => runOn_spares_files, fun before => ?_⟩
  rw [← runOn_system]
  refine ⟨runOn_spares_files, fun target tree document hparses hdraw hstatus => ?_⟩
  have hparses : Parses (FileTree.system.read before) args target tree := hparses
  obtain ⟨drawn, hdrawn, hafter, hzero⟩ := runOn_of_parses hparses
  cases hdraw.symm.trans hdrawn
  rw [hafter]
  exact FileTree.read_write (Prod.ext (hzero.mp hstatus) rfl)

/-- A tree with one file, which holds the digit `7`. -/
def oneDigit : FileTree := ⟨[(["n"], [55])], []⟩

/-- A number that is drawn over itself. -/
theorem ofArgs_spares_files_drawn_over :
    ∃ document, Language.calc.draw "7" = .ok document ∧
      ((ofArgs ["parse", "n", "--dot=n"]).run oneDigit).2.read "n" =
        .ok document.toUTF8.toList := by
  let n : Calc.Numeral := ⟨['7'], rfl⟩
  have hspaced : Calc.Spaced [.number n] "7".toList := .cons 0 (.number n) (.nil 0)
  obtain ⟨tree, hparse, -⟩ := Language.exists_calc_parse (.literal 1 n) hspaced
  have hoptions : Options.parse ["n", "--dot=n"] =
      .ok ⟨some "n", none, some "n"⟩ := by decide +kernel
  -- The one character of the name is no slash, so the name is its only component.
  have hcomponents : Path.components "n" = ["n"] := by
    rw [Path.components, String.splitOn, if_neg (by decide), String.splitOnAux,
      if_neg (by decide +kernel), if_neg (by decide +kernel), String.splitOnAux,
      if_pos (by decide +kernel)]
    decide +kernel
  have hfollow : oneDigit.follow "n" = .ok ⟨["n"], "n", false⟩ := by
    rw [FileTree.follow, hcomponents]
    decide +kernel
  have hread : oneDigit.read "n" = .ok [55] := by
    rw [FileTree.read, hfollow]
    rfl
  have htext : String.fromUTF8? (ByteArray.mk [55].toArray) = some "7" := by decide +kernel
  have hlang : Options.languageFor ⟨some "n", none, some "n"⟩ "n" = .calc := by
    rw [Options.languageFor, Option.getD_none, Language.ofPath, Path.extension?, Path.fileName?,
      hcomponents]
    decide +kernel
  have hsource : sourceOf .calc "7" = "7" := by decide +kernel
  have hparses : Parses oneDigit.read ["parse", "n", "--dot=n"] "n" tree := by
    refine .mk hoptions rfl hread htext ?_
    rw [hlang, hsource]
    exact hparse
  obtain ⟨document, hdraw, hdrawn⟩ := exists_draw_of_parse hparse
  have hspares := (ofArgs_spares_files ["parse", "n", "--dot=n"]).2 oneDigit
  obtain ⟨document', hdraw', -, hdone⟩ := hspares.1.drawn "n" tree hparses
  obtain rfl := Except.ok.inj (hdraw.symm.trans hdraw')
  have hwrite : oneDigit.write "n" document.toUTF8.toList =
      (.ok (), ⟨[(["n"], document.toUTF8.toList)], []⟩) := by
    rw [FileTree.write, hfollow]
    rfl
  exact ⟨document, hdrawn, hspares.2 "n" tree document hparses hdraw (hdone _ hwrite).1⟩

end Command

end GrammarKit
