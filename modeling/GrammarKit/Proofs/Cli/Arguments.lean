import GrammarKit.Cli.Options
import Mathlib.Data.List.Infix
import Mathlib.Data.List.Induction

/-!
# Arguments in any order

Arguments are read from left to right, and what one of them does to the options may depend on those
before it: a language and a path replace those that were asked for before, and a file is an error if
there was one already.  So whether an argument is refused is a matter of its place, but whether any
argument is refused is not.

* `Begins`: an argument begins with a text.
* `Options.Offends`: an argument, behind others, is one to be refused, and in these words.
* `Options.FirstOffence`: the leftmost argument that is to be refused.
* `Options.Sound`: no argument is to be refused; `sound_iff` says so without regard to places.
* `Options.said`: the options that arguments spell.
* `Options.added_add`: what one argument does, and from this `Options.parse_cases`: what all do.
* `Options.parse_in_any_order`: the order of the arguments.
-/

namespace GrammarKit

/-! ## 1.  What an argument begins with -/

/-- The text begins with `start`. -/
def Begins (start text : String) : Prop := ∃ rest, text = start ++ rest

variable {start text rest : String}

theorem textBehind?_eq_some_iff : textBehind? start text = some rest ↔ text = start ++ rest := by
  unfold textBehind?
  rw [Option.ite_none_right_eq_some, List.isPrefixOf_iff_prefix, Option.some.injEq]
  constructor
  · rintro ⟨hfront, rfl⟩
    rw [← String.toList_inj, String.toList_append, String.toList_ofList]
    exact (List.prefix_iff_eq_append.mp hfront).symm
  · rintro rfl
    rw [String.toList_append, List.drop_left, String.ofList_toList]
    exact ⟨List.prefix_append _ _, rfl⟩

theorem isSome_textBehind?_iff : (textBehind? start text).isSome ↔ Begins start text := by
  rw [Option.isSome_iff_exists]
  exact exists_congr fun rest => textBehind?_eq_some_iff

theorem textBehind?_eq_none_iff : textBehind? start text = none ↔ ¬ Begins start text := by
  rw [← isSome_textBehind?_iff, Option.not_isSome_iff_eq_none]

instance : Decidable (Begins start text) := decidable_of_iff _ isSome_textBehind?_iff

theorem begins_append (start rest : String) : Begins start (start ++ rest) := ⟨rest, rfl⟩

/-- A text begins with what its start begins with. -/
theorem Begins.append {text : String} (h : Begins start text) (rest : String) :
    Begins start (text ++ rest) := by
  obtain ⟨middle, rfl⟩ := h
  exact ⟨middle ++ rest, String.append_assoc⟩

theorem Language.ofName?_eq_some_iff {name : String} {lang : Language} :
    Language.ofName? name = some lang ↔ name = lang.name := by
  unfold Language.ofName?
  split
  · cases lang <;> decide
  · cases lang <;> decide
  · next hcalc hpascal =>
    refine iff_of_false (fun h => by cases h) ?_
    cases lang
    · exact hcalc
    · exact hpascal

theorem Language.ofName?_eq_none_iff {name : String} :
    Language.ofName? name = none ↔ ∀ lang : Language, name ≠ lang.name := by
  rw [Option.eq_none_iff_forall_ne_some]
  exact forall_congr' fun lang => not_congr Language.ofName?_eq_some_iff

namespace Options

/-- An option that there is, with what it needs. -/
def Known (arg : String) : Prop :=
  (∃ lang : Language, arg = "--lang=" ++ lang.name) ∨ ∃ path, path ≠ "" ∧ arg = "--dot=" ++ path

theorem begins_of_begins_lang {arg : String} (h : Begins "--lang=" arg) : Begins "--" arg := by
  obtain ⟨name, rfl⟩ := h
  exact Begins.append ⟨"lang=", by decide⟩ name

theorem begins_of_begins_dot {arg : String} (h : Begins "--dot=" arg) : Begins "--" arg := by
  obtain ⟨path, rfl⟩ := h
  exact Begins.append ⟨"dot=", by decide⟩ path

theorem not_begins_dot_of_begins_lang {arg : String} (h : Begins "--lang=" arg) :
    ¬ Begins "--dot=" arg := by
  rintro ⟨path, rfl⟩
  obtain ⟨name, hname⟩ := h
  have hchars := congrArg String.toList hname
  rw [String.toList_append, String.toList_append] at hchars
  cases hchars

/-- What may stand behind the two options that need something. -/
theorem known_lang_iff {name : String} :
    Known ("--lang=" ++ name) ↔ ∃ lang : Language, name = lang.name := by
  constructor
  · rintro (⟨lang, hname⟩ | ⟨path, -, hname⟩)
    · exact ⟨lang, (String.append_right_inj _).mp hname⟩
    · exact absurd ⟨path, hname⟩ (not_begins_dot_of_begins_lang (begins_append _ name))
  · rintro ⟨lang, rfl⟩
    exact .inl ⟨lang, rfl⟩

theorem known_dot_iff {path : String} : Known ("--dot=" ++ path) ↔ path ≠ "" := by
  constructor
  · rintro (⟨lang, hpath⟩ | ⟨other, hother, hpath⟩)
    · exact absurd (begins_append _ path) (not_begins_dot_of_begins_lang ⟨lang.name, hpath⟩)
    · rwa [(String.append_right_inj _).mp hpath]
  · exact fun hpath => .inr ⟨path, hpath, rfl⟩

/-! ## 2.  Arguments that are refused -/

/-- Behind these arguments, this one is refused in these words. -/
inductive Offends (before : List String) : String → String → Prop
  | language {name : String} (hname : ∀ lang : Language, name ≠ lang.name) :
    Offends before ("--lang=" ++ name)
      ("unknown language '" ++ name ++ "' (expected calc or pascal)")
  | path : Offends before "--dot=" "--dot requires a path"
  | option {arg : String} (hoption : Begins "--" arg) (hlang : ¬ Begins "--lang=" arg)
    (hdot : ¬ Begins "--dot=" arg) : Offends before arg ("unknown option '" ++ arg ++ "'")
  | second {arg : String} (hfile : ¬ Begins "--" arg)
    (hbefore : ∃ other ∈ before, ¬ Begins "--" other) :
    Offends before arg ("unexpected argument '" ++ arg ++ "'")

/-- No argument is refused. -/
def Sound (args : List String) : Prop :=
  ∀ before arg behind, args = before ++ arg :: behind → ∀ message, ¬ Offends before arg message

/-- The leftmost argument that is refused is refused in these words. -/
def FirstOffence (args : List String) (message : String) : Prop :=
  ∃ before arg behind, args = before ++ arg :: behind ∧ Offends before arg message ∧ Sound before

/-- The arguments that are files. -/
def files (args : List String) : List String := args.filter fun arg => ¬ Begins "--" arg

variable {args before : List String} {arg message : String}

theorem files_eq_nil_iff : files before = [] ↔ ¬ ∃ other ∈ before, ¬ Begins "--" other := by
  simp [files, List.filter_eq_nil_iff]

theorem files_append_option (h : Begins "--" arg) : files (args ++ [arg]) = files args := by
  simp [files, h]

theorem files_append_file (h : ¬ Begins "--" arg) : files (args ++ [arg]) = files args ++ [arg] := by
  simp [files, h]

theorem Offends.not_in_order (h : Offends before arg message) :
    ¬ ((Begins "--" arg → Known arg) ∧ (¬ Begins "--" arg → files before = [])) := by
  rintro ⟨hoption, hfile⟩
  cases h with
  | @language name hname =>
    obtain ⟨lang, hlang⟩ := known_lang_iff.mp (hoption (begins_of_begins_lang (begins_append _ name)))
    exact hname lang hlang
  | path =>
    have hempty : "--dot=" = "--dot=" ++ "" := String.append_empty.symm
    have hknown := hoption (begins_of_begins_dot ⟨"", hempty⟩)
    rw [hempty] at hknown
    exact known_dot_iff.mp hknown rfl
  | option harg hlang hdot =>
    rcases hoption harg with ⟨lang, rfl⟩ | ⟨path, -, rfl⟩
    · exact hlang (begins_append _ _)
    · exact hdot (begins_append _ _)
  | second harg hbefore => exact files_eq_nil_iff.mp (hfile harg) hbefore

/-- **Which arguments are in order behind others.**  An option has to be known.  A file has to be the
first. -/
theorem not_offends_iff : (∀ message, ¬ Offends before arg message) ↔
    (Begins "--" arg → Known arg) ∧ (¬ Begins "--" arg → files before = []) := by
  refine ⟨fun h => ⟨fun hoption => ?_, fun hfile => ?_⟩, fun h message hoffends => hoffends.not_in_order h⟩
  · by_cases hlang : Begins "--lang=" arg
    · obtain ⟨name, rfl⟩ := hlang
      refine known_lang_iff.mpr (not_forall_not.mp fun hname => ?_)
      exact h _ (.language hname)
    · by_cases hdot : Begins "--dot=" arg
      · obtain ⟨path, rfl⟩ := hdot
        refine known_dot_iff.mpr ?_
        rintro rfl
        exact h _ .path
      · exact absurd (.option hoption hlang hdot) (h _)
  · exact files_eq_nil_iff.mpr fun hbefore => h _ (.second hfile hbefore)

theorem sound_nil : Sound [] := fun before arg behind h => by
  cases before <;> cases h

theorem sound_append_singleton_iff :
    Sound (args ++ [arg]) ↔ Sound args ∧ ∀ message, ¬ Offends args arg message := by
  constructor
  · intro h
    refine ⟨fun front other rest hargs => ?_, h args arg [] rfl⟩
    exact h front other (rest ++ [arg]) (by rw [hargs, List.append_assoc, List.cons_append])
  · rintro ⟨hargs, harg⟩ front other rest hsplit
    rcases List.eq_nil_or_concat' rest with rfl | ⟨rest, last, rfl⟩
    · obtain ⟨rfl, rfl⟩ := List.append_singleton_inj.mp hsplit
      exact harg
    · rw [← List.cons_append, ← List.append_assoc] at hsplit
      exact hargs front other rest (List.append_singleton_inj.mp hsplit).1

/-- **No argument is refused** if and only if each option is known and there is at most one file. -/
theorem sound_iff :
    Sound args ↔ (∀ arg ∈ args, Begins "--" arg → Known arg) ∧ (files args).length ≤ 1 := by
  induction args using List.reverseRecOn with
  | nil => exact iff_of_true sound_nil ⟨fun arg harg => absurd harg List.not_mem_nil, Nat.zero_le 1⟩
  | append_singleton args arg ih =>
    rw [sound_append_singleton_iff, ih, not_offends_iff, List.forall_mem_append,
      List.forall_mem_singleton]
    by_cases harg : Begins "--" arg
    · rw [files_append_option harg]
      tauto
    · have hlength : (files args).length + 1 ≤ 1 ↔ files args = [] := by
        rw [← List.length_eq_zero_iff]
        omega
      rw [files_append_file harg, List.length_append, List.length_singleton, hlength]
      have hle : files args = [] → (files args).length ≤ 1 := fun h => by rw [h]; exact Nat.zero_le 1
      tauto

/-! ## 3.  What arguments do -/

/-- What an argument does to the options before it. -/
inductive Added (options : Options) : String → Except OptionError Options → Prop
  | lang (lang : Language) :
    Added options ("--lang=" ++ lang.name) (.ok { options with lang? := some lang })
  | dot {path : String} (hpath : path ≠ "") :
    Added options ("--dot=" ++ path) (.ok { options with dot? := some path })
  | file {arg : String} (hfile : ¬ Begins "--" arg) (hnone : options.input? = none) :
    Added options arg (.ok { options with input? := some arg })
  | unknownLanguage {name : String} (hname : ∀ lang : Language, name ≠ lang.name) :
    Added options ("--lang=" ++ name) (.error (.unknownLanguage name))
  | missingPath : Added options "--dot=" (.error .missingDotPath)
  | unknownOption {arg : String} (hoption : Begins "--" arg) (hlang : ¬ Begins "--lang=" arg)
    (hdot : ¬ Begins "--dot=" arg) : Added options arg (.error (.unknownOption arg))
  | unexpected {arg : String} (hfile : ¬ Begins "--" arg) (hsome : options.input? ≠ none) :
    Added options arg (.error (.unexpectedArgument arg))

theorem added_add (options : Options) (arg : String) : Added options arg (options.add arg) := by
  unfold add
  split
  · next name hname =>
    obtain rfl := textBehind?_eq_some_iff.mp hname
    split
    · next lang hlang =>
      obtain rfl := Language.ofName?_eq_some_iff.mp hlang
      exact .lang lang
    · next hnone => exact .unknownLanguage (Language.ofName?_eq_none_iff.mp hnone)
  · next hlang =>
    rw [textBehind?_eq_none_iff] at hlang
    split
    · next path hpath =>
      obtain rfl := textBehind?_eq_some_iff.mp hpath
      split
      · next hempty =>
        rw [hempty]
        exact .missingPath
      · next hne => exact .dot hne
    · next hdot =>
      rw [textBehind?_eq_none_iff] at hdot
      split
      · next hoption => exact .unknownOption (isSome_textBehind?_iff.mp hoption) hlang hdot
      · next hfile =>
        rw [isSome_textBehind?_iff] at hfile
        split
        · next hsome => exact .unexpected hfile (Option.isSome_iff_ne_none.mp hsome)
        · next hnone => exact .file hfile (Option.not_isSome_iff_eq_none.mp hnone)

/-- The languages that arguments ask for. -/
def langs (args : List String) : List Language :=
  args.filterMap fun arg => (textBehind? "--lang=" arg).bind Language.ofName?

/-- The paths that arguments ask for. -/
def paths (args : List String) : List String := args.filterMap (textBehind? "--dot=")

/-- The options that arguments spell: the first file, the last language and the last path. -/
def said (args : List String) : Options where
  input? := (files args).head?
  lang? := (langs args).getLast?
  dot? := (paths args).getLast?

theorem langs_append_of_not_begins (h : ¬ Begins "--lang=" arg) :
    langs (args ++ [arg]) = langs args := by
  simp [langs, textBehind?_eq_none_iff.mpr h]

theorem langs_append (lang : Language) :
    langs (args ++ ["--lang=" ++ lang.name]) = langs args ++ [lang] := by
  have hread : textBehind? "--lang=" ("--lang=" ++ lang.name) = some lang.name :=
    textBehind?_eq_some_iff.mpr rfl
  simp [langs, hread, Language.ofName?_eq_some_iff.mpr rfl]

theorem paths_append_of_not_begins (h : ¬ Begins "--dot=" arg) :
    paths (args ++ [arg]) = paths args := by
  simp [paths, textBehind?_eq_none_iff.mpr h]

theorem paths_append (path : String) : paths (args ++ ["--dot=" ++ path]) = paths args ++ [path] := by
  have hread : textBehind? "--dot=" ("--dot=" ++ path) = some path := textBehind?_eq_some_iff.mpr rfl
  simp [paths, hread]

/-- **One more argument** is added to what the others spell, or it is refused. -/
theorem add_said (args : List String) (arg : String) :
    (said args).add arg = .ok (said (args ++ [arg])) ∧ (∀ message, ¬ Offends args arg message) ∨
      ∃ why, (said args).add arg = .error why ∧ Offends args arg why.message := by
  have hinput : (said args).input? = none ↔ files args = [] := List.head?_eq_none_iff
  have hadded := added_add (said args) arg
  cases hresult : (said args).add arg <;> rw [hresult] at hadded
  case error why =>
    refine .inr ⟨why, rfl, ?_⟩
    cases hadded with
    | unknownLanguage hname => exact .language hname
    | missingPath => exact .path
    | unknownOption hoption hlang hdot => exact .option hoption hlang hdot
    | unexpected hfile hsome =>
      rw [Ne, hinput, files_eq_nil_iff, not_not] at hsome
      exact .second hfile hsome
  case ok options =>
    rw [not_offends_iff, said]
    refine .inl ?_
    cases hadded with
    | lang lang =>
      have hbegins := begins_append "--lang=" lang.name
      have hoption := begins_of_begins_lang hbegins
      rw [files_append_option hoption, langs_append,
        paths_append_of_not_begins (not_begins_dot_of_begins_lang hbegins), List.getLast?_append]
      exact ⟨rfl, fun _ => .inl ⟨lang, rfl⟩, fun hfile => absurd hoption hfile⟩
    | @dot path hpath =>
      have hbegins := begins_append "--dot=" path
      have hoption := begins_of_begins_dot hbegins
      rw [files_append_option hoption, paths_append,
        langs_append_of_not_begins fun h => not_begins_dot_of_begins_lang h hbegins,
        List.getLast?_append]
      exact ⟨rfl, fun _ => .inr ⟨path, hpath, rfl⟩, fun hfile => absurd hoption hfile⟩
    | file hfile hnone =>
      rw [hinput] at hnone
      rw [files_append_file hfile, hnone,
        langs_append_of_not_begins fun h => hfile (begins_of_begins_lang h),
        paths_append_of_not_begins fun h => hfile (begins_of_begins_dot h)]
      exact ⟨rfl, fun hoption => absurd hoption hfile, fun _ => rfl⟩

theorem FirstOffence.append (h : FirstOffence args message) (more : List String) :
    FirstOffence (args ++ more) message := by
  obtain ⟨before, arg, behind, rfl, hoffends, hsound⟩ := h
  exact ⟨before, arg, behind ++ more, by rw [List.append_assoc, List.cons_append], hoffends, hsound⟩

theorem FirstOffence.not_sound (h : FirstOffence args message) : ¬ Sound args := by
  obtain ⟨before, arg, behind, hargs, hoffends, -⟩ := h
  exact fun hsound => hsound before arg behind hargs message hoffends

/-- **All arguments are added**, or the leftmost that is refused is reported. -/
theorem parse_cases (args : List String) :
    parse args = .ok (said args) ∧ Sound args ∨
      ∃ why, parse args = .error why ∧ FirstOffence args why.message := by
  induction args using List.reverseRecOn with
  | nil => exact .inl ⟨rfl, sound_nil⟩
  | append_singleton args arg ih =>
    have hparse : parse (args ++ [arg]) = (parse args).bind fun options => options.add arg := by
      unfold parse
      rw [List.foldlM_append]
      refine bind_congr fun options => ?_
      rw [List.foldlM_cons]
      exact bind_pure (options.add arg)
    rw [hparse]
    rcases ih with ⟨hargs, hsound⟩ | ⟨why, hargs, hfirst⟩ <;> rw [hargs]
    · rcases add_said args arg with ⟨hadd, harg⟩ | ⟨why, hadd, hoffends⟩
      · exact .inl ⟨hadd, sound_append_singleton_iff.mpr ⟨hsound, harg⟩⟩
      · exact .inr ⟨why, hadd, args, arg, [], rfl, hoffends, hsound⟩
    · exact .inr ⟨why, rfl, hfirst.append [arg]⟩

/-! ## 4.  The last of its sort -/

/-- Of the arguments that begin with `start`, the last one ends in `rest`. -/
def LastOf (start : String) (args : List String) (rest : String) : Prop :=
  ∃ front back, args = front ++ (start ++ rest) :: back ∧ ∀ arg ∈ back, ¬ Begins start arg

theorem lastOf_append_iff {start rest : String} (other : String) :
    LastOf start (args ++ [start ++ other]) rest ↔ other = rest := by
  constructor
  · rintro ⟨front, back, hsplit, hback⟩
    rcases List.eq_nil_or_concat' back with rfl | ⟨back, last, rfl⟩
    · exact (String.append_right_inj _).mp (List.append_singleton_inj.mp hsplit).2
    · rw [← List.cons_append, ← List.append_assoc] at hsplit
      obtain ⟨-, rfl⟩ := List.append_singleton_inj.mp hsplit
      exact absurd (begins_append start other) (hback _ (List.mem_append_right _ List.mem_cons_self))
  · rintro rfl
    exact ⟨args, [], rfl, fun arg harg => absurd harg List.not_mem_nil⟩

theorem lastOf_append_of_not_begins {start rest : String} (h : ¬ Begins start arg) :
    LastOf start (args ++ [arg]) rest ↔ LastOf start args rest := by
  constructor
  · rintro ⟨front, back, hsplit, hback⟩
    rcases List.eq_nil_or_concat' back with rfl | ⟨back, last, rfl⟩
    · obtain ⟨-, rfl⟩ := List.append_singleton_inj.mp hsplit
      exact absurd (begins_append start rest) h
    · rw [← List.cons_append, ← List.append_assoc] at hsplit
      exact ⟨front, back, (List.append_singleton_inj.mp hsplit).1,
        fun other hother => hback other (List.mem_append_left _ hother)⟩
  · rintro ⟨front, back, rfl, hback⟩
    refine ⟨front, back ++ [arg], by rw [List.append_assoc, List.cons_append], ?_⟩
    rw [List.forall_mem_append, List.forall_mem_singleton]
    exact ⟨hback, h⟩

/-- The last text behind `start` is that of the last argument that begins with it. -/
theorem getLast?_textBehind?_iff {start rest : String} :
    (args.filterMap (textBehind? start)).getLast? = some rest ↔ LastOf start args rest := by
  induction args using List.reverseRecOn with
  | nil =>
    refine iff_of_false (by simp) ?_
    rintro ⟨front, back, hsplit, -⟩
    cases front <;> cases hsplit
  | append_singleton args arg ih =>
    rw [List.filterMap_append]
    by_cases hbegins : Begins start arg
    · obtain ⟨other, rfl⟩ := hbegins
      have hread : textBehind? start (start ++ other) = some other := textBehind?_eq_some_iff.mpr rfl
      rw [lastOf_append_iff, List.filterMap_cons_some hread, List.filterMap_nil, List.getLast?_concat,
        Option.some.injEq]
    · rw [lastOf_append_of_not_begins hbegins,
        List.filterMap_cons_none (textBehind?_eq_none_iff.mpr hbegins), List.filterMap_nil,
        List.append_nil, ih]

/-- If no argument is refused, whatever is behind `--lang=` is the name of a language. -/
theorem map_name_langs (h : Sound args) :
    (langs args).map Language.name = args.filterMap (textBehind? "--lang=") := by
  rw [langs, List.map_filterMap]
  refine List.filterMap_congr fun arg harg => ?_
  cases hread : textBehind? "--lang=" arg with
  | none => rfl
  | some name =>
    obtain rfl := textBehind?_eq_some_iff.mp hread
    have hknown := (sound_iff.mp h).1 _ harg (begins_of_begins_lang (begins_append _ name))
    obtain ⟨lang, rfl⟩ := known_lang_iff.mp hknown
    rw [Option.bind_some, Language.ofName?_eq_some_iff.mpr rfl]
    rfl

theorem lang?_said_iff (h : Sound args) {lang : Language} :
    (said args).lang? = some lang ↔ LastOf "--lang=" args lang.name := by
  have hname : Function.Injective Language.name := by
    intro lang other
    cases lang <;> cases other <;> decide
  have hlast : some lang.name = (some lang).map Language.name := rfl
  rw [← getLast?_textBehind?_iff, ← map_name_langs h, List.getLast?_map, hlast,
    (Option.map_injective hname).eq_iff, said]

theorem Sound.files_cases (h : Sound args) : files args = [] ∨ ∃ file, files args = [file] := by
  rcases Nat.le_one_iff_eq_zero_or_eq_one.mp (sound_iff.mp h).2 with hzero | hone
  · exact .inl (List.length_eq_zero_iff.mp hzero)
  · exact .inr (List.length_eq_one_iff.mp hone)

theorem input?_said_iff (h : Sound args) {file : String} :
    (said args).input? = some file ↔ file ∈ args ∧ ¬ Begins "--" file := by
  have hmem : file ∈ files args ↔ file ∈ args ∧ ¬ Begins "--" file := by simp [files]
  rw [← hmem, said]
  rcases h.files_cases with hfiles | ⟨other, hfiles⟩ <;> rw [hfiles]
  · simp
  · simp [eq_comm]

/-- What is picked out of a list depends on the items that count. -/
theorem filterMap_eq_of_filter_eq {α β : Type} {p : α → Bool} {f : α → Option β} {l l' : List α}
    (hp : ∀ a, p a = false → f a = none) (h : l'.filter p = l.filter p) :
    l'.filterMap f = l.filterMap f := by
  have hfilter : ∀ l : List α, (l.filter p).filterMap f = l.filterMap f := by
    intro l
    rw [List.filterMap_filter]
    refine List.filterMap_congr fun a _ => ?_
    cases hpa : p a
    · exact (hp a hpa).symm
    · rfl
  rw [← hfilter l', h, hfilter]

/-! ## 5.  Other orders -/

variable {args' : List String}

theorem Sound.perm (h : Sound args) (hperm : args'.Perm args) : Sound args' := by
  obtain ⟨hknown, hfiles⟩ := sound_iff.mp h
  refine sound_iff.mpr ⟨fun arg harg => hknown arg (hperm.subset harg), ?_⟩
  rwa [files, (hperm.filter _).length_eq]

theorem files_perm (h : Sound args) (hperm : args'.Perm args) : files args' = files args := by
  have hfiles' : (files args').Perm (files args) := hperm.filter _
  rcases h.files_cases with hfiles | ⟨file, hfiles⟩ <;> rw [hfiles] at hfiles' ⊢
  · exact List.perm_nil.mp hfiles'
  · exact List.perm_singleton.mp hfiles'

theorem said_perm (h : Sound args) (hperm : args'.Perm args)
    (hlang : args'.filter (Begins "--lang=" ·) = args.filter (Begins "--lang=" ·))
    (hdot : args'.filter (Begins "--dot=" ·) = args.filter (Begins "--dot=" ·)) :
    said args' = said args := by
  have hunread : ∀ {start arg : String}, decide (Begins start arg) = false →
      textBehind? start arg = none := fun h => textBehind?_eq_none_iff.mpr (of_decide_eq_false h)
  have hlangs : langs args' = langs args :=
    filterMap_eq_of_filter_eq (fun arg harg => by rw [hunread harg]; rfl) hlang
  have hpaths : paths args' = paths args := filterMap_eq_of_filter_eq (fun arg => hunread) hdot
  rw [said, said, files_perm h hperm, hlangs, hpaths]

/-- **Arguments in any order.**  Arguments are taken if and only if each that begins with `--` is an
option that there is, with what it needs, and at most one does not begin so.  This one is the file, and
of the languages and of the paths the last counts.  As long as the languages stay in order among
themselves, and the paths do, the same arguments in another order are taken for the same options.
Arguments that are refused are refused in any order, with the words for the leftmost that has to be. -/
theorem parse_in_any_order (args : List String) :
    ((∃ options, parse args = .ok options) ↔
      (∀ arg ∈ args, Begins "--" arg → Known arg) ∧ (files args).length ≤ 1) ∧
    (∀ options, parse args = .ok options →
      (∀ file, options.input? = some file ↔ file ∈ args ∧ ¬ Begins "--" file) ∧
      (∀ lang, options.lang? = some lang ↔ LastOf "--lang=" args lang.name) ∧
      (∀ path, options.dot? = some path ↔ LastOf "--dot=" args path) ∧
      ∀ args' : List String, args'.Perm args →
        args'.filter (Begins "--lang=" ·) = args.filter (Begins "--lang=" ·) →
        args'.filter (Begins "--dot=" ·) = args.filter (Begins "--dot=" ·) →
        parse args' = .ok options) ∧
    ∀ why, parse args = .error why → ∀ args' : List String, args'.Perm args →
      ∃ why', parse args' = .error why' ∧ FirstOffence args' why'.message := by
  rw [← sound_iff]
  rcases parse_cases args with ⟨hparse, hsound⟩ | ⟨why, hparse, hfirst⟩
  · refine ⟨iff_of_true ⟨_, hparse⟩ hsound, fun options hoptions => ?_, fun why hwhy => ?_⟩
    · obtain rfl := Except.ok.inj (hparse.symm.trans hoptions)
      refine ⟨fun file => input?_said_iff hsound, fun lang => lang?_said_iff hsound,
        fun path => getLast?_textBehind?_iff, fun args' hperm hlang hdot => ?_⟩
      rcases parse_cases args' with ⟨hparse', -⟩ | ⟨why, -, hfirst⟩
      · rw [hparse', said_perm hsound hperm hlang hdot]
      · exact absurd (hsound.perm hperm) hfirst.not_sound
    · rw [hparse] at hwhy
      cases hwhy
  · refine ⟨iff_of_false ?_ hfirst.not_sound, fun options hoptions => ?_, fun _ _ args' hperm => ?_⟩
    · rintro ⟨options, hoptions⟩
      rw [hparse] at hoptions
      cases hoptions
    · rw [hparse] at hoptions
      cases hoptions
    · rcases parse_cases args' with ⟨-, hsound⟩ | hrefused
      · exact absurd (hsound.perm hperm.symm) hfirst.not_sound
      · exact hrefused

/-- The second file is refused wherever it stands, but not before the option that there is not. -/
example :
    (parse ["a", "--fast", "b"]).mapError OptionError.message = .error "unknown option '--fast'" ∧
      (parse ["b", "a", "--fast"]).mapError OptionError.message =
        .error "unexpected argument 'a'" := by
  decide

end Options

end GrammarKit
