import GrammarKit.Proofs.Parsed
import GrammarKit.Proofs.Pascal.Actions
import GrammarKit.Proofs.Pascal.LetterCase
import GrammarKit.Proofs.Pascal.Tables
import GrammarKit.Proofs.TokenLines

/-!
# Sessions

Programs run one after the other in one store, and some of them may fail.  What is in the store
afterwards are the assignments that were carried out, in order: those of a program up to the action
that fails, then those of the next.  The log of a session is the list of them, each with its value.

All that the listing shows is settled by the last value of each name in the log.

* `carriedOut`, `performAll_snd`: the assignments of a list of actions.
* `Logs`, `Logs.inTurn_snd`: the log of a session, and the store that it leads to.
* `Program.Stored.exists_folded`: what a program that was parsed gives a value to has a name.
* `Store.splitLines_listing`: each variable has a line of its own.
* `session_lists_canonically`: what is listed after a session.
-/

namespace GrammarKit.Pascal

variable {tree : Tree} {trees : List Tree} {store : Store}

/-! ## 1.  The assignments that are carried out -/

/-- The assignments among the actions, each with its value, up to the first action that fails. -/
def carriedOut : List Action → Store → List (String × Float)
  | [], _ => []
  | .unsupported _ :: _, _ => []
  | .assign name f :: actions, store =>
    match f.value store with
    | .error _ => []
    | .ok x => (name, x) :: carriedOut actions (store.insert name x)

/-- **Actions leave the assignments that were carried out**, and nothing else. -/
theorem performAll_snd (actions : List Action) (store : Store) :
    (performAll actions store).2 = store.insertAll (carriedOut actions store) := by
  induction actions generalizing store with
  | nil => rfl
  | cons action actions ih =>
    cases action with
    | unsupported kind => rfl
    | assign name f =>
      rw [performAll, Action.perform, carriedOut]
      cases f.value store with
      | error why => rfl
      | ok x => exact ih (store.insert name x)

theorem assigns_of_mem_carriedOut {actions : List Action} {entry : String × Float}
    (h : entry ∈ carriedOut actions store) : ∃ action ∈ actions, action.Assigns entry.1 := by
  induction actions generalizing store with
  | nil => exact absurd h List.not_mem_nil
  | cons action actions ih =>
    cases action with
    | unsupported kind => exact absurd h List.not_mem_nil
    | assign name f =>
      rw [carriedOut] at h
      split at h
      · exact absurd h List.not_mem_nil
      · rcases List.mem_cons.mp h with rfl | h
        · exact ⟨_, List.mem_cons_self, f, rfl⟩
        · obtain ⟨action, haction, hassigns⟩ := ih h
          exact ⟨action, List.mem_cons_of_mem _ haction, hassigns⟩

/-! ## 2.  Logs -/

/-- The trees are run in turn, and these are the assignments that are carried out. -/
inductive Logs : List Tree → Store → List (String × Float) → Prop
  | nil {store : Store} : Logs [] store []
  | cons {tree : Tree} {trees : List Tree} {actions : List Action} {store : Store}
      {log : List (String × Float)} :
    Flattens tree.arena tree.root actions → Logs trees (run tree store).2 log →
      Logs (tree :: trees) store (carriedOut actions store ++ log)

theorem exists_logs (h : ∀ tree ∈ trees, tree.arena.Grounded tree.root) (store : Store) :
    ∃ log, Logs trees store log := by
  induction trees generalizing store with
  | nil => exact ⟨[], .nil⟩
  | cons tree trees ih =>
    obtain ⟨htree, htrees⟩ := List.forall_mem_cons.mp h
    obtain ⟨actions, hactions⟩ := exists_flattens htree
    obtain ⟨log, hlog⟩ := ih htrees (run tree store).2
    exact ⟨_, .cons hactions hlog⟩

theorem Logs.unique {log other : List (String × Float)} (h : Logs trees store log)
    (hother : Logs trees store other) : log = other := by
  induction h generalizing other with
  | nil =>
    cases hother
    rfl
  | cons hactions _ ih =>
    cases hother with
    | cons hactions' hlog' => rw [hactions.unique hactions', ih hlog']

-- Said of any run: of `run` itself the levels would be counted down.
theorem inTurn_cons_snd {α : Type} (run : α → Store → Except EvalError Unit × Store) (a : α)
    (as : List α) (store : Store) :
    (inTurn run (a :: as) store).2 = (inTurn run as (run a store).2).2 := rfl

/-- **Runs in turn leave the assignments of their log**, and nothing else. -/
theorem Logs.inTurn_snd {log : List (String × Float)} (hlog : Logs trees store log)
    (h : ∀ tree ∈ trees, tree.arena.Grounded tree.root) :
    (inTurn run trees store).2 = store.insertAll log := by
  induction hlog with
  | nil => rfl
  | @cons tree trees actions store log hactions _ ih =>
    obtain ⟨htree, htrees⟩ := List.forall_mem_cons.mp h
    rw [inTurn_cons_snd, ih htrees, Store.insertAll_append, ← performAll_snd,
      hactions.run_eq htree]

/-! ## 3.  Programs that were parsed -/

/-- The action assigns to a name, as it is known in small letters. -/
def Action.Regular (action : Action) : Prop :=
  ∃ (name : Name) (value : Formula), action = .assign name.folded value

mutual

theorem Statement.regular_of_mem_actions : ∀ (s : Statement), ∀ action ∈ s.actions, action.Regular
  | .compound statements => by
    rw [Statement.actions]
    exact Statement.regular_of_mem_actionsAll statements
  | .assign name value => by
    rw [Statement.actions]
    exact List.forall_mem_singleton.mpr ⟨name, value.formula, rfl⟩
  | .empty => by
    rw [Statement.actions]
    exact List.forall_mem_nil _

theorem Statement.regular_of_mem_actionsAll : ∀ (statements : List Statement),
    ∀ action ∈ Statement.actionsAll statements, action.Regular
  | [] => by
    rw [Statement.actionsAll]
    exact List.forall_mem_nil _
  | statement :: statements => by
    rw [Statement.actionsAll]
    exact List.forall_mem_append.mpr ⟨Statement.regular_of_mem_actions statement,
      Statement.regular_of_mem_actionsAll statements⟩

end

/-- Only names are given values. -/
theorem Program.Stored.exists_folded {p : Program} (h : p.Stored tree.arena tree.root)
    {actions : List Action} (hactions : Flattens tree.arena tree.root actions)
    {entry : String × Float} (hentry : entry ∈ carriedOut actions store) :
    ∃ name : Name, entry.1 = name.folded := by
  rw [hactions.unique h.flattens] at hentry
  obtain ⟨action, haction, value, hassigns⟩ := assigns_of_mem_carriedOut hentry
  obtain ⟨name, f, hregular⟩ := Statement.regular_of_mem_actionsAll p.body action haction
  obtain ⟨hname, -⟩ := Action.assign.inj (hassigns.symm.trans hregular)
  exact ⟨name, hname⟩

/-! ## 4.  Lines -/

theorem ne_feed_of_isAlphanum {c : Char} (h : c.isAlphanum = true) : c ≠ '\n' := by
  rintro rfl
  exact absurd h (by decide)

theorem feed_not_mem_of_isName {chars : List Char} (h : isName chars = true) : '\n' ∉ chars := by
  cases chars with
  | nil => exact List.not_mem_nil
  | cons c chars =>
    rw [isName, Bool.and_eq_true, List.all_eq_true] at h
    rw [List.mem_cons, not_or]
    refine ⟨?_, fun hfeed => ne_feed_of_isAlphanum (h.2 _ hfeed) rfl⟩
    rintro rfl
    exact absurd h.1 (by decide)

theorem Name.feed_not_mem_folded (name : Name) : '\n' ∉ name.folded.toList := by
  have hsmall : name.folded.toList = name.small.chars := by
    show ((String.ofList name.chars).map Char.toLower).toList = name.chars.map Char.toLower
    rw [String.toList_map, String.toList_ofList]
  rw [hsmall]
  exact feed_not_mem_of_isName name.small.isName

theorem feed_not_mem_positional (s : Decimal.Scaled) : '\n' ∉ (Decimal.positional s).toList := by
  have hdigits : ∀ {c : Char}, c ∈ Nat.toDigits 10 s.digits → c ≠ '\n' := fun hc =>
    ne_feed_of_isAlphanum (by
      rw [Char.isAlphanum, Nat.isDigit_of_mem_toDigits (by decide) (by decide) hc, Bool.or_true])
  have hzeros : ∀ {count : Nat} {c : Char}, c ∈ List.replicate count '0' → c ≠ '\n' := fun hc =>
    List.eq_of_mem_replicate hc ▸ by decide
  intro hfeed
  unfold Decimal.positional at hfeed
  dsimp only at hfeed
  split at hfeed
  · rw [String.toList_ofList, List.mem_append] at hfeed
    exact hfeed.elim (fun h => hdigits h rfl) fun h => hzeros h rfl
  · generalize hpadded : List.replicate _ '0' ++ Nat.toDigits 10 s.digits = padded at hfeed
    have hplain : '\n' ∉ padded := by
      rw [← hpadded, List.mem_append]
      rintro (h | h)
      · exact hzeros h rfl
      · exact hdigits h rfl
    rw [String.toList_ofList] at hfeed
    split at hfeed
    · exact hplain (List.mem_of_mem_take hfeed)
    · rcases List.mem_append.mp hfeed with h | h
      · exact hplain (List.mem_of_mem_take h)
      · rcases List.mem_cons.mp h with h | h
        · exact absurd h (by decide)
        · have hfraction := (List.dropWhile_sublist _).subset (List.mem_reverse.mp h)
          exact hplain (List.mem_of_mem_drop (List.mem_reverse.mp hfraction))

theorem feed_not_mem_append {s t : String} (hs : '\n' ∉ s.toList) (ht : '\n' ∉ t.toList) :
    '\n' ∉ (s ++ t).toList := by
  rw [String.toList_append, List.mem_append, not_or]
  exact ⟨hs, ht⟩

theorem feed_not_mem_ofBits (bits : Nat) : '\n' ∉ (Decimal.ofBits bits).toList := by
  have hsign : '\n' ∉ (if Binary64.isNegative bits then "-" else "").toList := by
    split <;> decide
  unfold Decimal.ofBits
  dsimp only
  split
  · exact feed_not_mem_append hsign (by decide)
  · split
    · decide
    · split
      · exact feed_not_mem_append hsign (by decide)
      · exact feed_not_mem_append hsign (feed_not_mem_positional _)

/-- The line of a variable. -/
def entryLine (entry : String × Float) : String := entry.1 ++ " := " ++ Decimal.ofFloat entry.2

/-- **Each variable has a line of its own**, in the order of the entries, if the names have no line
feeds. -/
theorem Store.splitLines_listing (h : ∀ entry ∈ store.entries, '\n' ∉ entry.1.toList) :
    splitLines store.listing = store.entries.map entryLine ++ [""] := by
  have hlines : ∀ line ∈ store.entries.map entryLine, '\n' ∉ line.toList := by
    intro line hline
    obtain ⟨entry, hentry, rfl⟩ := List.mem_map.mp hline
    exact feed_not_mem_append (feed_not_mem_append (h entry hentry) (by decide))
      (feed_not_mem_ofBits _)
  have hlisting : store.listing = String.join ((store.entries.map entryLine).map (· ++ "\n")) := by
    rw [listing, List.map_map]
    rfl
  rw [hlisting, splitLines_join hlines]

/-! ## 5.  Sessions -/

/-- The trees of the sources that can be parsed.  The others are not run. -/
def treesOf (sources : List String) : List Tree :=
  sources.filterMap fun source => (Language.pascal.parse source).toOption

/-- The variables after a session: the sources are run in turn, whether they fail or not. -/
def session (sources : List String) : Store := (inTurn run (treesOf sources) .empty).2

theorem exists_parse_of_mem_treesOf {sources : List String} (h : tree ∈ treesOf sources) :
    ∃ source ∈ sources, Language.pascal.parse source = .ok tree := by
  obtain ⟨source, hsource, hparse⟩ := List.mem_filterMap.mp h
  refine ⟨source, hsource, ?_⟩
  cases hresult : Language.pascal.parse source with
  | error why =>
    rw [hresult] at hparse
    cases hparse
  | ok found =>
    rw [hresult] at hparse
    exact congrArg Except.ok (Option.some.inj hparse)

theorem exists_stored_of_mem_treesOf {sources : List String} (h : tree ∈ treesOf sources) :
    ∃ p : Program, p.Stored tree.arena tree.root := by
  obtain ⟨source, -, hparse⟩ := exists_parse_of_mem_treesOf h
  obtain ⟨p, -, hstored, -⟩ := exists_yields_of_parse (of_mapError_eq_ok hparse)
  exact ⟨p, hstored⟩

theorem grounded_of_mem_treesOf {sources : List String} (h : tree ∈ treesOf sources) :
    tree.arena.Grounded tree.root := by
  obtain ⟨source, -, hparse⟩ := exists_parse_of_mem_treesOf h
  have hapart := Language.apart_of_parse hparse
  exact hapart.tidy.grounded (hapart.inRange tree.root List.mem_cons_self)

theorem Logs.exists_folded {log : List (String × Float)} (hlog : Logs trees store log)
    (h : ∀ tree ∈ trees, ∃ p : Program, p.Stored tree.arena tree.root)
    {entry : String × Float} (hentry : entry ∈ log) : ∃ name : Name, entry.1 = name.folded := by
  induction hlog with
  | nil => exact absurd hentry List.not_mem_nil
  | cons hactions _ ih =>
    obtain ⟨⟨p, hstored⟩, htrees⟩ := List.forall_mem_cons.mp h
    rcases List.mem_append.mp hentry with hentry | hentry
    · exact hstored.exists_folded hactions hentry
    · exact ih htrees hentry

/-- The names that a session leaves have no line feeds. -/
theorem Logs.feed_not_mem_entries {sources : List String} {log : List (String × Float)}
    (hlog : Logs (treesOf sources) .empty log) {entry : String × Float}
    (hentry : entry ∈ (Store.empty.insertAll log).entries) : '\n' ∉ entry.1.toList := by
  obtain ⟨assigned, hassigned, heq⟩ :=
    List.mem_map.mp (mem_names_insertAll.mp (List.mem_map_of_mem hentry))
  obtain ⟨name, hname⟩ := hlog.exists_folded (fun _ => exists_stored_of_mem_treesOf) hassigned
  rw [← heq, hname]
  exact name.feed_not_mem_folded

/-- A session leaves the assignments of its log. -/
theorem session_eq {sources : List String} {log : List (String × Float)}
    (hlog : Logs (treesOf sources) .empty log) : session sources = Store.empty.insertAll log :=
  hlog.inTurn_snd fun _ => grounded_of_mem_treesOf

/-- **What is listed after a session is settled by the last values** of its log.  The names increase in
the order of their bytes, and are those to which something was assigned, be it by a program that failed
later.  There are as many lines as there are variables, in the order of the names.  A table that is
enumerated in any order comes to the same, however it is sorted, and so does another session whose log
has the same last values, in whatever order it made its assignments. -/
theorem session_lists_canonically (sources : List String) :
    ∃ log, (∀ other, Logs (treesOf sources) .empty other ↔ other = log) ∧
      (session sources).entries.Pairwise (fun a b => utf8 a.1.toList < utf8 b.1.toList) ∧
      (∀ name, name ∈ (session sources).entries.map Prod.fst ↔ name ∈ log.map Prod.fst) ∧
      (∀ name value, (name, value) ∈ (session sources).entries ↔ lastValue? log name = some value) ∧
      (session sources).size = (session sources).entries.length ∧
      splitLines (session sources).listing = (session sources).entries.map entryLine ++ [""] ∧
      (∀ table, Leaves log table ↔ table.Perm (session sources).entries) ∧
      (∀ table, Leaves log table → table.length = (session sources).size ∧
        ∀ sorted : List (String × Float), sorted.Perm table →
          sorted.Pairwise (fun a b => ¬ utf8 b.1.toList < utf8 a.1.toList) →
          sorted = (session sources).entries) ∧
      ∀ others log', Logs (treesOf others) .empty log' →
        (∀ name, lastValue? log' name = lastValue? log name) →
        (session others).entries = (session sources).entries ∧
          (session others).listing = (session sources).listing := by
  have hgrounded : ∀ tree ∈ treesOf sources, tree.arena.Grounded tree.root :=
    fun _ => grounded_of_mem_treesOf
  obtain ⟨log, hlog⟩ := exists_logs hgrounded .empty
  refine ⟨log, fun other => ⟨fun hother => hother.unique hlog, fun heq => heq ▸ hlog⟩, ?_⟩
  rw [session_eq hlog]
  refine ⟨(Store.empty.insertAll log).ordered.imp lt_iff_utf8_lt.mp, fun name => mem_names_insertAll,
    fun name value => mem_entries_insertAll, rfl,
    Store.splitLines_listing fun entry => hlog.feed_not_mem_entries, fun table => leaves_iff,
    fun table htable => ?_, fun others log' hlog' hlast => ?_⟩
  · have hperm := leaves_iff.mp htable
    exact ⟨hperm.length_eq, fun sorted hsorted => eq_entries_of_sorted (hsorted.trans hperm)⟩
  · have hsame : session others = Store.empty.insertAll log := by
      refine Store.ext_find? fun name => ?_
      rw [session_eq hlog', Store.find?_empty_insertAll, Store.find?_empty_insertAll, hlast]
    rw [hsame]
    exact ⟨rfl, rfl⟩

end GrammarKit.Pascal
