import GrammarKit.Pascal.Store
import GrammarKit.Proofs.ByteOrder
import Mathlib.Data.List.Induction
import Mathlib.Data.List.Nodup
import Mathlib.Data.List.Perm.Basic

/-!
# Variables in any order

A store keeps its variables in the order of their names.  They may as well be kept in a table without
an order, which is enumerated in another order after each assignment, and be sorted when they are
listed, by a sort that does as it likes with names that are equal.  It makes no difference: no name is
there twice, so there is one way to sort them.

* `Store.ext_find?`: a store is known by the values that are found in it.
* `Store.find?_insertAll`, `mem_names_insertAll`: after assignments each variable has its last value,
  and there are no others.
* `Leaves`, `leaves_iff`: the tables that assignments may leave are the arrangements of the store.
* `eq_entries_of_sorted`: and each of them is sorted to the entries of the store.
-/

namespace GrammarKit.Pascal

/-! ## 1.  Entries and values -/

theorem Increasing.nodup {entries : List (String × Float)} (h : Increasing entries) :
    entries.Nodup := by
  refine h.imp fun hlt heq => ?_
  rw [heq] at hlt
  exact String.lt_irrefl _ hlt

/-- What is found under a name is the one entry with that name. -/
theorem lookup_eq_some_iff {name : String} {value : Float} :
    ∀ {entries : List (String × Float)}, Increasing entries →
      (entries.lookup name = some value ↔ (name, value) ∈ entries)
  | [], _ => by simp
  | (key, old) :: entries, h => by
    obtain ⟨hkey, hentries⟩ := List.pairwise_cons.mp h
    rw [Store.lookup_cons_eq_ite, List.mem_cons]
    split
    · next heq =>
      subst heq
      have habsent : (name, value) ∉ entries := fun hmem =>
        String.lt_irrefl name (hkey (name, value) hmem)
      simp [habsent, eq_comm]
    · next hne =>
      rw [lookup_eq_some_iff hentries]
      simp [hne]

namespace Store

variable {store other : Store} {log : List (String × Float)} {name : String}

theorem find?_eq_some {value : Float} :
    store.find? name = some value ↔ (name, value) ∈ store.entries :=
  lookup_eq_some_iff store.ordered

/-- **A store is known by the values that are found in it.** -/
theorem ext_find? (h : ∀ name, store.find? name = other.find? name) : store = other := by
  have hmem : ∀ entry, entry ∈ store.entries ↔ entry ∈ other.entries := fun entry => by
    rw [← find?_eq_some, ← find?_eq_some, h]
  have hperm : store.entries.Perm other.entries :=
    (List.perm_ext_iff_of_nodup store.ordered.nodup other.ordered.nodup).mpr hmem
  have heq : store.entries = other.entries :=
    hperm.eq_of_pairwise (fun a b _ _ hab hba => absurd hba (String.lt_asymm hab))
      store.ordered other.ordered
  cases store
  cases other
  cases heq
  rfl

/-! ## 2.  Assignments in turn -/

/-- The store after assignments, one after the other. -/
def insertAll (store : Store) (log : List (String × Float)) : Store :=
  log.foldl (fun store entry => store.insert entry.1 entry.2) store

theorem insertAll_append (store : Store) (log more : List (String × Float)) :
    store.insertAll (log ++ more) = (store.insertAll log).insertAll more :=
  List.foldl_append

end Store

/-- The last value that is assigned to a variable. -/
def lastValue? (log : List (String × Float)) (name : String) : Option Float :=
  log.reverse.lookup name

theorem lastValue?_concat (log : List (String × Float)) (entry : String × Float) (name : String) :
    lastValue? (log ++ [entry]) name =
      if name = entry.1 then some entry.2 else lastValue? log name := by
  rw [lastValue?, List.reverse_append, List.reverse_singleton, List.singleton_append,
    Store.lookup_cons_eq_ite]
  rfl

theorem exists_lastValue?_iff {log : List (String × Float)} {name : String} :
    (∃ value, lastValue? log name = some value) ↔ name ∈ log.map Prod.fst := by
  induction log using List.reverseRecOn with
  | nil => simp [lastValue?]
  | append_singleton log entry ih =>
    rw [lastValue?_concat, List.map_append, List.mem_append, ← ih]
    split
    · next heq => simp [heq]
    · next hne => simp [hne]

/-- **After assignments each variable has its last value**, or the one that it had before. -/
theorem Store.find?_insertAll (store : Store) (log : List (String × Float)) (name : String) :
    (store.insertAll log).find? name = (lastValue? log name).or (store.find? name) := by
  induction log using List.reverseRecOn with
  | nil => rfl
  | append_singleton log entry ih =>
    rw [Store.insertAll_append, lastValue?_concat]
    show ((store.insertAll log).insert entry.1 entry.2).find? name = _
    rw [Store.find?_insert]
    split
    · rfl
    · exact ih

theorem Store.find?_empty_insertAll (log : List (String × Float)) (name : String) :
    (Store.empty.insertAll log).find? name = lastValue? log name := by
  rw [Store.find?_insertAll]
  exact Option.or_none

/-- The entries are the names with their last values. -/
theorem mem_entries_insertAll {log : List (String × Float)} {name : String} {value : Float} :
    (name, value) ∈ (Store.empty.insertAll log).entries ↔ lastValue? log name = some value := by
  rw [← Store.find?_eq_some, Store.find?_empty_insertAll]

/-- The names are those to which something was assigned. -/
theorem mem_names_insertAll {log : List (String × Float)} {name : String} :
    name ∈ (Store.empty.insertAll log).entries.map Prod.fst ↔ name ∈ log.map Prod.fst := by
  refine Iff.trans ?_ exists_lastValue?_iff
  constructor
  · intro hname
    obtain ⟨entry, hentry, rfl⟩ := List.mem_map.mp hname
    exact ⟨entry.2, mem_entries_insertAll.mp hentry⟩
  · rintro ⟨value, hlast⟩
    exact List.mem_map.mpr ⟨(name, value), mem_entries_insertAll.mpr hlast, rfl⟩

/-! ## 3.  Tables -/

/-- Assignments may leave this table.  Each of them takes the place of the entry with its name, if
there is one, and may bring the table into any order. -/
inductive Leaves : List (String × Float) → List (String × Float) → Prop
  | nil : Leaves [] []
  | concat {log table after : List (String × Float)} {name : String} {value : Float} :
    Leaves log table → after.Perm ((name, value) :: table.filter (·.1 ≠ name)) →
      Leaves (log ++ [(name, value)]) after

theorem leaves_nil_iff {table : List (String × Float)} : Leaves [] table ↔ table = [] := by
  refine ⟨fun h => ?_, fun h => h ▸ .nil⟩
  generalize hlog : ([] : List (String × Float)) = log at h
  cases h with
  | nil => rfl
  | concat _ _ =>
    exact absurd hlog.symm (List.append_ne_nil_of_right_ne_nil _ (List.cons_ne_nil _ _))

theorem leaves_concat_iff {log after : List (String × Float)} {name : String} {value : Float} :
    Leaves (log ++ [(name, value)]) after ↔
      ∃ table, Leaves log table ∧ after.Perm ((name, value) :: table.filter (·.1 ≠ name)) := by
  refine ⟨fun h => ?_, fun ⟨table, htable, hafter⟩ => .concat htable hafter⟩
  generalize hlog : log ++ [(name, value)] = whole at h
  cases h with
  | nil => exact absurd hlog (List.append_ne_nil_of_right_ne_nil _ (List.cons_ne_nil _ _))
  | concat htable hafter =>
    obtain ⟨rfl, heq⟩ := List.append_inj' hlog rfl
    cases heq
    exact ⟨_, htable, hafter⟩

/-- A new entry takes the place of the one with its name. -/
theorem insertEntry_perm (name : String) (value : Float) :
    ∀ {entries : List (String × Float)}, Increasing entries →
      (insertEntry name value entries).Perm ((name, value) :: entries.filter (·.1 ≠ name))
  | [], _ => List.Perm.refl _
  | (key, old) :: entries, h => by
    obtain ⟨hkey, hentries⟩ := List.pairwise_cons.mp h
    have habove : ∀ {limit}, ¬ key < limit → entries.filter (·.1 ≠ limit) = entries := by
      intro limit hlimit
      refine List.filter_eq_self.mpr fun entry hentry => decide_eq_true ?_
      rintro rfl
      exact hlimit (hkey entry hentry)
    have hkeep : key ≠ name → ((key, old) :: entries).filter (·.1 ≠ name) =
        (key, old) :: entries.filter (·.1 ≠ name) :=
      fun hne => List.filter_cons_of_pos (decide_eq_true hne)
    rw [insertEntry]
    split
    · next hlt =>
      rw [hkeep (String.ne_of_lt hlt).symm, habove (String.lt_asymm hlt)]
    · next hle =>
      split
      · next hgt =>
        rw [hkeep (String.ne_of_lt hgt)]
        exact ((insertEntry_perm name value hentries).cons _).trans (.swap _ _ _)
      · next hge =>
        obtain rfl : name = key := String.le_antisymm (String.not_lt.mp hge) (String.not_lt.mp hle)
        rw [List.filter_cons_of_neg (by simp), habove (String.lt_irrefl name)]

/-- **The tables that assignments may leave** are the arrangements of the store that they leave. -/
theorem leaves_iff {log table : List (String × Float)} :
    Leaves log table ↔ table.Perm (Store.empty.insertAll log).entries := by
  induction log using List.reverseRecOn generalizing table with
  | nil => exact leaves_nil_iff.trans List.perm_nil.symm
  | append_singleton log entry ih =>
    obtain ⟨name, value⟩ := entry
    have hinsert : ((Store.empty.insertAll (log ++ [(name, value)])).entries).Perm
        ((name, value) :: (Store.empty.insertAll log).entries.filter (·.1 ≠ name)) := by
      rw [Store.insertAll_append]
      exact insertEntry_perm name value (Store.empty.insertAll log).ordered
    rw [leaves_concat_iff]
    constructor
    · rintro ⟨before, hbefore, htable⟩
      exact htable.trans ((((ih.mp hbefore).filter _).cons _).trans hinsert.symm)
    · exact fun htable => ⟨_, ih.mpr (List.Perm.refl _), htable.trans hinsert⟩

/-- **There is one way to sort a table by the bytes of the names**, whatever the sort does with equal
names: they do not occur. -/
theorem eq_entries_of_sorted {store : Store} {sorted : List (String × Float)}
    (hperm : sorted.Perm store.entries)
    (hsorted : sorted.Pairwise fun a b => ¬ utf8 b.1.toList < utf8 a.1.toList) :
    sorted = store.entries := by
  have hnames : sorted.Pairwise fun a b => a.1 ≤ b.1 :=
    hsorted.imp fun h => String.not_lt.mp fun hlt => h (lt_iff_utf8_lt.mp hlt)
  have hordered : store.entries.Pairwise fun a b => a.1 ≤ b.1 :=
    store.ordered.imp fun h => String.not_lt.mp (String.lt_asymm h)
  refine hperm.eq_of_pairwise (fun a b ha hb hab hba => ?_) hnames hordered
  have hname : a.1 = b.1 := String.le_antisymm hab hba
  have hvalue : some a.2 = some b.2 := by
    rw [← Store.find?_eq_some.mpr (hperm.mem_iff.mp ha), ← Store.find?_eq_some.mpr hb, hname]
  exact Prod.ext hname (Option.some.inj hvalue)

end GrammarKit.Pascal
