/-!
# Variables and their values

A store holds the value of each variable that was assigned, ordered by name.  Names are compared
character by character, which for UTF-8 is also the order of their bytes.

* `Store.insert` sets a value; `find?_insert` says what is found afterwards.
* `Store.entries` is the list of all variables; `ordered` says that it is strictly increasing.
-/

namespace GrammarKit.Pascal

/-- The entries with one more, or with another value for the name. -/
def insertEntry (name : String) (value : Float) : List (String × Float) → List (String × Float)
  | [] => [(name, value)]
  | (other, old) :: entries =>
    if name < other then (name, value) :: (other, old) :: entries
    else if other < name then (other, old) :: insertEntry name value entries
    else (name, value) :: entries

/-- The names of a list of entries increase strictly. -/
abbrev Increasing (entries : List (String × Float)) : Prop := entries.Pairwise (·.1 < ·.1)

theorem fst_mem_of_mem_insertEntry {name : String} {value : Float} {entry : String × Float} :
    ∀ {entries : List (String × Float)}, entry ∈ insertEntry name value entries →
      entry.1 = name ∨ entry ∈ entries
  | [], h => by
    rw [insertEntry, List.mem_singleton] at h
    exact Or.inl (by rw [h])
  | (other, old) :: entries, h => by
    rw [insertEntry] at h
    split at h
    · rcases List.mem_cons.mp h with h | h
      · exact Or.inl (by rw [h])
      · exact Or.inr h
    · split at h
      · rcases List.mem_cons.mp h with h | h
        · exact Or.inr (by rw [h]; exact List.mem_cons_self)
        · exact (fst_mem_of_mem_insertEntry h).imp id (List.mem_cons_of_mem _)
      · rcases List.mem_cons.mp h with h | h
        · exact Or.inl (by rw [h])
        · exact Or.inr (List.mem_cons_of_mem _ h)

theorem increasing_insertEntry (name : String) (value : Float) :
    ∀ {entries : List (String × Float)}, Increasing entries →
      Increasing (insertEntry name value entries)
  | [], _ => List.pairwise_singleton _ _
  | (other, old) :: entries, h => by
    obtain ⟨hother, hentries⟩ := List.pairwise_cons.mp h
    rw [insertEntry]
    split
    · next hlt =>
      refine List.pairwise_cons.mpr ⟨fun entry hentry => ?_, h⟩
      rcases List.mem_cons.mp hentry with rfl | hentry
      · exact hlt
      · exact String.lt_trans hlt (hother entry hentry)
    · split
      · next hgt =>
        refine List.pairwise_cons.mpr ⟨fun entry hentry => ?_, increasing_insertEntry name value hentries⟩
        rcases fst_mem_of_mem_insertEntry hentry with heq | hentry
        · show other < entry.1
          rw [heq]
          exact hgt
        · exact hother entry hentry
      · next hle hge =>
        have heq : name = other :=
          String.le_antisymm (String.not_lt.mp hge) (String.not_lt.mp hle)
        refine List.pairwise_cons.mpr ⟨fun entry hentry => ?_, hentries⟩
        show name < entry.1
        rw [heq]
        exact hother entry hentry

/-- The variables that were assigned, with their values. -/
structure Store where
  /-- The variables in the order of their names. -/
  entries : List (String × Float)
  ordered : Increasing entries

namespace Store

/-- The store without variables. -/
def empty : Store := ⟨[], List.Pairwise.nil⟩

/-- The store in which `name` has this value and all other variables have theirs. -/
def insert (store : Store) (name : String) (value : Float) : Store :=
  ⟨insertEntry name value store.entries, increasing_insertEntry name value store.ordered⟩

/-- The value of a variable. -/
def find? (store : Store) (name : String) : Option Float := store.entries.lookup name

/-- The number of variables. -/
def size (store : Store) : Nat := store.entries.length

/-- Whether there are no variables. -/
def isEmpty (store : Store) : Bool := store.entries.isEmpty

theorem lookup_cons_eq_ite (key name : String) (value : Float) (entries : List (String × Float)) :
    List.lookup name ((key, value) :: entries) =
      if name = key then some value else entries.lookup name := by
  by_cases h : name = key
  · simp [h]
  · have hbeq : (name == key) = false := beq_eq_false_iff_ne.mpr h
    simp [List.lookup_cons, hbeq, h]

theorem lookup_insertEntry (name other : String) (value : Float) :
    ∀ entries : List (String × Float),
      (insertEntry name value entries).lookup other =
        if other = name then some value else entries.lookup other
  | [] => by rw [insertEntry, lookup_cons_eq_ite]
  | (key, old) :: entries => by
    rw [insertEntry]
    split
    · rw [lookup_cons_eq_ite]
    · split
      · next hgt =>
        rw [lookup_cons_eq_ite, lookup_cons_eq_ite, lookup_insertEntry name other value entries]
        by_cases h : other = key
        · have hne : other ≠ name := by
            rintro rfl
            subst h
            exact String.lt_irrefl _ hgt
          rw [if_pos h, if_neg hne, if_pos h]
        · rw [if_neg h, if_neg h]
      · next hle hge =>
        have heq : name = key :=
          String.le_antisymm (String.not_lt.mp hge) (String.not_lt.mp hle)
        rw [lookup_cons_eq_ite, lookup_cons_eq_ite, heq]
        by_cases h : other = key
        · rw [if_pos h, if_pos h]
        · rw [if_neg h, if_neg h, if_neg h]

/-- After an assignment the variable has the value, and the others have kept theirs. -/
theorem find?_insert (store : Store) (name other : String) (value : Float) :
    (store.insert name value).find? other =
      if other = name then some value else store.find? other :=
  lookup_insertEntry name other value store.entries

end Store

end GrammarKit.Pascal
