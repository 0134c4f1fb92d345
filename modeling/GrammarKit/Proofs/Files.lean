import GrammarKit.Files.Tree
import Mathlib.Data.List.Infix

/-!
# What a write changes

A directory is there because a file is below it, so a new file could bring new directories with it,
and paths that led nowhere would lead somewhere.  It does not: a write asks for the directory that the
file goes into.  So a write that is accepted adds one file or replaces one, all paths lead where they
led, and what was written is read back.

* `FileTree.isDirectory_of_follow`: the places above the end of a path are directories.
* `FileTree.isDirectory_write`, `FileTree.content?_write`: what is there after a write.
* `FileTree.read_write`, `FileTree.read_write_of_ne`: what was written is read back, and what is
  elsewhere is read as before.
-/

namespace GrammarKit.FileTree

variable {tree : FileTree} {path : String} {content : List UInt8}

/-! ## 1.  Directories -/

theorem isDirectory_iff {place : Place} :
    tree.isDirectory place = true ↔
      place <+: tree.working ∨ ∃ entry ∈ tree.files, place <+: entry.1 ∧ place ≠ entry.1 := by
  simp [isDirectory, List.isPrefixOf_iff_prefix]

/-- What is above a directory is a directory. -/
theorem isDirectory_of_prefix {place above : Place} (h : tree.isDirectory place = true)
    (habove : above <+: place) : tree.isDirectory above = true := by
  rw [isDirectory_iff] at h ⊢
  rcases h with hworking | ⟨entry, hentry, hbelow, hne⟩
  · exact Or.inl (habove.trans hworking)
  · refine Or.inr ⟨entry, hentry, habove.trans hbelow, ?_⟩
    rintro rfl
    exact hne (hbelow.eq_of_length_le habove.length_le)

theorem isDirectory_root : tree.isDirectory [] = true :=
  isDirectory_iff.mpr (Or.inl List.nil_prefix)

theorem isDirectory_working : tree.isDirectory tree.working = true :=
  isDirectory_iff.mpr (Or.inl (List.prefix_refl _))

/-! ## 2.  Where a path leads -/

theorem isDirectory_of_walk {place last : Place} {name next : String} {rest : List String}
    (hplace : tree.isDirectory place = true)
    (h : tree.walk place name rest = .ok (last, next)) :
    tree.isDirectory last = true ∧ next ∈ name :: rest := by
  induction rest generalizing place name with
  | nil =>
    obtain ⟨rfl, rfl⟩ := Prod.mk.inj (Except.ok.inj h)
    exact ⟨hplace, List.mem_cons_self⟩
  | cons following rest ih =>
    rw [walk] at h
    split at h
    · cases h
    · split at h
      next hstep =>
        obtain ⟨hlast, hnext⟩ := ih hstep h
        exact ⟨hlast, List.mem_cons_of_mem _ hnext⟩
      · split at h <;> cases h

/-- A walk goes the same way in any tree that has the same directories. -/
theorem walk_mono {other : FileTree} {place last : Place} {name next : String} {rest : List String}
    (hsame : ∀ place, tree.isDirectory place = true → other.isDirectory place = true)
    (h : tree.walk place name rest = .ok (last, next)) :
    other.walk place name rest = .ok (last, next) := by
  induction rest generalizing place name with
  | nil => exact h
  | cons following rest ih =>
    rw [walk] at h ⊢
    split at h
    · cases h
    · next hname =>
      rw [if_neg hname]
      split at h
      next hstep =>
        rw [if_pos (hsame _ hstep)]
        exact ih h
      · split at h <;> cases h

theorem step_eq_append {place : Place} {name : String} (hempty : name ≠ "") (hpoint : name ≠ ".")
    (hpoints : name ≠ "..") : step place name = place ++ [name] := by
  rw [step] <;> assumption

/-- Where a walk along a path begins. -/
def start (tree : FileTree) (path : String) : Place :=
  if (Path.components path).head? = some "" then [] else tree.working

theorem isDirectory_start : tree.isDirectory (tree.start path) = true := by
  rw [start]
  split
  · exact isDirectory_root
  · exact isDirectory_working

/-- What it takes to follow a path: a walk along the components that say something. -/
theorem follow_eq_ok {target : Target} :
    tree.follow path = .ok target ↔
      path ≠ "" ∧ ¬ pathLimit < path.utf8ByteSize ∧
        ((Path.components path).filter (· ≠ "") = [] ∧ target = ⟨tree.start path, "", true⟩ ∨
          ∃ first rest place last, (Path.components path).filter (· ≠ "") = first :: rest ∧
            tree.walk (tree.start path) first rest = .ok (place, last) ∧
            target = ⟨step place last, last,
              (Path.components path).getLast? = some "" || last = "." || last = ".."⟩) := by
  unfold follow
  by_cases hpath : path = ""
  · simp [hpath]
  · by_cases hlimit : pathLimit < path.utf8ByteSize
    · simp [hpath, hlimit]
    · rw [if_neg hpath, if_neg hlimit]
      dsimp only
      rw [← start]
      cases hnames : (Path.components path).filter (· ≠ "") with
      | nil => simp [hpath, hlimit, eq_comm]
      | cons first rest =>
        cases hwalk : tree.walk (tree.start path) first rest with
        | error why => simp [hwalk]
        | ok found => simp [hpath, hlimit, hwalk, eq_comm, Prod.ext_iff]

/-- Above the end of a path that can mean a file, all are directories. -/
theorem isDirectory_of_follow {target : Target} {above : Place}
    (h : tree.follow path = .ok target) (hfile : target.mustBeDirectory = false)
    (habove : above <+: target.place) (hne : above ≠ target.place) :
    tree.isDirectory above = true := by
  obtain ⟨-, -, ⟨-, rfl⟩ | ⟨first, rest, place, last, hnames, hwalk, rfl⟩⟩ := follow_eq_ok.mp h
  · cases hfile
  · obtain ⟨⟨-, hpoint⟩, hpoints⟩ : (_ ∧ last ≠ ".") ∧ last ≠ ".." := by
      simpa using hfile
    obtain ⟨hplace, hlast⟩ := isDirectory_of_walk isDirectory_start hwalk
    have hempty : last ≠ "" := by
      rw [← hnames, List.mem_filter] at hlast
      exact of_decide_eq_true hlast.2
    rw [step_eq_append hempty hpoint hpoints] at habove hne
    rcases List.prefix_concat_iff.mp habove with heq | hprefix
    · exact absurd heq hne
    · exact isDirectory_of_prefix hplace hprefix

/-- A path leads the same way in any tree that has the same directories. -/
theorem follow_mono {other : FileTree} {target : Target} (hworking : other.working = tree.working)
    (hsame : ∀ place, tree.isDirectory place = true → other.isDirectory place = true)
    (h : tree.follow path = .ok target) : other.follow path = .ok target := by
  have hstart : other.start path = tree.start path := by rw [start, start, hworking]
  rw [follow_eq_ok, hstart]
  refine (follow_eq_ok.mp h).imp_right (And.imp_right (Or.imp_right ?_))
  rintro ⟨first, rest, place, last, hnames, hwalk, htarget⟩
  exact ⟨first, rest, place, last, hnames, walk_mono hsame hwalk, htarget⟩

/-! ## 3.  What is there after a write -/

theorem lookup_cons_eq_ite (place other : Place) (files : List (Place × List UInt8)) :
    ((place, content) :: files).lookup other =
      if other = place then some content else files.lookup other := by
  by_cases h : other = place <;> simp [List.lookup_cons, beq_eq_decide, h]

theorem lookup_setContent (place other : Place) (files : List (Place × List UInt8)) :
    (setContent place content files).lookup other =
      if other = place then some content else files.lookup other := by
  induction files with
  | nil => exact lookup_cons_eq_ite place other []
  | cons entry files ih =>
    obtain ⟨first, old⟩ := entry
    rw [setContent, lookup_cons_eq_ite first]
    split
    · next hfirst =>
      subst hfirst
      rw [lookup_cons_eq_ite]
      split <;> rfl
    · next hfirst =>
      rw [lookup_cons_eq_ite, ih]
      split
      · next hother => rw [if_neg (hother ▸ hfirst)]
      · rfl

theorem exists_mem_setContent (place : Place) (files : List (Place × List UInt8))
    (p : Place → Prop) :
    (∃ entry ∈ setContent place content files, p entry.1) ↔
      p place ∨ ∃ entry ∈ files, p entry.1 := by
  induction files with
  | nil => simp [setContent]
  | cons entry files ih =>
    obtain ⟨first, old⟩ := entry
    rw [setContent]
    split
    · next hfirst => simp [hfirst]
    · simp [ih, or_left_comm]

/-- What an accepted write comes to: it replaces the content at the end of the path, which is not a
directory. -/
theorem write_eq_ok {after : FileTree} (h : tree.write path content = (.ok (), after)) :
    ∃ target, tree.follow path = .ok target ∧ target.mustBeDirectory = false ∧
      tree.isDirectory target.place = false ∧ ¬ nameLimit < target.name.utf8ByteSize ∧
      after = { tree with files := setContent target.place content tree.files } := by
  rw [write] at h
  split at h
  · cases h
  · next target hfollow =>
    split at h
    · cases h
    · next hfile =>
      split at h
      · cases h
      · next hname =>
        rw [Bool.or_eq_true, not_or, Bool.not_eq_true, Bool.not_eq_true] at hfile
        exact ⟨target, hfollow, hfile.1, hfile.2, hname, (Prod.mk.inj h).2.symm⟩

/-- A write that is refused changes nothing. -/
theorem write_eq_error {why : FileError} {after : FileTree}
    (h : tree.write path content = (.error why, after)) : after = tree := by
  rw [write] at h
  split at h
  · exact (Prod.mk.inj h).2.symm
  · split at h
    · exact (Prod.mk.inj h).2.symm
    · split at h
      · exact (Prod.mk.inj h).2.symm
      · cases h

/-- A write brings no directories. -/
theorem isDirectory_write {after : FileTree} (h : tree.write path content = (.ok (), after))
    (place : Place) : after.isDirectory place = tree.isDirectory place := by
  obtain ⟨target, hfollow, hfile, -, -, rfl⟩ := write_eq_ok h
  rw [Bool.eq_iff_iff, isDirectory_iff, isDirectory_iff, exists_mem_setContent _ _ fun other =>
    place <+: other ∧ place ≠ other]
  constructor
  · rintro (hworking | ⟨habove, hne⟩ | hbelow)
    · exact Or.inl hworking
    · exact isDirectory_iff.mp (isDirectory_of_follow hfollow hfile habove hne)
    · exact Or.inr hbelow
  · exact Or.imp_right Or.inr

/-- A write changes the content at the end of its path, and nothing else. -/
theorem content?_write {after : FileTree} (h : tree.write path content = (.ok (), after)) :
    ∃ target, tree.follow path = .ok target ∧ ∀ place,
      after.content? place = if place = target.place then some content else tree.content? place := by
  obtain ⟨target, hfollow, -, -, -, rfl⟩ := write_eq_ok h
  exact ⟨target, hfollow, fun place => lookup_setContent target.place place tree.files⟩

/-- Paths lead where they led before a write. -/
theorem follow_write {after : FileTree} (h : tree.write path content = (.ok (), after))
    {other : String} {target : Target} (hfollow : tree.follow other = .ok target) :
    after.follow other = .ok target := by
  refine follow_mono ?_ (fun place hplace => (isDirectory_write h place).trans hplace) hfollow
  obtain ⟨-, -, -, -, -, rfl⟩ := write_eq_ok h
  rfl

/-- **What was written is read back.** -/
theorem read_write {after : FileTree} (h : tree.write path content = (.ok (), after)) :
    after.read path = .ok content := by
  obtain ⟨target, hfollow, hfile, hplace, hname, -⟩ := write_eq_ok h
  have hcontent : after.content? target.place = some content := by
    obtain ⟨target', hfollow', hwritten⟩ := content?_write h
    cases hfollow.symm.trans hfollow'
    exact (hwritten _).trans (if_pos rfl)
  rw [read, follow_write h hfollow]
  simp only [if_neg hname, isDirectory_write h, hplace, hcontent, hfile, Bool.false_eq_true, if_false]

/-- **A read elsewhere answers as before**: if the two paths lead to different places, and the other
one leads to a place at all. -/
theorem read_write_of_ne {after : FileTree} (h : tree.write path content = (.ok (), after))
    {other : String} {here there : Target} (hhere : tree.follow path = .ok here)
    (hthere : tree.follow other = .ok there) (hne : there.place ≠ here.place) :
    after.read other = tree.read other := by
  obtain ⟨target, hfollow, hwritten⟩ := content?_write h
  cases hhere.symm.trans hfollow
  rw [read, read, follow_write h hthere, hthere]
  simp only [isDirectory_write h, hwritten, if_neg hne]

end GrammarKit.FileTree
