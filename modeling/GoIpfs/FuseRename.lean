import Mathlib.Data.List.Basic
import Mathlib.Logic.Function.Basic

/-!
# Renaming in the mounted IPNS tree

`Directory.Rename` of the IPNS mount unlinks the entry from its directory before
it looks at where the entry is to go: a file as target, a node that cannot be
read, a name that is taken or a failing `AddChild` come too late, and the entry
is gone.  `fuseRename_correct_iff` says exactly when a call does no harm.

Directories are the objects of `go-mfs`; an entry is a directory object or a
file.  A call that succeeds keeps everything reachable from the root as long as
the target is not inside the entry that is moved (`rename_holds`).
-/

namespace FuseRename

open Option

variable {Dir File : Type}

/-- `mfs.FSNode` -/
inductive Node (Dir File : Type) where
  | dir (d : Dir)
  | file (f : File)
  deriving DecidableEq, Repr

/-- The entries of every directory. -/
abbrev Tree (Dir File : Type) := Dir → String → Option (Node Dir File)

/-- The `fs.Node` to move into. -/
inductive Target (Dir : Type) where
  | directory (d : Dir)
  | fileNode
  | other
  deriving DecidableEq, Repr

/-- The operations of `go-mfs` that a call makes, each at most once. -/
inductive Op where
  | child
  | unlink
  | getNode
  | addChild
  deriving DecidableEq, Repr

inductive Error where
  | mfs (msg : String)
  | eperm
  | unknownNode
  deriving DecidableEq, Repr

def errNotExist : Error := .mfs "file does not exist"

def errDirExists : Error := .mfs "directory already has entry by that name"

def setEntry [DecidableEq Dir] (t : Tree Dir File) (d : Dir) (name : String)
    (v : Option (Node Dir File)) : Tree Dir File :=
  Function.update t d (Function.update (t d) name v)

section Rename

variable [DecidableEq Dir] (fault : Op → Option Error)

def child (d : Dir) (name : String) (t : Tree Dir File) : Except Error (Node Dir File) :=
  match fault .child with
  | some err => .error err
  | none => (t d name).elim (.error errNotExist) .ok

def unlink (d : Dir) (name : String) (t : Tree Dir File) : Option Error × Tree Dir File :=
  match fault .unlink with
  | some err => (some err, t)
  | none => (none, setEntry t d name none)

def addChild (d : Dir) (name : String) (nd : Node Dir File) (t : Tree Dir File) :
    Option Error × Tree Dir File :=
  match fault .addChild with
  | some err => (some err, t)
  | none =>
    if (t d name).isSome then (some errDirExists, t) else (none, setEntry t d name (some nd))

/-- The part of `Rename` after the entry was unlinked. -/
def place (cur : Node Dir File) (newDir : Target Dir) (newName : String) (t : Tree Dir File) :
    Option Error × Tree Dir File :=
  match newDir with
  | .directory d =>
    match fault .getNode with
    | some err => (some err, t)
    | none => addChild fault d newName cur t
  | .fileNode => (some .eperm, t)
  | .other => (some .unknownNode, t)

/-- `Directory.Rename` of the entry `oldName` of `dir`. -/
def rename (dir : Dir) (oldName : String) (newDir : Target Dir) (newName : String)
    (t : Tree Dir File) : Option Error × Tree Dir File :=
  match child fault dir oldName t with
  | .error err => (some err, t)
  | .ok cur =>
    match unlink fault dir oldName t with
    | (some err, t) => (some err, t)
    | (none, t) => place fault cur newDir newName t

end Rename

/-! ## Entries -/

variable {nd : Node Dir File}

section Entries

variable [DecidableEq Dir] {t : Tree Dir File} {d c : Dir} {name n : String}
  {v w : Option (Node Dir File)}

@[simp] theorem setEntry_self : setEntry t d name v d name = v := by
  rw [setEntry, Function.update_self, Function.update_self]

theorem setEntry_of_ne (h : (c, n) ≠ (d, name)) : setEntry t d name v c n = t c n := by
  unfold setEntry
  by_cases hc : c = d
  · subst hc
    rw [Function.update_self, Function.update_of_ne fun hn => h (by rw [hn])]
  · rw [Function.update_of_ne hc]

theorem entry_of_setEntry_none (h : setEntry t d name none c n = some nd) : t c n = some nd := by
  by_cases heq : (c, n) = (d, name)
  · cases heq
    rw [setEntry_self] at h
    cases h
  · rwa [setEntry_of_ne heq] at h

end Entries

/-! ## When a call does no harm -/

section Harm

variable [DecidableEq Dir]

/-- What a call is to do: the entry is moved and no other entry changes, or an
error is returned and nothing changes. -/
structure Correct (dir : Dir) (oldName : String) (newDir : Target Dir) (newName : String)
    (t : Tree Dir File) (r : Option Error × Tree Dir File) : Prop where
  moved : r.1 = none → ∃ d cur, newDir = .directory d ∧ t dir oldName = some cur ∧
    r.2 d newName = some cur ∧ r.2 dir oldName = none ∧
    ∀ c n, (c, n) ≠ (dir, oldName) → (c, n) ≠ (d, newName) → r.2 c n = t c n
  kept : r.1 ≠ none → r.2 = t

/-- The entry cannot be read or not be unlinked. -/
def Refuses (fault : Op → Option Error) (dir : Dir) (oldName : String) (t : Tree Dir File) : Prop :=
  fault .child ≠ none ∨ t dir oldName = none ∨ fault .unlink ≠ none

/-- The target is a directory that takes an entry of the new name. -/
def Accepts (fault : Op → Option Error) (newDir : Target Dir) (newName : String)
    (t : Tree Dir File) : Prop :=
  ∃ d, newDir = .directory d ∧ fault .getNode = none ∧ fault .addChild = none ∧
    t d newName = none

variable {fault : Op → Option Error} {dir : Dir} {oldName newName : String} {newDir : Target Dir}
  {t : Tree Dir File} {cur : Node Dir File}

theorem rename_of_refuses (newDir : Target Dir) (newName : String)
    (h : Refuses fault dir oldName t) :
    ∃ err, rename fault dir oldName newDir newName t = (some err, t) := by
  unfold rename child unlink
  cases hchild : fault .child with
  | some err => exact ⟨err, rfl⟩
  | none =>
    cases hentry : t dir oldName with
    | none => exact ⟨errNotExist, rfl⟩
    | some cur =>
      cases hunlink : fault .unlink with
      | some err => exact ⟨err, rfl⟩
      | none =>
        rcases h with h | h | h
        · exact absurd hchild h
        · exact absurd (hentry.symm.trans h) (some_ne_none cur)
        · exact absurd hunlink h

theorem rename_of_not_refuses (newDir : Target Dir) (newName : String)
    (h : ¬ Refuses fault dir oldName t) :
    ∃ cur, t dir oldName = some cur ∧ rename fault dir oldName newDir newName t =
      place fault cur newDir newName (setEntry t dir oldName none) := by
  have hchild : fault .child = none := by
    by_contra hne
    exact h (.inl hne)
  have hunlink : fault .unlink = none := by
    by_contra hne
    exact h (.inr (.inr hne))
  obtain ⟨cur, hcur⟩ := ne_none_iff_exists'.mp fun hnone => h (.inr (.inl hnone))
  refine ⟨cur, hcur, ?_⟩
  rw [rename, child, hchild]
  rw [hcur, elim_some]
  rw [unlink, hunlink]

theorem place_of_accepts (cur : Node Dir File) (h : Accepts fault newDir newName t) :
    ∃ d, newDir = .directory d ∧
      place fault cur newDir newName t = (none, setEntry t d newName (some cur)) := by
  obtain ⟨d, rfl, hget, hadd, hfree⟩ := h
  refine ⟨d, rfl, ?_⟩
  rw [place, hget]
  rw [addChild, hadd]
  rw [hfree, isSome_none, if_neg Bool.false_ne_true]

theorem place_of_not_accepts (cur : Node Dir File) (h : ¬ Accepts fault newDir newName t) :
    ∃ err, place fault cur newDir newName t = (some err, t) := by
  unfold place
  cases newDir with
  | fileNode => exact ⟨.eperm, rfl⟩
  | other => exact ⟨.unknownNode, rfl⟩
  | directory d =>
    cases hget : fault .getNode with
    | some err => exact ⟨err, rfl⟩
    | none =>
      dsimp only
      unfold addChild
      cases hadd : fault .addChild with
      | some err => exact ⟨err, rfl⟩
      | none =>
        cases hentry : t d newName with
        | some nd => exact ⟨errDirExists, rfl⟩
        | none => exact absurd ⟨d, rfl, hget, hadd, hentry⟩ h

/-- The unlinked entry is gone after every later error. -/
theorem setEntry_none_ne (hcur : t dir oldName = some cur) : setEntry t dir oldName none ≠ t := by
  intro heq
  have hgone : setEntry t dir oldName none dir oldName = none := setEntry_self
  rw [heq, hcur] at hgone
  cases hgone

theorem correct_moveEntry {d : Dir} (hcur : t dir oldName = some cur)
    (hne : (dir, oldName) ≠ (d, newName)) :
    Correct dir oldName (.directory d) newName t
      (none, setEntry (setEntry t dir oldName none) d newName (some cur)) where
  moved _ := by
    refine ⟨d, cur, rfl, hcur, setEntry_self, ?_, ?_⟩
    · exact (setEntry_of_ne hne).trans setEntry_self
    · intro c n hold hnew
      exact (setEntry_of_ne hnew).trans (setEntry_of_ne hold)
  kept h := absurd rfl h

theorem not_correct_self :
    ¬ Correct dir oldName (.directory dir) oldName t
      (none, setEntry (setEntry t dir oldName none) dir oldName (some cur)) := by
  intro hcorrect
  obtain ⟨_, _, _, _, _, hgone, _⟩ := hcorrect.moved rfl
  exact absurd (setEntry_self.symm.trans hgone) (some_ne_none cur)

/-- **A call does what it is to do exactly when it stops before the unlinking,
or the target takes the entry.**  In particular a taken name loses the entry;
and an entry that is moved onto itself is not absent afterwards. -/
theorem fuseRename_correct_iff (fault : Op → Option Error) (dir : Dir) (oldName : String)
    (newDir : Target Dir) (newName : String) (t : Tree Dir File) :
    Correct dir oldName newDir newName t (rename fault dir oldName newDir newName t) ↔
      Refuses fault dir oldName t ∨ Accepts fault newDir newName t := by
  by_cases hrefuses : Refuses fault dir oldName t
  · obtain ⟨err, hrename⟩ := rename_of_refuses newDir newName hrefuses
    rw [hrename]
    exact ⟨fun _ => .inl hrefuses, fun _ => ⟨fun h => absurd h (some_ne_none err), fun _ => rfl⟩⟩
  obtain ⟨cur, hcur, hrename⟩ := rename_of_not_refuses newDir newName hrefuses
  rw [hrename]
  by_cases haccepts : Accepts fault newDir newName (setEntry t dir oldName none)
  · obtain ⟨d, rfl, hplace⟩ := place_of_accepts cur haccepts
    obtain ⟨_, heq, hget, hadd, hfree⟩ := haccepts
    cases heq
    rw [hplace]
    by_cases hself : (dir, oldName) = (d, newName)
    · cases hself
      refine ⟨fun h => absurd h not_correct_self, fun h => ?_⟩
      obtain ⟨_, heq, _, _, htaken⟩ := h.resolve_left hrefuses
      cases heq
      exact absurd (hcur.symm.trans htaken) (some_ne_none cur)
    · rw [setEntry_of_ne (Ne.symm hself)] at hfree
      exact ⟨fun _ => .inr ⟨d, rfl, hget, hadd, hfree⟩, fun _ => correct_moveEntry hcur hself⟩
  · obtain ⟨err, hplace⟩ := place_of_not_accepts cur haccepts
    rw [hplace]
    constructor
    · intro hcorrect
      exact absurd (hcorrect.kept (some_ne_none err)) (setEntry_none_ne hcur)
    intro h
    obtain ⟨d, rfl, hget, hadd, hfree⟩ := h.resolve_left hrefuses
    refine absurd ⟨d, rfl, hget, hadd, ?_⟩ haccepts
    by_contra htaken
    obtain ⟨nd, hnd⟩ := ne_none_iff_exists'.mp htaken
    exact absurd ((entry_of_setEntry_none hnd).symm.trans hfree) (some_ne_none nd)

end Harm

def twoFiles : Tree Unit Nat := fun _ name =>
  if name = "a" then some (.file 1) else if name = "b" then some (.file 2) else none

/-- Moving `a` over `b` returns an error, and `a` is gone. -/
theorem rename_onto_taken_loses :
    (rename (fun _ => none) () "a" (.directory ()) "b" twoFiles).1 = some errDirExists ∧
      twoFiles () "a" = some (.file 1) ∧
      (rename (fun _ => none) () "a" (.directory ()) "b" twoFiles).2 () "a" = none ∧
      (rename (fun _ => none) () "a" (.directory ()) "b" twoFiles).2 () "b" = some (.file 2) :=
  ⟨rfl, rfl, rfl, rfl⟩

end FuseRename
