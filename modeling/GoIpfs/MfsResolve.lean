import GoIpfs.MfsTree

/-!
# Where paths lead

`resolve` follows a path through a file tree.  Each operation of the tree is
described by what it does to `resolve`: an update of one directory
(`resolve_updateAt`) changes what lies below that directory and nothing else,
and making a directory with its parents (`resolve_mkdirAll`) changes nothing but
the directories on the way.
-/

namespace Mfs.Tree

open List Option

variable {Cid : Type}

/-- What a path leads to: a file, a directory, or nothing. -/
def resolve : List String → Tree Cid → Option (Cid ⊕ Tree Cid)
  | [], t => some (.inr t)
  | part :: parts, t =>
    match t.find? part with
    | none => none
    | some (.inr sub) => resolve parts sub
    | some (.inl node) => if parts = [] then some (.inl node) else none

def IsDir (q : List String) (t : Tree Cid) : Prop := ∃ sub, resolve q t = some (.inr sub)

def erase (name : String) : Tree Cid → Tree Cid
  | .empty => .empty
  | .file n node rest => if n = name then rest.erase name else .file n node (rest.erase name)
  | .dir n sub rest => if n = name then rest.erase name else .dir n sub (rest.erase name)

/-- Change the directory at the end of a path. -/
def updateAt (f : Tree Cid → Option (Tree Cid)) : List String → Tree Cid → Option (Tree Cid)
  | [], t => f t
  | part :: parts, t =>
    match t.find? part with
    | some (.inr sub) => (updateAt f parts sub).map fun sub' => t.setDir part sub'
    | _ => none

/-- A new entry in a directory that has none of its name. -/
def putHere (name : String) (node : Cid) (t : Tree Cid) : Option (Tree Cid) :=
  match t.find? name with
  | none => some (t.insert name (.inl node))
  | some _ => none

/-- Remove an entry that exists. -/
def eraseHere (name : String) (t : Tree Cid) : Option (Tree Cid) :=
  match t.find? name with
  | none => none
  | some _ => some (t.erase name)

theorem put_eq_updateAt (name : String) (node : Cid) (parts : List String) (t : Tree Cid) :
    put name node parts t = updateAt (putHere name node) parts t := by
  induction parts generalizing t with
  | nil => rfl
  | cons part parts ih =>
    unfold put updateAt
    rcases t.find? part with _ | node' | sub
    · rfl
    · rfl
    · simp only [ih]

variable {t t' sub sub' last : Tree Cid} {name part : String} {parts dirs q : List String}

/-! ## One directory -/

theorem find?_erase (name' : String) :
    (t.erase name).find? name' = if name' = name then none else t.find? name' := by
  induction t with
  | empty => simp [erase, find?]
  | file n node rest ih | dir n old rest _ ih =>
    unfold erase
    by_cases hn : n = name
    · rw [if_pos hn, ih]
      by_cases hname : name' = name
      · rw [if_pos hname, if_pos hname]
      · have hne : ¬ n = name' := fun heq => hname (heq ▸ hn)
        rw [if_neg hname, if_neg hname, find?, if_neg hne]
    · rw [if_neg hn]
      by_cases hname : n = name'
      · have hne : ¬ name' = name := fun heq => hn (hname.trans heq)
        rw [if_neg hne, find?, find?, if_pos hname, if_pos hname]
      · rw [find?, if_neg hname, ih, find?, if_neg hname]

theorem find?_setDir (hfind : t.find? part = some (.inr sub)) (name : String) :
    (t.setDir part sub').find? name = if name = part then some (.inr sub') else t.find? name := by
  obtain ⟨front, rest, rfl, hfront⟩ := exists_append_of_find? hfind
  rw [setDir_append hfront, find?_append, find?_append, find?, find?]
  by_cases hname : name = part
  · rw [hname, hfront, if_pos rfl, if_pos rfl]
    rfl
  · have hne : ¬ part = name := fun heq => hname heq.symm
    rw [if_neg hname, if_neg hne, if_neg hne]

/-! ## Paths -/

theorem resolve_cons_dir (hfind : t.find? part = some (.inr sub)) :
    resolve (part :: q) t = resolve q sub := by
  rw [resolve, hfind]

theorem resolve_cons_none (hfind : t.find? part = none) : resolve (part :: q) t = none := by
  rw [resolve, hfind]

theorem resolve_cons_congr (hfind : t'.find? part = t.find? part) :
    resolve (part :: q) t' = resolve (part :: q) t := by
  rw [resolve, resolve, hfind]

theorem resolve_congr (hnew : t'.find? part = some (.inr sub'))
    (hother : ∀ name, name ≠ part → t'.find? name = t.find? name) (hq : q ≠ [])
    (hbelow : ∀ rest, q = part :: rest → resolve rest sub' = resolve q t) :
    resolve q t' = resolve q t := by
  cases q with
  | nil => exact absurd rfl hq
  | cons head rest =>
    by_cases hhead : head = part
    · subst hhead
      rw [resolve_cons_dir hnew]
      exact hbelow rest rfl
    · exact resolve_cons_congr (hother head hhead)

theorem ne_nil_of_outside (h : ¬ q <+: dirs) : q ≠ [] := fun hnil => h (hnil ▸ nil_prefix)

theorem isDir_nil : IsDir [] t := ⟨t, rfl⟩

theorem isDir_cons (hfind : t.find? part = some (.inr sub)) :
    IsDir (part :: q) t ↔ IsDir q sub := by
  unfold IsDir
  rw [resolve_cons_dir hfind]

theorem exists_dir_of_resolve_cons (h : resolve (part :: q) t = some (.inr sub)) :
    ∃ s, t.find? part = some (.inr s) ∧ resolve q s = some (.inr sub) := by
  rw [resolve] at h
  rcases hfind : t.find? part with _ | node | s
  · rw [hfind] at h
    cases h
  · rw [hfind] at h
    dsimp only at h
    split at h <;> cases h
  · rw [hfind] at h
    exact ⟨s, rfl, h⟩

theorem resolve_append (h : resolve dirs t = some (.inr sub)) (q : List String) :
    resolve (dirs ++ q) t = resolve q sub := by
  induction dirs generalizing t with
  | nil =>
    obtain rfl : t = sub := by simpa [resolve] using h
    rfl
  | cons part parts ih =>
    obtain ⟨s, hfind, hs⟩ := exists_dir_of_resolve_cons h
    rw [cons_append, resolve_cons_dir hfind, ih hs]

theorem IsDir.parent {q : List String} (h : IsDir dirs t) (hq : q <+: dirs) : IsDir q t := by
  induction dirs generalizing t q with
  | nil =>
    rw [prefix_nil.mp hq]
    exact isDir_nil
  | cons part parts ih =>
    rcases prefix_cons_iff.mp hq with rfl | ⟨r, rfl, hr⟩
    · exact isDir_nil
    · obtain ⟨sub, hsub⟩ := h
      obtain ⟨s, hfind, hs⟩ := exists_dir_of_resolve_cons hsub
      exact (isDir_cons hfind).mpr (ih ⟨sub, hs⟩ hr)

variable {f : Tree Cid → Option (Tree Cid)}

theorem updateAt_some (hdir : resolve dirs t = some (.inr sub)) (hf : f sub = some sub') :
    ∃ t', updateAt f dirs t = some t' := by
  induction dirs generalizing t with
  | nil =>
    obtain rfl : t = sub := by simpa [resolve] using hdir
    exact ⟨sub', hf⟩
  | cons part parts ih =>
    obtain ⟨s, hfind, hs⟩ := exists_dir_of_resolve_cons hdir
    obtain ⟨s', hs'⟩ := ih hs
    refine ⟨t.setDir part s', ?_⟩
    simp only [updateAt, hfind, hs', map_some]

/-- **An update of a directory.**  It changes what lies below that directory as
the update does, and no other path. -/
theorem resolve_updateAt (h : updateAt f dirs t = some t') :
    ∃ sub sub', resolve dirs t = some (.inr sub) ∧ f sub = some sub' ∧
      resolve dirs t' = some (.inr sub') ∧
      ∀ q, ¬ dirs <+: q → ¬ q <+: dirs → resolve q t' = resolve q t := by
  induction dirs generalizing t t' with
  | nil => exact ⟨t, t', rfl, h, rfl, fun q hq => absurd nil_prefix hq⟩
  | cons part parts ih =>
    rw [updateAt] at h
    rcases hfind : t.find? part with _ | node | s
    · rw [hfind] at h
      cases h
    · rw [hfind] at h
      cases h
    rw [hfind] at h
    obtain ⟨s', hs', rfl⟩ := map_eq_some_iff.mp h
    obtain ⟨sub, sub', hsub, hf, hsub', hframe⟩ := ih hs'
    have hnew : (t.setDir part s').find? part = some (.inr s') := by
      rw [find?_setDir hfind, if_pos rfl]
    refine ⟨sub, sub', ?_, hf, ?_, ?_⟩
    · rw [resolve_cons_dir hfind, hsub]
    · rw [resolve_cons_dir hnew, hsub']
    intro q hbelow habove
    refine resolve_congr hnew (fun name hne => ?_) (ne_nil_of_outside habove) ?_
    · rw [find?_setDir hfind, if_neg hne]
    · rintro rest rfl
      rw [prefix_cons_inj] at hbelow habove
      rw [resolve_cons_dir hfind]
      exact hframe rest hbelow habove

/-- One step on the way: the directory there, or a new one. -/
theorem mkdirAll_cons (h : mkdirAll (part :: parts) t = some t') :
    ∃ s s', mkdirAll parts s = some s' ∧ t'.find? part = some (.inr s') ∧
      (∀ name, name ≠ part → t'.find? name = t.find? name) ∧
      (t.find? part = some (.inr s) ∨ t.find? part = none ∧ s = .empty) := by
  rw [mkdirAll] at h
  rcases hfind : t.find? part with _ | node | s
  · rw [hfind] at h
    obtain ⟨s', hs', rfl⟩ := map_eq_some_iff.mp h
    refine ⟨.empty, s', hs', ?_, fun name hne => ?_, .inr ⟨rfl, rfl⟩⟩
    · rw [find?_insert hfind, if_pos rfl]
    · rw [find?_insert hfind, if_neg hne]
  · rw [hfind] at h
    cases h
  · rw [hfind] at h
    obtain ⟨s', hs', rfl⟩ := map_eq_some_iff.mp h
    refine ⟨s, s', hs', ?_, fun name hne => ?_, .inl rfl⟩
    · rw [find?_setDir hfind, if_pos rfl]
    · rw [find?_setDir hfind, if_neg hne]

/-- **Making directories.**  All directories on the way exist afterwards, none of
them was a file, and every other path leads where it led. -/
theorem resolve_mkdirAll (h : mkdirAll dirs t = some t') :
    IsDir dirs t' ∧ (∀ q, q <+: dirs → resolve q t = none ∨ IsDir q t) ∧
      ∀ q, ¬ q <+: dirs → resolve q t' = resolve q t := by
  induction dirs generalizing t t' with
  | nil =>
    obtain rfl := some.inj h
    refine ⟨isDir_nil, ?_, fun _ _ => rfl⟩
    intro q hq
    rw [prefix_nil.mp hq]
    exact .inr isDir_nil
  | cons part parts ih =>
    obtain ⟨s, s', hs', hnew, hother, hfind⟩ := mkdirAll_cons h
    obtain ⟨hdir, hold, hframe⟩ := ih hs'
    refine ⟨(isDir_cons hnew).mpr hdir, ?_, ?_⟩
    · intro q hq
      rcases prefix_cons_iff.mp hq with rfl | ⟨r, rfl, hr⟩
      · exact .inr isDir_nil
      · rcases hfind with hfind | ⟨hnone, _⟩
        · rw [resolve_cons_dir hfind, isDir_cons hfind]
          exact hold r hr
        · exact .inl (resolve_cons_none hnone)
    · intro q hq
      refine resolve_congr hnew hother (ne_nil_of_outside hq) ?_
      rintro rest rfl
      rw [prefix_cons_inj] at hq
      rw [hframe rest hq]
      rcases hfind with hfind | ⟨hnone, rfl⟩
      · rw [resolve_cons_dir hfind]
      · obtain ⟨head, tail, rfl⟩ := exists_cons_of_ne_nil (ne_nil_of_outside hq)
        rw [resolve_cons_none hnone]
        rfl

/-! ## One entry of a directory -/

theorem resolve_singleton_put {node : Cid} (h : putHere name node sub = some sub') :
    resolve [name] sub' = some (.inl node) := by
  unfold putHere at h
  split at h
  · rename_i hfind
    obtain rfl := some.inj h
    rw [resolve, find?_insert hfind, if_pos rfl]
    exact if_pos rfl
  · cases h

theorem find?_putHere {node : Cid} (h : putHere name node sub = some sub') {other : String}
    (hne : other ≠ name) : sub'.find? other = sub.find? other := by
  unfold putHere at h
  split at h
  · rename_i hfind
    obtain rfl := some.inj h
    rw [find?_insert hfind, if_neg hne]
  · cases h

theorem resolve_singleton_erase (h : eraseHere name sub = some sub') :
    resolve [name] sub' = none := by
  unfold eraseHere at h
  split at h
  · cases h
  · obtain rfl := some.inj h
    apply resolve_cons_none
    rw [find?_erase, if_pos rfl]

theorem find?_eraseHere (h : eraseHere name sub = some sub') {other : String}
    (hne : other ≠ name) : sub'.find? other = sub.find? other := by
  unfold eraseHere at h
  split at h
  · cases h
  · obtain rfl := some.inj h
    rw [find?_erase, if_neg hne]

/-- **An update of one entry.**  Paths that neither lead to the entry nor pass
through it lead where they led. -/
theorem resolve_updateAt_entry (h : updateAt f dirs t = some t')
    (hf : ∀ sub sub', f sub = some sub' → ∀ other, other ≠ name → sub'.find? other =
      sub.find? other)
    (hbelow : ¬ dirs ++ [name] <+: q) (habove : ¬ q <+: dirs) : resolve q t' = resolve q t := by
  obtain ⟨sub, sub', hsub, hfsub, hsub', hframe⟩ := resolve_updateAt h
  by_cases hq : dirs <+: q
  · obtain ⟨rest, rfl⟩ := hq
    rw [resolve_append hsub', resolve_append hsub]
    cases rest with
    | nil =>
      rw [append_nil] at habove
      exact absurd prefix_rfl habove
    | cons head rest =>
      apply resolve_cons_congr
      apply hf sub sub' hfsub
      intro heq
      apply hbelow
      rw [heq, prefix_append_right_inj]
      exact ⟨rest, rfl⟩
  · exact hframe q hq habove

end Mfs.Tree
