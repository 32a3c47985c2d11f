import GoIpfs.Mfs

/-!
# A directory object shows a file tree

What an MFS is for: `Tree` is a tree of named files, without DAG nodes, caches
or stale links.  `Shows` relates it to a `Directory` object, whose
subdirectories are partly cached and partly only linked, and `Stored` says that
every DAG the object depends on is in the blockstore.  Under both, each
operation of the MFS does to the tree what its name says; in particular a child
that exists can be opened, so no link is ever overwritten.
-/

namespace Mfs

open Effects LinkReach List

variable {Cid : Type}

/-- A tree of files, given by the CIDs of their nodes. -/
inductive Tree (Cid : Type) where
  | empty
  | file (name : String) (node : Cid) (rest : Tree Cid)
  | dir (name : String) (sub rest : Tree Cid)
  deriving DecidableEq, Repr

variable {f : Cid} {sub sub' : Tree Cid}

namespace Tree

/-- The links of the tree's directory node, given how such a node is built. -/
def entries (dirNode : List (String × Cid) → Cid) : Tree Cid → List (String × Cid)
  | .empty => []
  | .file name node rest => (name, node) :: rest.entries dirNode
  | .dir name sub rest => (name, dirNode (sub.entries dirNode)) :: rest.entries dirNode

def root (dirNode : List (String × Cid) → Cid) (t : Tree Cid) : Cid := dirNode (t.entries dirNode)

def names : Tree Cid → List String
  | .empty => []
  | .file name _ rest | .dir name _ rest => name :: rest.names

def files : Tree Cid → List Cid
  | .empty => []
  | .file _ node rest => node :: rest.files
  | .dir _ sub rest => sub.files ++ rest.files

def find? (name : String) : Tree Cid → Option (Cid ⊕ Tree Cid)
  | .empty => none
  | .file n node rest => if n = name then some (.inl node) else rest.find? name
  | .dir n sub rest => if n = name then some (.inr sub) else rest.find? name

def setDir : Tree Cid → String → Tree Cid → Tree Cid
  | .empty, _, _ => .empty
  | .file n node rest, name, sub => .file n node (rest.setDir name sub)
  | .dir n old rest, name, sub =>
    if n = name then .dir n sub rest else .dir n old (rest.setDir name sub)

def append : Tree Cid → Tree Cid → Tree Cid
  | .empty, last => last
  | .file n node rest, last => .file n node (rest.append last)
  | .dir n sub rest, last => .dir n sub (rest.append last)

/-- A file or a directory before the other entries. -/
def cons (name : String) (entry : Cid ⊕ Tree Cid) (rest : Tree Cid) : Tree Cid :=
  match entry with
  | .inl node => .file name node rest
  | .inr sub => .dir name sub rest

/-- A new entry, at its place in the order of names. -/
def insert (name : String) (entry : Cid ⊕ Tree Cid) : Tree Cid → Tree Cid
  | .empty => cons name entry .empty
  | .file n node rest =>
    if name < n then cons name entry (.file n node rest)
    else .file n node (rest.insert name entry)
  | .dir n sub rest =>
    if name < n then cons name entry (.dir n sub rest) else .dir n sub (rest.insert name entry)

/-- Make a directory with its parents; a file on the way is in the way. -/
def mkdirAll : List String → Tree Cid → Option (Tree Cid)
  | [], t => some t
  | part :: parts, t =>
    match t.find? part with
    | none => (mkdirAll parts .empty).map fun sub => t.insert part (.inr sub)
    | some (.inr sub) => (mkdirAll parts sub).map fun sub' => t.setDir part sub'
    | some (.inl _) => none

/-- Put a file into an existing directory that has no entry of its name. -/
def put (name : String) (node : Cid) : List String → Tree Cid → Option (Tree Cid)
  | [], t =>
    match t.find? name with
    | none => some (t.insert name (.inl node))
    | some _ => none
  | part :: parts, t =>
    match t.find? part with
    | some (.inr sub) => (put name node parts sub).map fun sub' => t.setDir part sub'
    | _ => none

variable {t : Tree Cid} {last t' : Tree Cid}

theorem mem_files_append : f ∈ (t.append last).files ↔ f ∈ t.files ∨ f ∈ last.files := by
  induction t with
  | empty => simp [append, files]
  | file n node rest ih | dir n sub rest _ ih => simp [append, files, ih, or_assoc]

variable {name : String}

theorem find?_append : (t.append last).find? name = (t.find? name).or (last.find? name) := by
  induction t with
  | empty => rfl
  | file n node rest ih | dir n old rest _ ih =>
    by_cases hn : n = name
    · rw [append, find?, find?, if_pos hn, if_pos hn, Option.some_or]
    · rw [append, find?, find?, if_neg hn, if_neg hn, ih]

theorem setDir_append {rest : Tree Cid} (h : t.find? name = none) :
    (t.append (.dir name sub rest)).setDir name sub' = t.append (.dir name sub' rest) := by
  induction t with
  | empty => simp [append, setDir]
  | file n node rest ih | dir n old rest _ ih =>
    by_cases hn : n = name
    · simp [find?, hn] at h
    · rw [find?, if_neg hn] at h
      simp only [append, setDir, if_neg hn, ih h]

/-- A directory that is found is the first entry of its name. -/
theorem exists_append_of_find? (hfind : t.find? name = some (.inr sub)) :
    ∃ front rest : Tree Cid, t = front.append (.dir name sub rest) ∧ front.find? name = none := by
  induction t with
  | empty => cases hfind
  | file n node rest ih =>
    by_cases hn : n = name
    · simp [find?, hn] at hfind
    · rw [find?, if_neg hn] at hfind
      obtain ⟨front, last, rfl, hfront⟩ := ih hfind
      exact ⟨.file n node front, last, rfl, by rw [find?, if_neg hn, hfront]⟩
  | dir n old rest _ ih =>
    by_cases hn : n = name
    · subst hn
      rw [find?, if_pos rfl] at hfind
      cases hfind
      exact ⟨.empty, rest, rfl, rfl⟩
    · rw [find?, if_neg hn] at hfind
      obtain ⟨front, last, rfl, hfront⟩ := ih hfind
      exact ⟨.dir n old front, last, rfl, by rw [find?, if_neg hn, hfront]⟩

/-- An insertion cuts the tree in two. -/
theorem exists_append_insert (name : String) (t : Tree Cid) :
    ∃ front rest : Tree Cid, t = front.append rest ∧
      ∀ entry, t.insert name entry = front.append (cons name entry rest) := by
  induction t with
  | empty => exact ⟨.empty, .empty, rfl, fun _ => rfl⟩
  | file n node rest ih =>
    by_cases hlt : name < n
    · exact ⟨.empty, .file n node rest, rfl, fun _ => if_pos hlt⟩
    · obtain ⟨front, last, rfl, hins⟩ := ih
      refine ⟨.file n node front, last, rfl, fun entry => ?_⟩
      rw [insert, if_neg hlt, hins, append]
  | dir n sub rest _ ih =>
    by_cases hlt : name < n
    · exact ⟨.empty, .dir n sub rest, rfl, fun _ => if_pos hlt⟩
    · obtain ⟨front, last, rfl, hins⟩ := ih
      refine ⟨.dir n sub front, last, rfl, fun entry => ?_⟩
      rw [insert, if_neg hlt, hins, append]

variable {entry : Cid ⊕ Tree Cid}

theorem find?_cons {n : String} :
    (cons n entry t).find? name = if n = name then some entry else t.find? name := by
  cases entry <;> rfl

theorem find?_insert (h : t.find? name = none) (other : String) :
    (t.insert name entry).find? other = if other = name then some entry else t.find? other := by
  obtain ⟨front, rest, rfl, hins⟩ := exists_append_insert name t
  rw [find?_append, Option.or_eq_none_iff] at h
  rw [hins, find?_append, find?_cons, find?_append]
  by_cases hother : other = name
  · rw [hother, if_pos rfl, if_pos rfl, h.1, Option.none_or]
  · rw [if_neg hother, if_neg fun heq => hother heq.symm]

theorem setDir_insert (h : t.find? name = none) :
    (t.insert name (.inr sub)).setDir name sub' = t.insert name (.inr sub') := by
  obtain ⟨front, rest, rfl, hins⟩ := exists_append_insert name t
  rw [find?_append, Option.or_eq_none_iff] at h
  rw [hins, hins]
  exact setDir_append h.1

theorem mem_files_insert :
    f ∈ (t.insert name entry).files ↔ f ∈ (cons name entry .empty).files ∨ f ∈ t.files := by
  obtain ⟨front, rest, rfl, hins⟩ := exists_append_insert name t
  rw [hins, mem_files_append, mem_files_append]
  cases entry <;> simp [cons, files, or_left_comm]

theorem mem_names_insert {n : String} :
    n ∈ (t.insert name entry).names ↔ n = name ∨ n ∈ t.names := by
  induction t with
  | empty => cases entry <;> simp [insert, cons, names]
  | file m node rest ih | dir m sub rest _ ih =>
    unfold insert
    split
    · cases entry <;> simp [cons, names]
    · simp [names, ih, or_left_comm]

theorem names_setDir : (t.setDir name sub).names = t.names := by
  induction t with
  | empty => rfl
  | file m node rest ih => simp [setDir, names, ih]
  | dir m old rest _ ih =>
    unfold setDir
    split
    · rfl
    · simp [names, ih]

theorem ne_of_mem_names {n : String} (h : t.find? name = none) (hn : n ∈ t.names) : n ≠ name := by
  induction t with
  | empty => simp [names] at hn
  | file m node rest ih | dir m sub rest _ ih =>
    by_cases hm : m = name
    · simp [find?, hm] at h
    · rw [find?, if_neg hm] at h
      rcases mem_cons.mp hn with rfl | hn
      · exact hm
      · exact ih h hn

theorem map_fst_entries (dirNode : List (String × Cid) → Cid) :
    (t.entries dirNode).map Prod.fst = t.names := by
  induction t with
  | empty => rfl
  | file m node rest ih | dir m sub rest _ ih => simp [entries, names, ih]

theorem mem_files_setDir (hfind : t.find? name = some (.inr sub))
    (hsub : f ∈ sub.files → f ∈ sub'.files) :
    (f ∈ t.files → f ∈ (t.setDir name sub').files) ∧
      (f ∈ sub'.files → f ∈ (t.setDir name sub').files) := by
  obtain ⟨front, rest, rfl, hfront⟩ := exists_append_of_find? hfind
  rw [setDir_append hfront]
  simp only [mem_files_append, files, mem_append]
  exact ⟨Or.imp_right (Or.imp_left hsub), fun h => .inr (.inl h)⟩

theorem files_mkdirAll {parts : List String} (h : mkdirAll parts t = some t') (hf : f ∈ t.files) :
    f ∈ t'.files := by
  induction parts generalizing t t' with
  | nil =>
    obtain rfl := Option.some.inj h
    exact hf
  | cons part parts ih =>
    simp only [mkdirAll] at h
    split at h
    · obtain ⟨sub, _, rfl⟩ := Option.map_eq_some_iff.mp h
      exact mem_files_insert.mpr (.inr hf)
    · rename_i sub hfind
      obtain ⟨sub', hsub', rfl⟩ := Option.map_eq_some_iff.mp h
      exact (mem_files_setDir hfind (fun hs => ih hsub' hs)).1 hf
    · cases h

theorem files_put {parts : List String} {node : Cid} (h : put name node parts t = some t')
    (hf : f = node ∨ f ∈ t.files) : f ∈ t'.files := by
  induction parts generalizing t t' with
  | nil =>
    simp only [put] at h
    split at h
    · obtain rfl := Option.some.inj h
      rw [mem_files_insert]
      rcases hf with rfl | hf
      · exact .inl (by simp [cons, files])
      · exact .inr hf
    · cases h
  | cons part parts ih =>
    simp only [put] at h
    split at h
    · rename_i sub hfind
      obtain ⟨sub', hsub', rfl⟩ := Option.map_eq_some_iff.mp h
      obtain ⟨hold, hnew⟩ :=
        mem_files_setDir hfind (fun hs => ih hsub' (.inr hs))
      rcases hf with rfl | hf
      · exact hnew (ih hsub' (.inl rfl))
      · exact hold hf
    · cases h

end Tree

/-- The whole DAG of `c` is stored. -/
def Complete (u : Unixfs Cid) (store : Finset Cid) (c : Cid) : Prop :=
  ∀ k, Reach u.links c k → k ∈ store

/-- Every DAG the directory object depends on is stored.  The link of a cached
subdirectory may be stale and is not asked for. -/
def Directory.Stored (u : Unixfs Cid) (store : Finset Cid) : Directory Cid → Prop
  | .empty => True
  | .link _ node rest => Complete u store node ∧ rest.Stored u store
  | .cached _ _ dir rest => dir.Stored u store ∧ rest.Stored u store

/-- The links of all cached subdirectories are fresh. -/
def Directory.Synced (u : Unixfs Cid) : Directory Cid → Prop
  | .empty => True
  | .link _ _ rest => rest.Synced u
  | .cached _ node dir rest => node = u.dirNode dir.entries ∧ dir.Synced u ∧ rest.Synced u

/-- The directory object stands for the tree, whose entries are in order. -/
inductive Shows (u : Unixfs Cid) : Directory Cid → Tree Cid → Prop
  | empty : Shows u .empty .empty
  | file {name node rest trest}
      (hkind : u.kind node = .file) (hlt : ∀ n ∈ trest.names, name < n)
      (hrest : Shows u rest trest) :
      Shows u (.link name node rest) (.file name node trest)
  | dir {name sub rest trest}
      (hsub : Shows u (Directory.ofEntries (sub.entries u.dirNode)) sub)
      (hlt : ∀ n ∈ trest.names, name < n) (hrest : Shows u rest trest) :
      Shows u (.link name (u.dirNode (sub.entries u.dirNode)) rest) (.dir name sub trest)
  | cached {name node d rest sub trest}
      (hsub : Shows u d sub) (hlt : ∀ n ∈ trest.names, name < n) (hrest : Shows u rest trest) :
      Shows u (.cached name node d rest) (.dir name sub trest)

variable {c : Cid} {entries : List (String × Cid)}

section Shows

variable {u : Unixfs Cid} {store store' : Finset Cid} {d d' : Directory Cid}
  {t : Tree Cid} {name : String}

theorem Complete.mono (hsub : store ⊆ store') (h : Complete u store c) : Complete u store' c :=
  fun k hk => hsub (h k hk)

theorem Complete.below {k : Cid} (h : Complete u store c) (hreach : Reach u.links c k) :
    Complete u store k :=
  fun k' hk' => h k' (hreach.trans hk')

theorem Complete.entry (h : Complete u store c) (hkind : u.kind c = .dir entries) {e : String × Cid}
    (he : e ∈ entries) : Complete u store e.2 := by
  obtain ⟨x, hx, hxe⟩ := u.entry_below hkind e he
  exact h.below (Reach.head hx hxe)

theorem complete_dirNode (hnode : u.dirNode entries ∈ store)
    (hblocks : ∀ b ∈ u.dirBlocks entries, b ∈ store)
    (hentries : ∀ e ∈ entries, Complete u store e.2) : Complete u store (u.dirNode entries) := by
  intro k hk
  rcases u.below_dirNode hk with rfl | hb | ⟨e, he, hreach⟩
  · exact hnode
  · exact hblocks k hb
  · exact hentries e he k hreach

theorem stored_ofEntries (h : ∀ e ∈ entries, Complete u store e.2) :
    (Directory.ofEntries entries).Stored u store := by
  induction entries with
  | nil => exact True.intro
  | cons e rest ih =>
    exact ⟨h e mem_cons_self, ih fun e' he' => h e' (mem_cons_of_mem _ he')⟩

theorem Directory.Stored.mono (hsub : store ⊆ store') (h : d.Stored u store) :
    d.Stored u store' := by
  induction d with
  | empty => exact True.intro
  | link n node rest ih => exact ⟨h.1.mono hsub, ih h.2⟩
  | cached n node dir rest ihdir ihrest => exact ⟨ihdir h.1, ihrest h.2⟩

/-! ### What is shown -/

theorem Shows.names_pairwise (h : Shows u d t) : t.names.Pairwise (· < ·) := by
  induction h with
  | empty => exact .nil
  | file _ hlt _ ih | dir _ hlt _ _ ih | cached _ hlt _ _ ih => exact .cons hlt ih

/-- A tree that is shown reads back from its node. -/
theorem Shows.kind_root (h : Shows u d t) :
    u.kind (t.root u.dirNode) = .dir (t.entries u.dirNode) := by
  apply u.kind_dirNode
  have hnames := h.names_pairwise
  rw [← Tree.map_fst_entries u.dirNode] at hnames
  exact pairwise_map.mp hnames

theorem Shows.entry_of_file (h : Shows u d t) (hf : f ∈ t.files) :
    ∃ e ∈ t.entries u.dirNode, Reach u.links e.2 f := by
  induction h with
  | empty => simp [Tree.files] at hf
  | @file n node rest trest _ _ _ ih =>
    rcases mem_cons.mp hf with rfl | hrest
    · exact ⟨(n, f), mem_cons_self, Reach.refl _⟩
    · obtain ⟨e, he, hreach⟩ := ih hrest
      exact ⟨e, mem_cons_of_mem _ he, hreach⟩
  | dir hsub _ _ ihsub ihrest | cached hsub _ _ ihsub ihrest =>
    rcases mem_append.mp hf with hmem | hrest
    · obtain ⟨e, he, hreach⟩ := ihsub hmem
      obtain ⟨x, hx, hxe⟩ := u.entry_below hsub.kind_root e he
      exact ⟨_, mem_cons_self, Reach.head hx (hxe.trans hreach)⟩
    · obtain ⟨e, he, hreach⟩ := ihrest hrest
      exact ⟨e, mem_cons_of_mem _ he, hreach⟩

theorem Shows.file_below_root (h : Shows u d t) (hf : f ∈ t.files) :
    ∃ x ∈ u.links (t.root u.dirNode), Reach u.links x f := by
  obtain ⟨e, he, hreach⟩ := h.entry_of_file hf
  obtain ⟨x, hx, hxe⟩ := u.entry_below h.kind_root e he
  exact ⟨x, hx, hxe.trans hreach⟩

/-- Once its links are fresh, the object has the entries of the tree. -/
theorem Shows.entries_eq (h : Shows u d t) (hsync : d.Synced u) :
    d.entries = t.entries u.dirNode := by
  induction h with
  | empty => rfl
  | file _ _ _ ih => simp only [Directory.entries, Tree.entries, ih hsync]
  | dir _ _ _ _ ih => simp only [Directory.entries, Tree.entries, ih hsync]
  | cached _ _ _ ihsub ihrest =>
    obtain ⟨rfl, hsub, hrest⟩ := hsync
    simp only [Directory.entries, Tree.entries, ihsub hsub, ihrest hrest]

theorem Shows.stored_of_entries (hshow : Shows u d t) (hsync : d.Synced u)
    (h : ∀ e ∈ t.entries u.dirNode, Complete u store e.2) : d.Stored u store := by
  induction hshow with
  | empty => exact True.intro
  | file _ _ _ ih =>
    exact ⟨h _ mem_cons_self, ih hsync fun e he => h e (mem_cons_of_mem _ he)⟩
  | dir _ _ _ _ ih =>
    exact ⟨h _ mem_cons_self, ih hsync fun e he => h e (mem_cons_of_mem _ he)⟩
  | cached hsub _ _ ihsub ihrest =>
    obtain ⟨_, hdir, hrest⟩ := hsync
    have hnode : Complete u store _ := h _ mem_cons_self
    exact ⟨ihsub hdir fun e he => hnode.entry hsub.kind_root he,
      ihrest hrest fun e he => h e (mem_cons_of_mem _ he)⟩

theorem Shows.stored_of_root (hshow : Shows u d t) (hsync : d.Synced u)
    (h : Complete u store (t.root u.dirNode)) : d.Stored u store :=
  hshow.stored_of_entries hsync fun _ he => h.entry hshow.kind_root he

/-! ### Changes of the object -/

theorem Directory.Stored.insert {link : Directory Cid → Directory Cid} (h : d.Stored u store)
    (hlink : ∀ rest : Directory Cid, rest.Stored u store → (link rest).Stored u store) :
    (d.insert name link).Stored u store := by
  induction d with
  | empty => exact hlink _ h
  | link n node rest ih | cached n node dir rest _ ih =>
    unfold Directory.insert
    split
    · exact hlink _ h
    · exact ⟨h.1, ih h.2⟩

theorem Directory.Stored.setCached (h : d.Stored u store) (hsub : d'.Stored u store) :
    (d.setCached name d').Stored u store := by
  induction d with
  | empty => exact True.intro
  | link n node rest ih | cached n node dir rest _ ih =>
    unfold Directory.setCached
    split
    · exact ⟨hsub, h.2⟩
    · exact ⟨h.1, ih h.2⟩

theorem Shows.ofEntries (h : Shows u d t) :
    Shows u (Directory.ofEntries (t.entries u.dirNode)) t := by
  induction h with
  | empty => exact .empty
  | file hkind hlt _ ih => exact .file hkind hlt ih
  | dir hsub hlt _ _ ih => exact .dir hsub hlt ih
  | cached _ hlt _ ihsub ih => exact .dir ihsub hlt ih

/-- A new entry comes to the same place in the object and in the tree. -/
theorem Shows.insert {link : Directory Cid → Directory Cid} {entry : Cid ⊕ Tree Cid}
    (h : Shows u d t) (hfind : t.find? name = none)
    (hlink : ∀ {rest : Directory Cid} {trest : Tree Cid}, (∀ n ∈ trest.names, name < n) →
      Shows u rest trest → Shows u (link rest) (Tree.cons name entry trest)) :
    Shows u (d.insert name link) (t.insert name entry) := by
  -- an entry that is not behind the new one is before it, and so are those before it
  have hbefore : ∀ {n : String} {rest : Tree Cid}, n ≠ name → ¬ name < n →
      (∀ m ∈ rest.names, n < m) → ∀ m ∈ (rest.insert name entry).names, n < m := by
    intro n rest hne hnot hlt m hm
    rcases Tree.mem_names_insert.mp hm with rfl | hm
    · exact lt_of_le_of_ne (not_lt.mp hnot) hne
    · exact hlt m hm
  have hbehind : ∀ {n : String} {rest : Tree Cid}, name < n → (∀ m ∈ rest.names, n < m) →
      ∀ m ∈ n :: rest.names, name < m := by
    intro n rest hn hlt m hm
    rcases mem_cons.mp hm with rfl | hm
    · exact hn
    · exact hn.trans (hlt m hm)
  induction h with
  | empty => exact hlink (by simp [Tree.names]) .empty
  | @file n node rest trest hkind hlt hrest ih =>
    have hne := Tree.ne_of_mem_names hfind mem_cons_self
    rw [Tree.find?, if_neg hne] at hfind
    unfold Directory.insert Tree.insert
    split
    · rename_i hn
      exact hlink (hbehind hn hlt) (.file hkind hlt hrest)
    · rename_i hn
      exact .file hkind (hbefore hne hn hlt) (ih hfind)
  | @dir n sub rest trest hsub hlt hrest _ ih =>
    have hne := Tree.ne_of_mem_names hfind mem_cons_self
    rw [Tree.find?, if_neg hne] at hfind
    unfold Directory.insert Tree.insert
    split
    · rename_i hn
      exact hlink (hbehind hn hlt) (.dir hsub hlt hrest)
    · rename_i hn
      exact .dir hsub (hbefore hne hn hlt) (ih hfind)
  | @cached n node dsub rest sub trest hsub hlt hrest _ ih =>
    have hne := Tree.ne_of_mem_names hfind mem_cons_self
    rw [Tree.find?, if_neg hne] at hfind
    unfold Directory.insert Tree.insert
    split
    · rename_i hn
      exact hlink (hbehind hn hlt) (.cached hsub hlt hrest)
    · rename_i hn
      exact .cached hsub (hbefore hne hn hlt) (ih hfind)

theorem Shows.setCached (h : Shows u d t) (hfind : t.find? name = some (.inr sub))
    (hsub : Shows u d' sub') : Shows u (d.setCached name d') (t.setDir name sub') := by
  have hnames : ∀ {n : String} {rest : Tree Cid}, (∀ m ∈ rest.names, n < m) →
      ∀ m ∈ (rest.setDir name sub').names, n < m := by
    intro n rest hlt
    rwa [Tree.names_setDir]
  induction h with
  | empty => simp [Tree.find?] at hfind
  | @file n node rest trest hkind hlt _ ih =>
    by_cases hn : n = name
    · simp [Tree.find?, hn] at hfind
    · rw [Tree.find?, if_neg hn] at hfind
      simp only [Directory.setCached, Tree.setDir, if_neg hn]
      exact .file hkind (hnames hlt) (ih hfind)
  | @dir n old rest trest hold hlt hrest _ ih =>
    by_cases hn : n = name
    · simp only [Directory.setCached, Tree.setDir, if_pos hn]
      exact .cached hsub hlt hrest
    · rw [Tree.find?, if_neg hn] at hfind
      simp only [Directory.setCached, Tree.setDir, if_neg hn]
      exact .dir hold (hnames hlt) (ih hfind)
  | @cached n node dold rest old trest hold hlt hrest _ ih =>
    by_cases hn : n = name
    · simp only [Directory.setCached, Tree.setDir, if_pos hn]
      exact .cached hsub hlt hrest
    · rw [Tree.find?, if_neg hn] at hfind
      simp only [Directory.setCached, Tree.setDir, if_neg hn]
      exact .cached hold (hnames hlt) (ih hfind)

theorem Tree.setDir_self (hfind : t.find? name = some (.inr sub)) : t.setDir name sub = t := by
  obtain ⟨front, rest, rfl, hfront⟩ := exists_append_of_find? hfind
  exact setDir_append hfront

theorem Directory.remove_of_find_none (h : d.find? name = none) : d.remove name = d := by
  induction d with
  | empty => rfl
  | link n node rest ih | cached n node dir rest _ ih =>
    by_cases hn : n = name
    · simp [Directory.find?, hn] at h
    · rw [Directory.find?, if_neg hn] at h
      simp only [Directory.remove, if_neg hn, ih h]

end Shows
end Mfs
