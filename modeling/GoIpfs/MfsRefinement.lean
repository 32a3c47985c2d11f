import GoIpfs.MfsTree

/-!
# The MFS operations act on the tree

One lemma for each operation of the MFS: a successful run on a directory object
that shows a tree and is stored ends in one that shows the tree after the
operation and is stored, and the blockstore has only grown.
-/

namespace Mfs

open Effects LinkReach Directory

variable {Cid : Type} [DecidableEq Cid]
variable {srv : Services Cid} {store : Finset Cid} {dag dag' : Dag Cid}
  {d d' : Directory Cid} {t : Tree Cid}

omit [DecidableEq Cid] in
theorem serviceCall_store {r : Except MfsError Unit}
    (h : exec (serviceCall srv) dag = (r, dag')) : dag'.store = dag.store := by
  simp only [serviceCall, exec_bind, exec_get, exec_modify] at h
  cases hfault : srv.fault dag.calls with
  | some msg =>
    simp only [hfault, exec_throw, Prod.mk.injEq] at h
    rw [← h.2]
  | none =>
    simp only [hfault, exec_pure, Prod.mk.injEq] at h
    rw [← h.2]

theorem dagAdd_ok {blocks : List Cid} {r : Unit}
    (h : exec (dagAdd srv blocks) dag = (.ok r, dag')) :
    dag'.store = dag.store ∪ blocks.toFinset := by
  obtain ⟨r₁, dag₁, hcall, hmod⟩ := exec_bind_ok.mp h
  simp only [exec_modify, Prod.mk.injEq] at hmod
  rw [← hmod.2, serviceCall_store hcall]

theorem dagAdd_grows {blocks : List Cid} {r : Unit}
    (h : exec (dagAdd srv blocks) dag = (.ok r, dag')) : dag.store ⊆ dag'.store := by
  rw [dagAdd_ok h]
  exact Finset.subset_union_left

omit [DecidableEq Cid] in
private theorem find_cases (name : String) (h : Shows srv.toUnixfs d t)
    (hst : d.Stored srv.toUnixfs store) :
    (d.find? name = none ∧ t.find? name = none) ∨
      (∃ node, d.find? name = some (.inl node) ∧ t.find? name = some (.inl node) ∧
        srv.kind node = .file ∧ Complete srv.toUnixfs store node) ∨
      (∃ sub, d.find? name = some (.inl (srv.dirNode (sub.entries srv.dirNode))) ∧
        t.find? name = some (.inr sub) ∧
        Shows srv.toUnixfs (Directory.ofEntries (sub.entries srv.dirNode)) sub ∧
        Complete srv.toUnixfs store (srv.dirNode (sub.entries srv.dirNode))) ∨
      (∃ dsub sub, d.find? name = some (.inr dsub) ∧ t.find? name = some (.inr sub) ∧
        Shows srv.toUnixfs dsub sub ∧ dsub.Stored srv.toUnixfs store) := by
  induction h with
  | empty => exact .inl ⟨rfl, rfl⟩
  | @file n node rest trest hkind _ _ ih =>
    by_cases hn : n = name
    · exact .inr (.inl ⟨node, by simp [find?, hn], by simp [Tree.find?, hn],
        hkind, hst.1⟩)
    · simp only [find?, Tree.find?, if_neg hn]
      exact ih hst.2
  | @dir n sub rest trest hsub _ _ _ ih =>
    by_cases hn : n = name
    · exact .inr (.inr (.inl ⟨sub, by simp [find?, hn],
        by simp [Tree.find?, hn], hsub, hst.1⟩))
    · simp only [find?, Tree.find?, if_neg hn]
      exact ih hst.2
  | @cached n node dsub rest sub trest hsub _ _ _ ih =>
    by_cases hn : n = name
    · exact .inr (.inr (.inr ⟨dsub, sub, by simp [find?, hn],
        by simp [Tree.find?, hn], hsub, hst.1⟩))
    · simp only [find?, Tree.find?, if_neg hn]
      exact ih hst.2

/-- **Opening a child.**  A name is absent, or leads to a file, or to a
subdirectory that is then cached; an existing child can always be opened. -/
theorem child_cases (name : String) (h : Shows srv.toUnixfs d t)
    (hst : d.Stored srv.toUnixfs store) :
    (d.child srv store name = .error .notExist ∧ d.remove name = d ∧
        t.find? name = none) ∨
      (∃ node, d.child srv store name = .ok (.file node, d) ∧
        t.find? name = some (.inl node) ∧ Complete srv.toUnixfs store node) ∨
      (∃ dsub d' sub, d.child srv store name = .ok (.dir dsub, d') ∧
        t.find? name = some (.inr sub) ∧ Shows srv.toUnixfs dsub sub ∧
        dsub.Stored srv.toUnixfs store ∧ Shows srv.toUnixfs d' t ∧
        d'.Stored srv.toUnixfs store) := by
  rcases find_cases name h hst with
    ⟨hd, ht⟩ | ⟨node, hd, ht, hkind, hnode⟩ | ⟨sub, hd, ht, hsub, hnode⟩ |
      ⟨dsub, sub, hd, ht, hsub, hdsub⟩
  · exact .inl ⟨by simp [child, hd], remove_of_find_none hd, ht⟩
  · refine .inr (.inl ⟨node, ?_, ht, hnode⟩)
    simp [child, hd, hnode node (Reach.refl _), hkind]
  · have hmem := hnode _ (Reach.refl _)
    have hkind : srv.kind (srv.dirNode (sub.entries srv.dirNode)) =
        .dir (sub.entries srv.dirNode) := hsub.kind_root
    have hdsub : (ofEntries (sub.entries srv.dirNode)).Stored srv.toUnixfs store :=
      stored_ofEntries fun e he => hnode.entry hkind he
    refine .inr (.inr ⟨_, d.setCached name _, sub, ?_, ht, hsub, hdsub, ?_, hst.setCached hdsub⟩)
    · simp only [child, hd, hmem, hkind, if_true]
    · have hset := h.setCached ht hsub
      rwa [Tree.setDir_self ht] at hset
  · exact .inr (.inr ⟨dsub, d, sub, by simp [child, hd], ht, hsub, hdsub, h, hst⟩)

variable {name : String} {node : Cid}

theorem storeNode_ok (h : exec (d.storeNode srv) dag = (.ok node, dag'))
    (hentries : ∀ e ∈ d.entries, Complete srv.toUnixfs dag.store e.2) :
    node = srv.dirNode d.entries ∧ Complete srv.toUnixfs dag'.store node ∧
      dag.store ⊆ dag'.store := by
  obtain ⟨r, hadd, rfl⟩ := exec_bind_pure_ok.mp h
  have hsub := dagAdd_grows hadd
  refine ⟨rfl, complete_dirNode ?_ ?_ fun e he => (hentries e he).mono hsub, hsub⟩
  · rw [dagAdd_ok hadd]
    exact Finset.mem_union_right _ (by simp)
  · intro b hb
    rw [dagAdd_ok hadd]
    exact Finset.mem_union_right _ (by simp [hb])

omit [DecidableEq Cid] in
theorem shows_uncacheAll (hshow : Shows srv.toUnixfs d t) (hsync : d.Synced srv.toUnixfs) :
    Shows srv.toUnixfs d.uncacheAll t := by
  induction hshow with
  | empty => exact .empty
  | file hkind hlt _ ih => exact .file hkind hlt (ih hsync)
  | dir hsub hlt _ _ ih => exact .dir hsub hlt (ih hsync)
  | cached hsub hlt _ _ ih =>
    obtain ⟨rfl, hdir, hrest⟩ := hsync
    simp only [uncacheAll, hsub.entries_eq hdir]
    exact .dir hsub.ofEntries hlt (ih hrest)

omit [DecidableEq Cid] in
theorem stored_uncacheAll (h : ∀ e ∈ d.entries, Complete srv.toUnixfs store e.2) :
    d.uncacheAll.Stored srv.toUnixfs store := by
  induction d with
  | empty => exact True.intro
  | link n node rest ih | cached n node dir rest _ ih =>
    exact ⟨h (n, node) List.mem_cons_self, ih fun e he => h e (List.mem_cons_of_mem _ he)⟩

section

variable (hshow : Shows srv.toUnixfs d t) (hst : d.Stored srv.toUnixfs dag.store)

include hshow hst

theorem create_ok (h : exec (d.create srv name) dag = (.ok d', dag'))
    (hremove : d.remove name = d) (hfind : t.find? name = none) :
    Shows srv.toUnixfs d' (t.insert name (.inr .empty)) ∧
      d'.Stored srv.toUnixfs dag'.store ∧ dag.store ⊆ dag'.store := by
  obtain ⟨r, hadd, rfl⟩ := exec_bind_pure_ok.mp h
  have hsub := dagAdd_grows hadd
  rw [hremove]
  refine ⟨hshow.insert hfind fun hlt hrest => .cached .empty hlt hrest, ?_, hsub⟩
  exact (hst.mono hsub).insert fun _ hrest => ⟨True.intro, hrest⟩

/-- **`AddChild` puts a new file.** -/
theorem addChild_ok (h : exec (d.addChild srv name node) dag = (.ok d', dag'))
    (hkind : srv.kind node = .file) (hnode : Complete srv.toUnixfs dag.store node) :
    (∃ t', Tree.put name node [] t = some t' ∧ Shows srv.toUnixfs d' t') ∧
      d'.Stored srv.toUnixfs dag'.store ∧ dag.store ⊆ dag'.store := by
  simp only [addChild, exec_bind, exec_get] at h
  rcases child_cases name hshow hst with
    ⟨hchild, hremove, hfind⟩ | ⟨c, hchild, _⟩ | ⟨dsub, d₁, sub, hchild, _⟩
  · rw [hchild] at h
    obtain ⟨r, hadd, rfl⟩ := exec_bind_pure_ok.mp h
    have hsub := dagAdd_grows hadd
    rw [hremove]
    refine ⟨⟨t.insert name (.inl node), by simp [Tree.put, hfind], ?_⟩, ?_, hsub⟩
    · exact hshow.insert hfind fun hlt hrest => .file hkind hlt hrest
    · exact (hst.mono hsub).insert fun _ hrest => ⟨hnode.mono hsub, hrest⟩
  · simp [hchild] at h
  · simp [hchild] at h

/-- **`PutNode` puts a new file.** -/
theorem putAt_ok {parts : List String} (h : exec (d.putAt srv name node parts) dag = (.ok d', dag'))
    (hkind : srv.kind node = .file) (hnode : Complete srv.toUnixfs dag.store node) :
    (∃ t', Tree.put name node parts t = some t' ∧ Shows srv.toUnixfs d' t') ∧
      d'.Stored srv.toUnixfs dag'.store ∧ dag.store ⊆ dag'.store := by
  induction parts generalizing d d' t dag dag' with
  | nil => exact addChild_ok hshow hst h hkind hnode
  | cons part parts ih =>
    simp only [putAt, exec_bind, exec_get] at h
    rcases child_cases part hshow hst with
      ⟨hchild, _⟩ | ⟨c, hchild, _⟩ | ⟨dsub, d₁, sub, hchild, hfind, hsub, hdsub, hd₁, hst₁⟩
    · simp [hchild] at h
    · simp [hchild] at h
    · rw [hchild] at h
      obtain ⟨dsub', hput, rfl⟩ := exec_bind_pure_ok.mp h
      obtain ⟨⟨sub', hsub', hshow'⟩, hst', hgrow⟩ := ih hsub hdsub hput hnode
      refine ⟨⟨t.setDir part sub', by simp [Tree.put, hfind, hsub'],
        hd₁.setCached hfind hshow'⟩, (hst₁.mono hgrow).setCached hst', hgrow⟩

/-- **`Mkdir` makes the directories of a path.** -/
theorem mkdirAll_ok {parts : List String} (h : exec (d.mkdirAll srv parts) dag = (.ok d', dag')) :
    (∃ t', Tree.mkdirAll parts t = some t' ∧ Shows srv.toUnixfs d' t') ∧
      d'.Stored srv.toUnixfs dag'.store ∧ dag.store ⊆ dag'.store := by
  induction parts generalizing d d' t dag dag' with
  | nil =>
    cases h
    exact ⟨⟨t, rfl, hshow⟩, hst, Finset.Subset.refl _⟩
  | cons part parts ih =>
    cases parts with
    | nil =>
      simp only [mkdirAll, exec_bind, exec_get] at h
      rcases child_cases part hshow hst with
        ⟨hchild, hremove, hfind⟩ | ⟨c, hchild, _⟩ |
          ⟨dsub, d₁, sub, hchild, hfind, _, _, hd₁, hst₁⟩
      · rw [hchild] at h
        obtain ⟨hshow', hst', hgrow⟩ := create_ok hshow hst h hremove hfind
        exact ⟨⟨t.insert part (.inr .empty), by simp [Tree.mkdirAll, hfind], hshow'⟩, hst', hgrow⟩
      · simp [hchild] at h
      · rw [hchild] at h
        cases h
        refine ⟨⟨t, ?_, hd₁⟩, hst₁, Finset.Subset.refl _⟩
        simp [Tree.mkdirAll, hfind, Tree.setDir_self hfind]
    | cons next parts =>
      simp only [mkdirAll, exec_bind, exec_get] at h
      rcases child_cases part hshow hst with
        ⟨hchild, hremove, hfind⟩ | ⟨c, hchild, _⟩ |
          ⟨dsub, d₁, sub, hchild, hfind, hsub, hdsub, hd₁, hst₁⟩
      · rw [hchild] at h
        obtain ⟨d₁, dag₁, hcreate, h⟩ := exec_bind_ok.mp h
        obtain ⟨hd₁, hst₁, hgrow₁⟩ := create_ok hshow hst hcreate hremove hfind
        obtain ⟨dsub', hmk, rfl⟩ := exec_bind_pure_ok.mp h
        obtain ⟨⟨sub', hsub', hshow'⟩, hst', hgrow₂⟩ := ih .empty True.intro hmk
        have hnew : (t.insert part (.inr .empty)).find? part = some (.inr .empty) := by
          rw [Tree.find?_insert hfind, if_pos rfl]
        have hset := hd₁.setCached hnew hshow'
        rw [Tree.setDir_insert hfind] at hset
        refine ⟨⟨_, ?_, hset⟩, (hst₁.mono hgrow₂).setCached hst', hgrow₁.trans hgrow₂⟩
        rw [Tree.mkdirAll, hfind]
        simp [hsub']
      · simp [hchild] at h
      · rw [hchild] at h
        obtain ⟨dsub', hmk, rfl⟩ := exec_bind_pure_ok.mp h
        obtain ⟨⟨sub', hsub', hshow'⟩, hst', hgrow⟩ := ih hsub hdsub hmk
        refine ⟨⟨t.setDir part sub', ?_, hd₁.setCached hfind hshow'⟩,
          (hst₁.mono hgrow).setCached hst', hgrow⟩
        rw [Tree.mkdirAll, hfind]
        simp [hsub']

/-- **`sync` renews every link.**  Afterwards the entries of the object are
those of the tree, and all their DAGs are stored. -/
theorem sync_ok (h : exec (d.sync srv) dag = (.ok d', dag')) :
    Shows srv.toUnixfs d' t ∧ d'.Synced srv.toUnixfs ∧
      (∀ e ∈ d'.entries, Complete srv.toUnixfs dag'.store e.2) ∧
      dag.store ⊆ dag'.store := by
  induction hshow generalizing d' dag dag' with
  | empty =>
    cases h
    exact ⟨.empty, True.intro, by simp [entries], Finset.Subset.refl _⟩
  | @file n node rest trest hkind hlt _ ih =>
    obtain ⟨rest', hrest, rfl⟩ := exec_bind_pure_ok.mp h
    obtain ⟨hshow', hsync, hcomplete, hgrow⟩ := ih hst.2 hrest
    refine ⟨.file hkind hlt hshow', hsync, ?_, hgrow⟩
    exact List.forall_mem_cons.mpr ⟨hst.1.mono hgrow, hcomplete⟩
  | @dir n sub rest trest hsub hlt _ _ ih =>
    obtain ⟨rest', hrest, rfl⟩ := exec_bind_pure_ok.mp h
    obtain ⟨hshow', hsync, hcomplete, hgrow⟩ := ih hst.2 hrest
    refine ⟨.dir hsub hlt hshow', hsync, ?_, hgrow⟩
    exact List.forall_mem_cons.mpr ⟨hst.1.mono hgrow, hcomplete⟩
  | @cached n node dsub rest sub trest _ hlt _ ihsub ihrest =>
    obtain ⟨dsub', dag₁, hdsub, h⟩ := exec_bind_ok.mp h
    obtain ⟨node', dag₂, hnode, h⟩ := exec_bind_ok.mp h
    obtain ⟨rest', hrest, rfl⟩ := exec_bind_pure_ok.mp h
    obtain ⟨hshow₁, hsync₁, hcomplete₁, hgrow₁⟩ := ihsub hst.1 hdsub
    obtain ⟨rfl, hfull, hgrow₂⟩ := storeNode_ok hnode hcomplete₁
    obtain ⟨hshow₂, hsync₂, hcomplete₂, hgrow₃⟩ :=
      ihrest (hst.2.mono (hgrow₁.trans hgrow₂)) hrest
    refine ⟨.cached hshow₁ hlt hshow₂, ⟨rfl, hsync₁, hsync₂⟩, ?_,
      (hgrow₁.trans hgrow₂).trans hgrow₃⟩
    exact List.forall_mem_cons.mpr ⟨hfull.mono hgrow₃, hcomplete₂⟩

/-- **`GetNode` returns the directory node of the tree and stores its DAG.** -/
theorem getNode_ok (h : exec (d.getNode srv) dag = (.ok (node, d'), dag')) :
    node = t.root srv.dirNode ∧ Shows srv.toUnixfs d' t ∧ d'.Synced srv.toUnixfs ∧
      Complete srv.toUnixfs dag'.store node ∧ dag.store ⊆ dag'.store := by
  obtain ⟨d₁, dag₁, hsync, h⟩ := exec_bind_ok.mp h
  obtain ⟨node₁, hnode, heq⟩ := exec_bind_pure_ok.mp h
  cases heq
  obtain ⟨hshow', hsynced, hcomplete, hgrow₁⟩ := sync_ok hshow hst hsync
  obtain ⟨rfl, hfull, hgrow₂⟩ := storeNode_ok hnode hcomplete
  refine ⟨?_, hshow', hsynced, hfull, hgrow₁.trans hgrow₂⟩
  rw [hshow'.entries_eq hsynced]
  rfl

/-- **`FlushMemFree` keeps the tree.** -/
theorem flushMemFree_ok (h : exec (flushMemFree srv d) dag = (.ok d', dag')) :
    Shows srv.toUnixfs d' t ∧ d'.Stored srv.toUnixfs dag'.store := by
  obtain ⟨⟨node, d₁⟩, dag₁, hget, h⟩ := exec_bind_ok.mp h
  obtain ⟨r, hadd, rfl⟩ := exec_bind_pure_ok.mp h
  obtain ⟨rfl, hshow', hsync, hfull, _⟩ := getNode_ok hshow hst hget
  refine ⟨shows_uncacheAll hshow' hsync, stored_uncacheAll ?_⟩
  intro e he
  rw [hshow'.entries_eq hsync] at he
  exact (hfull.entry hshow'.kind_root he).mono (dagAdd_grows hadd)

end

end Mfs
