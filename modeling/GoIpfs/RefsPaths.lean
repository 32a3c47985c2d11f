import GoIpfs.RefsWalk
import Mathlib.Data.List.Lex

/-!
# `ipfs refs` without `--unique`

Without `--unique` nothing is remembered, so `WriteRefs` writes a line for every
path of links that is short enough.  A path is given by the positions of its
links, so parallel links belong to different paths, and depth-first pre-order is
the lexicographic order of the positions, in which a path comes before its
extensions.

`writeRefs_enumerates_paths` describes the lines by membership and order alone:
the paths form a strictly increasing list, a path is in it if it exists and is
short enough, and the lines are the last links of these paths.
-/

namespace Refs

open List Nat

variable {Cid : Type}

/-- The last link of the path that takes the links at these positions. -/
def edgeAt (dag : Dag Cid) : Cid → List Nat → Option (Edge Cid)
  | _, [] => none
  | n, [i] => (dag.links n)[i]?.map fun l => ⟨n, l.cid, l.name⟩
  | n, i :: rest => (dag.links n)[i]?.bind fun l => edgeAt dag l.cid rest

/-- The paths that begin with one of the links, the first of which has position
`i`, and go on as `deeper` says. -/
def linkPaths (deeper : Cid → List (List Nat)) : Nat → List (Link Cid) → List (List Nat)
  | _, [] => []
  | i, l :: rest => [i] :: (deeper l.cid).map (List.cons i) ++ linkPaths deeper (i + 1) rest

/-- The paths that are listed below a node at this depth, in the order of the
walk. -/
def pathsFrom (o : Options) (dag : Dag Cid) : Nat → Cid → Nat → List (List Nat)
  | 0, _, _ => []
  | fuel + 1, n, depth =>
    if Allowed o (depth + 1) then
      linkPaths (fun c => pathsFrom o dag fuel c (depth + 1)) 0 (dag.links n)
    else []

variable {o : Options} {dag : Dag Cid} {env : Env Cid} {w : RefWriter Cid} {c n : Cid} {d : Nat}

/-! ## The paths -/

variable {i : Nat}

theorem edgeAt_cons {rest : List Nat} (h : rest ≠ []) :
    edgeAt dag n (i :: rest) = (dag.links n)[i]?.bind fun l => edgeAt dag l.cid rest := by
  cases rest with
  | nil => exact absurd rfl h
  | cons j rest => rfl

variable {deeper : Cid → List (List Nat)}

theorem mem_linkPaths {ls : List (Link Cid)} {p : List Nat} :
    p ∈ linkPaths deeper i ls ↔
      ∃ j l rest, ls[j]? = some l ∧ p = (i + j) :: rest ∧
        (rest = [] ∨ rest ∈ deeper l.cid) := by
  induction ls generalizing i with
  | nil => simp [linkPaths]
  | cons l ls ih =>
    simp only [linkPaths, cons_append, mem_cons, mem_append, mem_map, ih]
    constructor
    · rintro (rfl | ⟨rest, hrest, rfl⟩ | ⟨j, m, rest, hj, rfl, hrest⟩)
      · exact ⟨0, l, [], rfl, rfl, .inl rfl⟩
      · exact ⟨0, l, rest, rfl, rfl, .inr hrest⟩
      · exact ⟨j + 1, m, rest, hj, by rw [add_right_comm, add_assoc], hrest⟩
    rintro ⟨j, m, rest, hj, rfl, hrest⟩
    cases j with
    | zero =>
      obtain rfl : l = m := Option.some.inj hj
      rcases hrest with rfl | hrest
      · exact .inl rfl
      · exact .inr (.inl ⟨rest, hrest, rfl⟩)
    | succ j =>
      exact .inr (.inr ⟨j, m, rest, hj, by rw [add_right_comm, add_assoc], hrest⟩)

theorem sorted_linkPaths (i : Nat) (ls : List (Link Cid))
    (hdeeper : ∀ l ∈ ls, (deeper l.cid).Pairwise (· < ·)) (hne : ∀ l ∈ ls, [] ∉ deeper l.cid) :
    (linkPaths deeper i ls).Pairwise (· < ·) := by
  induction ls generalizing i with
  | nil => exact List.Pairwise.nil
  | cons l ls ih =>
    have hrest := ih (i + 1) (fun m hm => hdeeper m (mem_cons_of_mem _ hm))
      (fun m hm => hne m (mem_cons_of_mem _ hm))
    have hlater : ∀ p ∈ linkPaths deeper (i + 1) ls, ∀ q : List Nat, i :: q < p := by
      intro p hp q
      obtain ⟨j, m, rest, -, rfl, -⟩ := mem_linkPaths.mp hp
      exact List.Lex.rel (by omega)
    have hbelow : ((deeper l.cid).map (cons i)).Pairwise (· < ·) := by
      rw [pairwise_map]
      exact (hdeeper l mem_cons_self).imp fun h => List.Lex.cons h
    refine pairwise_append.mpr ⟨pairwise_cons.mpr ⟨?_, hbelow⟩, hrest, ?_⟩
    · intro p hp
      obtain ⟨q, hq, rfl⟩ := mem_map.mp hp
      cases q with
      | nil => exact absurd hq (hne l mem_cons_self)
      | cons a q => exact List.Lex.cons List.Lex.nil
    · intro p hp q hq
      rcases mem_cons.mp hp with rfl | hp
      · exact hlater q hq []
      · obtain ⟨r, -, rfl⟩ := mem_map.mp hp
        exact hlater q hq r

/-- **The listed paths** are those that exist and are short enough. -/
theorem mem_pathsFrom {fuel : Nat} (hfuel : dag.rank n ≤ fuel) {p : List Nat} :
    p ∈ pathsFrom o dag fuel n d ↔
      p ≠ [] ∧ Allowed o (d + p.length) ∧ (edgeAt dag n p).isSome := by
  induction fuel generalizing n d p with
  | zero =>
    -- a node of rank zero has no links
    have hnone : dag.links n = [] := by
      cases hlinks : dag.links n with
      | nil => rfl
      | cons l ls =>
        have := dag.rank_lt n l (by rw [hlinks]; exact mem_cons_self)
        omega
    refine ⟨fun h => by simp [pathsFrom] at h, ?_⟩
    rintro ⟨hne, -, hsome⟩
    cases p with
    | nil => exact absurd rfl hne
    | cons i rest => cases rest <;> simp [edgeAt, hnone] at hsome
  | succ fuel ih =>
    have hchild : ∀ {i : Nat} {l : Link Cid}, (dag.links n)[i]? = some l →
        dag.rank l.cid ≤ fuel := by
      intro i l hl
      have := dag.rank_lt n l (mem_of_getElem? hl)
      omega
    unfold pathsFrom
    split
    · rename_i hallowed
      rw [mem_linkPaths]
      constructor
      · rintro ⟨j, l, rest, hj, rfl, rfl | hrest⟩
        · exact ⟨by simp, hallowed, by simp [edgeAt, hj]⟩
        obtain ⟨hne, hlen, hsome⟩ := (ih (hchild hj)).mp hrest
        refine ⟨by simp, ?_, ?_⟩
        · rwa [add_assoc, add_comm 1] at hlen
        · rw [zero_add, edgeAt_cons hne, hj]
          exact hsome
      · rintro ⟨hne, hlen, hsome⟩
        cases p with
        | nil => exact absurd rfl hne
        | cons i rest =>
          cases hi : (dag.links n)[i]? with
          | none => cases rest <;> simp [edgeAt, hi] at hsome
          | some l =>
            refine ⟨i, l, rest, hi, by rw [zero_add], ?_⟩
            by_cases hrest : rest = []
            · exact .inl hrest
            · refine .inr ((ih (hchild hi)).mpr ⟨hrest, ?_, ?_⟩)
              · rwa [add_assoc, add_comm 1]
              · rw [edgeAt_cons hrest, hi] at hsome
                exact hsome
    · rename_i hallowed
      refine ⟨fun h => by simp at h, ?_⟩
      rintro ⟨hne, hlen, -⟩
      have hpos : 0 < p.length := length_pos_of_ne_nil hne
      exact absurd (hlen.mono (by omega)) hallowed

theorem sorted_pathsFrom {fuel : Nat} (hfuel : dag.rank n ≤ fuel) :
    (pathsFrom o dag fuel n d).Pairwise (· < ·) := by
  induction fuel generalizing n d with
  | zero => exact List.Pairwise.nil
  | succ fuel ih =>
    have hchild : ∀ l ∈ dag.links n, dag.rank l.cid ≤ fuel := by
      intro l hl
      have := dag.rank_lt n l hl
      omega
    unfold pathsFrom
    split
    · refine sorted_linkPaths 0 _ (fun l hl => ih (hchild l hl)) ?_
      intro l hl hnil
      exact ((mem_pathsFrom (hchild l hl)).mp hnil).1 rfl
    · exact List.Pairwise.nil

theorem map_some_filterMap {f : List Nat → Option (Edge Cid)} {paths : List (List Nat)}
    (h : ∀ p ∈ paths, (f p).isSome) : (paths.filterMap f).map some = paths.map f := by
  induction paths with
  | nil => rfl
  | cons p paths ih =>
    obtain ⟨e, he⟩ := Option.isSome_iff_exists.mp (h p mem_cons_self)
    rw [filterMap_cons_some he, map_cons, map_cons, he, ih fun q hq => h q (mem_cons_of_mem _ hq)]

/-! ## The walk -/

/-- The call succeeds and writes these edges. -/
def Writes (r : Outcome Cid) (w : RefWriter Cid) (edges : List (Edge Cid)) : Prop :=
  r.err = none ∧ r.writer.edges = w.edges ++ edges

theorem writes_skip (w : RefWriter Cid) : Writes (skip w) w [] :=
  ⟨rfl, (append_nil _).symm⟩

theorem Writes.andThen {r : Outcome Cid} {next : RefWriter Cid → Outcome Cid}
    {first rest : List (Edge Cid)} (h : Writes r w first)
    (hnext : Writes (next r.writer) r.writer rest) :
    Writes (r.andThen next) w (first ++ rest) := by
  refine ⟨Outcome.andThen_err_none.mpr ⟨h.1, hnext.1⟩, ?_⟩
  rw [Outcome.andThen_writer h.1, hnext.2, h.2, append_assoc]

variable {l : Link Cid}

theorem writes_fetchAndWrite (hget : ∀ j, env.get j l.cid = true) (hemit : ∀ j, env.emit j = true) :
    Writes (fetchAndWrite env n l true w) w [⟨n, l.cid, l.name⟩] := by
  have hfetched : Writes (get env l.cid w) w [] :=
    ⟨by simp [get, hget], (append_nil _).symm⟩
  refine hfetched.andThen ?_
  exact ⟨by simp [writeEdge, hemit], by simp [writeEdge, hemit]⟩

variable [DecidableEq Cid]

theorem visit_all (hunique : o.unique = false) :
    visit o c d w = ⟨decide (Allowed o (d + 1)), decide (Allowed o d), w⟩ := by
  unfold visit
  rw [overMaxDepth_eq]
  by_cases hallowed : Allowed o d
  · simp [hallowed, hunique, not_atMaxDepth hallowed]
  · have hdeeper : ¬ Allowed o (d + 1) := fun h => hallowed (h.mono (by omega))
    simp [hallowed, hdeeper]

theorem writes_writeLink {deeper : Cid → Nat → RefWriter Cid → Outcome Cid}
    {below : List (Edge Cid)} (hunique : o.unique = false) (hallowed : Allowed o (d + 1))
    (hget : ∀ j, env.get j l.cid = true) (hemit : ∀ j, env.emit j = true)
    (hdeeper : ∀ w, Writes (deeper l.cid (d + 1) w) w below)
    (hbelow : ¬ Allowed o (d + 2) → below = []) :
    Writes (writeLink o env deeper n d l w) w (⟨n, l.cid, l.name⟩ :: below) := by
  unfold writeLink
  rw [visit_all hunique]
  simp only [hallowed, decide_true, Bool.not_true, Bool.false_and, Bool.false_eq_true, if_false]
  refine (writes_fetchAndWrite hget hemit).andThen ?_
  split
  · exact hdeeper _
  · rename_i hlimit
    rw [hbelow (by simpa using hlimit)]
    exact writes_skip _

omit [DecidableEq Cid] in
theorem edges_linkPaths (hl : (dag.links n)[i]? = some l) (hne : [] ∉ deeper l.cid) :
    ([i] :: (deeper l.cid).map (cons i)).filterMap (edgeAt dag n) =
      ⟨n, l.cid, l.name⟩ :: (deeper l.cid).filterMap (edgeAt dag l.cid) := by
  have hfirst : edgeAt dag n [i] = some ⟨n, l.cid, l.name⟩ := by simp [edgeAt, hl]
  rw [filterMap_cons_some hfirst, filterMap_map]
  congr 1
  refine filterMap_congr fun p hp => ?_
  have hp : p ≠ [] := fun heq => hne (heq ▸ hp)
  rw [Function.comp_apply, edgeAt_cons hp, hl, Option.bind_some]

variable {deeper : Cid → Nat → RefWriter Cid → Outcome Cid}

theorem writes_writeLinks {below : Cid → List (List Nat)} (hunique : o.unique = false)
    (hallowed : Allowed o (d + 1)) (hemit : ∀ j, env.emit j = true) (i : Nat) (ls : List (Link Cid))
    (hpos : ∀ j, ls[j]? = (dag.links n)[i + j]?) (hget : ∀ l ∈ ls, ∀ j, env.get j l.cid = true)
    (hdeeper : ∀ l ∈ ls, ∀ w, Writes (deeper l.cid (d + 1) w) w
      ((below l.cid).filterMap (edgeAt dag l.cid)))
    (hbelow : ∀ l ∈ ls, [] ∉ below l.cid ∧ (¬ Allowed o (d + 2) → below l.cid = []))
    (w : RefWriter Cid) :
    Writes (writeLinks o env deeper n d ls w) w
      ((linkPaths below i ls).filterMap (edgeAt dag n)) := by
  induction ls generalizing i w with
  | nil => exact writes_skip w
  | cons l ls ih =>
    have hl : (dag.links n)[i]? = some l := (hpos 0).symm
    obtain ⟨hne, hlimit⟩ := hbelow l mem_cons_self
    have hfirst : Writes (writeLink o env deeper n d l w) w
        (([i] :: (below l.cid).map (cons i)).filterMap (edgeAt dag n)) := by
      rw [edges_linkPaths hl hne]
      refine writes_writeLink hunique hallowed (hget l mem_cons_self) hemit
        (hdeeper l mem_cons_self) ?_
      intro hnot
      rw [hlimit hnot]
      rfl
    have hrest := ih (i + 1)
      (fun j => by rw [add_right_comm, add_assoc]; exact hpos (j + 1))
      (fun m hm => hget m (mem_cons_of_mem _ hm))
      (fun m hm => hdeeper m (mem_cons_of_mem _ hm))
      (fun m hm => hbelow m (mem_cons_of_mem _ hm))
    rw [linkPaths, filterMap_append]
    exact hfirst.andThen (hrest _)

theorem writes_writeLinks_none (hunique : o.unique = false) (hallowed : ¬ Allowed o (d + 1))
    (ls : List (Link Cid)) (w : RefWriter Cid) :
    Writes (writeLinks o env deeper n d ls w) w [] := by
  have hdeep : ¬ Allowed o (d + 2) := fun h => hallowed (h.mono (by omega))
  induction ls generalizing w with
  | nil => exact writes_skip w
  | cons l ls ih =>
    have hskip : writeLink o env deeper n d l w = skip w := by
      unfold writeLink
      rw [visit_all hunique]
      simp [hallowed, hdeep]
    unfold writeLinks
    rw [hskip]
    exact (writes_skip w).andThen (ih _)

/-- **The edges below a node.** -/
theorem writes_writeRefsRecursive (hunique : o.unique = false) (fuel : Nat)
    (hfuel : dag.rank n ≤ fuel) (hread : AllReadable o dag env n d) (w : RefWriter Cid) :
    Writes (writeRefsRecursive o dag env fuel n d w) w
      ((pathsFrom o dag fuel n d).filterMap (edgeAt dag n)) := by
  induction fuel generalizing n d w with
  | zero => exact writes_skip w
  | succ fuel ih =>
    unfold writeRefsRecursive pathsFrom
    split
    · rename_i hallowed
      have hchild : ∀ l ∈ dag.links n, dag.rank l.cid ≤ fuel := by
        intro l hl
        have := dag.rank_lt n l hl
        omega
      have hmem : ∀ l ∈ dag.links n, l.cid ∈ dag.children n :=
        fun l hl => mem_map_of_mem hl
      refine writes_writeLinks hunique hallowed hread.1 0 (dag.links n)
        (fun j => by rw [zero_add]) ?_ ?_ ?_ w
      · intro l hl
        exact hread.2 1 (by omega) hallowed l.cid ⟨l.cid, hmem l hl, rfl⟩
      · intro l hl w
        exact ih (hchild l hl) (hread.child (hmem l hl)) w
      · intro l hl
        refine ⟨fun hnil => ((mem_pathsFrom (hchild l hl)).mp hnil).1 rfl, ?_⟩
        intro hlimit
        cases fuel with
        | zero => rfl
        | succ fuel => exact if_neg hlimit
    · rename_i hallowed
      exact writes_writeLinks_none hunique hallowed _ w

/-- **`refs` without `--unique` enumerates paths.**  If the nodes can be
retrieved and the lines can be sent, `WriteRefs` succeeds; the paths of at least
one link and at most `MaxDepth` links from the root (of any length if `MaxDepth`
is negative) form a list in depth-first pre-order; and the call writes the last
link of each of them, in this order, and returns their number. -/
theorem writeRefs_enumerates_paths (o : Options) (hunique : o.unique = false) (dag : Dag Cid)
    (env : Env Cid) (root : Cid) (hroot : env.get 0 root = true)
    (hread : AllReadable o dag env root 0) (enc : Cid → String) (w : RefWriter Cid) :
    (writeRefs o dag env root w).err = none ∧
    ∃ paths : List (List Nat),
      paths.Pairwise (· < ·) ∧
      (∀ p, p ∈ paths ↔
        p ≠ [] ∧ (o.maxDepth < 0 ∨ (p.length : Int) ≤ o.maxDepth) ∧
          (edgeAt dag root p).isSome) ∧
      (writeRefs o dag env root w).writer.edges.map some =
        w.edges.map some ++ paths.map (edgeAt dag root) ∧
      (writeRefs o dag env root w).writer.lines o enc =
        w.lines o enc ++ (paths.filterMap (edgeAt dag root)).map (Edge.line o.printFmt enc) ∧
      (writeRefs o dag env root w).count = paths.length := by
  have hstart : Writes (get env root { w with calls := 0 }) w [] :=
    ⟨by simp [get, hroot], (append_nil _).symm⟩
  have hwrites := hstart.andThen
    (writes_writeRefsRecursive hunique (dag.rank root) (le_refl _) hread _)
  have hmem : ∀ p, p ∈ pathsFrom o dag (dag.rank root) root 0 ↔
      p ≠ [] ∧ Allowed o (0 + p.length) ∧ (edgeAt dag root p).isSome :=
    fun p => mem_pathsFrom (le_refl _)
  have hedges : ((pathsFrom o dag (dag.rank root) root 0).filterMap (edgeAt dag root)).map some =
      (pathsFrom o dag (dag.rank root) root 0).map (edgeAt dag root) :=
    map_some_filterMap fun p hp => ((hmem p).mp hp).2.2
  have hcount : Counts (writeRefs o dag env root w).count w
    (writeRefs o dag env root w).writer := counts_writeRefs
  have hwriter : (writeRefs o dag env root w).writer.edges = w.edges ++
      (pathsFrom o dag (dag.rank root) root 0).filterMap (edgeAt dag root) := hwrites.2
  refine ⟨hwrites.1, pathsFrom o dag (dag.rank root) root 0,
    sorted_pathsFrom (le_refl _), ?_, ?_, ?_, ?_⟩
  · intro p
    rw [hmem p, zero_add]
    rfl
  · rw [hwriter, map_append, hedges]
  · unfold RefWriter.lines
    rw [hwriter, map_append]
  · have hlength := congrArg length hedges
    simp only [length_map] at hlength
    unfold Counts at hcount
    rw [hwriter, length_append, hlength] at hcount
    omega

/-- A root with two links to the same node and one link below it. -/
def parallel : Dag Nat where
  links := fun c =>
    match c with
    | 0 => [⟨"a", 1⟩, ⟨"b", 1⟩]
    | 1 => [⟨"leaf", 2⟩]
    | _ => []
  rank := fun c =>
    match c with
    | 0 => 2
    | 1 => 1
    | _ => 0
  rank_lt := by
    intro c l hl
    split at hl <;> simp at hl
    · rcases hl with rfl | rfl <;> decide
    · subst hl
      decide

theorem writeRefs_enumerates_paths_parallel :
    (writeRefs ⟨false, -1, ""⟩ parallel ⟨fun _ _ => true, fun _ => true⟩ 0
        RefWriter.new).writer.written = [1, 2, 1, 2] ∧
      (writeRefs ⟨false, -1, ""⟩ parallel ⟨fun _ _ => true, fun _ => true⟩ 0
        RefWriter.new).err = none :=
  ⟨by decide, (writeRefs_enumerates_paths ⟨false, -1, ""⟩ rfl parallel
    ⟨fun _ _ => true, fun _ => true⟩ 0 rfl
    ⟨fun _ => rfl, fun _ _ _ _ _ _ => rfl⟩ toString RefWriter.new).1⟩

/-- With a depth limit of 0 nothing is listed. -/
example : (writeRefs ⟨false, 0, ""⟩ parallel ⟨fun _ _ => true, fun _ => true⟩ 0
    RefWriter.new).writer.written = [] := by
  decide

end Refs
