import GoIpfs.GoPathParts
import GoIpfs.TarFormat
import Mathlib.Algebra.BigOperators.Group.List.Basic
import Mathlib.Algebra.GroupWithZero.Nat
import Mathlib.Data.List.Forall2
import Mathlib.Data.List.Induction
import Mathlib.Data.List.Nodup
import Mathlib.Data.List.Perm.Subperm

/-!
# Tar archives come back whole only in order

`ImportTar` puts each entry at its path and replaces what was there.  A header
that arrives after entries below it therefore drops them, and entries below one
with contents are imported but never exported.  The order and the sizes are all
that matters: `roundTrip_iff`.
-/

namespace TarFormat

open GoBytes List Entry

/-- The path of an entry: its name without slashes at the ends, split. -/
def Entry.path (h : Entry) : List String := GoPath.splitList (GoPath.trim h.name)

def escape (e : String) : String := "-" ++ e

def Entry.record (h : Entry) : Record := ⟨h.header, if h.size > 0 then some h.data else none⟩

/-! ## Paths -/

section Paths

theorem escape_injective : Function.Injective escape := by
  intro a b h
  have hlist := congrArg String.toList h
  simp only [escape, String.toList_append] at hlist
  exact String.toList_injective (append_cancel_left hlist)

theorem path_ne_nil (h : Entry) : h.path ≠ [] :=
  GoPath.splitList_ne_nil _

theorem splitList_escapePath (h : Entry) :
    GoPath.splitList (escapePath h.name) = h.path.map escape := by
  have hne : h.path.map escape ≠ [] := by
    simpa using path_ne_nil h
  refine GoPath.splitList_intercalate hne fun e' he' => ?_
  obtain ⟨e, he, rfl⟩ := mem_map.mp he'
  have hnot := GoPath.slash_not_mem_splitList he
  simpa [escape] using hnot

end Paths

/-! ## The records of a tree -/

def recordAt : List String → Links → Option Record
  | [], _ => none
  | [name], links => (links.find? name).bind Node.record
  | name :: next :: rest, links =>
    (links.find? name).bind fun nd => recordAt (next :: rest) nd.links

section Records

variable {name n : String} {nd : Node} {links : Links} {p q : List String}

theorem find?_remove : (links.remove name).find? n = if n = name then none else links.find? n := by
  induction links with
  | nil => simp [Links.remove, Links.find?]
  | cons m record below rest _ ih =>
    unfold Links.remove
    by_cases hm : m = name
    · rw [if_pos hm, ih, Links.find?]
      by_cases hn : n = name
      · rw [if_pos hn, if_pos hn]
      · rw [if_neg hn, if_neg hn, if_neg fun h : m = n => hn (h.symm.trans hm)]
    · rw [if_neg hm, Links.find?, Links.find?, ih]
      by_cases hmn : m = n
      · rw [if_pos hmn, if_pos hmn, if_neg fun h => hm (hmn.trans h)]
      · rw [if_neg hmn, if_neg hmn]

theorem find?_place (h : links.find? name = none) :
    (links.place name nd).find? n = if n = name then some nd else links.find? n := by
  induction links with
  | nil => simp [Links.place, Links.find?, eq_comm]
  | cons m record below rest _ ih =>
    rw [Links.find?] at h
    have hm : m ≠ name := fun heq => by simp [heq] at h
    rw [if_neg hm] at h
    unfold Links.place
    split
    · rw [Links.find?]
      by_cases hn : n = name
      · rw [if_pos hn.symm, if_pos hn]
      · rw [if_neg (Ne.symm hn), if_neg hn]
    · rw [Links.find?, ih h, Links.find?]
      by_cases hmn : m = n
      · rw [if_pos hmn, if_pos hmn, if_neg fun heq => hm (hmn.trans heq)]
      · rw [if_neg hmn, if_neg hmn]

theorem find?_addLink :
    (addLink name nd links).find? n = if n = name then some nd else links.find? n := by
  unfold addLink
  rw [find?_place (by rw [find?_remove, if_pos rfl]), find?_remove]
  by_cases hn : n = name
  · rw [if_pos hn, if_pos hn]
  · rw [if_neg hn, if_neg hn, if_neg hn]

theorem recordAt_cons (hp : p ≠ []) :
    recordAt (name :: p) links = (links.find? name).bind fun nd => recordAt p nd.links := by
  cases p with
  | nil => exact absurd rfl hp
  | cons next rest => rfl

@[simp] theorem recordAt_nil (p : List String) : recordAt p .nil = none := by
  cases p with
  | nil => rfl
  | cons name p =>
    cases p <;> rfl

theorem recordAt_addLink_ne (hn : n ≠ name) :
    recordAt (n :: p) (addLink name nd links) = recordAt (n :: p) links := by
  cases p <;> simp [recordAt, find?_addLink, hn]

/-- **Inserting a record.**  It replaces what was at its path and below. -/
theorem recordAt_insertNodeAtPath (r : Record) (hq : q ≠ []) (links : Links) (p : List String) :
    recordAt p (insertNodeAtPath ⟨some r, .nil⟩ q links) =
      if p = q then some r else if q <+: p then none else recordAt p links := by
  induction q generalizing p links with
  | nil => exact absurd rfl hq
  | cons name q ih =>
    cases p with
    | nil => simp [recordAt]
    | cons n p =>
      by_cases hn : n = name
      · subst hn
        cases q with
        | nil =>
          rw [insertNodeAtPath]
          cases p <;> simp [recordAt, find?_addLink]
        | cons next q =>
          rw [insertNodeAtPath]
          cases p with
          | nil =>
            -- the node on the way keeps its record
            cases hfind : links.find? n with
            | none => simp [recordAt, find?_addLink, hfind, emptyNode]
            | some nd => simp [recordAt, find?_addLink, hfind]
          | cons m p =>
            rw [recordAt_cons (cons_ne_nil _ _), find?_addLink, if_pos rfl,
              Option.bind_some, ih (cons_ne_nil _ _),
              recordAt_cons (cons_ne_nil _ _)]
            cases hfind : links.find? n with
            | none => simp [emptyNode, cons_prefix_cons]
            | some nd => simp [cons_prefix_cons]
      · have hpre : ¬ name :: q <+: n :: p := fun h => hn (cons_prefix_cons.mp h).1.symm
        have hne : n :: p ≠ name :: q := fun h => hn (cons.inj h).1
        rw [if_neg hne, if_neg hpre]
        cases q <;> rw [insertNodeAtPath, recordAt_addLink_ne hn]

end Records

/-! ## The records that are exported -/

/-- The records that the reader comes to, with their paths. -/
def Links.emitted : Links → List (List String × Record)
  | .nil => []
  | .cons name record below rest =>
    (record.map fun r => ([name], r)).toList ++
      (if (record.bind Record.file).isSome then []
        else below.emitted.map fun e => (name :: e.1, e.2)) ++ rest.emitted

theorem bytes_emitted (links : Links) : links.bytes = links.emitted.flatMap fun e => e.2.bytes := by
  induction links with
  | nil => rfl
  | cons name record below rest ihb ihr =>
    have hbelow : (below.emitted.map fun e => (name :: e.1, e.2)).flatMap
        (fun e => e.2.bytes) = below.bytes := by
      rw [ihb, flatMap_map]
    have hrecord : ((record.map fun r => ([name], r)).toList).flatMap
        (fun e => e.2.bytes) = record.elim [] Record.bytes := by
      cases record <;> simp
    rw [Links.bytes, Links.emitted, flatMap_append, flatMap_append, hrecord, ← ihr]
    split
    · rfl
    · rw [hbelow]

/-- No two links of a node have the same name. -/
def Distinct : Links → Prop
  | .nil => True
  | .cons name _ below rest => rest.find? name = none ∧ Distinct below ∧ Distinct rest

/-- No entry above the path has contents. -/
def Shown (p : List String) (links : Links) : Prop :=
  ∀ q r, q <+: p → q ≠ p → recordAt q links = some r → r.file = none

section Emitted

variable {name n : String} {nd : Node} {links below rest : Links} {p : List String} {r : Record}
variable {record : Option Record}

theorem distinct_of_find? (h : Distinct links) (hfind : links.find? name = some nd) :
    Distinct nd.links := by
  induction links with
  | nil => cases hfind
  | cons m record below rest _ ih =>
    obtain ⟨_, hbelow, hrest⟩ := h
    rw [Links.find?] at hfind
    split at hfind
    · cases hfind
      exact hbelow
    · exact ih hrest hfind

theorem distinct_remove (h : Distinct links) : Distinct (links.remove name) := by
  induction links with
  | nil => exact h
  | cons m record below rest _ ih =>
    obtain ⟨hm, hbelow, hrest⟩ := h
    unfold Links.remove
    split
    · exact ih hrest
    · refine ⟨?_, hbelow, ih hrest⟩
      rw [find?_remove, hm, ite_self]

theorem distinct_place (h : Distinct links) (hnd : Distinct nd.links)
    (hfind : links.find? name = none) : Distinct (links.place name nd) := by
  induction links with
  | nil => exact ⟨rfl, hnd, True.intro⟩
  | cons m record below rest _ ih =>
    have hcons := h
    obtain ⟨hm, hbelow, hrest⟩ := h
    have hall := hfind
    rw [Links.find?] at hfind
    have hne : m ≠ name := fun heq => by simp [heq] at hfind
    rw [if_neg hne] at hfind
    unfold Links.place
    split
    · exact ⟨hall, hnd, hcons⟩
    · refine ⟨?_, hbelow, ih hrest hfind⟩
      rw [find?_place hfind, if_neg hne, hm]

theorem distinct_addLink (h : Distinct links) (hnd : Distinct nd.links) :
    Distinct (addLink name nd links) :=
  distinct_place (distinct_remove h) hnd (by rw [find?_remove, if_pos rfl])

theorem distinct_insertNodeAtPath (toinsert : Node) (hnew : Distinct toinsert.links)
    (q : List String) (h : Distinct links) : Distinct (insertNodeAtPath toinsert q links) := by
  induction q generalizing links with
  | nil => exact h
  | cons name q ih =>
    cases q with
    | nil => exact distinct_addLink h hnew
    | cons next q =>
      refine distinct_addLink h (ih ?_)
      cases hfind : links.find? name with
      | none => exact True.intro
      | some nd => exact distinct_of_find? h hfind

theorem recordAt_cons_ne (hn : n ≠ name) :
    recordAt (n :: p) (.cons name record below rest) = recordAt (n :: p) rest := by
  cases p <;> simp [recordAt, Links.find?, Ne.symm hn]

theorem recordAt_cons_self (hp : p ≠ []) :
    recordAt (name :: p) (.cons name record below rest) = recordAt p below := by
  rw [recordAt_cons hp, Links.find?, if_pos rfl, Option.bind_some]

theorem shown_cons_ne (hn : n ≠ name) :
    Shown (n :: p) (.cons name record below rest) ↔ Shown (n :: p) rest := by
  have hsame : ∀ q, q <+: n :: p →
      recordAt q (.cons name record below rest) = recordAt q rest := by
    intro q hq
    rcases prefix_cons_iff.mp hq with rfl | ⟨q', rfl, _⟩
    · rfl
    · exact recordAt_cons_ne hn
  refine forall₃_congr fun q r hq => ?_
  rw [hsame q hq]

theorem shown_cons_self (hp : p ≠ []) :
    Shown (name :: p) (.cons name record below rest) ↔
      (record.bind Record.file).isSome = false ∧ Shown p below := by
  constructor
  · intro h
    constructor
    · cases record with
      | none => rfl
      | some r =>
        have hfile := h [name] r (cons_prefix_cons.mpr ⟨rfl, nil_prefix⟩)
          (fun heq => hp (cons.inj heq).2.symm) (by simp [recordAt, Links.find?])
        simp [hfile]
    · intro q r hq hne hr
      have hqnil : q ≠ [] := by
        rintro rfl
        cases hr
      exact h (name :: q) r (cons_prefix_cons.mpr ⟨rfl, hq⟩)
        (fun heq => hne (cons.inj heq).2) ((recordAt_cons_self hqnil).trans hr)
  · rintro ⟨hfile, h⟩ q r hq hne hr
    rcases prefix_cons_iff.mp hq with rfl | ⟨q', rfl, hq'⟩
    · cases hr
    by_cases hqnil : q' = []
    · subst hqnil
      have hrecord : record = some r := by simpa [recordAt, Links.find?] using hr
      subst hrecord
      simpa using hfile
    · rw [recordAt_cons_self hqnil] at hr
      exact h q' r hq' (fun heq => hne (by rw [heq])) hr

theorem mem_emitted_cons {e : List String × Record} :
    e ∈ (Links.cons name record below rest).emitted ↔
      (∃ r, record = some r ∧ e = ([name], r)) ∨
        ((record.bind Record.file).isSome = false ∧
          ∃ d ∈ below.emitted, e = (name :: d.1, d.2)) ∨ e ∈ rest.emitted := by
  rw [Links.emitted, mem_append, mem_append, or_assoc]
  refine or_congr ?_ (or_congr_left ?_)
  · cases record <;> simp
  · split
    · next hfile => simp [hfile]
    · next hfile => simp only [mem_map, eq_comm, Bool.not_eq_true _ ▸ hfile, true_and]

theorem head_of_mem_emitted {e : List String × Record} (h : e ∈ links.emitted) :
    ∃ n q, e.1 = n :: q ∧ links.find? n ≠ none := by
  induction links with
  | nil => cases h
  | cons name record below rest _ ih =>
    rcases mem_emitted_cons.mp h with ⟨r, _, rfl⟩ | ⟨_, d, _, rfl⟩ | h
    · exact ⟨name, [], rfl, by simp [Links.find?]⟩
    · exact ⟨name, d.1, rfl, by simp [Links.find?]⟩
    · obtain ⟨n, q, hq, hn⟩ := ih h
      refine ⟨n, q, hq, ?_⟩
      rw [Links.find?]
      split
      · exact Option.some_ne_none _
      · exact hn

theorem nil_not_mem_emitted : ([], r) ∉ links.emitted := by
  intro h
  obtain ⟨n, q, hq, _⟩ := head_of_mem_emitted h
  cases hq

/-- **What is exported.**  The records with no contents above them. -/
theorem mem_emitted (h : Distinct links) :
    (p, r) ∈ links.emitted ↔ recordAt p links = some r ∧ Shown p links := by
  induction links generalizing p with
  | nil => simp [Links.emitted]
  | cons name record below rest ihb ihr =>
    obtain ⟨hname, hbelow, hrest⟩ := h
    cases p with
    | nil => exact iff_of_false nil_not_mem_emitted fun hr => by cases hr.1
    | cons n p =>
      rw [mem_emitted_cons]
      by_cases hn : n = name
      · subst hn
        have hnot : (n :: p, r) ∉ rest.emitted := by
          intro hmem
          obtain ⟨m, q, hq, hm⟩ := head_of_mem_emitted hmem
          cases hq
          exact hm hname
        by_cases hp : p = []
        · subst hp
          have hshown : Shown [n] (.cons n record below rest) := by
            intro q r' hq hne hr'
            rcases prefix_cons_iff.mp hq with rfl | ⟨q', rfl, hq'⟩
            · cases hr'
            · exact absurd (by rw [prefix_nil.mp hq']) hne
          have hchild : ([], r) ∉ below.emitted := nil_not_mem_emitted
          simp [hnot, hshown, hchild, recordAt, Links.find?]
        · rw [shown_cons_self hp, recordAt_cons_self hp, and_left_comm, ← ihb hbelow]
          simp [hnot, hp]
      · rw [recordAt_cons_ne hn, shown_cons_ne hn, ← ihr hrest]
        simp [hn]

theorem nodup_emitted (h : Distinct links) : (links.emitted.map Prod.fst).Nodup := by
  induction links with
  | nil => exact nodup_nil
  | cons name record below rest ihb ihr =>
    obtain ⟨hname, hbelow, hrest⟩ := h
    have hrecord : ((record.map fun r => ([name], r)).toList.map Prod.fst).Nodup := by
      cases record <;> simp
    have hchild : ((below.emitted.map fun e => (name :: e.1, e.2)).map Prod.fst).Nodup := by
      have hmap : (below.emitted.map fun e => (name :: e.1, e.2)).map Prod.fst =
          (below.emitted.map Prod.fst).map (cons name) := by simp
      rw [hmap]
      exact List.Nodup.map cons_injective (ihb hbelow)
    rw [Links.emitted, map_append, map_append]
    refine nodup_append.mpr ⟨nodup_append.mpr ⟨hrecord, ?_, ?_⟩, ihr hrest, ?_⟩
    · split
      · exact nodup_nil
      · exact hchild
    · -- a record below a node has a longer path
      rintro x hx y hy rfl
      obtain rfl : x = [name] := by cases record <;> simp_all
      split at hy
      · cases hy
      obtain ⟨⟨q, r⟩, hd, hq⟩ : ∃ d ∈ below.emitted, d.1 = [] := by simpa using hy
      exact nil_not_mem_emitted ((show q = [] from hq) ▸ hd)
    · -- the other records start with other names
      rintro x hx y hy rfl
      rw [← map_append] at hx
      obtain ⟨a, ha, rfl⟩ := mem_map.mp hx
      obtain ⟨b, hb, heq⟩ := mem_map.mp hy
      have hmem : a ∈ (Links.cons name record below .nil).emitted := by
        rwa [Links.emitted, Links.emitted, append_nil]
      obtain ⟨n, q, hq, hn⟩ := head_of_mem_emitted hmem
      obtain ⟨m, q', hq', hm⟩ := head_of_mem_emitted hb
      rw [hq, hq'] at heq
      cases heq
      have hhead : name = n := by simpa [Links.find?] using hn
      exact hm (hhead ▸ hname)

end Emitted

/-! ## The import -/

/-- The tree that the entries make. -/
def build (entries : List Entry) : Links := entries.foldl insertEntry .nil

/-- The path of an entry in the tree. -/
def Entry.stored (h : Entry) : List String := h.path.map escape

/-- **The order in which an archive comes back whole.**  No entry stands after one
below it, and those with entries below them have no contents. -/
def InOrder (entries : List Entry) : Prop :=
  entries.Pairwise fun e f => ¬ f.path <+: e.path ∧ (e.path <+: f.path → e.size = 0)

section Import

variable {entries : List Entry} {e f : Entry} {p : List String} {r : Record}

theorem stored_prefix_iff : e.stored <+: f.stored ↔ e.path <+: f.path :=
  prefix_map_iff_of_injective escape_injective

theorem stored_inj (h : e.stored = f.stored) : e.path = f.path :=
  map_injective_iff.mpr escape_injective h

/-- An entry as it is exported. -/
def Entry.placed (h : Entry) : List String × Record := (h.stored, h.record)

theorem nodup_placed (hnodup : (entries.map Entry.path).Nodup) :
    (entries.map Entry.placed).Nodup := by
  apply List.Nodup.of_map Prod.fst
  have hmap : (entries.map placed).map Prod.fst =
      (entries.map path).map (map escape) := by
    rw [map_map, map_map]
    apply map_congr_left
    intro e _
    rw [Function.comp_apply, Function.comp_apply, placed, stored]
  rw [hmap]
  exact hnodup.map (map_injective_iff.mpr escape_injective)

theorem insertEntry_eq (links : Links) (h : Entry) :
    insertEntry links h = insertNodeAtPath ⟨some h.record, .nil⟩ h.stored links := by
  have hnode : h.node = ⟨some h.record, .nil⟩ := rfl
  rw [insertEntry, splitList_escapePath, hnode, stored]

theorem build_append_singleton (entries : List Entry) (e : Entry) :
    build (entries ++ [e]) =
      insertNodeAtPath ⟨some e.record, .nil⟩ e.stored (build entries) := by
  rw [← insertEntry_eq]
  simp [build, foldl_append]

theorem distinct_build (entries : List Entry) : Distinct (build entries) := by
  induction entries using reverseRecOn with
  | nil => exact True.intro
  | append_singleton entries e ih =>
    rw [build_append_singleton]
    -- which path it is plays no part
    generalize e.stored = q
    generalize build entries = links at ih
    exact distinct_insertNodeAtPath ⟨some e.record, .nil⟩ True.intro q ih

theorem recordAt_build_append (entries : List Entry) (e : Entry) (p : List String) :
    recordAt p (build (entries ++ [e])) =
      if p = e.stored then some e.record
      else if e.stored <+: p then none else recordAt p (build entries) := by
  rw [build_append_singleton]
  have hne : e.stored ≠ [] := by simpa [stored] using path_ne_nil e
  exact recordAt_insertNodeAtPath e.record hne _ p

theorem exists_entry (h : recordAt p (build entries) = some r) :
    ∃ e ∈ entries, e.stored = p ∧ e.record = r := by
  induction entries using reverseRecOn with
  | nil =>
    rw [build, foldl_nil, recordAt_nil] at h
    cases h
  | append_singleton entries e ih =>
    rw [recordAt_build_append] at h
    split at h
    · rename_i hp
      exact ⟨e, by simp, hp.symm, Option.some.inj h⟩
    · split at h
      · cases h
      · obtain ⟨d, hd, hrest⟩ := ih h
        exact ⟨d, mem_append_left _ hd, hrest⟩

theorem recordAt_stored (before after : List Entry) (e : Entry)
    (hne : ∀ f ∈ after, f.path ≠ e.path) :
    recordAt e.stored (build (before ++ e :: after)) = some e.record ↔
      ∀ f ∈ after, ¬ f.path <+: e.path := by
  induction after using reverseRecOn with
  | nil =>
    rw [recordAt_build_append, if_pos rfl]
    simp
  | append_singleton after f ih =>
    have hf : e.stored ≠ f.stored := fun h => hne f (by simp) (stored_inj h.symm)
    have hrest := ih fun g hg => hne g (mem_append_left _ hg)
    rw [← cons_append, ← append_assoc, recordAt_build_append, if_neg hf,
      forall_mem_append, forall_mem_singleton]
    by_cases hpre : f.stored <+: e.stored
    · rw [if_pos hpre]
      refine iff_of_false nofun fun h => h.2 (stored_prefix_iff.mp hpre)
    · rw [if_neg hpre, hrest, ← stored_prefix_iff, and_iff_left hpre]

theorem file_record (h : Entry) : h.record.file = none ↔ h.size = 0 := by
  unfold record
  by_cases hsize : h.size > 0
  · simp [hsize]
    omega
  · simp [hsize]
    omega

theorem bytes_record (h : Entry) : h.record.bytes = h.bytes := by
  unfold Record.bytes record bytes
  by_cases hsize : h.size > 0
  · simp [hsize]
  · rw [if_neg hsize, h.data_eq_nil (by omega)]
    rfl

theorem length_bytes_pos (h : Entry) : 0 < h.bytes.length := by
  have hheader := length_pos_iff.mpr h.header_ne_nil
  rw [bytes, length_append]
  omega

theorem pairwise_iff_split {α : Type} {R : α → α → Prop} {l : List α} :
    l.Pairwise R ↔ ∀ l₁ a l₂, l = l₁ ++ a :: l₂ → ∀ b ∈ l₂, R a b := by
  constructor
  · rintro h l₁ a l₂ rfl b hb
    exact (pairwise_cons.mp (pairwise_append.mp h).2.1).1 b hb
  intro h
  induction l with
  | nil => exact List.Pairwise.nil
  | cons a rest ih =>
    refine pairwise_cons.mpr ⟨h [] a rest rfl, ih fun l₁ b l₂ heq => ?_⟩
    exact h (a :: l₁) b l₂ (by rw [heq, cons_append])

theorem path_ne_of_split (hnodup : (entries.map Entry.path).Nodup) {before after : List Entry}
    (hsplit : entries = before ++ e :: after) : ∀ f ∈ after, f.path ≠ e.path := by
  intro f hf heq
  rw [hsplit, map_append, map_cons] at hnodup
  have hcons := (nodup_append.mp hnodup).2.1
  exact (nodup_cons.mp hcons).1 (heq ▸ mem_map_of_mem hf)

/-- **All entries are exported exactly when they are in order.** -/
theorem emitted_iff_inOrder (hnodup : (entries.map Entry.path).Nodup) :
    (∀ e ∈ entries, (e.stored, e.record) ∈ (build entries).emitted) ↔ InOrder entries := by
  unfold InOrder
  rw [pairwise_iff_split]
  constructor
  · intro hall before e after hsplit f hf
    have he : e ∈ entries := by simp [hsplit]
    have hf' : f ∈ entries := by simp [hsplit, hf]
    have hne := path_ne_of_split hnodup hsplit
    obtain ⟨hrecord, _⟩ := (mem_emitted (distinct_build entries)).mp (hall e he)
    obtain ⟨_, hshown⟩ := (mem_emitted (distinct_build entries)).mp (hall f hf')
    refine ⟨?_, fun hpre => ?_⟩
    · rw [hsplit] at hrecord
      exact (recordAt_stored before after e hne).mp hrecord f hf
    · have hstored : e.stored ≠ f.stored := fun h => hne f hf (stored_inj h.symm)
      exact (file_record e).mp (hshown _ _ (stored_prefix_iff.mpr hpre) hstored hrecord)
  · intro hord e he
    obtain ⟨before, after, hsplit⟩ := append_of_mem he
    have hne := path_ne_of_split hnodup hsplit
    refine (mem_emitted (distinct_build entries)).mpr ⟨?_, ?_⟩
    · conv =>
        lhs
        rw [hsplit]
      exact (recordAt_stored before after e hne).mpr fun f hf => (hord before e after hsplit f hf).1
    intro q r hq hqne hr
    obtain ⟨g, hg, rfl, rfl⟩ := exists_entry hr
    have hpre := stored_prefix_iff.mp hq
    rw [hsplit] at hg
    rcases mem_append.mp hg with hg | hg
    · -- the entry above comes before
      obtain ⟨l₁, l₂, rfl⟩ := append_of_mem hg
      have hmem : e ∈ l₂ ++ e :: after := by simp
      have hcut : entries = l₁ ++ g :: (l₂ ++ e :: after) := by simp [hsplit]
      exact (file_record g).mpr ((hord l₁ g _ hcut e hmem).2 hpre)
    · rcases mem_cons.mp hg with rfl | hg
      · exact absurd rfl hqne
      · exact absurd hpre (hord before e after hsplit g hg).1

theorem importLoop_ok {fault : Nat → Option String} {n : Nat} {links₀ links : Links}
    (h : importLoop fault n entries links₀ = .ok links) :
    links = entries.foldl insertEntry links₀ := by
  induction entries generalizing n links₀ with
  | nil =>
    rw [importLoop] at h
    split at h
    · cases h
    · cases h
      rfl
  | cons e rest ih =>
    rw [importLoop] at h
    split at h
    · cases h
    · rw [foldl_cons]
      exact ih h

theorem importTar_ok {fault : Nat → Option String} {root : Root}
    (h : importTar fault entries = .ok root) :
    exportTar root = .ok (newReader (build entries)) := by
  unfold importTar at h
  cases hloop : importLoop fault 0 entries .nil with
  | error err =>
    rw [hloop] at h
    cases h
  | ok links =>
    rw [hloop] at h
    cases h
    rw [importLoop_ok hloop, exportTar, if_neg (not_not_intro rfl)]
    rfl

end Import

/-! ## The round trip -/

theorem perm_of_sum_eq {α : Type} {weight : α → Nat} {l l' : List α} (hsub : l.Subperm l')
    (hpos : ∀ a ∈ l', 0 < weight a) (hsum : (l.map weight).sum = (l'.map weight).sum) :
    l.Perm l' := by
  obtain ⟨k, hk, hkl'⟩ := hsub
  obtain ⟨t, ht⟩ := hkl'.exists_perm_append
  have htotal := (ht.map weight).sum_eq
  rw [map_append, sum_append, (hk.map weight).sum_eq, hsum] at htotal
  cases t with
  | nil =>
    rw [append_nil] at ht
    exact hk.symm.trans ht.symm
  | cons a t =>
    have ha := hpos a (ht.mem_iff.mpr (by simp))
    rw [map_cons, sum_cons] at htotal
    omega

theorem exists_perm_of_perm_map {α β : Type} {g : α → β} {l : List α} {l' : List β}
    (h : l'.Perm (l.map g)) : ∃ k : List α, k.Perm l ∧ k.map g = l' := by
  have himage : List.Forall₂ (fun b a => b = g a) (l.map g) l := by
    rw [forall₂_map_left_iff]
    exact forall₂_same.mpr fun a _ => rfl
  obtain ⟨k, hk, hperm⟩ := perm_comp_forall₂ h himage
  refine ⟨k, hperm, ?_⟩
  clear himage hperm h
  induction hk with
  | nil => rfl
  | cons hb _ ih => rw [map_cons, ih, hb]

/-- **The round trip.**  Of entries with different paths, `ExportTar` writes every
one once, with its header and its contents, exactly when they are in order. -/
theorem roundTrip_iff (fault : Nat → Option String) (entries : List Entry) (root : Root)
    (hnodup : (entries.map Entry.path).Nodup) (himport : importTar fault entries = .ok root) :
    (∃ (r : Reader) (order : List Entry), exportTar root = .ok r ∧ order.Perm entries ∧
      Streams r (order.flatMap Entry.bytes)) ↔ InOrder entries := by
  have hexport := importTar_ok himport
  have hbytes : (newReader (build entries)).bytes =
      (build entries).emitted.flatMap fun e => e.2.bytes := by
    rw [bytes_newReader, bytes_emitted]
  have hpart : (build entries).emitted.Subperm (entries.map placed) := by
    refine subperm_of_subset (List.Nodup.of_map _ (nodup_emitted (distinct_build entries))) ?_
    rintro ⟨p, r⟩ hmem
    obtain ⟨e, he, rfl, rfl⟩ := exists_entry ((mem_emitted (distinct_build entries)).mp hmem).1
    exact mem_map_of_mem he
  have hentry : ∀ order : List Entry,
      (order.map placed).flatMap (fun e => e.2.bytes) = order.flatMap bytes := by
    intro order
    rw [flatMap_map]
    simp only [placed, bytes_record]
  rw [← emitted_iff_inOrder hnodup]
  constructor
  · rintro ⟨r, order, hr, hperm, hstreams⟩ e he
    obtain rfl : newReader (build entries) = r := Except.ok.inj (hexport.symm.trans hr)
    have hsame := (hstreams _).mp ((streams_bytes _ _).mpr rfl)
    rw [hbytes, ← hentry] at hsame
    have hlen := congrArg length hsame
    rw [length_flatMap, length_flatMap] at hlen
    have htotal := ((hperm.map placed).map fun e => e.2.bytes.length).sum_eq
    have hall : (build entries).emitted.Perm (entries.map placed) := by
      refine perm_of_sum_eq hpart ?_ (hlen.trans htotal)
      intro a ha
      obtain ⟨e, _, rfl⟩ := mem_map.mp ha
      rw [placed, bytes_record]
      exact length_bytes_pos e
    exact hall.mem_iff.mpr (mem_map_of_mem he)
  · intro hall
    have hwhole : (entries.map placed).Subperm (build entries).emitted := by
      refine subperm_of_subset (nodup_placed hnodup) fun a ha => ?_
      obtain ⟨e, he, rfl⟩ := mem_map.mp ha
      exact hall e he
    obtain ⟨order, hperm, horder⟩ :=
      exists_perm_of_perm_map (hpart.perm_of_length_le hwhole.length_le)
    refine ⟨_, order, hexport, hperm, ?_⟩
    have hstreams := streams_bytes (newReader (build entries))
    rwa [hbytes, ← horder, hentry] at hstreams

theorem importLoop_of_no_fault (n : Nat) (entries : List Entry) (links : Links) :
    importLoop (fun _ => none) n entries links = .ok (entries.foldl insertEntry links) := by
  induction entries generalizing n links with
  | nil => rfl
  | cons e rest ih =>
    rw [importLoop, foldl_cons]
    exact ih (n + 1) (insertEntry links e)

theorem importTar_of_no_fault (entries : List Entry) :
    importTar (fun _ => none) entries = .ok ⟨ascii "ipfs/tar", build entries⟩ := by
  unfold importTar
  rw [importLoop_of_no_fault]
  rfl

/-- A directory, with one byte for its header. -/
def directory : Entry := ⟨"dir/", [1], 0, [], by decide, fun _ => rfl⟩

/-- A file in it. -/
def fileBelow : Entry := ⟨"dir/file", [2], 1, [3], by decide, nofun⟩

/-- A directory before the file in it comes back. -/
theorem roundTrip_directory_first :
    ([directory, fileBelow].map Entry.path).Nodup ∧
      ∃ root, importTar (fun _ => none) [directory, fileBelow] = .ok root ∧
        ∃ (r : Reader) (order : List Entry), exportTar root = .ok r ∧
          order.Perm [directory, fileBelow] ∧ Streams r (order.flatMap Entry.bytes) := by
  have hnodup : ([directory, fileBelow].map path).Nodup := by decide
  refine ⟨hnodup, _, importTar_of_no_fault _, ?_⟩
  refine (roundTrip_iff _ _ _ hnodup (importTar_of_no_fault _)).mpr ?_
  unfold InOrder
  decide

/-- **A directory after the file in it.**  The file is gone: only the header of
the directory is exported. -/
theorem directory_last_loses_file :
    ([fileBelow, directory].map Entry.path).Nodup ∧
      ∃ root r, importTar (fun _ => none) [fileBelow, directory] = .ok root ∧
        exportTar root = .ok r ∧ Streams r directory.bytes ∧
        ∀ order : List Entry, order.Perm [fileBelow, directory] →
          ¬ Streams r (order.flatMap Entry.bytes) := by
  have hroot := importTar_of_no_fault [fileBelow, directory]
  have hbuild : build [fileBelow, directory] = .cons "-dir" (some ⟨[1], none⟩) .nil .nil := by
    decide
  have hbytes : (newReader (build [fileBelow, directory])).bytes = directory.bytes := by
    decide
  have hstreams := streams_bytes (newReader (build [fileBelow, directory]))
  refine ⟨by decide, _, _, hroot, importTar_ok hroot, hstreams, ?_⟩
  intro order hperm hall
  have hsame : directory.bytes = order.flatMap bytes :=
    (hall _).mp ((hstreams _).mpr rfl)
  have hlen := (hperm.flatMap_right bytes).length_eq
  rw [← hsame] at hlen
  have hpos := length_bytes_pos fileBelow
  rw [flatMap_cons, flatMap_cons, flatMap_nil, append_nil, length_append] at hlen
  omega

end TarFormat
