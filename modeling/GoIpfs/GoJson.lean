import Mathlib.Data.List.Basic
import Mathlib.Data.String.Basic

/-!
# JSON values as Go reads and writes them

`Json` is a JSON text: an object lists its members in the order of the text,
and a name may occur twice.  A number is the text that `encoding/json` prints
for it.

Decoding into an `interface{}` gives maps instead of objects.  A Go map is an
object here too, with its names in increasing order: `setKey` stores into one,
and `canon` turns a text into the value that decoding gives, where the last
member of a name wins.  Encoding writes a map in the order of its names, so it
does nothing to a value in this form.
-/

namespace GoJson

open List Option

/-- A JSON text; numbers keep their digits. -/
inductive Json where
  | null
  | bool (b : Bool)
  | num (text : String)
  | str (s : String)
  | arr (items : List Json)
  | obj (members : List (String × Json))

abbrev Members := List (String × Json)

section Maps

variable {α : Type}

/-- `m[k] = v` for a Go map. -/
def setKey (k : String) (v : α) : List (String × α) → List (String × α)
  | [] => [(k, v)]
  | e :: rest =>
    if k = e.1 then (k, v) :: rest
    else if k < e.1 then (k, v) :: e :: rest
    else e :: setKey k v rest

@[simp] theorem lookup_cons (q : String) (e : String × α) (rest : List (String × α)) :
    (e :: rest).lookup q = if q = e.1 then some e.2 else rest.lookup q := by
  obtain ⟨k, v⟩ := e
  rw [List.lookup_cons]
  by_cases h : q = k
  · simp [h]
  · have hbeq : (q == k) = false := by simpa using h
    simp [hbeq, h]

/-- Setting a key, and reading any other one. -/
theorem lookup_setKey (q k : String) (v : α) (m : List (String × α)) :
    (setKey k v m).lookup q = if q = k then some v else m.lookup q := by
  induction m with
  | nil => simp [setKey]
  | cons e rest ih =>
    unfold setKey
    split
    · rename_i hk
      by_cases hq : q = k
      · simp [hq]
      · simp [hq, ← hk]
    split
    · by_cases hq : q = k
      · simp [hq]
      · simp [hq]
    · rename_i hk _
      by_cases hq : q = e.1
      · simp [hq, Ne.symm hk]
      · rw [lookup_cons, if_neg hq, ih, lookup_cons, if_neg hq]

theorem lookup_map_values {β : Type} (f : α → β) (es : List (String × α)) (k : String) :
    (es.map fun e => (e.1, f e.2)).lookup k = (es.lookup k).map f := by
  induction es with
  | nil => rfl
  | cons e rest ih =>
    rw [map_cons, lookup_cons, lookup_cons, ih]
    split <;> rfl

/-- Store all entries of one map into another. -/
def merge (base m : List (String × α)) : List (String × α) :=
  m.foldr (fun e acc => setKey e.1 e.2 acc) base

/-- The second map wins. -/
theorem lookup_merge (q : String) (base m : List (String × α)) :
    (merge base m).lookup q = (m.lookup q).or (base.lookup q) := by
  induction m with
  | nil => rfl
  | cons e rest ih =>
    show (setKey e.1 e.2 (merge base rest)).lookup q = _
    rw [lookup_setKey, ih, lookup_cons]
    split <;> rfl

end Maps

mutual

/-- The value that decoding a text into an `interface{}` gives. -/
def canon : Json → Json
  | .null => .null
  | .bool b => .bool b
  | .num text => .num text
  | .str s => .str s
  | .arr items => .arr (canonItems items)
  | .obj members => .obj (canonMembers members)

def canonItems : List Json → List Json
  | [] => []
  | j :: rest => canon j :: canonItems rest

/-- The map of an object; a later member of the same name wins. -/
def canonMembers : Members → Members
  | [] => []
  | (k, j) :: rest =>
    if ((canonMembers rest).lookup k).isSome then canonMembers rest
    else setKey k (canon j) (canonMembers rest)

end

/-- Of several members of one name the last one counts. -/
theorem lookup_canonMembers_cons (q k : String) (j : Json) (rest : Members) :
    (canonMembers ((k, j) :: rest)).lookup q =
      ((canonMembers rest).lookup q).or (if q = k then some (canon j) else none) := by
  rw [canonMembers]
  split
  · rename_i hsome
    by_cases hq : q = k
    · obtain ⟨v, hv⟩ := isSome_iff_exists.mp hsome
      rw [hq, hv]
      rfl
    · rw [if_neg hq, or_none]
  · rename_i hnone
    rw [lookup_setKey]
    by_cases hq : q = k
    · rw [hq, if_pos rfl, if_pos rfl, not_isSome_iff_eq_none.mp hnone]
      rfl
    · rw [if_neg hq, if_neg hq, or_none]

variable {members : Members} {k : String}

theorem lookup_canonMembers_of_not_mem {q : String} (h : q ∉ members.map Prod.fst) :
    (canonMembers members).lookup q = none := by
  induction members with
  | nil => rfl
  | cons e rest ih =>
    obtain ⟨k, j⟩ := e
    have hk : q ≠ k := fun heq => h (by simp [heq])
    have hrest : q ∉ rest.map Prod.fst := fun hmem => h (by simp [hmem])
    rw [lookup_canonMembers_cons, ih hrest, if_neg hk]
    rfl

/-- Sorting keeps members of distinct names. -/
theorem lookup_canonMembers_of_nodup (hnd : (members.map Prod.fst).Nodup) (q : String) :
    (canonMembers members).lookup q = (members.lookup q).map canon := by
  induction members with
  | nil => rfl
  | cons e rest ih =>
    obtain ⟨k, j⟩ := e
    rw [map_cons, nodup_cons] at hnd
    rw [lookup_canonMembers_cons, lookup_cons]
    by_cases hq : q = k
    · subst hq
      rw [lookup_canonMembers_of_not_mem hnd.1, if_pos rfl, if_pos rfl]
      rfl
    · rw [ih hnd.2, if_neg hq, if_neg hq, or_none]

/-- The names of a map increase. -/
def Increasing {α : Type} (m : List (String × α)) : Prop :=
  m.Pairwise fun a b => a.1 < b.1

mutual

/-- Every object in the value is a map. -/
def Canonical : Json → Prop
  | .arr items => CanonicalItems items
  | .obj members => Increasing members ∧ CanonicalMembers members
  | _ => True

def CanonicalItems : List Json → Prop
  | [] => True
  | j :: rest => Canonical j ∧ CanonicalItems rest

def CanonicalMembers : Members → Prop
  | [] => True
  | (_, j) :: rest => Canonical j ∧ CanonicalMembers rest

end

theorem canonicalMembers_iff : CanonicalMembers members ↔ ∀ e ∈ members, Canonical e.2 := by
  induction members with
  | nil => simp [CanonicalMembers]
  | cons e rest ih =>
    simp [CanonicalMembers, ih]

section Increasing

variable {α : Type} {k : String} {v : α} {m : List (String × α)}

theorem mem_setKey {e : String × α} (h : e ∈ setKey k v m) : e = (k, v) ∨ e ∈ m := by
  induction m with
  | nil => exact .inl (mem_singleton.mp h)
  | cons head rest ih =>
    unfold setKey at h
    split at h
    · exact (mem_cons.mp h).imp_right (mem_cons_of_mem head)
    · split at h
      · exact mem_cons.mp h
      · rcases mem_cons.mp h with rfl | hrest
        · exact .inr mem_cons_self
        · exact (ih hrest).imp_right (mem_cons_of_mem head)

/-- A key is set in its place. -/
theorem increasing_setKey (k : String) (v : α) (h : Increasing m) : Increasing (setKey k v m) := by
  induction m with
  | nil => exact pairwise_singleton _ _
  | cons head rest ih =>
    obtain ⟨hhead, hrest⟩ := pairwise_cons.mp h
    unfold setKey
    split
    · rename_i hk
      exact pairwise_cons.mpr ⟨fun e he => hk ▸ hhead e he, hrest⟩
    split
    · rename_i hlt
      refine pairwise_cons.mpr ⟨fun e he => ?_, h⟩
      rcases mem_cons.mp he with rfl | he
      · exact hlt
      · exact lt_trans hlt (hhead e he)
    · rename_i hne hnlt
      refine pairwise_cons.mpr ⟨fun e he => ?_, ih hrest⟩
      rcases mem_setKey he with rfl | he
      · exact lt_of_le_of_ne (not_lt.mp hnlt) (Ne.symm hne)
      · exact hhead e he

theorem setKey_of_lt (h : ∀ e ∈ m, k < e.1) : setKey k v m = (k, v) :: m := by
  cases m with
  | nil => rfl
  | cons head rest =>
    have hlt := h head mem_cons_self
    rw [setKey, if_neg (ne_of_lt hlt), if_pos hlt]

theorem lookup_eq_none_of_lt (h : ∀ e ∈ m, k < e.1) : m.lookup k = none := by
  induction m with
  | nil => rfl
  | cons head rest ih =>
    rw [lookup_cons, if_neg (ne_of_lt (h head mem_cons_self))]
    exact ih fun e he => h e (mem_cons_of_mem _ he)

/-- Setting what is there changes nothing. -/
theorem setKey_of_lookup (hm : Increasing m) (h : m.lookup k = some v) : setKey k v m = m := by
  induction m with
  | nil => cases h
  | cons head rest ih =>
    obtain ⟨hhead, hrest⟩ := pairwise_cons.mp hm
    rw [lookup_cons] at h
    rw [setKey]
    split at h
    · rename_i hk
      subst hk
      cases h
      exact if_pos rfl
    · rename_i hne
      have hge : ¬ k < head.1 := by
        intro hlt
        rw [lookup_eq_none_of_lt fun e he => lt_trans hlt (hhead e he)] at h
        cases h
      rw [if_neg hne, if_neg hge, ih hrest h]

theorem Increasing.nodup (h : Increasing m) : (m.map Prod.fst).Nodup :=
  pairwise_map.mpr (h.imp fun hlt => ne_of_lt hlt)

theorem lookup_eq_none_of_not_mem (h : k ∉ m.map Prod.fst) : m.lookup k = none := by
  refine lookup_eq_none_iff.mpr fun e he => ?_
  have hne : k ≠ e.1 := fun heq => h (heq ▸ mem_map_of_mem he)
  simpa using hne

theorem mem_of_lookup_eq_some (h : m.lookup k = some v) : k ∈ m.map Prod.fst := by
  by_contra hnot
  rw [lookup_eq_none_of_not_mem hnot] at h
  cases h

theorem lookup_eq_some_of_mem (hnodup : (m.map Prod.fst).Nodup) (h : (k, v) ∈ m) :
    m.lookup k = some v := by
  induction m with
  | nil => cases h
  | cons head rest ih =>
    rw [map_cons, nodup_cons] at hnodup
    rw [lookup_cons]
    rcases mem_cons.mp h with rfl | hrest
    · rw [if_pos rfl]
    · have hne : k ≠ head.1 := fun heq => hnodup.1 (heq ▸ mem_map_of_mem hrest)
      rw [if_neg hne]
      exact ih hnodup.2 hrest

end Increasing

mutual

theorem canonical_canon : ∀ j : Json, Canonical (canon j)
  | .null => True.intro
  | .bool _ => True.intro
  | .num _ => True.intro
  | .str _ => True.intro
  | .arr items => by
      rw [canon, Canonical]
      exact canonicalItems_canonItems items
  | .obj members => by
      rw [canon, Canonical]
      exact ⟨increasing_canonMembers members, canonicalMembers_canonMembers members⟩

theorem canonicalItems_canonItems : ∀ items : List Json, CanonicalItems (canonItems items)
  | [] => True.intro
  | j :: rest => by
      rw [canonItems, CanonicalItems]
      exact ⟨canonical_canon j, canonicalItems_canonItems rest⟩

theorem canonicalMembers_canonMembers : ∀ members : Members, CanonicalMembers (canonMembers members)
  | [] => True.intro
  | (k, j) :: rest => by
      have hrest := canonicalMembers_canonMembers rest
      rw [canonMembers]
      split
      · exact hrest
      · refine canonicalMembers_iff.mpr fun e he => ?_
        rcases mem_setKey he with rfl | he
        · exact canonical_canon j
        · exact canonicalMembers_iff.mp hrest e he

theorem increasing_canonMembers : ∀ members : Members, Increasing (canonMembers members)
  | [] => List.Pairwise.nil
  | (k, j) :: rest => by
      rw [canonMembers]
      split
      · exact increasing_canonMembers rest
      · exact increasing_setKey k (canon j) (increasing_canonMembers rest)

end

mutual

/-- Sorted texts stay as they are. -/
theorem canon_eq_self : ∀ {j : Json}, Canonical j → canon j = j
  | .null, _ => rfl
  | .bool _, _ => rfl
  | .num _, _ => rfl
  | .str _, _ => rfl
  | .arr items, h => by
      rw [canon, canonItems_eq_self (by simpa only [Canonical] using h)]
  | .obj members, h => by
      obtain ⟨hinc, hmem⟩ : Increasing members ∧ CanonicalMembers members := by
        simpa only [Canonical] using h
      rw [canon, canonMembers_eq_self hinc hmem]

theorem canonItems_eq_self : ∀ {items : List Json}, CanonicalItems items → canonItems items = items
  | [], _ => rfl
  | j :: rest, h => by
      obtain ⟨hj, hrest⟩ : Canonical j ∧ CanonicalItems rest := by
        simpa only [CanonicalItems] using h
      rw [canonItems, canon_eq_self hj, canonItems_eq_self hrest]

theorem canonMembers_eq_self : ∀ {members : Members}, Increasing members →
    CanonicalMembers members → canonMembers members = members
  | [], _, _ => rfl
  | (k, j) :: rest, hinc, h => by
      obtain ⟨hhead, htail⟩ := pairwise_cons.mp hinc
      obtain ⟨hj, hrest⟩ : Canonical j ∧ CanonicalMembers rest := by
        simpa only [CanonicalMembers] using h
      have hnone := lookup_eq_none_of_lt hhead
      rw [canonMembers, canonMembers_eq_self htail hrest, canon_eq_self hj, hnone]
      exact setKey_of_lt hhead

end

variable {j : Json} {m : Members}

theorem canonicalMembers_setKey (hj : Canonical j) (hm : CanonicalMembers m) :
    CanonicalMembers (setKey k j m) := by
  refine canonicalMembers_iff.mpr fun e he => ?_
  rcases mem_setKey he with rfl | he
  · exact hj
  · exact canonicalMembers_iff.mp hm e he

theorem canonical_obj :
    Canonical (.obj members) ↔ Increasing members ∧ CanonicalMembers members := by
  rw [Canonical]

theorem canonical_setKey (hj : Canonical j) (hm : Canonical (.obj m)) :
    Canonical (.obj (setKey k j m)) := by
  obtain ⟨hinc, hmem⟩ := canonical_obj.mp hm
  exact canonical_obj.mpr ⟨increasing_setKey k j hinc, canonicalMembers_setKey hj hmem⟩

theorem canonical_canonMembers (members : Members) : Canonical (.obj (canonMembers members)) :=
  canonical_obj.mpr ⟨increasing_canonMembers members, canonicalMembers_canonMembers members⟩

theorem canonMembers_of_canonical (h : Canonical (.obj members)) :
    canonMembers members = members := by
  obtain ⟨hinc, hmem⟩ := canonical_obj.mp h
  exact canonMembers_eq_self hinc hmem

/-- The members of a sorted text are sorted. -/
theorem canonical_lookup (hm : Canonical (.obj m)) (h : m.lookup k = some j) : Canonical j := by
  obtain ⟨before, after, heq, _⟩ := lookup_eq_some_iff.mp h
  refine canonicalMembers_iff.mp (canonical_obj.mp hm).2 (k, j) ?_
  rw [heq]
  exact mem_append_right _ mem_cons_self

/-- Merging keeps a text sorted. -/
theorem canonical_merge {base : Members} (hbase : Canonical (.obj base)) (hm : CanonicalMembers m) :
    Canonical (.obj (merge base m)) := by
  induction m with
  | nil => exact hbase
  | cons e rest ih =>
    exact canonical_setKey hm.1 (ih hm.2)

end GoJson
