import Mathlib.Data.List.TakeWhile

/-!
# Byte strings

Go strings as lists of bytes, with the ways to cut them that the `strings`
package offers: at the first and at the last occurrence of a byte.
-/

namespace GoBytes

open List

/-- A Go string. -/
abbrev Bytes := List UInt8

/-- The byte of an ASCII character. -/
def byte (c : Char) : UInt8 := UInt8.ofNat c.toNat

/-- The bytes of an ASCII text. -/
def ascii (s : String) : Bytes := s.toList.map byte

theorem forall_of_all {p : UInt8 → Prop} [DecidablePred p] {s : Bytes}
    (h : s.all (fun x => decide (p x)) = true) : ∀ x ∈ s, p x := by
  intro x hx
  exact of_decide_eq_true (all_eq_true.mp h x hx)

/-- The part before the first `sep`. -/
def before (sep : UInt8) (s : Bytes) : Bytes := s.takeWhile (· != sep)

/-- The part from the first `sep` on. -/
def startingAt (sep : UInt8) (s : Bytes) : Bytes := s.dropWhile (· != sep)

/-- The part after the first `sep`. -/
def after (sep : UInt8) (s : Bytes) : Bytes := (startingAt sep s).drop 1

/-- The part before the last `sep`. -/
def beforeLast (sep : UInt8) (s : Bytes) : Bytes := (after sep s.reverse).reverse

/-- The part after the last `sep`. -/
def afterLast (sep : UInt8) (s : Bytes) : Bytes := (before sep s.reverse).reverse

variable {sep : UInt8} {s a b : Bytes}

theorem before_of_not_mem (h : sep ∉ s) : before sep s = s := by
  apply takeWhile_eq_self_iff.mpr
  intro x hx
  simpa using fun heq : x = sep => h (heq ▸ hx)

theorem startingAt_of_not_mem (h : sep ∉ s) : startingAt sep s = [] := by
  apply dropWhile_eq_nil_iff.mpr
  intro x hx
  simpa using fun heq : x = sep => h (heq ▸ hx)

theorem after_of_not_mem (h : sep ∉ s) : after sep s = [] := by
  simp [after, startingAt_of_not_mem h]

theorem before_append (h : sep ∉ a) : before sep (a ++ sep :: b) = a := by
  have hall : ∀ x ∈ a, (x != sep) = true := by
    intro x hx
    simpa using fun heq : x = sep => h (heq ▸ hx)
  unfold before
  rw [takeWhile_append_of_pos hall]
  simp

theorem startingAt_append (h : sep ∉ a) : startingAt sep (a ++ sep :: b) = sep :: b := by
  have hall : ∀ x ∈ a, (x != sep) = true := by
    intro x hx
    simpa using fun heq : x = sep => h (heq ▸ hx)
  unfold startingAt
  rw [dropWhile_append_of_pos hall]
  simp

theorem after_append (h : sep ∉ a) : after sep (a ++ sep :: b) = b := by
  simp [after, startingAt_append h]

theorem afterLast_append (h : sep ∉ b) : afterLast sep (a ++ sep :: b) = b := by
  have hrev : (a ++ sep :: b).reverse = b.reverse ++ sep :: a.reverse := by simp
  unfold afterLast
  rw [hrev, before_append (by simpa using h), reverse_reverse]

theorem beforeLast_append (h : sep ∉ b) : beforeLast sep (a ++ sep :: b) = a := by
  have hrev : (a ++ sep :: b).reverse = b.reverse ++ sep :: a.reverse := by simp
  unfold beforeLast
  rw [hrev, after_append (by simpa using h), reverse_reverse]

theorem afterLast_of_not_mem (h : sep ∉ s) : afterLast sep s = s := by
  unfold afterLast
  rw [before_of_not_mem (by simpa using h), reverse_reverse]

theorem startingAt_head : startingAt sep s = [] ∨ (startingAt sep s).head? = some sep := by
  unfold startingAt
  induction s with
  | nil => exact .inl rfl
  | cons c s ih =>
    by_cases hc : c = sep
    · simp [hc]
    · simpa [hc] using ih

theorem exists_cut (h : sep ∈ s) : ∃ a b, s = a ++ sep :: b ∧ sep ∉ a :=
  eq_append_cons_of_mem h

theorem exists_cutLast (h : sep ∈ s) : ∃ a b, s = a ++ sep :: b ∧ sep ∉ b := by
  obtain ⟨b, a, heq, hb⟩ := exists_cut (mem_reverse.mpr h)
  refine ⟨a.reverse, b.reverse, ?_, by simpa using hb⟩
  have hrev := congrArg reverse heq
  simpa using hrev

theorem not_mem_of_mem_splitOn {α : Type} [BEq α] [LawfulBEq α] (x : α) (l : List α) :
    ∀ part ∈ l.splitOn x, x ∉ part := by
  unfold splitOn
  induction l with
  | nil => simp
  | cons c rest ih =>
    rw [splitOnP_cons_eq_if_modifyHead]
    split
    · rw [forall_mem_cons]
      exact ⟨not_mem_nil, ih⟩
    rename_i hc
    cases hsplit : splitOnP (· == x) rest with
    | nil => exact absurd hsplit (splitOnP_ne_nil _ rest)
    | cons part parts =>
      rw [hsplit, forall_mem_cons] at ih
      rw [modifyHead_cons, forall_mem_cons]
      refine ⟨?_, ih.2⟩
      rw [mem_cons, not_or]
      exact ⟨fun heq => hc (by simp [heq]), ih.1⟩

end GoBytes
