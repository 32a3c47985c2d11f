import Mathlib.Logic.Relation
import Mathlib.Data.Set.Basic

/-!
# Reachability along a link function

Nodes are the elements of an arbitrary type and `links` lists the targets of
the edges that leave a node.  `Reach` is the reflexive transitive closure, and
the one rule everything else uses is `Reach.mem_of_closed`: a set that is
closed under the links and contains a node contains all that node reaches.
-/

namespace LinkReach

variable {α : Type}

/-- `b` is reachable from `a` by following zero or more links. -/
def Reach (links : α → List α) : α → α → Prop :=
  Relation.ReflTransGen fun a b => b ∈ links a

/-- Following a link never leaves the set. -/
def Closed (links : α → List α) (S : Set α) : Prop :=
  ∀ a ∈ S, ∀ b ∈ links a, b ∈ S

variable {links links' : α → List α} {a b c : α}

theorem Reach.refl (a : α) : Reach links a a :=
  Relation.ReflTransGen.refl

theorem Reach.trans (hab : Reach links a b) (hbc : Reach links b c) : Reach links a c :=
  Relation.ReflTransGen.trans hab hbc

theorem Reach.of_link (h : b ∈ links a) : Reach links a b :=
  Relation.ReflTransGen.single h

theorem Reach.head (h : b ∈ links a) (hbc : Reach links b c) : Reach links a c :=
  Relation.ReflTransGen.head h hbc

theorem Reach.tail (hab : Reach links a b) (h : c ∈ links b) : Reach links a c :=
  Relation.ReflTransGen.tail hab h

theorem Reach.cases_head (h : Reach links a c) : a = c ∨ ∃ b ∈ links a, Reach links b c := by
  rcases Relation.ReflTransGen.cases_head h with heq | ⟨b, hb, hbc⟩
  · exact .inl heq
  · exact .inr ⟨b, hb, hbc⟩

/-- **Closure rule.**  A closed set contains all that its members reach. -/
theorem Reach.mem_of_closed {S : Set α} (hclosed : Closed links S)
    (ha : a ∈ S) (h : Reach links a b) : b ∈ S := by
  induction h with
  | refl => exact ha
  | tail _ hlink ih => exact hclosed _ ih _ hlink

theorem Reach.mono (hsub : ∀ a, ∀ b ∈ links a, b ∈ links' a)
    (h : Reach links a b) : Reach links' a b := by
  induction h with
  | refl => exact Reach.refl _
  | tail _ hlink ih => exact ih.tail (hsub _ _ hlink)

/-- Link functions that agree on what the roots reach reach the same. -/
theorem exists_reach_congr {roots : List α}
    (heq : ∀ a, (∃ r ∈ roots, Reach links r a) → links' a = links a) :
    (∃ r ∈ roots, Reach links' r b) ↔ ∃ r ∈ roots, Reach links r b := by
  refine exists_congr fun r => and_congr_right fun hr => ⟨fun h => ?_, fun h => ?_⟩
  · induction h with
    | refl => exact Reach.refl r
    | tail _ hlink ih => exact ih.tail (heq _ ⟨r, hr, ih⟩ ▸ hlink)
  · induction h with
    | refl => exact Reach.refl r
    | tail hreach hlink ih => exact ih.tail ((heq _ ⟨r, hr, hreach⟩).symm ▸ hlink)

end LinkReach
