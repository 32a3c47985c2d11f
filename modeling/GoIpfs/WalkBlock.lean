import GoIpfs.FiniteDag
import Mathlib.Algebra.GroupWithZero.Nat

/-!
# The local part of a DAG

`files stat --with-local` walks the blocks below a node as far as they are present
and adds up their sizes.  A block that several links lead to is counted once for
each path, as it is in the sizes that the links record.
-/

namespace WalkBlock

open LinkReach FiniteDag List

variable {α : Type}

structure Link (α : Type) where
  cid : α
  size : Nat
  deriving DecidableEq, Repr

/-- `ipld.Node`, with the length of its raw data. -/
structure Node (α : Type) where
  rawSize : Nat
  links : List (Link α)
  deriving DecidableEq, Repr

inductive GetError where
  | errNotFound
  | other (msg : String)
  deriving DecidableEq, Repr

/-- What `walkBlock` returns. -/
structure Walked where
  isLocal : Bool
  sizeLocal : Nat
  err : Option String
  deriving DecidableEq, Repr

/-- The loop of `walkBlock`. -/
def walkLinks (get : α → Except GetError (Node α)) (walk : Node α → Walked) :
    List (Link α) → Bool → Nat → Walked
  | [], isLocal, sizeLocal => ⟨isLocal, sizeLocal, none⟩
  | link :: rest, isLocal, sizeLocal =>
    match get link.cid with
    | .error .errNotFound => walkLinks get walk rest false sizeLocal
    | .error (.other msg) => ⟨isLocal, sizeLocal, some msg⟩
    | .ok child =>
      match walk child with
      | ⟨_, _, some msg⟩ => ⟨isLocal, sizeLocal, some msg⟩
      | ⟨childLocal, childLocalSize, none⟩ =>
        walkLinks get walk rest (isLocal && childLocal) ((sizeLocal + childLocalSize) % 2 ^ 64)

/-- `walkBlock`, to a depth that the fuel bounds. -/
def walkBlock (get : α → Except GetError (Node α)) : Nat → Node α → Walked
  | 0, _ => ⟨true, 0, some "too deep"⟩
  | fuel + 1, nd => walkLinks get (walkBlock get fuel) nd.links true (nd.rawSize % 2 ^ 64)

/-- A node's own bytes and the recorded sizes of its links. -/
def Node.cumulative (nd : Node α) : Nat := nd.rawSize + (nd.links.map Link.size).sum

section Local

variable (node : α → Node α)

def targets (a : α) : List α := (node a).links.map Link.cid

/-- A DAG service of which some blocks are present and nothing else fails. -/
def service (present : α → Bool) (a : α) : Except GetError (Node α) :=
  if present a then .ok (node a) else .error .errNotFound

/-- Every block that is reachable is present. -/
def Complete (present : α → Bool) (a : α) : Prop := ∀ b, Reach (targets node) a b → present b = true

/-- Every link records the cumulative size of its target. -/
def Recorded : Prop := ∀ a, ∀ link ∈ (node a).links, link.size = (node link.cid).cumulative

variable {node} {present : α → Bool} {a : α}

theorem complete_iff : Complete node present a ↔
    present a = true ∧ ∀ link ∈ (node a).links, Complete node present link.cid := by
  constructor
  · intro h
    exact ⟨h a (Reach.refl a), fun link hlink b hb =>
      h b (Reach.head (mem_map_of_mem hlink) hb)⟩
  · rintro ⟨ha, hlinks⟩ b hb
    rcases hb.cases_head with rfl | ⟨c, hc, hcb⟩
    · exact ha
    · obtain ⟨link, hlink, rfl⟩ := mem_map.mp hc
      exact hlinks link hlink b hcb

/-- What the walk of a node is to return. -/
def Measures (node : α → Node α) (present : α → Bool) (a : α) (w : Walked) : Prop :=
  w.err = none ∧ (w.isLocal = true ↔ Complete node present a) ∧
    (Recorded node → (node a).cumulative < 2 ^ 64 →
      w.sizeLocal ≤ (node a).cumulative ∧
        (w.isLocal = true → w.sizeLocal = (node a).cumulative))

theorem walkLinks_present {get : α → Except GetError (Node α)} {walk : Node α → Walked}
    {link : Link α} {rest : List (Link α)} {isLocal : Bool} {size : Nat} {child : Node α}
    (hget : get link.cid = .ok child) (herr : (walk child).err = none) :
    walkLinks get walk (link :: rest) isLocal size =
      walkLinks get walk rest (isLocal && (walk child).isLocal)
        ((size + (walk child).sizeLocal) % 2 ^ 64) := by
  rcases hw : walk child with ⟨childLocal, childLocalSize, err⟩
  rw [hw] at herr
  cases herr
  simp [walkLinks, hget, hw]

/-- The loop, whatever it has found before. -/
theorem walkLinks_measures {walk : Node α → Walked} {links : List (Link α)}
    (hwalk : ∀ link ∈ links, present link.cid = true →
      Measures node present link.cid (walk (node link.cid)))
    (hsize : Recorded node → ∀ link ∈ links, link.size = (node link.cid).cumulative)
    (isLocal : Bool) (size : Nat) {w : Walked}
    (hw : walkLinks (service node present) walk links isLocal size = w) :
    w.err = none ∧
      (w.isLocal = true ↔ isLocal = true ∧ ∀ link ∈ links, Complete node present link.cid) ∧
      (Recorded node → size + (links.map Link.size).sum < 2 ^ 64 →
        w.sizeLocal ≤ size + (links.map Link.size).sum ∧
          (w.isLocal = true → w.sizeLocal = size + (links.map Link.size).sum)) := by
  induction links generalizing isLocal size with
  | nil =>
    subst hw
    simp [walkLinks]
  | cons link rest ih =>
    have hrest := ih (fun l hl => hwalk l (mem_cons_of_mem _ hl))
      fun hrec l hl => hsize hrec l (mem_cons_of_mem _ hl)
    cases hpresent : present link.cid with
    | false =>
      rw [walkLinks, service, hpresent, if_neg Bool.false_ne_true] at hw
      obtain ⟨herr, hlocal, hle⟩ := hrest false size hw
      have hmissing : ¬ Complete node present link.cid := fun h => by
        simpa [hpresent] using h _ (Reach.refl _)
      have hfalse : w.isLocal = false := by simpa using hlocal
      refine ⟨herr, by simp [hfalse, hmissing], fun hrec hlt => ?_⟩
      rw [map_cons, sum_cons] at hlt ⊢
      have := (hle hrec (by omega)).1
      exact ⟨by omega, by simp [hfalse]⟩
    | true =>
      obtain ⟨hchild, hchildLocal, hchildSize⟩ := hwalk link mem_cons_self hpresent
      have hget : service node present link.cid = .ok (node link.cid) := by
        simp [service, hpresent]
      rw [walkLinks_present hget hchild] at hw
      obtain ⟨herr, hlocal, hle⟩ := hrest _ _ hw
      refine ⟨herr, ?_, fun hrec hlt => ?_⟩
      · rw [hlocal, Bool.and_eq_true, hchildLocal, forall_mem_cons, and_assoc]
      rw [map_cons, sum_cons] at hlt ⊢
      have hlink := hsize hrec link mem_cons_self
      obtain ⟨hchildLe, hchildEq⟩ := hchildSize hrec (by omega)
      rw [Nat.mod_eq_of_lt (by omega)] at hle
      obtain ⟨hle, heq⟩ := hle hrec (by omega)
      refine ⟨by omega, fun hw => ?_⟩
      have hboth := (hlocal.mp hw).1
      rw [Bool.and_eq_true] at hboth
      rw [heq hw, hchildEq hboth.2]
      omega

/-- **The local part of a DAG**: the walk returns, it reports a local DAG exactly
when every reachable block is present, and its size is at most the cumulative one,
and equal to it for a local DAG. -/
theorem walkBlock_measures {rank : α → Nat} (hrank : Ranked (targets node) rank)
    (hroot : present a = true) {fuel : Nat} (hfuel : rank a < fuel) :
    Measures node present a (walkBlock (service node present) fuel (node a)) := by
  induction fuel generalizing a with
  | zero => omega
  | succ fuel ih =>
    have hbelow : ∀ link ∈ (node a).links, present link.cid = true →
        Measures node present link.cid (walkBlock (service node present) fuel (node link.cid)) := by
      intro link hlink hpresent
      have hlt := hrank a link.cid (mem_map_of_mem hlink)
      exact ih hpresent (by omega)
    obtain ⟨herr, hlocal, hle⟩ := walkLinks_measures hbelow (fun hrec => hrec a) true
      ((node a).rawSize % 2 ^ 64) rfl
    refine ⟨herr, ?_, fun hrec hlt => ?_⟩
    · rw [complete_iff, walkBlock, hlocal]
      simp [hroot]
    · have hraw : (node a).rawSize ≤ (node a).cumulative := Nat.le_add_right _ _
      rw [Nat.mod_eq_of_lt (by omega)] at hle
      rw [walkBlock, Nat.mod_eq_of_lt (by omega)]
      exact hle hrec hlt

/-- A node with two links to one leaf, counted twice. -/
def twice (a : Nat) : Node Nat := if a = 0 then ⟨10, [⟨1, 5⟩, ⟨1, 5⟩]⟩ else ⟨5, []⟩

theorem walkBlock_measures_twice :
    Measures twice (fun _ => true) 0
      (walkBlock (service twice fun _ => true) 2 (twice 0)) := by
  have hrank : Ranked (targets twice) fun a => if a = 0 then 1 else 0 := by
    intro a b hb
    by_cases ha : a = 0
    · subst ha
      obtain rfl : b = 1 := by simpa [targets, twice] using hb
      decide
    · simp [targets, twice, ha] at hb
  exact walkBlock_measures hrank rfl (by decide)

end Local

end WalkBlock
