import GoIpfs.LinkReach
import Mathlib.Data.Set.Card

/-!
# Finite acyclic graphs

A finite graph without cycles is given by its link function and a rank that
every link lowers; a recursion along the links then needs no more fuel than
the rank of the node it starts from.  `Path` counts the links of a walk, and
`Summary` is a value that each node gets from the values of the nodes it links
to, computed with and without a memo.
-/

namespace FiniteDag

open LinkReach

variable {α β : Type}

/-- Every link leads to a node of smaller rank. -/
def Ranked (links : α → List α) (rank : α → Nat) : Prop :=
  ∀ a, ∀ b ∈ links a, rank b < rank a

variable {links : α → List α}

/-- **A finite graph without cycles has a rank**: the number of nodes below. -/
theorem exists_ranked [Finite α]
    (hacyclic : ∀ a, ¬ Relation.TransGen (fun a b => b ∈ links a) a a) :
    ∃ rank, Ranked links rank := by
  refine ⟨fun a => {c | Relation.TransGen (fun a b => b ∈ links a) a c}.ncard, ?_⟩
  intro a b hb
  apply Set.ncard_lt_ncard _ (Set.toFinite _)
  constructor
  · intro c hc
    exact Relation.TransGen.head hb hc
  · intro hsub
    exact hacyclic b (hsub (Relation.TransGen.single hb))

/-- A walk along exactly `k` links. -/
def Path (links : α → List α) : Nat → α → α → Prop
  | 0, a, b => a = b
  | k + 1, a, b => ∃ m ∈ links a, Path links k m b

/-! ## Summaries -/

/-- A value for each node.  A node is settled at once, or it names the nodes
whose values are merged into its own start value, from left to right. -/
structure Summary (α β : Type) where
  expand : α → Except β (List α)
  start : α → β
  merge : β → β → β

variable {f : α → β}

namespace Summary

/-- The value of a node, given the values of the nodes it names. -/
def combine (S : Summary α β) (a : α) (f : α → β) : β :=
  match S.expand a with
  | .error b => b
  | .ok below => below.foldl (fun acc x => S.merge acc (f x)) (S.start a)

/-- The value of a node, computed from scratch. -/
def value (S : Summary α β) : Nat → α → β
  | 0, a => S.combine a S.start
  | fuel + 1, a => S.combine a (S.value fuel)

/-- Every node that is named has a smaller rank. -/
def Lowers (S : Summary α β) (rank : α → Nat) : Prop :=
  ∀ a below, S.expand a = .ok below → ∀ b ∈ below, rank b < rank a

/-- The value with as much fuel as the rank demands. -/
def valueOf (S : Summary α β) (rank : α → Nat) (a : α) : β := S.value (rank a) a

variable {S : Summary α β} {rank : α → Nat} {a : α}

theorem combine_error {b : β} (h : S.expand a = .error b) : S.combine a f = b := by
  simp [combine, h]

theorem combine_ok {below : List α} (h : S.expand a = .ok below) :
    S.combine a f = below.foldl (fun acc x => S.merge acc (f x)) (S.start a) := by
  simp [combine, h]

theorem combine_congr {g : α → β} (h : ∀ below, S.expand a = .ok below → ∀ x ∈ below, f x = g x) :
    S.combine a f = S.combine a g := by
  cases hexp : S.expand a with
  | error b => rw [combine_error hexp, combine_error hexp]
  | ok below =>
    rw [combine_ok hexp, combine_ok hexp]
    apply List.foldl_ext
    intro acc x hx
    rw [h below hexp x hx]

theorem value_stable (hrank : S.Lowers rank) {m n : Nat}
    (hm : rank a ≤ m) (hn : rank a ≤ n) : S.value m a = S.value n a := by
  induction m generalizing n a with
  | zero =>
    -- a node of rank zero names no node
    have hleaf : ∀ below, S.expand a = .ok below → ∀ x ∈ below, False := by
      intro below hexp x hx
      have hlt := hrank a below hexp x hx
      omega
    cases n with
    | zero => rfl
    | succ n => exact combine_congr fun below hexp x hx => (hleaf below hexp x hx).elim
  | succ m ih =>
    cases n with
    | zero =>
      apply combine_congr
      intro below hexp x hx
      have hlt := hrank a below hexp x hx
      omega
    | succ n =>
      apply combine_congr
      intro below hexp x hx
      have hlt := hrank a below hexp x hx
      exact ih (by omega) (by omega)

/-- **The equation of a summary.** -/
theorem valueOf_eq (hrank : S.Lowers rank) (a : α) :
    S.valueOf rank a = S.combine a (S.valueOf rank) := by
  have hstep : S.valueOf rank a = S.value (rank a + 1) a :=
    value_stable hrank (Nat.le_refl _) (Nat.le_succ _)
  rw [hstep]
  apply combine_congr
  intro below hexp x hx
  have hlt := hrank a below hexp x hx
  exact value_stable hrank (by omega) (Nat.le_refl _)

theorem foldl_merge_all {good : β → Prop}
    (hmerge : ∀ b c, good (S.merge b c) ↔ good b ∧ good c) (f : α → β) (xs : List α) (b : β) :
    good (xs.foldl (fun acc x => S.merge acc (f x)) b) ↔ good b ∧ ∀ x ∈ xs, good (f x) := by
  induction xs generalizing b with
  | nil => simp
  | cons x rest ih =>
    rw [List.foldl_cons, ih, hmerge, List.forall_mem_cons, and_assoc]

/-- **Conjunctions.**  If `S` settles exactly the nodes without `P` as bad and
merges by conjunction, a good value says that all reachable nodes have `P`. -/
theorem valueOf_all_iff (P : α → Prop) (good : β → Prop) (hrank : S.Lowers rank)
    (hsettled : ∀ a b, S.expand a = .error b → ¬ good b ∧ ¬ P a)
    (hnamed : ∀ a below, S.expand a = .ok below → P a ∧ below = links a)
    (hstart : ∀ a, good (S.start a))
    (hmerge : ∀ b c, good (S.merge b c) ↔ good b ∧ good c) (a : α) :
    good (S.valueOf rank a) ↔ ∀ x, Reach links a x → P x := by
  induction hn : rank a using Nat.strongRecOn generalizing a with
  | ind n ih =>
    rw [valueOf_eq hrank a]
    cases hexp : S.expand a with
    | error b =>
      rw [combine_error hexp]
      obtain ⟨hb, hP⟩ := hsettled a b hexp
      constructor
      · exact fun h => absurd h hb
      · exact fun h => absurd (h a (Reach.refl a)) hP
    | ok below =>
      rw [combine_ok hexp, foldl_merge_all hmerge]
      obtain ⟨hP, rfl⟩ := hnamed a below hexp
      have hbelow : ∀ x ∈ links a, good (S.valueOf rank x) ↔ ∀ y, Reach links x y → P y := by
        intro x hx
        have hlt := hrank a _ hexp x hx
        exact ih (rank x) (by omega) x rfl
      constructor
      · intro h x hx
        rcases hx.cases_head with rfl | ⟨y, hy, hyx⟩
        · exact hP
        · exact (hbelow y hy).mp (h.2 y hy) x hyx
      · intro h
        refine ⟨hstart a, fun x hx => (hbelow x hx).mpr ?_⟩
        exact fun y hxy => h y (Reach.head hx hxy)

section memo

variable [DecidableEq α]

/-- Merge the values of a list of nodes, handing the memo on. -/
def mergeAll (S : Summary α β) (visit : α → (α → Option β) → β × (α → Option β)) :
    List α → β → (α → Option β) → β × (α → Option β)
  | [], acc, memo => (acc, memo)
  | x :: rest, acc, memo =>
    mergeAll S visit rest (S.merge acc (visit x memo).1) (visit x memo).2

/-- Consult the memo, and otherwise settle the node or go `below`. -/
def lookup (S : Summary α β) (a : α) (memo : α → Option β)
    (below : List α → (α → Option β) → β × (α → Option β)) : β × (α → Option β) :=
  match memo a with
  | some b => (b, memo)
  | none =>
    match S.expand a with
    | .error b => (b, Function.update memo a (some b))
    | .ok xs => ((below xs memo).1, Function.update (below xs memo).2 a (some (below xs memo).1))

/-- The value of a node, computed with a memo. -/
def visit (S : Summary α β) : Nat → α → (α → Option β) → β × (α → Option β)
  | 0, a, memo => S.lookup a memo fun _ memo => (S.start a, memo)
  | fuel + 1, a, memo =>
    S.lookup a memo fun below memo => S.mergeAll (S.visit fuel) below (S.start a) memo

/-- The memo only holds values. -/
def Sound (S : Summary α β) (rank : α → Nat) (memo : α → Option β) : Prop :=
  ∀ a b, memo a = some b → b = S.valueOf rank a

variable {memo : α → Option β}

theorem Sound.update (h : S.Sound rank memo) :
    S.Sound rank (Function.update memo a (some (S.valueOf rank a))) := by
  intro x b hx
  by_cases hxa : x = a
  · subst hxa
    rw [Function.update_self] at hx
    exact (Option.some.inj hx).symm
  · rw [Function.update_of_ne hxa] at hx
    exact h x b hx

omit [DecidableEq α] in
theorem mergeAll_spec {visit : α → (α → Option β) → β × (α → Option β)} (xs : List α)
    (hvisit : ∀ x ∈ xs, ∀ memo, S.Sound rank memo →
      (visit x memo).1 = S.valueOf rank x ∧ S.Sound rank (visit x memo).2)
    (acc : β) (memo : α → Option β) (h : S.Sound rank memo) :
    (S.mergeAll visit xs acc memo).1 =
        xs.foldl (fun acc x => S.merge acc (S.valueOf rank x)) acc ∧
      S.Sound rank (S.mergeAll visit xs acc memo).2 := by
  induction xs generalizing acc memo with
  | nil => exact ⟨rfl, h⟩
  | cons x rest ih =>
    obtain ⟨hval, hsound⟩ := hvisit x List.mem_cons_self memo h
    unfold mergeAll
    rw [hval]
    exact ih (fun y hy => hvisit y (List.mem_cons_of_mem x hy)) _ _ hsound

theorem lookup_spec (hrank : S.Lowers rank) (h : S.Sound rank memo)
    {below : List α → (α → Option β) → β × (α → Option β)}
    (hbelow : ∀ xs, S.expand a = .ok xs →
      (below xs memo).1 =
          xs.foldl (fun acc x => S.merge acc (S.valueOf rank x)) (S.start a) ∧
        S.Sound rank (below xs memo).2) :
    (S.lookup a memo below).1 = S.valueOf rank a ∧
      S.Sound rank (S.lookup a memo below).2 := by
  have heq := valueOf_eq hrank a
  unfold lookup
  cases hmemo : memo a with
  | some b => exact ⟨h a b hmemo, h⟩
  | none =>
    cases hexp : S.expand a with
    | error b =>
      rw [combine_error hexp] at heq
      rw [← heq]
      exact ⟨rfl, h.update⟩
    | ok xs =>
      rw [combine_ok hexp] at heq
      obtain ⟨hval, hsound⟩ := hbelow xs hexp
      have hval : (below xs memo).1 = S.valueOf rank a := hval.trans heq.symm
      dsimp only
      rw [hval]
      exact ⟨rfl, hsound.update⟩

/-- **The memo changes nothing**: by induction on the fuel, a visit with a sound
memo returns the value of the node and leaves a sound memo. -/
theorem visit_spec (hrank : S.Lowers rank) (fuel : Nat) (hfuel : rank a ≤ fuel)
    (h : S.Sound rank memo) :
    (S.visit fuel a memo).1 = S.valueOf rank a ∧ S.Sound rank (S.visit fuel a memo).2 := by
  induction fuel generalizing a memo with
  | zero =>
    refine lookup_spec hrank h ?_
    intro xs hexp
    cases xs with
    | nil => exact ⟨rfl, h⟩
    | cons x rest =>
      have hlt := hrank a _ hexp x List.mem_cons_self
      omega
  | succ fuel ih =>
    refine lookup_spec hrank h ?_
    intro xs hexp
    refine mergeAll_spec xs ?_ _ _ h
    intro x hx memo hmemo
    have hlt := hrank a xs hexp x hx
    exact ih (by omega) hmemo

end memo

end Summary

end FiniteDag
