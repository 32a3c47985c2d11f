import GoIpfs.ConfigEdits
import GoIpfs.GoPath
import GoIpfs.StepRun
import Mathlib.Data.List.TakeWhile

/-!
# Address filters

A node refuses connections by the deny filters in `n.Filters`, which it makes
from `Swarm.AddrFilters` when it starts.  `ipfs swarm filters add` and
`ipfs swarm filters rm` change both: first the filters of the node, mask by mask
and up to the first argument that is not an address, then the list in the
config, string by string.

The two can come apart.  An argument that is not an address ends the command
when masks before it have been added or removed already, and a mask that is
removed in another spelling than the configured one stays in the config.
`agree_iff` says which sequences of commands keep them together.
-/

namespace SwarmFilters

open Effects FsRepo ConfigEdits StepRun List

/-- A `net.IPNet`, as its `String` prints it; `ma.Filters` compares no more. -/
abbrev Mask := String

inductive Action where
  | accept
  | deny
  deriving DecidableEq, Repr

/-- `ma.Filters`: each mask has one entry. -/
structure Filters where
  entries : List (Mask × Action)
  nodup : (entries.map Prod.fst).Nodup

/-- Set the action of the entry for a mask, or append an entry. -/
def setAction (mask : Mask) (action : Action) : List (Mask × Action) → List (Mask × Action)
  | [] => [(mask, action)]
  | e :: rest => if e.1 = mask then (mask, action) :: rest else e :: setAction mask action rest

theorem map_fst_setAction (mask : Mask) (action : Action) (l : List (Mask × Action)) :
    (setAction mask action l).map Prod.fst =
      if mask ∈ l.map Prod.fst then l.map Prod.fst else l.map Prod.fst ++ [mask] := by
  induction l with
  | nil => rfl
  | cons e rest ih =>
    unfold setAction
    by_cases he : e.1 = mask
    · simp [he]
    rw [if_neg he, map_cons, ih, map_cons]
    by_cases hmem : mask ∈ rest.map Prod.fst
    · rw [if_pos hmem, if_pos (mem_cons_of_mem _ hmem)]
    · have hnot : mask ∉ e.1 :: rest.map Prod.fst := by
        rw [mem_cons, not_or]
        exact ⟨Ne.symm he, hmem⟩
      rw [if_neg hmem, if_neg hnot, cons_append]

namespace Filters

def addFilter (mask : Mask) (action : Action) (fs : Filters) : Filters where
  entries := setAction mask action fs.entries
  nodup := by
    rw [map_fst_setAction]
    split
    · exact fs.nodup
    · rename_i hmask
      exact List.nodup_append.mpr ⟨fs.nodup, List.nodup_singleton _, fun x hx y hy heq =>
        hmask (List.mem_singleton.mp hy ▸ heq ▸ hx)⟩

/-- `RemoveLiteral` removes the first entry for the mask. -/
def removeLiteral (mask : Mask) (fs : Filters) : Filters where
  entries := fs.entries.eraseP fun e => e.1 = mask
  nodup := (List.eraseP_sublist.map Prod.fst).nodup fs.nodup

def filtersForAction (action : Action) (fs : Filters) : List Mask :=
  (fs.entries.filter fun e => e.2 = action).map Prod.fst

def Denied (fs : Filters) (mask : Mask) : Prop := (mask, .deny) ∈ fs.entries

instance (fs : Filters) (mask : Mask) : Decidable (fs.Denied mask) :=
  inferInstanceAs (Decidable (_ ∈ _))

end Filters

/-- A node: its filters, and the repo that its commands share with it. -/
structure Node where
  filters : Filters
  repo : Repo

structure Env where
  repo : FsRepo.Env
  /-- The network of `net.ParseCIDR`. -/
  parseCIDR : String → Except String Mask

abbrev NodeM (α : Type) := Prog String Node α

def onRepo {α : Type} (m : RepoM α) : NodeM α :=
  ExceptT.mk fun n => ((exec m n.repo).1, { n with repo := (exec m n.repo).2 })

/-- `mamask.NewMask`. -/
def newMask (env : Env) (a : String) : Except String Mask :=
  match GoPath.splitList a with
  | ["", ip, addr, cidr, bits] =>
    if (ip = "ip4" ∨ ip = "ip6") ∧ cidr = "ipcidr" then env.parseCIDR (addr ++ "/" ++ bits)
    else .error "invalid multiaddr-filter format"
  | _ => .error "invalid multiaddr-filter format"

/-- The loop over the arguments of both commands: parse the mask, then change the
filters. -/
def eachMask (env : Env) (change : Mask → Filters → Filters) : List String → NodeM Unit
  | [] => pure ()
  | arg :: rest =>
    match newMask env arg with
    | .error err => throw err
    | .ok mask => do
        modify fun n => { n with filters := change mask n.filters }
        eachMask env change rest

/-- Change the filters mask by mask. -/
def changeAll (change : Mask → Filters → Filters) (ms : List Mask) (fs : Filters) : Filters :=
  ms.foldl (fun fs m => change m fs) fs

/-- Remove all deny filters. -/
def removeDenied (fs : Filters) : Filters :=
  changeAll Filters.removeLiteral (fs.filtersForAction .deny) fs

inductive Command where
  | add
  | rm
  deriving DecidableEq, Repr

/-- A request, with what it finds: `GetNode` and `fsrepo.Open` may fail, and the
node may be offline. -/
structure Request where
  command : Command
  arguments : List String
  getNode : Option String := none
  online : Bool := true
  openRepo : Option String := none

/-- `swarmFiltersAddCmd.Run` after `r.Config()`. -/
def addRun (env : Env) (arguments : List String) : NodeM (List String) := do
  eachMask env (fun mask fs => fs.addFilter mask .deny) arguments
  onRepo (filtersAdd env.repo arguments)

/-- `swarmFiltersRmCmd.Run` after `r.Config()`; without arguments it panics. -/
def rmRun (env : Env) : List String → NodeM (List String)
  | [] => throw "index out of range [0] with length 0"
  | first :: rest =>
    if first = "all" ∨ first = "*" then do
      modify fun n => { n with filters := removeDenied n.filters }
      onRepo (filtersRemoveAll env.repo)
    else do
      eachMask env Filters.removeLiteral (first :: rest)
      onRepo (filtersRemove env.repo (first :: rest))

/-- `ErrNotOnline`. -/
def errNotOnline : String :=
  "this command must be run in online mode. Try running 'ipfs daemon' first"

/-- The checks in front of both commands, up to `r.Config()`. -/
def Request.refused (r : Request) (n : Node) : Option String :=
  match r.getNode with
  | some err => some err
  | none =>
    if r.online = false then some errNotOnline
    else if r.command = .add ∧ r.arguments = [] then some "no filters to add"
    else
      match r.openRepo with
      | some err => some err
      | none => if n.repo.closed then some "cannot access config, repo not open" else none

def Request.run (env : Env) (r : Request) : NodeM (List String) := do
  match r.refused (← get) with
  | some err => throw err
  | none =>
    match r.command with
    | .add => addRun env r.arguments
    | .rm => rmRun env r.arguments

/-- A request is handled, whether it succeeds or fails. -/
def step (env : Env) (n : Node) (r : Request) : Option Node := some (exec (r.run env) n).2

def Node.configured (n : Node) : List String := (ListField.addrFilters.get n.repo.config).getD []

def masks (env : Env) (l : List String) : List Mask :=
  l.filterMap fun a => (newMask env a).toOption

/-- The deny filters of the node are the masks of the configured list. -/
def Agree (env : Env) (n : Node) : Prop :=
  ∀ mask, n.filters.Denied mask ↔ mask ∈ masks env n.configured

def Parses (env : Env) (a : String) : Prop := (newMask env a).isOk = true

instance (env : Env) : DecidablePred (Parses env) := fun _ => inferInstanceAs (Decidable (_ = _))

/-- The arguments in front of the first one that is not an address. -/
def parsed (env : Env) (arguments : List String) : List String :=
  arguments.takeWhile fun a => Parses env a

/-! ## The filters of a node -/

section Filters

variable {fs : Filters} {mask x : Mask} {e : Mask × Action} {l : List (Mask × Action)}

theorem mem_setAction {action : Action} (h : (l.map Prod.fst).Nodup) :
    e ∈ setAction mask action l ↔ e = (mask, action) ∨ e ∈ l ∧ e.1 ≠ mask := by
  induction l with
  | nil => simp [setAction]
  | cons d rest ih =>
    obtain ⟨hd, hrest⟩ := nodup_cons.mp h
    unfold setAction
    by_cases hmask : d.1 = mask
    · have hother : ∀ e ∈ rest, e.1 ≠ mask := by
        intro e he heq
        exact hd (hmask ▸ heq ▸ mem_map_of_mem he)
      rw [if_pos hmask, mem_cons, mem_cons]
      constructor
      · rintro (heq | he)
        · exact .inl heq
        · exact .inr ⟨.inr he, hother e he⟩
      · rintro (heq | ⟨rfl | he, hne⟩)
        · exact .inl heq
        · exact absurd hmask hne
        · exact .inr he
    · rw [if_neg hmask, mem_cons, ih hrest, mem_cons]
      constructor
      · rintro (rfl | heq | ⟨he, hne⟩)
        · exact .inr ⟨.inl rfl, hmask⟩
        · exact .inl heq
        · exact .inr ⟨.inr he, hne⟩
      · rintro (heq | ⟨rfl | he, hne⟩)
        · exact .inr (.inl heq)
        · exact .inl rfl
        · exact .inr (.inr ⟨he, hne⟩)

@[simp] theorem denied_addFilter : (fs.addFilter mask .deny).Denied x ↔ x = mask ∨ fs.Denied x := by
  unfold Filters.Denied Filters.addFilter
  rw [mem_setAction fs.nodup]
  by_cases hx : x = mask
  · simp [hx]
  · simp [hx]

theorem mem_eraseP (h : (l.map Prod.fst).Nodup) :
    e ∈ l.eraseP (fun e => e.1 = mask) ↔ e ∈ l ∧ e.1 ≠ mask := by
  induction l with
  | nil => simp
  | cons d rest ih =>
    obtain ⟨hd, hrest⟩ := nodup_cons.mp h
    by_cases hmask : d.1 = mask
    · rw [eraseP_cons_of_pos (by simpa using hmask)]
      constructor
      · intro he
        exact ⟨mem_cons_of_mem _ he, fun heq => hd (hmask ▸ heq ▸ mem_map_of_mem he)⟩
      · rintro ⟨he, hne⟩
        rcases mem_cons.mp he with rfl | he
        · exact absurd hmask hne
        · exact he
    · rw [eraseP_cons_of_neg (by simpa using hmask), mem_cons, ih hrest, mem_cons]
      constructor
      · rintro (rfl | ⟨he, hne⟩)
        · exact ⟨.inl rfl, hmask⟩
        · exact ⟨.inr he, hne⟩
      · rintro ⟨rfl | he, hne⟩
        · exact .inl rfl
        · exact .inr ⟨he, hne⟩

@[simp] theorem denied_removeLiteral :
    (fs.removeLiteral mask).Denied x ↔ fs.Denied x ∧ x ≠ mask := by
  exact mem_eraseP fs.nodup

variable (change : Mask → Filters → Filters)

@[simp] theorem changeAll_nil (fs : Filters) :
    changeAll change [] fs = fs := rfl

@[simp] theorem changeAll_cons (m : Mask) (ms : List Mask) (fs : Filters) :
    changeAll change (m :: ms) fs = changeAll change ms (change m fs) := rfl

theorem denied_addAll (ms : List Mask) (fs : Filters) :
    (changeAll (fun m fs => fs.addFilter m .deny) ms fs).Denied x ↔ x ∈ ms ∨ fs.Denied x := by
  induction ms generalizing fs with
  | nil => simp
  | cons m rest ih =>
    rw [changeAll_cons, ih, denied_addFilter, mem_cons]
    exact or_left_comm.trans or_assoc.symm

theorem denied_removeAll (ms : List Mask) (fs : Filters) :
    (changeAll Filters.removeLiteral ms fs).Denied x ↔ fs.Denied x ∧ x ∉ ms := by
  induction ms generalizing fs with
  | nil => simp
  | cons m rest ih =>
    rw [changeAll_cons, ih, denied_removeLiteral, mem_cons, not_or, and_assoc]

theorem not_denied_removeDenied : ¬ (removeDenied fs).Denied x := by
  unfold removeDenied
  rw [denied_removeAll]
  rintro ⟨hx, hnot⟩
  apply hnot
  exact mem_map.mpr ⟨(x, .deny), mem_filter.mpr ⟨hx, by simp⟩, rfl⟩

end Filters

/-! ## The loop over the arguments -/

variable {a : String} {rest : List String}

section Loop

variable {env : Env} {n : Node} {change : Mask → Filters → Filters}

theorem mem_masks {l : List String} {mask : Mask} :
    mask ∈ masks env l ↔ ∃ a ∈ l, newMask env a = .ok mask := by
  unfold masks
  rw [mem_filterMap]
  constructor
  · rintro ⟨a, ha, hmask⟩
    cases hnew : newMask env a with
    | error err => simp [hnew, Except.toOption] at hmask
    | ok m =>
      rw [hnew] at hmask
      exact ⟨a, ha, congrArg Except.ok (Option.some.inj hmask) ▸ hnew⟩
  · rintro ⟨a, ha, hmask⟩
    exact ⟨a, ha, by rw [hmask]; rfl⟩

theorem parses_iff : Parses env a ↔ ∃ mask, newMask env a = .ok mask := by
  unfold Parses
  cases newMask env a with
  | error err | ok mask => simp [Except.isOk, Except.toBool]

theorem parsed_cons (h : Parses env a) : parsed env (a :: rest) = a :: parsed env rest :=
  takeWhile_cons_of_pos (decide_eq_true h)

theorem parsed_cons_of_not (h : ¬ Parses env a) : parsed env (a :: rest) = [] :=
  takeWhile_cons_of_neg (by simpa using h)

/-- The masks in front of the first argument that is not an address are changed,
and the loop returns an error when there is such an argument. -/
theorem exec_eachMask (env : Env) (change : Mask → Filters → Filters) (arguments : List String)
    (n : Node) :
    (exec (eachMask env change arguments) n).2 =
        { n with filters := changeAll change (masks env (parsed env arguments)) n.filters } ∧
      ((exec (eachMask env change arguments) n).1 = .ok () ↔ ∀ a ∈ arguments, Parses env a) := by
  induction arguments generalizing n with
  | nil => exact ⟨rfl, by simp [eachMask]⟩
  | cons arg rest ih =>
    cases hnew : newMask env arg with
    | error err =>
      have hnot : ¬ Parses env arg := by
        rw [parses_iff, hnew]
        simp
      have hexec : exec (eachMask env change (arg :: rest)) n = (.error err, n) := by
        rw [eachMask, hnew]
        rfl
      rw [hexec]
      refine ⟨?_, by simp [hnot]⟩
      rw [parsed_cons_of_not hnot]
      rfl
    | ok mask =>
      have hyes : Parses env arg := parses_iff.mpr ⟨mask, hnew⟩
      have hexec : exec (eachMask env change (arg :: rest)) n =
          exec (eachMask env change rest) { n with filters := change mask n.filters } := by
        conv =>
          lhs
          rw [eachMask, hnew]
        rw [exec_bind, exec_modify]
      obtain ⟨hstate, hok⟩ := ih { n with filters := change mask n.filters }
      rw [hexec]
      refine ⟨?_, ?_⟩
      · have hmasks : masks env (parsed env (arg :: rest)) =
            mask :: masks env (parsed env rest) := by
          rw [parsed_cons hyes]
          simp [masks, hnew, Except.toOption]
        rw [hstate, hmasks, changeAll_cons]
      · rw [hok, forall_mem_cons]
        simp [hyes]

end Loop

/-! ## What a request does -/

variable {first : String}

section Requests

variable {env : Env} {n : Node} {arguments : List String}

theorem exec_onRepo {α : Type} (m : RepoM α) (n : Node) :
    exec (onRepo m) n = ((exec m n.repo).1, { n with repo := (exec m n.repo).2 }) := rfl

theorem configured_store {s : Repo} (f : Filters) (new : Strings) (out : List String) :
    (⟨f, (exec (store env.repo .addrFilters new out) s).2⟩ : Node).configured = new.getD [] := by
  unfold Node.configured
  rw [config_store, get_set]

theorem exec_eachMask_bind (change : Mask → Filters → Filters) (m : RepoM (List String))
    (arguments : List String) (n : Node) :
    (exec (eachMask env change arguments >>= fun _ => onRepo m) n).2 =
      ⟨changeAll change (masks env (parsed env arguments)) n.filters,
        if ∀ a ∈ arguments, Parses env a then (exec m n.repo).2 else n.repo⟩ := by
  obtain ⟨hstate, hok⟩ := exec_eachMask env change arguments n
  rw [exec_bind]
  rcases hexec : exec (eachMask env change arguments) n with ⟨r, t⟩
  rw [hexec] at hstate hok
  subst hstate
  cases r with
  | ok u =>
    rw [if_pos (hok.mp rfl)]
    rfl
  | error err =>
    rw [if_neg fun h => by cases hok.mpr h]

theorem parsed_eq_self (h : ∀ a ∈ arguments, Parses env a) : parsed env arguments = arguments := by
  apply takeWhile_eq_self_iff.mpr
  intro a ha
  exact decide_eq_true (h a ha)

theorem after_add (h : ∀ a ∈ arguments, Parses env a) (x : Mask) :
    ((exec (addRun env arguments) n).2.filters.Denied x ↔
      x ∈ masks env arguments ∨ n.filters.Denied x) ∧
    (x ∈ masks env (exec (addRun env arguments) n).2.configured ↔
      x ∈ masks env arguments ∨ x ∈ masks env n.configured) := by
  unfold addRun
  rw [exec_eachMask_bind, if_pos h, parsed_eq_self h]
  refine ⟨denied_addAll _ _, ?_⟩
  unfold filtersAdd
  rw [exec_get_bind, configured_store]
  simp only [mem_masks, mem_addBack]
  constructor
  · rintro ⟨a, ha | ha, hnew⟩
    · exact .inl ⟨a, ha, hnew⟩
    · exact .inr ⟨a, ha, hnew⟩
  · rintro (⟨a, ha, hnew⟩ | ⟨a, ha, hnew⟩)
    · exact ⟨a, .inl ha, hnew⟩
    · exact ⟨a, .inr ha, hnew⟩

theorem after_add_failed (h : ¬ ∀ a ∈ arguments, Parses env a) (x : Mask) :
    ((exec (addRun env arguments) n).2.filters.Denied x ↔
      x ∈ masks env (parsed env arguments) ∨ n.filters.Denied x) ∧
    (exec (addRun env arguments) n).2.configured = n.configured := by
  unfold addRun
  rw [exec_eachMask_bind, if_neg h]
  exact ⟨denied_addAll _ _, rfl⟩

theorem after_rmAll (env : Env) (n : Node) (rest : List String) (h : first = "all" ∨ first = "*")
    (x : Mask) :
    ¬ (exec (rmRun env (first :: rest)) n).2.filters.Denied x ∧
      (exec (rmRun env (first :: rest)) n).2.configured = [] := by
  rw [rmRun, if_pos h, exec_bind, exec_modify]
  simp only []
  unfold filtersRemoveAll
  rw [exec_onRepo, exec_get_bind]
  exact ⟨not_denied_removeDenied, configured_store _ _ _⟩

theorem after_rm (hall : ¬ (first = "all" ∨ first = "*")) (h : ∀ a ∈ first :: rest, Parses env a)
    (x : Mask) :
    ((exec (rmRun env (first :: rest)) n).2.filters.Denied x ↔
      n.filters.Denied x ∧ x ∉ masks env (first :: rest)) ∧
    (x ∈ masks env (exec (rmRun env (first :: rest)) n).2.configured ↔
      ∃ a ∈ n.configured, a ∉ first :: rest ∧ newMask env a = .ok x) := by
  rw [rmRun, if_neg hall, exec_eachMask_bind, if_pos h, parsed_eq_self h]
  refine ⟨denied_removeAll _ _, ?_⟩
  unfold filtersRemove
  rw [exec_get_bind, configured_store, mem_masks, Option.getD_some]
  simp only [mem_filter, decide_eq_true_eq, and_assoc]
  exact Iff.rfl

theorem after_rm_failed (hall : ¬ (first = "all" ∨ first = "*"))
    (h : ¬ ∀ a ∈ first :: rest, Parses env a) (x : Mask) :
    ((exec (rmRun env (first :: rest)) n).2.filters.Denied x ↔
      n.filters.Denied x ∧ x ∉ masks env (parsed env (first :: rest))) ∧
    (exec (rmRun env (first :: rest)) n).2.configured = n.configured := by
  rw [rmRun, if_neg hall, exec_eachMask_bind, if_neg h]
  exact ⟨denied_removeAll _ _, rfl⟩

end Requests

/-! ## Agreement -/

/-- **The request keeps the two together.**  `add` has addresses only, or the
masks in front of the first argument that is not one are denied already.  `rm`
removes all, or has addresses only and among them every configured spelling of
their masks, or denied masks are not in front of the first argument that is not
an address. -/
def Request.Sound (env : Env) (n : Node) (r : Request) : Prop :=
  r.refused n ≠ none ∨
    match r.command, r.arguments with
    | .add, arguments =>
      (∀ a ∈ arguments, Parses env a) ∨
        ∀ mask ∈ masks env (parsed env arguments), n.filters.Denied mask
    | .rm, [] => True
    | .rm, first :: rest =>
      (first = "all" ∨ first = "*") ∨
      (∀ a ∈ first :: rest, Parses env a) ∧
        (∀ a ∈ n.configured, a ∉ first :: rest →
          ∀ mask ∈ masks env (first :: rest), newMask env a ≠ .ok mask) ∨
      (¬ ∀ a ∈ first :: rest, Parses env a) ∧
        ∀ mask ∈ masks env (parsed env (first :: rest)), ¬ n.filters.Denied mask

section Agreement

variable {env : Env} {n : Node} {arguments : List String}

theorem agree_add_iff (h : Agree env n) :
    Agree env (exec (addRun env arguments) n).2 ↔
      (∀ a ∈ arguments, Parses env a) ∨
        ∀ mask ∈ masks env (parsed env arguments), n.filters.Denied mask := by
  by_cases hall : ∀ a ∈ arguments, Parses env a
  · refine iff_of_true (fun x => ?_) (.inl hall)
    obtain ⟨hdenied, hconf⟩ := after_add (n := n) hall x
    rw [hdenied, hconf, h x]
  simp only [hall, false_or]
  constructor
  · intro hagree x hx
    obtain ⟨hdenied, hconf⟩ := after_add_failed (n := n) hall x
    have hx' := (hagree x).mp (hdenied.mpr (.inl hx))
    rw [hconf] at hx'
    exact (h x).mpr hx'
  · intro hdenied x
    obtain ⟨hafter, hconf⟩ := after_add_failed (n := n) hall x
    rw [hafter, hconf, ← h x]
    exact ⟨fun hx => hx.elim (hdenied x) id, .inr⟩

theorem agree_rm_iff (h : Agree env n) (hall : ¬ (first = "all" ∨ first = "*")) :
    Agree env (exec (rmRun env (first :: rest)) n).2 ↔
      (∀ a ∈ first :: rest, Parses env a) ∧
        (∀ a ∈ n.configured, a ∉ first :: rest →
          ∀ mask ∈ masks env (first :: rest), newMask env a ≠ .ok mask) ∨
      (¬ ∀ a ∈ first :: rest, Parses env a) ∧
        ∀ mask ∈ masks env (parsed env (first :: rest)), ¬ n.filters.Denied mask := by
  by_cases hparse : ∀ a ∈ first :: rest, Parses env a
  · rw [or_iff_left fun hf => hf.1 hparse, and_iff_right hparse]
    constructor
    · intro hagree a ha hnot mask hmask hnew
      obtain ⟨hdenied, hconf⟩ := after_rm (n := n) hall hparse mask
      have hleft := hconf.mpr ⟨a, ha, hnot, hnew⟩
      exact (hdenied.mp ((hagree mask).mpr hleft)).2 hmask
    intro hwhole x
    obtain ⟨hdenied, hconf⟩ := after_rm (n := n) hall hparse x
    rw [hdenied, hconf, h x, mem_masks]
    constructor
    · rintro ⟨⟨a, ha, hnew⟩, hx⟩
      refine ⟨a, ha, fun hmem => hx ?_, hnew⟩
      exact mem_masks.mpr ⟨a, hmem, hnew⟩
    · rintro ⟨a, ha, hnot, hnew⟩
      exact ⟨⟨a, ha, hnew⟩, fun hx => hwhole a ha hnot x hx hnew⟩
  · rw [or_iff_right fun hf => hparse hf.1, and_iff_right hparse]
    constructor
    · intro hagree mask hmask hdenied
      obtain ⟨hafter, hconf⟩ := after_rm_failed (n := n) hall hparse mask
      have hin := (h mask).mp hdenied
      rw [← hconf] at hin
      exact (hafter.mp ((hagree mask).mpr hin)).2 hmask
    · intro hfree x
      obtain ⟨hafter, hconf⟩ := after_rm_failed (n := n) hall hparse x
      rw [hafter, hconf, ← h x]
      exact ⟨fun hx => hx.1, fun hx => ⟨hx, fun hmask => hfree x hmask hx⟩⟩

theorem agree_step_iff (h : Agree env n) (r : Request) :
    Agree env (exec (r.run env) n).2 ↔ r.Sound env n := by
  have hrun : exec (r.run env) n =
      match r.refused n with
      | some err => (.error err, n)
      | none => exec (match r.command with
          | .add => addRun env r.arguments
          | .rm => rmRun env r.arguments) n := by
    unfold Request.run
    rw [exec_bind, exec_get]
    simp only []
    cases r.refused n <;> rfl
  rw [hrun]
  unfold Request.Sound
  cases r.refused n with
  | some err => simpa using h
  | none =>
    simp only [ne_eq, not_true_eq_false, false_or]
    cases r.command with
    | add => exact agree_add_iff h
    | rm =>
      cases r.arguments with
      | nil => exact iff_of_true h True.intro
      | cons first rest =>
        by_cases hall : first = "all" ∨ first = "*"
        · refine iff_of_true (fun x => ?_) (.inl hall)
          obtain ⟨hdenied, hconf⟩ := after_rmAll env n rest hall x
          simp only [hconf]
          exact iff_of_false hdenied (by simp [masks])
        · simp only [hall, false_or]
          exact agree_rm_iff h hall

theorem exists_run (env : Env) (n : Node) (requests : List Request) :
    ∃ m, run (step env) n requests = some m := by
  induction requests generalizing n with
  | nil => exact ⟨n, rfl⟩
  | cons r rest ih => exact ih _

/-- **When the filters of the node and of the config agree.**  From a node where
they do, they agree after every request of a sequence exactly when every request
is sound in the state that it finds. -/
theorem agree_iff (env : Env) (n : Node) (requests : List Request) (h : Agree env n) :
    (∀ before after m, requests = before ++ after → run (step env) n before = some m →
      Agree env m) ↔ Along (step env) (Request.Sound env) n requests := by
  obtain ⟨m, hm⟩ := exists_run env n requests
  refine run_invariant_iff (Agree env) (Request.Sound env) ?_ h hm
  intro s r t hs ht
  cases ht
  exact agree_step_iff hs r

/-- Two spellings of one mask can be read. -/
def tenNet : Env where
  repo := ⟨noParsers, fun _ => none⟩
  parseCIDR s :=
    if s = "10.0.0.0/8" ∨ s = "10.1.2.3/8" then .ok "10.0.0.0/8" else .error "invalid CIDR address"

def openNode : Node := ⟨⟨[], List.nodup_nil⟩, filtersRepo none⟩

theorem agree_openNode (env : Env) : Agree env openNode := by
  intro mask
  refine iff_of_false (by simp [openNode, Filters.Denied]) ?_
  simp [masks, openNode, filtersRepo, filtersConfig, Node.configured, ListField.get, swarm,
    GoJson.Val.fields, stringsVal, readStrings]

/-- A mask is added in two spellings, and then all masks are removed. -/
theorem agree_addedTwice :
    Agree tenNet openNode ∧
      ∀ before after m,
        [⟨.add, ["/ip4/10.0.0.0/ipcidr/8", "/ip4/10.1.2.3/ipcidr/8"], none, true, none⟩,
          ⟨.rm, ["all"], none, true, none⟩] = before ++ after →
        run (step tenNet) openNode before = some m → Agree tenNet m := by
  refine ⟨agree_openNode tenNet, ?_⟩
  apply (agree_iff tenNet openNode _ (agree_openNode tenNet)).mpr
  have hparse : ∀ a ∈ ["/ip4/10.0.0.0/ipcidr/8", "/ip4/10.1.2.3/ipcidr/8"], Parses tenNet a := by
    decide
  refine ⟨.inr (.inl hparse), fun t _ => ⟨.inr (.inl (.inl rfl)), ?_⟩⟩
  exact fun _ _ => True.intro

/-- **A malformed argument after a good one.**  The mask is denied and not
configured. -/
theorem add_malformed_disagrees :
    Agree tenNet openNode ∧
      ∃ m, run (step tenNet) openNode
          [⟨.add, ["/ip4/10.0.0.0/ipcidr/8", "malformed"], none, true, none⟩] = some m ∧
        m.filters.Denied "10.0.0.0/8" ∧ m.configured = [] ∧ ¬ Agree tenNet m := by
  refine ⟨agree_openNode tenNet, _, rfl, by decide, by decide, fun hagree => ?_⟩
  have hmem := (hagree "10.0.0.0/8").mp (by decide)
  revert hmem
  decide

end Agreement

end SwarmFilters
