import GoIpfs.GatewayWrite

/-!
# The one outcome of a write

What a `PUT` or `DELETE` through the gateway leaves behind.  `Answered` says that
the answer fits the steps: 201 and the CID of the new tree when none has failed,
an error otherwise; `Written` and `Removed` say what the new tree is.  Every
handler answers like this, and all but one case of `deleteHandler` without a
panic.
-/

namespace GatewayWrite

open Effects GoPath List Mfs.Tree
open Mfs (mkdirParts lookupParts)
open Mfs.Tree (resolve IsDir updateAt putHere eraseHere)

variable {Cid Body α : Type}

/-! ## The purpose of a write -/

/-- The new tree has the file at the path and directories above it; nothing else
has changed. -/
structure Written (path : List String) (node : Cid) (t t' : Mfs.Tree Cid) : Prop where
  target : resolve path t' = some (.inl node)
  parents : ∀ q, q <+: path → q ≠ path → IsDir q t' ∧ (resolve q t = none ∨ IsDir q t)
  frame : ∀ q, ¬ path <+: q → ¬ q <+: path → resolve q t' = resolve q t

/-- The new tree has nothing at the path; nothing else has changed. -/
structure Removed (path : List String) (t t' : Mfs.Tree Cid) : Prop where
  target : resolve path t' = none
  parents : ∀ q, q <+: path → q ≠ path → IsDir q t' ∧ IsDir q t
  frame : ∀ q, ¬ path <+: q → ¬ q <+: path → resolve q t' = resolve q t

/-- What a request does to the tree. -/
def Effect (env : Env Cid Body) (request : Request Body) (path : List String)
    (t t' : Mfs.Tree Cid) : Prop :=
  match request with
  | .put body => Written path (env.fileNode body) t t'
  | .delete => Removed path t t'

/-- The answer fits the steps. -/
structure Answered (env : Env Cid Body) (request : Request Body) (root : Cid)
    (path : List String) (s : Server Cid) : Prop where
  created : s.response.code = some 201 ∧ s.response.ipfsHash.isSome = true ↔ s.failed = []
  tree : s.failed = [] → ∃ t, env.node root = .dir t ∧
    s.response.ipfsHash = some (env.string (s.tree.root env.dirNode)) ∧
    Effect env request path t s.tree
  rejected : s.failed ≠ [] →
    ∃ code, s.response.code = some code ∧ 400 ≤ code ∧ s.response.ipfsHash = none

/-- **One outcome.**  The handler finishes and its answer fits the steps. -/
structure OneOutcome (env : Env Cid Body) (request : Request Body) (root : Cid)
    (path : List String) (s : Server Cid) : Prop extends Answered env request root path s where
  finishes : s.panicked = false

/-- A deletion in which everything succeeds but the last step. -/
def FinalizeFails (env : Env Cid Body) (root : Cid) (path : List String) : Prop :=
  (∃ t, env.node root = .dir t ∧ IsDir path.dropLast t) ∧
    (∀ step ∈ [Step.getRoot, .newRoot, .lookup, .unlink], env.fault step = none) ∧
    env.fault .getNode ≠ none

/-! ## The trees -/

variable {t₀ : Mfs.Tree Cid}

section Trees

variable {t t' : Mfs.Tree Cid} {parts dirs : List String} {name : String}

theorem mkdirAll_of_mkdirLoop {done : List String} (h : mkdirLoop done parts t = .ok t') :
    Mfs.Tree.mkdirAll parts t = some t' := by
  induction parts generalizing done t t' with
  | nil =>
    obtain rfl : t = t' := by simpa [mkdirLoop] using h
    rfl
  | cons part parts ih =>
    rw [mkdirLoop] at h
    rw [mkdirAll]
    rcases hfind : t.find? part with _ | node | sub
    · rw [hfind] at h
      cases hsub : mkdirLoop (done ++ [part]) parts (.empty : Mfs.Tree Cid) with
      | error e => simp only [hsub, Except.map] at h; cases h
      | ok sub =>
        simp only [hsub, Except.map] at h
        rw [ih hsub]
        exact congrArg some (Except.ok.inj h)
    · rw [hfind] at h
      cases h
    · rw [hfind] at h
      cases hsub : mkdirLoop (done ++ [part]) parts sub with
      | error e => simp only [hsub, Except.map] at h; cases h
      | ok sub' =>
        simp only [hsub, Except.map] at h
        simp only [ih hsub, Option.map_some]
        exact congrArg some (Except.ok.inj h)

theorem resolve_of_dirLookup {done : List String} {r : Cid ⊕ Mfs.Tree Cid} :
    dirLookup done parts t = .ok r ↔ resolve parts t = some r := by
  induction parts generalizing done t with
  | nil => simp [dirLookup, resolve]
  | cons part parts ih =>
    rw [dirLookup, resolve]
    rcases hfind : t.find? part with _ | node | sub
    · simp
    · cases parts with
      | nil | cons next rest => simp
    · exact ih

theorem isPrefix_concat {q : List String} (h : q <+: dirs ++ [name]) (hne : q ≠ dirs ++ [name]) :
    q <+: dirs :=
  (prefix_concat_iff.mp h).resolve_left hne

theorem removed_self (hdir : IsDir dirs t) (h : resolve (dirs ++ [name]) t = none) :
    Removed (dirs ++ [name]) t t where
  target := h
  parents := fun _ hq hne =>
    ⟨hdir.parent (isPrefix_concat hq hne), hdir.parent (isPrefix_concat hq hne)⟩
  frame := fun _ _ _ => rfl

theorem removed_of_erase (h : updateAt (eraseHere name) dirs t = some t') :
    Removed (dirs ++ [name]) t t' := by
  obtain ⟨sub, sub', hsub, hf, hsub', _⟩ := resolve_updateAt h
  refine ⟨?_, ?_, ?_⟩
  · rw [resolve_append hsub', resolve_singleton_erase hf]
  · intro q hq hne
    have hq' := isPrefix_concat hq hne
    exact ⟨IsDir.parent ⟨sub', hsub'⟩ hq', IsDir.parent ⟨sub, hsub⟩ hq'⟩
  · intro q hbelow habove
    apply resolve_updateAt_entry h
      (fun _ _ hf _ hne => find?_eraseHere hf hne) hbelow
    exact fun hq => habove (hq.trans (prefix_append _ _))

/-- **Unlinking.**  Whatever `Unlink` answers without a failure, the entry is gone. -/
theorem removed_of_unlink (hdir : IsDir dirs t) :
    (∃ t', unlink dirs name t = .ok t' ∧ Removed (dirs ++ [name]) t t') ∨
      (unlink dirs name t = .error .notExist ∧ Removed (dirs ++ [name]) t t) := by
  obtain ⟨sub, hsub⟩ := hdir
  unfold unlink
  rcases hup : updateAt (eraseHere name) dirs t with _ | t'
  · refine .inr ⟨rfl, removed_self ⟨sub, hsub⟩ ?_⟩
    rw [resolve_append hsub]
    apply resolve_cons_none
    rcases hfind : sub.find? name with _ | entry
    · rfl
    · have herase : eraseHere name sub = some (sub.erase name) := by
        rw [eraseHere, hfind]
      obtain ⟨t', ht'⟩ := updateAt_some hsub herase
      rw [ht'] at hup
      cases hup
  · exact .inl ⟨t', rfl, removed_of_erase hup⟩

/-- **Linking.**  After an unlink there is room for the file. -/
theorem written_of_addChild {t₁ t₂ : Mfs.Tree Cid} {node : Cid}
    (hmkdir : Mfs.Tree.mkdirAll dirs t₀ = some t₁) (hunlink : Removed (dirs ++ [name]) t₁ t₂) :
    ∃ t₃, addChild dirs name node t₂ = .ok t₃ ∧ Written (dirs ++ [name]) node t₀ t₃ := by
  obtain ⟨_, hold, hnew⟩ := resolve_mkdirAll hmkdir
  obtain ⟨sub, hsub⟩ :=
    (hunlink.parents dirs (prefix_append _ _) (by simp)).1
  have hnone : sub.find? name = none := by
    have htarget := hunlink.target
    rw [resolve_append hsub, resolve] at htarget
    rcases hfind : sub.find? name with _ | node' | s
    · rfl
    · rw [hfind] at htarget
      simp at htarget
    · rw [hfind] at htarget
      simp [resolve] at htarget
  have hput : putHere name node sub = some (sub.insert name (.inl node)) := by
    rw [putHere, hnone]
  obtain ⟨t₃, ht₃⟩ := updateAt_some hsub hput
  refine ⟨t₃, by rw [addChild, put_eq_updateAt, ht₃], ?_⟩
  obtain ⟨s, s', hs, hf, hs', _⟩ := resolve_updateAt ht₃
  refine ⟨?_, ?_, ?_⟩
  · rw [resolve_append hs', resolve_singleton_put hf]
  · intro q hq hne
    have hq' := isPrefix_concat hq hne
    exact ⟨IsDir.parent ⟨s', hs'⟩ hq', hold q hq'⟩
  intro q hbelow habove
  have habove' : ¬ q <+: dirs := fun hq => habove (hq.trans (prefix_append _ _))
  calc resolve q t₃
      = resolve q t₂ :=
        resolve_updateAt_entry ht₃ (fun _ _ hf _ hne => find?_putHere hf hne)
          hbelow habove'
    _ = resolve q t₁ := hunlink.frame q hbelow habove
    _ = resolve q t₀ := hnew q habove'

end Trees

/-! ## The paths -/

section Paths

variable {env : Env Cid Body} {dirs names : List String} {name : String}

theorem segments_names (p : String) : segments p = [""] ∨ ∀ e ∈ segments p, IsName e := by
  obtain ⟨elems, hnames, hsplit | hsplit | hsplit⟩ := elements_clean p
  · refine .inr ?_
    simp only [segments, hsplit]
    exact hnames
  · refine .inr ?_
    simp only [segments, hsplit]
    split
    · exact fun e he => hnames e (mem_of_mem_tail he)
    · exact hnames
  · exact .inl (by simp only [segments, hsplit]; rfl)

/-- **The target.**  The rest of an accepted path is a list of names. -/
theorem names_of_parseIpfsPath {p : String} {root : Cid} {newPath : String}
    (h : parseIpfsPath env p = .ok (root, newPath)) (hne : newPath ≠ "") :
    ∃ dirs name, (∀ e ∈ dirs ++ [name], IsName e) ∧ newPath = "/".intercalate (dirs ++ [name]) := by
  unfold parseIpfsPath at h
  split at h
  · cases h
  rename_i rootPath _
  have hsegs := segments_names rootPath
  split at h
  · cases h
  rename_i ns rest hcons
  rw [hcons] at hsegs
  split at h
  · cases h
  split at h
  · cases h
  rename_i key names
  split at h
  · cases h
  cases h
  have hnames : ∀ e ∈ names, IsName e := by
    rcases hsegs with hsegs | hsegs
    · cases hsegs
    · exact fun e he => hsegs e (by simp [he])
  rcases eq_nil_or_concat names with rfl | ⟨dirs, name, rfl⟩
  · exact absurd rfl hne
  · rw [concat_eq_append] at hnames ⊢
    exact ⟨dirs, name, hnames, rfl⟩

theorem splitList_names (h : ∀ e ∈ dirs ++ [name], IsName e) :
    splitList ("/".intercalate (dirs ++ [name])) = dirs ++ [name] :=
  splitList_intercalate (by simp) fun e he => (h e he).2

theorem intercalate_ne_slash (h : ∀ e ∈ dirs ++ [name], IsName e) :
    "/".intercalate (dirs ++ [name]) ≠ "/" := by
  intro heq
  have hsplit := splitList_names h
  have hslash : splitList "/" = ["", ""] := by decide
  rw [heq, hslash] at hsplit
  exact (h "" (by rw [← hsplit]; simp)).1 rfl

def dirPart (dirs : List String) : String := if dirs = [] then "" else "/".intercalate dirs ++ "/"

theorem split_names (h : ∀ e ∈ dirs ++ [name], IsName e) :
    split ("/".intercalate (dirs ++ [name])) = (dirPart dirs, name) :=
  split_intercalate (h name (by simp)).2

theorem lookupParts_dirPart (h : ∀ e ∈ dirs, IsName e) : lookupParts (dirPart dirs) = dirs := by
  unfold lookupParts dirPart
  by_cases hnil : dirs = []
  · rw [if_pos hnil, hnil]
    decide
  · rw [if_neg hnil, trim_intercalate hnil h, splitList_intercalate hnil fun e he => (h e he).2]
    refine if_neg ?_
    rintro rfl
    exact (h "" (by simp)).1 rfl

theorem mkdirParts_dirPart (hnil : dirs ≠ []) (h : ∀ e ∈ dirs, IsName e) :
    mkdirParts (dirPart dirs) = dirs := by
  have hsplit : splitList (dirPart dirs) = dirs ++ [""] := by
    have happend := splitList_append ("/".intercalate dirs) ""
    rw [String.append_empty, splitList_intercalate hnil fun e he => (h e he).2] at happend
    rw [dirPart, if_neg hnil, happend]
    rfl
  have hhead : ¬ (dirs ++ [""]).head? = some "" := by
    rw [head?_append_of_ne_nil _ hnil]
    exact fun heq => (h "" (mem_of_mem_head? heq)).1 rfl
  unfold mkdirParts
  simp only [hsplit, if_neg hhead]
  simp

theorem dirPart_eq_empty : dirPart dirs = "" ↔ dirs = [] := by
  unfold dirPart
  split
  · simp [*]
  · simp [*]

end Paths

/-! ## The steps -/

variable {step : Step} {code : Nat} {E : Server Cid → Prop} {Q : Except Err α → Server Cid → Prop}
  {s : Server Cid} {result : Except Err α} {message : String}

section Steps

variable {env : Env Cid Body} {request : Request Body} {root : Cid} {path : List String}
  {t : Mfs.Tree Cid} {bad : Prop}

def start (t : Mfs.Tree Cid) : Server Cid := { tree := t }

/-- The answer fits the steps, and the handler panics in the bad case only. -/
def Ends (env : Env Cid Body) (request : Request Body) (root : Cid) (path : List String)
    (bad : Prop) (s : Server Cid) : Prop :=
  Answered env request root path s ∧ (s.panicked = true ↔ bad)

/-- One step has failed and its error is the answer. -/
def rejectedWith (t : Mfs.Tree Cid) (step : Step) (code : Nat) (body : String) (panicked : Bool) :
    Server Cid :=
  { tree := t, failed := [step], response := { code := some code, body := body },
    panicked := panicked }

theorem ends_rejectedWith {body : String} {panicked : Bool} (hcode : 400 ≤ code)
    (hbad : panicked = true ↔ bad) :
    Ends env request root path bad (rejectedWith t step code body panicked) := by
  refine ⟨⟨?_, ?_, ?_⟩, hbad⟩
  · simp [rejectedWith]
  · simp [rejectedWith]
  · exact fun _ => ⟨code, rfl, hcode, rfl⟩

theorem le_errorCode {err : Option Err} (hcode : 400 ≤ code) : 400 ≤ errorCode err code := by
  unfold errorCode
  split
  · decide
  · decide
  · decide
  · exact hcode

theorem wp_attempt_ok {a : α} : Wp E (attempt step (.ok a)) Q s ↔ Q (.ok a) s := by
  simp only [attempt, wp_pure]

theorem wp_attempt_error {e : Err} (h : ¬ (step = .unlink ∧ e = .notExist)) :
    Wp E (attempt step (.error e)) Q s ↔
      Q (.error e) { s with failed := s.failed ++ [step] } := by
  simp only [attempt, if_neg h, wp_bind, wp_modify, wp_pure]

theorem wp_attempt_notExist :
    Wp E (attempt .unlink (.error .notExist)) Q s ↔ Q (.error .notExist) s := by
  simp only [attempt, and_self, if_true, wp_pure]

variable {β : Type} {next : α → HandlerM Cid β} {R : β → Server Cid → Prop}

section

variable (hbad : ∀ e, result = .error e → ¬ bad)
  (hok : ∀ a, result = .ok a → Wp (Ends env request root path bad) (next a) R (start t))
include hbad hok

/-- **A checked step.**  The handler goes on with the result, or ends. -/
theorem wp_orFail (hstep : step ≠ .unlink := by decide) (hcode : 400 ≤ code := by decide) :
    Wp (Ends env request root path bad) (orFail step result message code >>= next) R
      (start t) := by
  unfold orFail
  rw [wp_bind, wp_bind]
  cases result with
  | ok a =>
    rw [wp_attempt_ok, wp_pure]
    exact hok a rfl
  | error e =>
    rw [wp_attempt_error fun h => hstep h.1]
    simp only [webError, httpError, wp_bind, wp_modify, wp_throw]
    exact ends_rejectedWith (le_errorCode hcode) (iff_of_false Bool.false_ne_true (hbad e rfl))

theorem wp_assertOr (hstep : step ≠ .unlink := by decide) (hcode : 400 ≤ code := by decide) :
    Wp (Ends env request root path bad) (assertOr step result message code >>= next) R
      (start t) := by
  unfold assertOr
  rw [wp_bind, wp_bind]
  cases result with
  | ok a =>
    rw [wp_attempt_ok, wp_pure]
    exact hok a rfl
  | error e =>
    rw [wp_attempt_error fun h => hstep h.1]
    simp only [httpError, wp_bind, wp_modify, wp_throw]
    exact ends_rejectedWith hcode (iff_of_false Bool.false_ne_true (hbad e rfl))

end

theorem call_ok {a : α} (h : env.call step result = .ok a) :
    env.fault step = none ∧ result = .ok a := by
  unfold Env.call at h
  split at h
  · cases h
  · exact ⟨by assumption, h⟩

theorem call_of_none (h : env.fault step = none) (result : Except Err α) :
    env.call step result = result := by
  rw [Env.call, h]

theorem call_error {e : Err} (h : env.call step result = .error e) :
    env.fault step ≠ none ∨ result = .error e := by
  by_cases hfault : env.fault step = none
  · rw [call_of_none hfault] at h
    exact .inr h
  · exact .inl hfault

variable {Q : Unit → Server Cid → Prop}

theorem wp_setTree {t' : Mfs.Tree Cid} (h : Q () (start t')) : Wp E (setTree t') Q (start t) := by
  unfold setTree
  rw [wp_modify]
  exact h

/-- **The unlink of both handlers.** -/
theorem wp_unlinkOr {dirs : List String} {name : String} {report : Err → HandlerM Cid Unit}
    {shown : Err → Option Err} (hreport : ∀ e, report e = webError message (shown e) code)
    (hcode : 400 ≤ code) (hdir : IsDir dirs t) (hbad : env.fault .unlink ≠ none → ¬ bad)
    (hok : env.fault .unlink = none → ∀ t', Removed (dirs ++ [name]) t t' → Q () (start t')) :
    Wp (Ends env request root path bad) (unlinkOr env dirs name report) Q (start t) := by
  unfold unlinkOr
  rw [wp_bind, wp_get, wp_bind]
  cases hfault : env.fault .unlink with
  | some f =>
    obtain ⟨e, he⟩ := f
    have hcall : env.call .unlink (unlink dirs name (start t).tree) = .error e := by
      rw [Env.call, hfault]
    have hends : Wp (Ends env request root path bad) (do report e; throw () : HandlerM Cid Unit) Q
        { start t with failed := (start t).failed ++ [Step.unlink] } := by
      rw [hreport]
      simp only [webError, httpError, wp_bind, wp_modify, wp_throw]
      exact ends_rejectedWith (le_errorCode hcode)
        (iff_of_false Bool.false_ne_true (hbad (by simp [hfault])))
    rw [hcall, wp_attempt_error fun h => he h.2]
    cases e with
    | notExist => exact absurd rfl he
    | noLink _ | routingNotFound | deadlineExceeded | other _ => exact hends
  | none =>
    rw [call_of_none hfault]
    rcases removed_of_unlink hdir with ⟨t', ht', hremoved⟩ | ⟨ht', hremoved⟩
    · have hcall : unlink dirs name (start t).tree = .ok t' := ht'
      rw [hcall, wp_attempt_ok]
      exact wp_setTree (hok hfault t' hremoved)
    · have hcall : unlink dirs name (start t).tree = .error .notExist := ht'
      rw [hcall, wp_attempt_notExist]
      exact wp_pure.mpr (hok hfault t hremoved)

theorem wp_created {hash location : String} (hroot : env.node root = .dir t₀)
    (hhash : hash = env.string (t.root env.dirNode)) (heffect : Effect env request path t₀ t)
    (hbad : ¬ bad) :
    Wp (Ends env request root path bad) (created hash location)
      (fun _ => Ends env request root path bad) (start t) := by
  unfold created
  rw [wp_modify]
  refine ⟨⟨?_, ?_, ?_⟩, by simpa [start] using hbad⟩
  · simp [start]
  · intro _
    exact ⟨t₀, hroot, by rw [hhash]; rfl, heffect⟩
  · intro hfailed
    exact absurd rfl hfailed

theorem ends_of_wp {m : HandlerM Cid Unit} (h : Wp E m (fun _ => E) s) : E (exec m s).2 := by
  rcases hrun : exec m s with ⟨r, s'⟩
  cases r with
  | ok _ => exact h.ok hrun
  | error _ => exact h.error hrun

end Steps

/-! ## The handlers -/

section Handlers

variable {env : Env Cid Body} {urlPath newPath : String} {root : Cid} {dirs : List String}
  {name : String} {t : Mfs.Tree Cid}

theorem target_of_parse (hparse : parseIpfsPath env urlPath = .ok (root, newPath))
    (hne : newPath ≠ "") (hslash : newPath ≠ "/") :
    target env urlPath = pure (root, newPath) := by
  unfold target
  rw [hparse]
  exact if_neg (fun h => h.elim hne hslash)

theorem tree_of_newRoot {node : RootNode Cid} {pbnd : Except String (Mfs.Tree Cid)}
    (hnode : asProtobuf node = .ok pbnd) (hroot : newRoot pbnd = .ok t) : node = .dir t := by
  cases node with
  | other => cases hnode
  | file text =>
    cases hnode
    cases hroot
  | dir t' =>
    cases hnode
    cases hroot
    rfl

theorem isDir_of_lookup (hnames : ∀ e ∈ dirs, IsName e) {found : Cid ⊕ Mfs.Tree Cid}
    (hlookup : lookup (dirPart dirs) t = .ok found) (hdir : asDirectory found = .ok ()) :
    IsDir dirs t := by
  rw [lookup, lookupParts_dirPart hnames, resolve_of_dirLookup] at hlookup
  cases found with
  | inl node => cases hdir
  | inr sub => exact ⟨sub, hlookup⟩

theorem wp_mkdirOr {request : Request Body} {path : List String}
    {Q : Unit → Server Cid → Prop} (hnames : ∀ e ∈ dirs, IsName e)
    (hok : ∀ t', Mfs.Tree.mkdirAll dirs t = some t' → Q () (start t')) :
    Wp (Ends env request root path False) (mkdirOr env (dirPart dirs)) Q (start t) := by
  unfold mkdirOr
  by_cases hnil : dirs = []
  · rw [if_pos (dirPart_eq_empty.mpr hnil), wp_pure]
    exact hok t (by rw [hnil]; rfl)
  rw [if_neg (fun h => hnil (dirPart_eq_empty.mp h)), wp_bind, wp_get]
  refine wp_orFail (fun _ _ => not_false) ?_
  intro t' ht'
  obtain ⟨_, hmkdir⟩ := call_ok ht'
  rw [mkdir, if_neg (fun h => hnil (dirPart_eq_empty.mp h)), mkdirParts_dirPart hnil hnames]
    at hmkdir
  exact wp_setTree (hok t' (mkdirAll_of_mkdirLoop hmkdir))

/-- **`PUT`.**  Every run ends with an answer that fits its steps. -/
theorem ends_put (hnames : ∀ e ∈ dirs ++ [name], IsName e)
    (htarget : target env urlPath = pure (root, "/".intercalate (dirs ++ [name]))) (body : Body) :
    Ends env (.put body) root (dirs ++ [name]) False (serve env (.put body) urlPath) := by
  have hdirs : ∀ e ∈ dirs, IsName e := fun e he => hnames e (mem_append_left _ he)
  apply ends_of_wp
  show Wp _ (putHandler env urlPath body) _ (start .empty)
  unfold putHandler
  rw [htarget, wp_bind, wp_pure]
  simp only [split_names hnames, lookupParts_dirPart hdirs]
  -- the old root and the new file
  refine wp_orFail (fun _ _ => not_false) ?_
  intro rnode hrnode
  obtain rfl := Except.ok.inj (call_ok hrnode).2
  refine wp_orFail (fun _ _ => not_false) ?_
  intro pbnd hpbnd
  refine wp_orFail (fun _ _ => not_false) ?_
  intro newFilePath hadd
  obtain rfl := Except.ok.inj (call_ok hadd).2
  refine wp_orFail (fun _ _ => not_false) ?_
  intro newFile hnewFile
  obtain rfl := Except.ok.inj (call_ok hnewFile).2
  refine wp_orFail (fun _ _ => not_false) ?_
  intro t₀ ht₀
  have hroot := tree_of_newRoot hpbnd (call_ok ht₀).2
  refine wp_bind.mpr (wp_setTree ?_)
  -- the directory of the new file
  refine wp_bind.mpr (wp_mkdirOr hdirs ?_)
  intro t₁ ht₁
  refine wp_bind.mpr (wp_get.mpr (wp_orFail (fun _ _ => not_false) ?_))
  intro dirNode hlookup
  refine wp_assertOr (fun _ _ => not_false) ?_
  intro _ hdirNode
  have hdir := isDir_of_lookup hdirs (call_ok hlookup).2 hdirNode
  refine wp_bind.mpr
    (wp_unlinkOr (fun _ => rfl) (by decide) hdir (fun _ => not_false) fun _ t₂ ht₂ => ?_)
  refine wp_bind.mpr (wp_get.mpr (wp_orFail (fun _ _ => not_false) ?_))
  intro t₃ ht₃
  obtain ⟨t₃', hadd, hwritten⟩ := written_of_addChild ht₁ ht₂
  obtain rfl := Except.ok.inj (hadd.symm.trans (call_ok ht₃).2)
  refine wp_bind.mpr (wp_setTree ?_)
  -- the answer
  refine wp_bind.mpr (wp_get.mpr (wp_orFail (fun _ _ => not_false) ?_))
  intro nnode hnnode
  obtain rfl := Except.ok.inj (call_ok hnnode).2
  exact wp_created hroot rfl hwritten not_false

theorem not_finalizeFails_of_fault {path : List String}
    (hmem : step ∈ [Step.getRoot, .newRoot, .lookup, .unlink]) (hfault : env.fault step ≠ none) :
    ¬ FinalizeFails env root path :=
  fun h => hfault (h.2.1 step hmem)

theorem wp_finalize {directory : String} (hroot : env.node root = .dir t₀) (hdir : IsDir dirs t₀)
    (hfaults : ∀ step ∈ [Step.getRoot, .newRoot, .lookup, .unlink], env.fault step = none)
    (hremoved : Removed (dirs ++ [name]) t₀ t) :
    Wp (Ends env .delete root (dirs ++ [name]) (FinalizeFails env root (dirs ++ [name])))
      (finalize env directory)
      (fun _ => Ends env .delete root (dirs ++ [name]) (FinalizeFails env root (dirs ++ [name])))
      (start t) := by
  unfold finalize
  rw [wp_bind, wp_get, wp_bind]
  cases hfault : env.fault .getNode with
  | none =>
    rw [call_of_none hfault, wp_attempt_ok]
    exact wp_created hroot rfl hremoved fun h => h.2.2 hfault
  | some f =>
    have hcall : env.call .getNode (.ok ((start t).tree.root env.dirNode)) = .error f.1 := by
      rw [Env.call, hfault]
    have hbad : FinalizeFails env root (dirs ++ [name]) := by
      refine ⟨⟨t₀, hroot, ?_⟩, hfaults, by simp [hfault]⟩
      rw [dropLast_concat]
      exact hdir
    rw [hcall, wp_attempt_error (fun h => by cases h.1)]
    simp only [webError, httpError, nilNode, wp_bind, wp_modify, wp_throw]
    exact ends_rejectedWith (le_errorCode (by decide)) (iff_of_true rfl hbad)

/-- **`DELETE`.**  Every run ends with an answer that fits its steps, and only the
last step makes it panic. -/
theorem ends_delete (hnames : ∀ e ∈ dirs ++ [name], IsName e)
    (htarget : target env urlPath = pure (root, "/".intercalate (dirs ++ [name]))) :
    Ends env .delete root (dirs ++ [name]) (FinalizeFails env root (dirs ++ [name]))
      (serve env .delete urlPath) := by
  have hdirs : ∀ e ∈ dirs, IsName e := fun e he => hnames e (mem_append_left _ he)
  apply ends_of_wp
  show Wp _ (deleteHandler env urlPath) _ (start .empty)
  unfold deleteHandler
  rw [htarget, wp_bind, wp_pure]
  simp only [split_names hnames, lookupParts_dirPart hdirs]
  refine wp_orFail ?_ ?_
  · intro e he
    exact not_finalizeFails_of_fault (by simp) ((call_error he).resolve_right (by simp))
  intro rootNodeIPLD hnode
  obtain ⟨hgetRoot, hnode⟩ := call_ok hnode
  obtain rfl := Except.ok.inj hnode
  refine wp_assertOr ?_ ?_
  · rintro e he ⟨⟨t₀, hroot, _⟩, _⟩
    rw [hroot] at he
    cases he
  intro rootNode hrootNode
  refine wp_orFail ?_ ?_
  · rintro e he hbad
    obtain ⟨⟨t₀, hroot, _⟩, _⟩ := id hbad
    rcases call_error he with hfault | he
    · exact not_finalizeFails_of_fault (by simp) hfault hbad
    · rw [hroot] at hrootNode
      cases hrootNode
      cases he
  intro t₀ ht₀
  obtain ⟨hnewRoot, ht₀⟩ := call_ok ht₀
  have hroot := tree_of_newRoot hrootNode ht₀
  refine wp_bind.mpr (wp_setTree ?_)
  have hparent : FinalizeFails env root (dirs ++ [name]) → IsDir dirs t₀ := by
    rintro ⟨⟨t', hroot', hdir⟩, _⟩
    rw [dropLast_concat] at hdir
    obtain rfl : t₀ = t' := by simpa [hroot] using hroot'
    exact hdir
  refine wp_bind.mpr (wp_get.mpr (wp_orFail ?_ ?_))
  · rintro e he hbad
    rcases call_error he with hfault | he
    · exact not_finalizeFails_of_fault (by simp) hfault hbad
    · obtain ⟨sub, hsub⟩ := hparent hbad
      have hfound : lookup (dirPart dirs) t₀ = .ok (.inr sub) := by
        rw [lookup, lookupParts_dirPart hdirs, resolve_of_dirLookup, hsub]
      cases hfound.symm.trans he
  intro parentNode hlookup
  obtain ⟨hlookupFault, hlookup⟩ := call_ok hlookup
  have hresolve : resolve dirs t₀ = some parentNode := by
    rw [lookup, lookupParts_dirPart hdirs, resolve_of_dirLookup] at hlookup
    exact hlookup
  refine wp_assertOr ?_ ?_
  · rintro e he hbad
    obtain ⟨sub, hsub⟩ := hparent hbad
    obtain rfl := Option.some.inj (hsub.symm.trans hresolve)
    cases he
  intro _ hparentNode
  have hdir := isDir_of_lookup hdirs hlookup hparentNode
  refine wp_bind.mpr (wp_unlinkOr (fun _ => rfl) (by decide) hdir
    (not_finalizeFails_of_fault (by simp)) fun hunlink t₁ ht₁ => ?_)
  exact wp_finalize hroot hdir (by simp [hgetRoot, hnewRoot, hlookupFault, hunlink]) ht₁

/-- A tree with a file and a directory, behind the CID `root`. -/
def sampleEnv (fault : Step → Option Fault) : Env CoreUnix.Block Nat where
  decode := fun s => if s = "root" then .ok (.data 0) else .error "invalid cid"
  string := fun _ => "new"
  quote := fun s => s
  node := fun _ => .dir (.file "a" (.data 1) (.dir "docs" (.file "b" (.data 2) .empty) .empty))
  fileNode := .data
  dirNode := CoreUnix.Block.ofEntries
  fault := fault

/-- **Which writes have one outcome.**  For every tree, every accepted path with a
rest, every body and every choice of failing steps the handler finishes and its
answer fits the steps, except for a deletion in which only the last step fails. -/
theorem one_outcome_iff (env : Env Cid Body) (request : Request Body)
    (hparse : parseIpfsPath env urlPath = .ok (root, newPath)) (hne : newPath ≠ "") :
    OneOutcome env request root (splitList newPath) (serve env request urlPath) ↔
      ¬ (request = .delete ∧ FinalizeFails env root (splitList newPath)) := by
  obtain ⟨dirs, name, hnames, rfl⟩ := names_of_parseIpfsPath hparse hne
  have htarget := target_of_parse hparse hne (intercalate_ne_slash hnames)
  rw [splitList_names hnames]
  cases request with
  | put body =>
    obtain ⟨hanswered, hpanicked⟩ := ends_put hnames htarget body
    refine iff_of_true ⟨hanswered, ?_⟩ (fun h => by cases h.1)
    exact Bool.eq_false_iff.mpr fun h => hpanicked.mp h
  | delete =>
    obtain ⟨hanswered, hpanicked⟩ := ends_delete hnames htarget
    constructor
    · rintro houtcome ⟨_, hbad⟩
      exact absurd (hpanicked.mpr hbad) (by simp [houtcome.finishes])
    · intro hgood
      refine ⟨hanswered, Bool.eq_false_iff.mpr fun h => hgood ⟨rfl, hpanicked.mp h⟩⟩

/-- Deleting a file of a subdirectory has one outcome. -/
theorem one_outcome_delete :
    parseIpfsPath (sampleEnv fun _ => none) "/ipfs/root/docs/b" = .ok (.data 0, "docs/b") ∧
      OneOutcome (sampleEnv fun _ => none) .delete (.data 0) (splitList "docs/b")
        (serve (sampleEnv fun _ => none) .delete "/ipfs/root/docs/b") := by
  have hparse : parseIpfsPath (sampleEnv fun _ => none) "/ipfs/root/docs/b" =
      .ok (.data 0, "docs/b") := by decide +kernel
  refine ⟨hparse, (one_outcome_iff _ .delete hparse (by decide)).mpr ?_⟩
  rintro ⟨_, _, _, hfault⟩
  exact hfault rfl

/-- **A panic.**  The node of the new tree cannot be stored: the handler has
answered 500 and goes on with a nil node. -/
theorem delete_getNode_panics :
    let env := sampleEnv fun step =>
      if step = .getNode then some ⟨.other "full", by decide⟩ else none
    parseIpfsPath env "/ipfs/root/a" = .ok (.data 0, "a") ∧
      (serve env .delete "/ipfs/root/a").response.code = some 500 ∧
      ¬ OneOutcome env .delete (.data 0) (splitList "a") (serve env .delete "/ipfs/root/a") := by
  intro env
  have hpanicked : (serve env .delete "/ipfs/root/a").panicked = true := by decide +kernel
  refine ⟨by decide +kernel, by decide +kernel, fun h => ?_⟩
  rw [h.finishes] at hpanicked
  cases hpanicked

end Handlers

end GatewayWrite
