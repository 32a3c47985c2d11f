import GoIpfs.Pretty404
import Mathlib.Data.List.DropRight

/-!
# Commands that take a path apart

`ipfs get` names its output twice.  The client takes the last element of the
argument, the server cleans the path and takes the last element of that.  They differ
when the argument ends with a dot element, which the client keeps, and for a bare CID
in another spelling than the server's (`getOutPath_agrees_iff`).

`ipfs files rm` refuses the root by its spelling.  `checkPath` puts back the slash that
cleaning took away, so `//` passes the test and the empty name is looked up or removed
in the root (`filesRm_root_iff`).
-/

namespace PathArguments

open GoPath GatewayWrite List Option

variable {arg e : String}

/-! ## Last elements -/

/-- A rooted path with something left when it is cleaned. -/
theorem clean_eq {out : List String} (hroot : arg.toList.head? = some '/')
    (h : (splitList arg).foldl (cleanStep true) [] = e :: out) :
    clean arg = "/".intercalate (("" :: out.reverse) ++ [e]) := by
  unfold clean
  simp only [hroot, decide_true, if_true, h, reverse_cons]
  rw [cons_append, String.intercalate_cons_of_ne_nil (by simp)]
  rfl

/-! ## `ipfs get` -/

/-- `strings.TrimRight(p, "/")`. -/
def trimRight (p : String) : String := String.ofList (p.toList.rdropWhile (· = '/'))

def getOutPath (output arg : String) : String :=
  if output = "" then clean (split (trimRight arg)).2 else output

/-- The name `fileArchive` gives to the root of the archive. -/
def fileArchive (name : String) : String := (split (clean name)).2

/-- The last element of a path that is not empty. -/
def lastElement (p : String) : Option String := (splitList p).reverse.find? (· ≠ "")

/-- **What the client cuts off.** -/
theorem split_trimRight {elems : List String} (hslash : ∀ d ∈ elems, '/' ∉ d.toList)
    (h : elems.reverse.find? (· ≠ "") = some e) :
    (split (trimRight ("/".intercalate elems))).2 = e := by
  -- from the right: empty elements are trimmed, the first other one is the file
  induction elems using reverseRecOn with
  | nil => cases h
  | append_singleton dirs name ih =>
    obtain ⟨hdirs, hname⟩ := forall_mem_append.mp hslash
    have hname := hname name mem_cons_self
    rw [reverse_append, reverse_singleton, singleton_append] at h
    by_cases hnil : name = ""
    · rw [find?_cons_of_neg (by simpa using hnil)] at h
      have hne : dirs ≠ [] := by
        rintro rfl
        cases h
      have hchars : ("/".intercalate (dirs ++ [name])).toList =
          ("/".intercalate dirs).toList ++ ['/'] := by
        rw [String.intercalate_append_of_ne_nil hne (by simp), hnil]
        simp
      rw [trimRight, hchars, rdropWhile_concat_pos _ _ _ (by simp)]
      exact ih hdirs h
    · rw [find?_cons_of_pos (by simpa using hnil)] at h
      have htrim : trimRight ("/".intercalate (dirs ++ [name])) =
          "/".intercalate (dirs ++ [name]) := by
        apply String.toList_injective
        rw [trimRight, String.toList_ofList, rdropWhile_eq_self_iff]
        intro hne hslash
        refine getLast?_intercalate dirs ⟨hnil, hname⟩ ?_
        rw [getLast?_eq_some_getLast hne]
        simpa using hslash
      rw [htrim, split_intercalate hname]
      exact some.inj h

theorem clean_name (h : IsName e) : clean e = e := by
  by_cases hdot : e = "."
  · rw [hdot]
    decide
  by_cases hdots : e = ".."
  · rw [hdots]
    decide
  have hstep := cleanStep_plain ⟨h, hdot, hdots⟩ false []
  have hclean := clean_relative h (forall_mem_nil _) (by simp [hstep])
  simpa [hstep] using hclean

theorem isName_of_lastElement (h : lastElement arg = some e) : IsName e :=
  ⟨by simpa using find?_some h,
    slash_not_mem_splitList (mem_reverse.mp (mem_of_find?_eq_some h))⟩

theorem isPlain_iff (h : lastElement arg = some e) :
    IsPlain e ↔ ∀ d, lastElement arg = some d → d ≠ "." ∧ d ≠ ".." := by
  constructor
  · intro hplain d hd
    obtain rfl := some.inj (h.symm.trans hd)
    exact ⟨hplain.ne_dot, hplain.ne_dots⟩
  · exact fun hdots => ⟨isName_of_lastElement h, (hdots e h).1, (hdots e h).2⟩

theorem getOutPath_eq (h : lastElement arg = some e) : getOutPath "" arg = e := by
  have hcut := split_trimRight (fun d hd => slash_not_mem_splitList hd) h
  rw [intercalate_splitList] at hcut
  rw [getOutPath, if_pos rfl, hcut, clean_name (isName_of_lastElement h)]

/-- **What the server cuts off.** -/
theorem fileArchive_eq (hroot : arg.toList.head? = some '/') (h : lastElement arg = some e)
    (he : IsPlain e) : fileArchive arg = e := by
  have hfold : ∀ elems : List String, elems.reverse.find? (· ≠ "") = some e →
      ∃ out, elems.foldl (cleanStep true) [] = e :: out := by
    intro elems h
    induction elems using reverseRecOn with
    | nil => cases h
    | append_singleton dirs name ih =>
      rw [reverse_append, reverse_singleton, singleton_append] at h
      rw [foldl_append, foldl_cons, foldl_nil]
      by_cases hnil : name = ""
      · rw [find?_cons_of_neg (by simpa using hnil)] at h
        rw [cleanStep.eq_def, if_pos (.inl hnil)]
        exact ih h
      · rw [find?_cons_of_pos (by simpa using hnil)] at h
        obtain rfl := some.inj h
        exact ⟨_, cleanStep_plain he _ _⟩
  obtain ⟨out, hout⟩ := hfold (splitList arg) h
  rw [fileArchive, clean_eq hroot hout, split_intercalate he.1.2]

theorem exists_lastElement (h : e ∈ splitList arg) (hne : e ≠ "") :
    ∃ last, lastElement arg = some last :=
  isSome_iff_exists.mp
    (find?_isSome.mpr ⟨e, mem_reverse.mpr h, by simpa using hne⟩)

theorem lastElement_append (d : String) (h : lastElement arg = some e) :
    lastElement (d ++ "/" ++ arg) = some e := by
  unfold lastElement at h ⊢
  rw [splitList_append, reverse_append, find?_append, h]
  rfl

theorem lastElement_name (h : IsName e) : lastElement e = some e := by
  rw [lastElement, splitList_of_not_mem h.2, reverse_singleton,
    find?_cons_of_pos (by simpa using h.1)]

section

variable {Cid Body : Type} (env : Env Cid Body)

/-- The name of the root of the archive that is sent for an argument. -/
def archiveName (arg : String) : String :=
  fileArchive <| match parsePath env arg with
    | .ok p => p
    | .error _ => arg

/-- The output is one new entry of the current directory, called like the root of the
archive. -/
def Agrees (arg : String) : Prop :=
  getOutPath "" arg = archiveName env arg ∧ IsPlain (getOutPath "" arg)

variable {env} {p : String}

theorem decode_of_decodeCid {c : Cid} (h : decodeCid env e = .ok c) : env.decode e = .ok c := by
  unfold decodeCid at h
  split at h
  · next hdecode =>
    cases h
    exact hdecode
  · split at h <;> cases h

/-- The path that an argument is parsed to ends as the argument does, unless the
argument is a bare CID. -/
theorem parsePath_cases (h : parsePath env arg = .ok p) :
    (∃ c, '/' ∉ arg.toList ∧ lastElement arg = some arg ∧ env.decode arg = .ok c ∧
      p = "/ipfs/" ++ env.string c) ∨
    ∃ e, '/' ∈ arg.toList ∧ p.toList.head? = some '/' ∧ lastElement arg = some e ∧
      lastElement p = some e := by
  by_cases hroot : ∃ q, arg = "/" ++ q
  · obtain ⟨q, rfl⟩ := hroot
    obtain ⟨hok, hvalid⟩ | ⟨⟨e, he⟩, -⟩ := Pretty404.parsePath_rooted env q
    · obtain ⟨key, hkey, hne⟩ : ∃ key ∈ splitList q, key ≠ "" := by
        unfold Pretty404.validRoot at hvalid
        split at hvalid
        · next ns key rest hsplit =>
          simp only [Bool.and_eq_true, decide_eq_true_eq] at hvalid
          exact ⟨key, by simp [hsplit], hvalid.1⟩
        · cases hvalid
      obtain ⟨last, hlast⟩ := exists_lastElement hkey hne
      have hlast := lastElement_append "" hlast
      obtain rfl := Except.ok.inj (h.symm.trans hok)
      exact .inr ⟨last, by simp, by simp, hlast, hlast⟩
    · cases h.symm.trans he
  unfold parsePath at h
  split at h
  · cases h
  · next key hsplit =>
    split at h
    · cases h
    · next hne =>
      have hkey : key = arg := by simpa [hsplit] using intercalate_splitList arg
      subst hkey
      have hname : IsName key := ⟨hne, slash_not_mem_splitList (hsplit ▸ mem_cons_self)⟩
      split at h
      · next c hdecode =>
        cases h
        exact .inl ⟨c, hname.2, lastElement_name hname, decode_of_decodeCid hdecode, rfl⟩
      · next hdecode =>
        rw [parseHash, hdecode] at h
        cases h
  · next first rest hrest hsplit =>
    have hfirst : first ≠ "" := by
      rintro rfl
      refine hroot ⟨"/".intercalate rest, ?_⟩
      rw [← intercalate_splitList arg, hsplit, String.intercalate_cons_of_ne_nil hrest]
      rfl
    have hslash : '/' ∈ arg.toList := by
      by_contra hno
      rw [splitList_of_not_mem hno] at hsplit
      exact hrest (cons.inj hsplit).2.symm
    obtain ⟨last, hlast⟩ := exists_lastElement (hsplit ▸ mem_cons_self) hfirst
    rw [if_pos hfirst, parseHash] at h
    split at h
    · cases h
    · cases h
      exact .inr ⟨last, hslash, by simp, hlast, lastElement_append "/ipfs" hlast⟩

/-- **Which arguments are written under the name of their object.**  A CID is printed as
a name. -/
theorem getOutPath_agrees_iff (hstring : ∀ c, IsPlain (env.string c))
    (hparse : parsePath env arg = .ok p) :
    Agrees env arg ↔
      (∀ e, lastElement arg = some e → e ≠ "." ∧ e ≠ "..") ∧
        ('/' ∉ arg.toList → ∀ c, env.decode arg = .ok c → env.string c = arg) := by
  have harchive : archiveName env arg = fileArchive p := by
    rw [archiveName, hparse]
  unfold Agrees
  rw [harchive]
  obtain ⟨c, hslash, hlast, hdecode, rfl⟩ | ⟨e, hslash, hroot, hlast, hlast'⟩ :=
    parsePath_cases hparse
  · have hname : fileArchive ("/ipfs/" ++ env.string c) = env.string c :=
      fileArchive_eq (by simp) (lastElement_append "/ipfs" (lastElement_name (hstring c).1))
        (hstring c)
    rw [getOutPath_eq hlast, hname, ← isPlain_iff hlast]
    constructor
    · rintro ⟨heq, hplain⟩
      refine ⟨hplain, fun _ d hd => ?_⟩
      rw [Except.ok.inj (hd.symm.trans hdecode), heq]
    · rintro ⟨hplain, hsame⟩
      exact ⟨(hsame hslash c hdecode).symm, hplain⟩
  · rw [getOutPath_eq hlast, ← isPlain_iff hlast]
    constructor
    · exact fun h => ⟨h.2, fun hno => absurd hslash hno⟩
    · exact fun h => ⟨(fileArchive_eq hroot hlast' h.1).symm, h.1⟩

end

/-- An argument that resolves to its root would be written over the parent of the current
directory. -/
theorem getOutPath_dots : segments "/ipfs/root/a/.." = ["ipfs", "root"] ∧
    getOutPath "" "/ipfs/root/a/.." = ".." ∧
    archiveName (sampleEnv fun _ => none) "/ipfs/root/a/.." = "root" := by
  decide +kernel

theorem getOutPath_agrees_slashes : Agrees (sampleEnv fun _ => none) "/ipfs/root/a/../b//" := by
  have hnew : IsPlain "new" := ⟨⟨by decide, by decide⟩, by decide, by decide⟩
  refine (getOutPath_agrees_iff (fun _ => hnew) (p := "/ipfs/root/a/../b//") rfl).mpr
    ⟨fun e he => ?_, fun hno => absurd hno (by decide)⟩
  have hlast : lastElement "/ipfs/root/a/../b//" = some "b" := by decide +kernel
  obtain rfl := some.inj (he.symm.trans hlast)
  exact ⟨by decide, by decide⟩

/-! ## `ipfs files rm` -/

def endsWithSlash (p : String) : Bool := p.toList.getLast? = some '/'

def checkPath (p : String) : Except String String :=
  if p = "" then .error "paths must not be empty"
  else if p.toList.head? ≠ some '/' then .error "paths must start with a leading slash"
  else .ok (if endsWithSlash p ∧ p ≠ "/" then clean p ++ "/" else clean p)

/-- The calls that change the tree, with the directory they are made on. -/
inductive Call where
  | unlink (dir name : String)
  | flush (dir : String)
  deriving DecidableEq, Repr

/-- Errors, with `os.ErrNotExist` told apart. -/
inductive Err where
  | notExist
  | other (text : String)
  deriving DecidableEq, Repr

def Err.text : Err → String
  | .notExist => "file does not exist"
  | .other text => text

/-- What MFS answers while one argument is removed: whether the parent is found, whether
the child is and is a directory, and how the two calls end. -/
structure Answers where
  parent : Option Err
  child : Except Err Bool
  unlink : Option Err
  flush : Option Err

section

variable (force dashr : Bool)

def unlinkAndFlush (mfs : Answers) (path : String) : Option String × List Call :=
  match mfs.unlink with
  | some err =>
    (if force ∧ err = .notExist then none else some (path ++ ": " ++ err.text),
      [.unlink (split path).1 (split path).2])
  | none =>
    (mfs.flush.map fun err => path ++ ": " ++ err.text,
      [.unlink (split path).1 (split path).2, .flush (split path).1])

/-- The part of the loop behind the test for the root: the error that is kept, and the
calls. -/
def remove (mfs : Answers) (path : String) : Option String × List Call :=
  match mfs.parent with
  | some err =>
    (if force ∧ err = .notExist then none else some (path ++ ": parent lookup: " ++ err.text), [])
  | none =>
    if force then unlinkAndFlush force mfs path
    else
      match mfs.child with
      | .error err => (some (path ++ ": " ++ err.text), [])
      | .ok isDirectory =>
        if isDirectory ∧ ¬ dashr then
          (some (path ++ " is a directory, use -r to remove directories"), [])
        else unlinkAndFlush force mfs path

/-- One round of the loop. -/
def rmArgument (arg : String) (mfs : Answers) : Option String × List Call :=
  match checkPath arg with
  | .error err => (some (arg ++ ": " ++ err), [])
  | .ok path =>
    if path = "/" then (some (path ++ ": cannot delete root"), [])
    else
      remove force dashr mfs
        (if endsWithSlash path then String.ofList path.toList.dropLast else path)

/-- `filesRmCmd.Run`; `emit` is the error of sending a text to the client. -/
def filesRm (emit : String → Option String) (args : List (String × Answers)) : Except String Unit :=
  let errs := args.filterMap fun a => (rmArgument force dashr a.1 a.2).1
  if errs = [] then .ok ()
  else .error ((errs.findSome? emit).getD "can't remove some files")

/-- A path that denotes the root of MFS. -/
def IsRoot (p : String) : Prop := p.toList.head? = some '/' ∧ clean p = "/"

/-- The root is refused, and of another path the last element is removed. -/
structure RootKept (emit : String → Option String) (args : List (String × Answers)) : Prop where
  refused : ∀ a ∈ args, IsRoot a.1 → (rmArgument force dashr a.1 a.2).1.isSome ∧
    (rmArgument force dashr a.1 a.2).2 = [] ∧ filesRm force dashr emit args ≠ .ok ()
  others : ∀ a ∈ args, ¬ IsRoot a.1 → ∀ dir name,
    .unlink dir name ∈ (rmArgument force dashr a.1 a.2).2 → ∃ dirs,
      splitList (clean a.1) = "" :: (dirs ++ [name]) ∧ dir = "/".intercalate ("" :: dirs) ++ "/"

/-- MFS reports an error before anything is unlinked. -/
def Refuses (mfs : Answers) : Prop :=
  match mfs.parent with
  | some err => ¬ (force ∧ err = .notExist)
  | none => force = false ∧
    match mfs.child with
    | .error _ => True
    | .ok isDirectory => isDirectory ∧ ¬ dashr

variable {force dashr} {mfs : Answers} {path dir name : String}

theorem mem_remove (h : .unlink dir name ∈ (remove force dashr mfs path).2) :
    split path = (dir, name) := by
  have hunlink : .unlink dir name ∈ (unlinkAndFlush force mfs path).2 →
      split path = (dir, name) := by
    unfold unlinkAndFlush
    split <;> simp +contextual
  unfold remove at h
  split at h
  · cases h
  split at h
  · exact hunlink h
  · split at h
    · cases h
    · split at h
      · cases h
      · exact hunlink h

theorem remove_refuses_iff :
    ((remove force dashr mfs path).1.isSome ∧ (remove force dashr mfs path).2 = []) ↔
      Refuses force dashr mfs := by
  have hunlink : (unlinkAndFlush force mfs path).2 ≠ [] := by
    unfold unlinkAndFlush
    split <;> simp
  unfold remove Refuses
  cases mfs.parent with
  | some err => by_cases hskip : force = true ∧ err = .notExist <;> simp [hskip]
  | none =>
    cases force with
    | true => simp [hunlink]
    | false =>
      cases mfs.child with
      | error err => simp
      | ok isDirectory => cases isDirectory <;> cases dashr <;> simp [hunlink]

theorem rmArgument_root (h : IsRoot arg) :
    ((rmArgument force dashr arg mfs).1.isSome ∧ (rmArgument force dashr arg mfs).2 = []) ↔
      (endsWithSlash arg → arg ≠ "/" → Refuses force dashr mfs) := by
  have hne : arg ≠ "" := by
    rintro rfl
    cases h.1
  unfold rmArgument checkPath
  rw [if_neg hne, if_neg (not_not.mpr h.1), h.2]
  by_cases hslash : endsWithSlash arg ∧ arg ≠ "/"
  · -- the path is `//`, and the slash is trimmed again
    rw [if_pos hslash]
    simp only [hslash.1, hslash.2, ne_eq, not_false_eq_true, forall_const]
    exact remove_refuses_iff
  · rw [if_neg hslash]
    simp only [if_true, isSome_some, true_and, true_iff]
    exact fun hends hne => absurd ⟨hends, hne⟩ hslash

/-- Of a path below the root the cleaned form is removed. -/
theorem rmArgument_below (hroot : arg.toList.head? = some '/') (h : clean arg ≠ "/") :
    rmArgument force dashr arg mfs = remove force dashr mfs (clean arg) ∧
      ∃ dirs name, splitList (clean arg) = "" :: (dirs ++ [name]) ∧
        split (clean arg) = ("/".intercalate ("" :: dirs) ++ "/", name) := by
  have hnames : ∀ e ∈ (splitList arg).foldl (cleanStep true) [], IsName e :=
    foldl_cleanStep_elements (forall_mem_nil _) fun e he => slash_not_mem_splitList he
  cases hfold : (splitList arg).foldl (cleanStep true) [] with
  | nil =>
    refine absurd ?_ h
    simp [clean, hroot, hfold]
  | cons name out =>
    rw [hfold] at hnames
    obtain ⟨hname, hout⟩ := forall_mem_cons.mp hnames
    have hclean := clean_eq hroot hfold
    refine ⟨?_, out.reverse, name, ?_, ?_⟩
    · have hends : endsWithSlash (clean arg) = false := by
        rw [hclean]
        simpa [endsWithSlash] using getLast?_intercalate ("" :: out.reverse) hname
      have hne : arg ≠ "" := by
        rintro rfl
        cases hroot
      have hempty : clean arg ≠ "" := by
        rw [hclean, cons_append, String.intercalate_cons_of_ne_nil (by simp)]
        simp
      unfold rmArgument checkPath
      rw [if_neg hne, if_neg (not_not.mpr hroot)]
      by_cases hslash : endsWithSlash arg ∧ arg ≠ "/"
      · rw [if_pos hslash]
        have hback : endsWithSlash (clean arg ++ "/") := by simp [endsWithSlash]
        simp [hback, hempty]
      · rw [if_neg hslash]
        simp only [if_neg h, hends, Bool.false_eq_true, if_false]
    · rw [hclean]
      refine splitList_intercalate (by simp) ?_
      simp only [forall_mem_append, forall_mem_cons]
      exact ⟨⟨by decide, fun e he => (hout e (mem_reverse.mp he)).2⟩, hname.2, forall_mem_nil _⟩
    · rw [hclean, split_intercalate hname.2]
      rfl

/-- **Which arguments cannot touch the root.** -/
theorem filesRm_root_iff (force dashr : Bool) (emit : String → Option String)
    (args : List (String × Answers)) :
    RootKept force dashr emit args ↔ ∀ a ∈ args, IsRoot a.1 → endsWithSlash a.1 → a.1 ≠ "/" →
      Refuses force dashr a.2 := by
  constructor
  · intro h a ha hroot
    obtain ⟨herr, hcalls, -⟩ := h.refused a ha hroot
    exact (rmArgument_root hroot).mp ⟨herr, hcalls⟩
  intro h
  refine ⟨fun a ha hroot => ?_, fun a ha hother dir name hcall => ?_⟩
  · obtain ⟨herr, hcalls⟩ := (rmArgument_root hroot).mpr (h a ha hroot)
    refine ⟨herr, hcalls, ?_⟩
    obtain ⟨err, herr⟩ := isSome_iff_exists.mp herr
    have hne : args.filterMap (fun a => (rmArgument force dashr a.1 a.2).1) ≠ [] :=
      ne_nil_of_mem (mem_filterMap.mpr ⟨a, ha, herr⟩)
    rw [filesRm, if_neg hne]
    nofun
  · by_cases hhead : a.1.toList.head? = some '/'
    · obtain ⟨hremove, dirs, last, hparts, hsplit⟩ := rmArgument_below hhead
        fun hclean => hother ⟨hhead, hclean⟩
      rw [hremove] at hcall
      obtain ⟨rfl, rfl⟩ := Prod.mk.inj (hsplit.symm.trans (mem_remove hcall))
      exact ⟨dirs, hparts, rfl⟩
    · unfold rmArgument checkPath at hcall
      split_ifs at hcall <;> cases hcall

end

/-- The forced removal of `//` unlinks in the root and succeeds. -/
theorem filesRm_slashes : IsRoot "//" ∧
    rmArgument true false "//" ⟨none, .error .notExist, some .notExist, none⟩ =
      (none, [.unlink "/" ""]) ∧
    filesRm true false (fun _ => none)
      [("//", ⟨none, .error .notExist, some .notExist, none⟩)] = .ok () := by
  refine ⟨⟨by decide, by decide⟩, by decide, rfl⟩

end PathArguments
