import GoIpfs.GatewayWriteOutcome
import GoIpfs.Hostname

/-!
# The page for a missing path

A gateway that cannot find a path looks for a file `ipfs-404.html` to show
instead: in the directory of the path itself, then in each directory above it, up
to the root of the tree.  It does so only for a client that accepts HTML, which
`preferred404Filename` reads off the `Accept` headers.

`searchUpTreeFor404` cuts the text of the path at its slashes and puts the file
name behind a beginning of that one array.  The name overwrites the component
after the beginning; since the beginnings get shorter, no later round reads it.

The header is read more narrowly than meant.  An item of a header may carry
parameters and blanks around it, but `strings.SplitN(spec, ";", 1)` cuts into one
piece, and nothing is trimmed: only an item that is a media type and nothing else
counts.
-/

namespace Pretty404

open GoBytes GoPath GatewayWrite List

/-! ## The headers -/

/-- The media types that a page in HTML serves. -/
def mediaTypes : List Bytes := [ascii "*/*", ascii "text/*", ascii "text/html"]

/-- The file to look for and its content type. -/
def preferred404Filename (acceptHeaders : List Bytes) : Except String (String × String) :=
  if acceptHeaders.any fun acceptHeader =>
      (acceptHeader.splitOn (byte ',')).any fun spec =>
        mediaTypes.contains ((Hostname.splitN (byte ';') 1 spec).headD [])
  then .ok ("ipfs-404.html", "text/html")
  else .error "there is no 404 file for the requested content types"

/-- Some item of some header is one of the media types and nothing else. -/
def named (acceptHeaders : List Bytes) : Prop :=
  ∃ header ∈ acceptHeaders, ∃ item ∈ header.splitOn (byte ','), item ∈ mediaTypes

def isSpace (b : UInt8) : Bool :=
  [byte ' ', byte '\t', byte '\n', byte '\r', 11, 12].contains b

/-- An item without white space around it. -/
def trimSpace (s : Bytes) : Bytes :=
  ((s.dropWhile isSpace).reverse.dropWhile isSpace).reverse

/-- Some item of some header is one of the media types, its parameters and the
white space around it aside. -/
def accepts (acceptHeaders : List Bytes) : Prop :=
  ∃ header ∈ acceptHeaders, ∃ item ∈ header.splitOn (byte ','),
    trimSpace (before (byte ';') item) ∈ mediaTypes

variable {acceptHeaders : List Bytes}

theorem preferred404Filename_of_named (h : named acceptHeaders) :
    preferred404Filename acceptHeaders = .ok ("ipfs-404.html", "text/html") := by
  obtain ⟨header, hheader, item, hitem, hmem⟩ := h
  unfold preferred404Filename
  rw [if_pos]
  refine any_eq_true.mpr ⟨header, hheader, any_eq_true.mpr ⟨item, hitem, ?_⟩⟩
  exact contains_iff_mem.mpr hmem

theorem preferred404Filename_of_not_named (h : ¬ named acceptHeaders) :
    preferred404Filename acceptHeaders =
      .error "there is no 404 file for the requested content types" := by
  unfold preferred404Filename
  rw [if_neg]
  intro hany
  obtain ⟨header, hheader, hitems⟩ := any_eq_true.mp hany
  obtain ⟨item, hitem, hmem⟩ := any_eq_true.mp hitems
  exact h ⟨header, hheader, item, hitem, contains_iff_mem.mp hmem⟩

theorem trimSpace_mediaType {item : Bytes} (h : item ∈ mediaTypes) :
    trimSpace (before (byte ';') item) = item := by
  have hall : ∀ item ∈ mediaTypes, trimSpace (before (byte ';') item) = item := by decide
  exact hall item h

theorem accepts_of_named (h : named acceptHeaders) : accepts acceptHeaders := by
  obtain ⟨header, hheader, item, hitem, hmem⟩ := h
  exact ⟨header, hheader, item, hitem, by rwa [trimSpace_mediaType hmem]⟩

/-! ## The search -/

/-- The parsing of paths, and what `CoreAPI.ResolvePath` finds at a valid one. -/
structure Api (Cid Body Resolved : Type) extends Env Cid Body where
  resolve : String → Option Resolved

variable {Cid Body Resolved : Type}

section Search

variable (api : Api Cid Body Resolved)

def newPath (p : String) : String :=
  match parsePath api.toEnv p with
  | .ok parsed => parsed
  | .error _ => p

def isValid (p : String) : Bool := (parsePath api.toEnv p).isOk

/-- `CoreAPI.ResolvePath`; an error is `none`. -/
def resolvePath (p : String) : Option Resolved :=
  if isValid api p then api.resolve p else none

/-- `append(components[0:idx], name)` and the array behind it afterwards.  There is
room for the name unless the slice is the whole array. -/
def appendTo (components : List String) (idx : Nat) (name : String) : List String × List String :=
  if idx < components.length then
    ((components.set idx name).take (idx + 1), components.set idx name)
  else (components.take idx ++ [name], components)

/-- The loop of `searchUpTreeFor404` over `idx = rounds + 2, …, 3`. -/
def searchLoop (filename404 : String) : Nat → List String → Option Resolved
  | 0, _ => none
  | rounds + 1, pathComponents =>
    let appended := appendTo pathComponents (rounds + 3) filename404
    let parsed404Path := newPath api ("/" ++ joinAll appended.1)
    if isValid api parsed404Path then
      (resolvePath api parsed404Path).or (searchLoop filename404 rounds appended.2)
    else none

/-- `gatewayHandler.searchUpTreeFor404`. -/
def searchUpTreeFor404 (acceptHeaders : List Bytes) (parsedPath : String) :
    Except String (Resolved × String) :=
  match preferred404Filename acceptHeaders with
  | .error e => .error e
  | .ok (filename404, ctype) =>
    let pathComponents := splitList parsedPath
    match searchLoop api filename404 (pathComponents.length - 2) pathComponents with
    | some resolvedPath => .ok (resolvedPath, ctype)
    | none => .error "no pretty 404 in any parent folder"

end Search

variable {k : Nat}

section Append

variable {components : List String} {idx : Nat} {name : String}

theorem appendTo_fst : (appendTo components idx name).1 = components.take idx ++ [name] := by
  unfold appendTo
  split
  · next hlt =>
    have hset : idx < (components.set idx name).length := by rwa [length_set]
    rw [take_succ_eq_append_getElem hset, getElem_set_self, take_set_of_le le_rfl]
  · rfl

theorem take_appendTo_snd (h : k ≤ idx) :
    (appendTo components idx name).2.take k = components.take k := by
  unfold appendTo
  split
  · exact take_set_of_le h
  · rfl

end Append

/-! ## The directories of a path -/

/-- A path `/ns/root/c1/…/cn`. -/
structure TreePath where
  ns : String
  root : String
  names : List String
  ns_noSlash : '/' ∉ ns.toList
  root_noSlash : '/' ∉ root.toList
  names_noSlash : ∀ name ∈ names, '/' ∉ name.toList

namespace TreePath

variable (path : TreePath)

/-- The elements of `/ns/root/c1/…/ck`. -/
def elements (k : Nat) : List String := path.ns :: path.root :: path.names.take k

def dir (k : Nat) : String := "/" ++ "/".intercalate (path.elements k)

def text : String := path.dir path.names.length

theorem elements_ne_nil (k : Nat) : path.elements k ≠ [] := cons_ne_nil _ _

theorem elements_noSlash (k : Nat) : ∀ e ∈ path.elements k, '/' ∉ e.toList := by
  refine forall_mem_cons.mpr ⟨path.ns_noSlash,
    forall_mem_cons.mpr ⟨path.root_noSlash, fun e he => ?_⟩⟩
  exact path.names_noSlash e (mem_of_mem_take he)

theorem take_elements (k : Nat) :
    ("" :: path.elements (k + 1)).take (k + 3) = "" :: path.elements k := by
  unfold elements
  rw [take_succ_cons, take_succ_cons, take_succ_cons, take_take, min_eq_left (Nat.le_succ k)]

theorem splitList_text : splitList path.text = "" :: path.elements path.names.length := by
  unfold text dir
  rw [splitList_rooted, splitList_intercalate (path.elements_ne_nil _) (path.elements_noSlash _)]

/-- The path that the search tries for a directory. -/
def candidate (k : Nat) : String := "/" ++ joinAll ("" :: path.elements k ++ ["ipfs-404.html"])

end TreePath

section Directories

variable (api : Api Cid Body Resolved) (path : TreePath)

/-- The page of the directory `/ns/root/c1/…/ck`. -/
def page (k : Nat) : Option Resolved :=
  resolvePath api (join (path.dir k) "ipfs-404.html")

/-- The page of the deepest of the directories `/ns/root`, …, `/ns/root/c1/…/ck`
that has one. -/
def deepestUpTo : Nat → Option Resolved
  | 0 => page api path 0
  | k + 1 => (page api path (k + 1)).or (deepestUpTo k)

def deepest : Option Resolved := deepestUpTo api path path.names.length

/-- The search gets from the directory `/ns/root/c1/…/ck` to one with a page over
valid paths. -/
def Reached (k : Nat) : Prop :=
  ∃ i ≤ k, (page api path i).isSome ∧ ∀ j, i ≤ j → j ≤ k → isValid api (path.candidate j) = true

/-- The search succeeds exactly for a client that accepts HTML and a path with a
page, and returns the deepest one. -/
def Correct (acceptHeaders : List Bytes) : Prop :=
  ∀ resolved, (∃ ctype, searchUpTreeFor404 api acceptHeaders path.text = .ok (resolved, ctype)) ↔
    accepts acceptHeaders ∧ deepest api path = some resolved

end Directories

/-! ## What the search tries -/

section Candidates

variable {api : Api Cid Body Resolved} {path : TreePath}

theorem isPlain_filename404 : IsPlain "ipfs-404.html" :=
  ⟨⟨by decide, by decide⟩, by decide, by decide⟩

/-- What `ParsePath` asks of a path behind its first slash. -/
def validRoot (env : Env Cid Body) : List String → Bool
  | ns :: key :: _ =>
    key ≠ "" && ((ns = "ipfs" || ns = "ipld") && (decodeCid env key).isOk || ns = "ipns")
  | _ => false

/-- The elements of a directory and the file in it, cleaned. -/
def cleaned (path : TreePath) (rooted : Bool) (k : Nat) : List String :=
  (path.elements k).foldl (cleanStep rooted) []

theorem foldl_filename404 (rooted : Bool) (k : Nat) :
    (path.elements k ++ ["ipfs-404.html"]).foldl (cleanStep rooted) [] =
      "ipfs-404.html" :: cleaned path rooted k := by
  rw [foldl_append, foldl_cons, foldl_nil, cleanStep_plain isPlain_filename404]
  rfl

theorem join_dir (k : Nat) :
    join (path.dir k) "ipfs-404.html" =
      "/" ++ "/".intercalate ("ipfs-404.html" :: cleaned path true k).reverse := by
  rw [TreePath.dir, join_rooted (path.elements_ne_nil k) (path.elements_noSlash k)
    isPlain_filename404.1.2, foldl_filename404]

theorem candidate_eq (k : Nat) :
    path.candidate k =
      "/" ++ "/".intercalate ("ipfs-404.html" :: cleaned path false k).reverse := by
  have hslash : ∀ e ∈ "" :: path.elements k ++ ["ipfs-404.html"], '/' ∉ e.toList := by
    intro e he
    rcases mem_append.mp he with hmem | hmem
    · rcases mem_cons.mp hmem with hempty | hmem
      · rw [hempty]
        exact not_mem_nil
      · exact path.elements_noSlash k e hmem
    · rw [mem_singleton.mp hmem]
      exact isPlain_filename404.1.2
  have hfold : ("" :: path.elements k ++ ["ipfs-404.html"]).foldl (cleanStep false) [] =
      "ipfs-404.html" :: cleaned path false k := foldl_filename404 false k
  rw [TreePath.candidate, joinAll_eq hslash (by rw [hfold]; exact cons_ne_nil _ _), hfold]

/-- A path with a slash in front is parsed to itself or not at all, by the first two
elements behind the slash. -/
theorem parsePath_rooted (env : Env Cid Body) (p : String) :
    parsePath env ("/" ++ p) = .ok ("/" ++ p) ∧ validRoot env (splitList p) = true ∨
      (∃ e, parsePath env ("/" ++ p) = .error e) ∧ validRoot env (splitList p) = false := by
  unfold parsePath
  rw [splitList_rooted]
  match splitList p with
  | [] | [ns] => exact .inr ⟨⟨_, rfl⟩, rfl⟩
  | ns :: key :: rest =>
    simp only [ne_eq, not_true_eq_false, if_false]
    by_cases hns : ns = "ipfs" ∨ ns = "ipld"
    · rw [if_pos hns]
      by_cases hkey : key = ""
      · exact .inr ⟨⟨_, if_pos hkey⟩, by simp [validRoot, hkey]⟩
      rw [if_neg hkey]
      cases hdecode : decodeCid env key with
      | error e => 
        have hipns : ns ≠ "ipns" := by
          intro heq
          rw [heq] at hns
          exact absurd hns (by decide)
        exact .inr ⟨⟨_, rfl⟩, by simp [validRoot, hdecode, hipns, Except.isOk, Except.toBool]⟩
      | ok c =>
        exact .inl ⟨rfl, by simp [validRoot, hdecode, hkey, hns, Except.isOk, Except.toBool]⟩
    · rw [if_neg hns]
      have hother : (decide (ns = "ipfs") || decide (ns = "ipld")) = false := by
        simpa using hns
      by_cases hipns : ns = "ipns"
      · rw [if_pos hipns]
        by_cases hkey : key = ""
        · exact .inr ⟨⟨_, if_pos hkey⟩, by simp [validRoot, hkey]⟩
        · exact .inl ⟨if_neg hkey, by simp [validRoot, hkey, hipns]⟩
      · exact .inr ⟨⟨_, if_neg hipns⟩, by simp [validRoot, hother, hipns]⟩

theorem isValid_rooted (p : String) :
    isValid api ("/" ++ p) = validRoot api.toEnv (splitList p) := by
  unfold isValid
  rcases parsePath_rooted api.toEnv p with ⟨hok, hroot⟩ | ⟨⟨e, herr⟩, hroot⟩
  · rw [hok, hroot]
    rfl
  · rw [herr, hroot]
    rfl

theorem newPath_rooted (p : String) : newPath api ("/" ++ p) = "/" ++ p := by
  unfold newPath
  rcases parsePath_rooted api.toEnv p with ⟨hok, _⟩ | ⟨⟨e, herr⟩, _⟩
  · rw [hok]
  · rw [herr]

theorem splitList_cleaned (rooted : Bool) (k : Nat) :
    splitList ("/".intercalate ("ipfs-404.html" :: cleaned path rooted k).reverse) =
      ("ipfs-404.html" :: cleaned path rooted k).reverse := by
  have hcleaned : ∀ e ∈ cleaned path rooted k, IsName e :=
    foldl_cleanStep_elements nofun (path.elements_noSlash k)
  refine splitList_intercalate (fun hnil => cons_ne_nil _ _ (reverse_eq_nil_iff.mp hnil))
    fun e he => ?_
  rcases mem_cons.mp (mem_reverse.mp he) with heq | hmem
  · rw [heq]
    exact isPlain_filename404.1.2
  · exact (hcleaned e hmem).2

theorem isValid_candidate (k : Nat) :
    isValid api (path.candidate k) =
      validRoot api.toEnv ("ipfs-404.html" :: cleaned path false k).reverse := by
  rw [candidate_eq, isValid_rooted, splitList_cleaned]

theorem validRoot_dots (env : Env Cid Body) (elems : List String) :
    validRoot env (".." :: elems) = false := by
  cases elems with
  | nil => rfl
  | cons key rest => exact Bool.and_false _

/-- **A valid path that the search tries is the file in the directory.** -/
theorem candidate_of_valid (h : isValid api (path.candidate k) = true) :
    path.candidate k = join (path.dir k) "ipfs-404.html" := by
  have hnil : ".." ∉ ([] : List String) := not_mem_nil
  obtain ⟨m, hm⟩ := foldl_cleanStep_relative (path.elements k) hnil 0
  have hcleaned : cleaned path false k = cleaned path true k ++ replicate m ".." := hm
  cases m with
  | zero => rw [candidate_eq, join_dir, hcleaned, replicate_zero, append_nil]
  | succ m =>
    rw [isValid_candidate, hcleaned, replicate_succ', ← append_assoc,
      ← cons_append, reverse_append, reverse_singleton, singleton_append,
      validRoot_dots] at h
    cases h

theorem searchLoop_step {components : List String}
    (htake : components.take (k + 3) = "" :: path.elements k) :
    searchLoop api "ipfs-404.html" (k + 1) components =
      if isValid api (path.candidate k) then
        (page api path k).or
          (searchLoop api "ipfs-404.html" k (appendTo components (k + 3) "ipfs-404.html").2)
      else none := by
  have hnew : newPath api ("/" ++ joinAll (appendTo components (k + 3) "ipfs-404.html").1) =
      path.candidate k := by
    rw [newPath_rooted, appendTo_fst, htake]
    rfl
  rw [searchLoop, hnew]
  split
  · next hvalid => rw [page, ← candidate_of_valid hvalid]
  · rfl

end Candidates

/-! ## What the search finds -/

section Results

variable {api : Api Cid Body Resolved} {path : TreePath}

theorem reached_zero : Reached api path 0 ↔
    isValid api (path.candidate 0) = true ∧ (page api path 0).isSome := by
  constructor
  · intro h
    obtain ⟨i, hi, hpage, hvalid⟩ := h
    obtain rfl := Nat.le_zero.mp hi
    exact ⟨hvalid 0 le_rfl le_rfl, hpage⟩
  · intro h
    refine ⟨0, le_rfl, h.2, fun j _ hj => ?_⟩
    obtain rfl := Nat.le_zero.mp hj
    exact h.1

theorem reached_succ : Reached api path (k + 1) ↔ isValid api (path.candidate (k + 1)) = true ∧
      ((page api path (k + 1)).isSome ∨ Reached api path k) := by
  constructor
  · intro h
    obtain ⟨i, hi, hpage, hvalid⟩ := h
    refine ⟨hvalid (k + 1) hi le_rfl, ?_⟩
    rcases Nat.lt_or_eq_of_le hi with hlt | heq
    · exact .inr ⟨i, Nat.lt_succ_iff.mp hlt, hpage, fun j hij hj => hvalid j hij (by omega)⟩
    · exact .inl (heq ▸ hpage)
  · intro h
    obtain ⟨hvalid, hpage | hreached⟩ := h
    · refine ⟨k + 1, le_rfl, hpage, fun j hle hge => ?_⟩
      rw [le_antisymm hge hle]
      exact hvalid
    obtain ⟨i, hi, hpage, hbelow⟩ := hreached
    refine ⟨i, by omega, hpage, fun j hij hj => ?_⟩
    rcases Nat.lt_or_eq_of_le hj with hlt | heq
    · exact hbelow j hij (by omega)
    · rw [heq]
      exact hvalid

/-- **The search finds the deepest page, if only valid paths lie before it.** -/
theorem searchLoop_eq_some {components : List String}
    (htake : components.take (k + 3) = "" :: path.elements k) (resolved : Resolved) :
    searchLoop api "ipfs-404.html" (k + 1) components = some resolved ↔
      deepestUpTo api path k = some resolved ∧ Reached api path k := by
  induction k generalizing components with
  | zero =>
    rw [searchLoop_step htake, searchLoop, reached_zero, deepestUpTo]
    cases hpage : page api path 0 with
    | none => simp
    | some found => simp [and_comm]
  | succ k ih =>
    have hnext : (appendTo components (k + 1 + 3) "ipfs-404.html").2.take (k + 3) =
        "" :: path.elements k := by
      have hshort := congrArg (take (k + 3)) htake
      rw [take_take, min_eq_left (by omega)] at hshort
      rw [take_appendTo_snd (by omega), hshort]
      exact path.take_elements k
    rw [searchLoop_step htake, reached_succ, deepestUpTo]
    cases hpage : page api path (k + 1) with
    | some found => simp [and_comm]
    | none =>
      have hloop := ih hnext
      split
      · next hvalid => simp [hvalid, hloop]
      · next hvalid => simp [hvalid]

theorem search_of_not_named (h : ¬ named acceptHeaders) (p : String) :
    searchUpTreeFor404 api acceptHeaders p =
      .error "there is no 404 file for the requested content types" := by
  rw [searchUpTreeFor404, preferred404Filename_of_not_named h]

theorem search_of_named (h : named acceptHeaders) (resolved : Resolved) :
    (∃ ctype, searchUpTreeFor404 api acceptHeaders path.text = .ok (resolved, ctype)) ↔
      deepest api path = some resolved ∧ Reached api path path.names.length := by
  have htake : ("" :: path.elements path.names.length).take (path.names.length + 3) =
      "" :: path.elements path.names.length := by
    simp [TreePath.elements]
  have hrounds : ("" :: path.elements path.names.length).length - 2 = path.names.length + 1 := by
    simp [TreePath.elements]
  have hloop : searchLoop api "ipfs-404.html" (path.names.length + 1)
      ("" :: path.elements path.names.length) = some resolved ↔ _ :=
    searchLoop_eq_some htake resolved
  rw [searchUpTreeFor404, preferred404Filename_of_named h]
  dsimp only
  rw [path.splitList_text, hrounds]
  cases hfound : searchLoop api "ipfs-404.html" (path.names.length + 1)
      ("" :: path.elements path.names.length) with
  | none =>
    rw [hfound] at hloop
    refine iff_of_false (fun hok => ?_) (fun hdeepest => ?_)
    · obtain ⟨ctype, hok⟩ := hok
      cases hok
    · cases hloop.mpr hdeepest
  | some found =>
    rw [hfound] at hloop
    refine Iff.trans ⟨fun hok => ?_, fun heq => ?_⟩ hloop
    · obtain ⟨ctype, hok⟩ := hok
      cases hok
      rfl
    · cases heq
      exact ⟨_, rfl⟩

/-- **When the search for a page is right.**  For all headers and every path: if the
client accepts HTML and some directory of the path has a page, then some item of a
header has to be a media type and nothing else, and no invalid path may lie before
the page. -/
theorem searchUpTreeFor404_correct_iff (api : Api Cid Body Resolved) (path : TreePath)
    (acceptHeaders : List Bytes) :
    Correct api path acceptHeaders ↔
      (accepts acceptHeaders → (deepest api path).isSome →
        named acceptHeaders ∧ Reached api path path.names.length) := by
  by_cases hnamed : named acceptHeaders
  · have haccepts := accepts_of_named hnamed
    unfold Correct
    simp only [search_of_named hnamed, haccepts, hnamed, true_and, true_implies]
    constructor
    · intro h hsome
      obtain ⟨resolved, hdeepest⟩ := Option.isSome_iff_exists.mp hsome
      exact ((h resolved).mpr hdeepest).2
    · intro h resolved
      exact ⟨fun hfound => hfound.1, fun hdeepest => ⟨hdeepest, h (by rw [hdeepest]; rfl)⟩⟩
  · have hnever : ∀ resolved ctype,
        searchUpTreeFor404 api acceptHeaders path.text ≠ .ok (resolved, ctype) := by
      intro resolved ctype hok
      rw [search_of_not_named hnamed] at hok
      cases hok
    constructor
    · intro h haccepts hsome
      obtain ⟨resolved, hdeepest⟩ := Option.isSome_iff_exists.mp hsome
      obtain ⟨ctype, hok⟩ := (h resolved).mpr ⟨haccepts, hdeepest⟩
      exact absurd hok (hnever resolved ctype)
    · intro h resolved
      refine iff_of_false (fun hok => ?_) (fun hspec => ?_)
      · obtain ⟨ctype, hok⟩ := hok
        exact hnever resolved ctype hok
      · exact hnamed (h hspec.1 (by rw [hspec.2]; rfl)).1

/-- The directory `/ipfs/root`, which has a page. -/
def rootDirectory : TreePath where
  ns := "ipfs"
  root := "root"
  names := []
  ns_noSlash := by decide
  root_noSlash := by decide
  names_noSlash := fun _ h => absurd h List.not_mem_nil

def rootPage : Api CoreUnix.Block Nat String where
  toEnv := sampleEnv fun _ => none
  resolve := fun p => if p = "/ipfs/root/ipfs-404.html" then some p else none

/-- A client that sends `Accept: text/html;q=0.9` gets no page. -/
theorem parameters_hide_page :
    accepts [ascii "text/html;q=0.9"] ∧
      deepest rootPage rootDirectory = some "/ipfs/root/ipfs-404.html" ∧
      searchUpTreeFor404 rootPage [ascii "text/html;q=0.9"] rootDirectory.text =
        .error "there is no 404 file for the requested content types" ∧
      ¬ Correct rootPage rootDirectory [ascii "text/html;q=0.9"] := by
  have haccepts : accepts [ascii "text/html;q=0.9"] := by
    unfold accepts
    decide +kernel
  have hdeepest : deepest rootPage rootDirectory = some "/ipfs/root/ipfs-404.html" := by
    decide +kernel
  have hsearch : searchUpTreeFor404 rootPage [ascii "text/html;q=0.9"] rootDirectory.text =
      .error "there is no 404 file for the requested content types" := by
    apply search_of_not_named
    unfold named
    decide +kernel
  refine ⟨haccepts, hdeepest, hsearch, fun hcorrect => ?_⟩
  obtain ⟨ctype, hok⟩ := (hcorrect _).mpr ⟨haccepts, hdeepest⟩
  cases hok

end Results

end Pretty404
