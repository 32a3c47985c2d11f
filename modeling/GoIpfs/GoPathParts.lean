import GoIpfs.GoBytes
import GoIpfs.GoPath

/-!
# The elements of a path

A path is the elements between its slashes.  `splitList_intercalate` says that
joining and splitting are inverse to each other, `elements_clean` what elements
a cleaned path has, and `split_intercalate` how `path.Split` cuts off the last
one.
-/

namespace GoPath

open GoBytes List

/-- A name that can stand between two slashes and is not empty. -/
def IsName (e : String) : Prop := e ≠ "" ∧ '/' ∉ e.toList

theorem splitList_ne_nil (p : String) : splitList p ≠ [] := by
  unfold splitList
  rw [ne_eq, map_eq_nil_iff]
  exact splitOn_ne_nil _ _

variable {p e : String}

theorem slash_not_mem_splitList (h : e ∈ splitList p) : '/' ∉ e.toList := by
  obtain ⟨cs, hcs, rfl⟩ := mem_map.mp h
  have hnot := not_mem_of_mem_splitOn '/' _ cs hcs
  simpa using hnot

theorem toList_intercalate (elems : List String) :
    ("/".intercalate elems).toList = ['/'].intercalate (elems.map String.toList) := by
  have hslash : "/".toList = ['/'] := rfl
  rw [String.toList_intercalate, hslash]

variable {elems : List String}

/-- **Splitting undoes joining.** -/
theorem splitList_intercalate (hne : elems ≠ []) (h : ∀ e ∈ elems, '/' ∉ e.toList) :
    splitList ("/".intercalate elems) = elems := by
  have hparts : ∀ l ∈ elems.map String.toList, '/' ∉ l := by
    intro l hl
    obtain ⟨e, he, rfl⟩ := mem_map.mp hl
    exact h e he
  have hsplit := splitOn_intercalate '/' hparts (by simpa using hne)
  unfold splitList
  rw [toList_intercalate, hsplit, map_map]
  simp

theorem intercalate_splitList (p : String) : "/".intercalate (splitList p) = p := by
  apply String.toList_injective
  have hchars : (splitList p).map String.toList = p.toList.splitOn '/' := by
    simp [splitList, Function.comp_def]
  rw [toList_intercalate, hchars, intercalate_splitOn]

theorem splitList_append (d q : String) :
    splitList (d ++ "/" ++ q) = splitList d ++ splitList q := by
  have hslash : "/".toList = ['/'] := rfl
  unfold splitList
  rw [String.toList_append, String.toList_append, hslash, append_assoc, singleton_append,
    splitOn_append_cons_self, map_append]

theorem splitList_rooted (p : String) : splitList ("/" ++ p) = "" :: splitList p :=
  splitList_append "" p

theorem splitList_of_not_mem (h : '/' ∉ e.toList) : splitList e = [e] := by
  rw [splitList, splitOn_eq_singleton h]
  simp

/-! ## Cleaned paths -/

variable {out : List String} {name : String}

theorem cleanStep_elements {rooted : Bool} {elem : String} (hout : ∀ e ∈ out, IsName e)
    (helem : '/' ∉ elem.toList) : ∀ e ∈ cleanStep rooted out elem, IsName e := by
  have hdots : IsName ".." := ⟨by decide, by decide⟩
  unfold cleanStep
  split
  · exact hout
  rename_i hne
  split
  · split
    · split
      · exact hout
      · intro e he
        rw [mem_singleton.mp he]
        exact hdots
    · split
      · exact forall_mem_cons.mpr ⟨hdots, hout⟩
      · exact fun e he => hout e (mem_cons_of_mem _ he)
  · exact forall_mem_cons.mpr ⟨⟨fun h => hne (.inl h), helem⟩, hout⟩

theorem foldl_cleanStep_elements {rooted : Bool} (hout : ∀ e ∈ out, IsName e)
    (h : ∀ e ∈ elems, '/' ∉ e.toList) : ∀ e ∈ elems.foldl (cleanStep rooted) out, IsName e := by
  induction elems generalizing out with
  | nil => exact hout
  | cons elem rest ih =>
    exact ih (cleanStep_elements hout (h elem mem_cons_self)) fun e he => h e (mem_cons_of_mem _ he)

/-- **The elements of a cleaned path.**  There are names after the leading slash,
or none at all. -/
theorem elements_clean (p : String) :
    ∃ elems : List String, (∀ e ∈ elems, IsName e) ∧
      (splitList (clean p) = "" :: elems ∨ splitList (clean p) = elems ∨
        splitList (clean p) = ["", ""]) := by
  let rooted : Bool := decide (p.toList.head? = some '/')
  let elems := ((splitList p).foldl (cleanStep rooted) []).reverse
  have hnames : ∀ e ∈ elems, IsName e := by
    intro e he
    refine foldl_cleanStep_elements (fun e he => by cases he)
      (fun e he => slash_not_mem_splitList he) e (mem_reverse.mp he)
  have hclean : clean p = if p.toList.head? = some '/' then "/" ++ "/".intercalate elems
      else if elems = [] then "." else "/".intercalate elems := rfl
  have hsplit : elems ≠ [] → splitList ("/".intercalate elems) = elems := fun hne =>
    splitList_intercalate hne fun e he => (hnames e he).2
  rw [hclean]
  split
  · rw [splitList_rooted]
    by_cases hnil : elems = []
    · rw [hnil]
      exact ⟨[], nofun, .inr (.inr (by decide))⟩
    · exact ⟨elems, hnames, .inl (by rw [hsplit hnil])⟩
  · split
    · refine ⟨["."], fun e he => ?_, .inr (.inl (by decide))⟩
      rw [mem_singleton.mp he]
      exact ⟨by decide, by decide⟩
    · rename_i hnil
      exact ⟨elems, hnames, .inr (.inl (hsplit hnil))⟩

/-- An element that `Clean` keeps where it stands. -/
structure IsPlain (e : String) : Prop extends IsName e where
  ne_dot : e ≠ "."
  ne_dots : e ≠ ".."

theorem cleanStep_plain (h : IsPlain e) (rooted : Bool) (out : List String) :
    cleanStep rooted out e = e :: out := by
  unfold cleanStep
  rw [if_neg (fun hskip => hskip.elim h.1.1 h.ne_dot), if_neg h.ne_dots]

theorem clean_rooted (p : String) :
    clean ("/" ++ p) =
      "/" ++ "/".intercalate ((splitList p).foldl (cleanStep true) []).reverse := by
  have hhead : ("/" ++ p).toList.head? = some '/' := by
    rw [String.toList_append]
    rfl
  unfold clean
  rw [splitList_rooted]
  simp only [hhead, decide_true, if_true, foldl_cons]
  rfl

theorem head?_intercalate (h : IsName e) (rest : List String) :
    ("/".intercalate (e :: rest)).toList.head? ≠ some '/' := by
  rw [toList_intercalate, map_cons]
  cases hchars : e.toList with
  | nil => exact absurd (String.toList_eq_nil_iff.mp hchars) h.1
  | cons c cs =>
    have hc : c ≠ '/' := fun heq => h.2 (by rw [hchars, heq]; exact mem_cons_self)
    cases rest with
    | nil | cons d rest => simpa using hc

theorem clean_relative {rest : List String} (he : IsName e) (hrest : ∀ d ∈ rest, '/' ∉ d.toList)
    (hout : (e :: rest).foldl (cleanStep false) [] ≠ []) :
    clean ("/".intercalate (e :: rest)) =
      "/".intercalate ((e :: rest).foldl (cleanStep false) []).reverse := by
  have hsplit : splitList ("/".intercalate (e :: rest)) = e :: rest :=
    splitList_intercalate (cons_ne_nil _ _) (forall_mem_cons.mpr ⟨he.2, hrest⟩)
  unfold clean
  rw [hsplit]
  simp only [head?_intercalate he rest, decide_false, if_false]
  rw [if_neg (fun hnil => hout (reverse_eq_nil_iff.mp hnil))]

theorem cleanStep_dots {last : String} (h : last ≠ "..") (rooted : Bool) (out : List String) :
    cleanStep rooted (last :: out) ".." = out := by
  exact if_neg h

theorem cleanStep_climbs (m : Nat) :
    cleanStep false (replicate m "..") ".." = replicate (m + 1) ".." := by
  cases m with
  | zero | succ m => rfl

theorem foldl_cleanStep_dropWhile (rooted : Bool) (elems out : List String) :
    (elems.dropWhile (· = "")).foldl (cleanStep rooted) out =
      elems.foldl (cleanStep rooted) out := by
  induction elems with
  | nil => rfl
  | cons e rest ih =>
    by_cases he : e = ""
    · rw [dropWhile_cons_of_pos (by simpa using he), ih, foldl_cons,
        cleanStep.eq_def, if_pos (.inl he)]
    · rw [dropWhile_cons_of_neg (by simpa using he)]

/-- **A relative path differs from the rooted one by the `..` in front.** -/
theorem foldl_cleanStep_relative (elems : List String) (hout : ".." ∉ out) (m : Nat) :
    ∃ m', elems.foldl (cleanStep false) (out ++ replicate m "..") =
      elems.foldl (cleanStep true) out ++ replicate m' ".." := by
  induction elems generalizing out m with
  | nil => exact ⟨m, rfl⟩
  | cons e rest ih =>
    rw [foldl_cons, foldl_cons]
    by_cases hskip : e = "" ∨ e = "."
    · rw [cleanStep.eq_def, if_pos hskip, cleanStep.eq_def, if_pos hskip]
      exact ih hout m
    by_cases hdots : e = ".."
    · rw [hdots]
      cases out with
      | nil =>
        -- nothing is left to remove: the relative path climbs
        rw [nil_append, cleanStep_climbs]
        exact ih hout (m + 1)
      | cons last out =>
        have hlast : last ≠ ".." := fun heq => hout (heq ▸ mem_cons_self)
        rw [cons_append, cleanStep_dots hlast, cleanStep_dots hlast]
        exact ih (fun hmem => hout (mem_cons_of_mem _ hmem)) m
    · rw [cleanStep.eq_def, if_neg hskip, if_neg hdots, cleanStep.eq_def, if_neg hskip,
        if_neg hdots, ← cons_append]
      exact ih (by
        intro hmem
        rcases mem_cons.mp hmem with heq | hmem
        · exact hdots heq.symm
        · exact hout hmem) m

/-! ## The last element -/

theorem split_of_cut {before after : List Char} (h : p.toList = before ++ '/' :: after)
    (hafter : '/' ∉ after) : split p = (String.ofList (before ++ ['/']), String.ofList after) := by
  have htake : p.toList.reverse.takeWhile (· ≠ '/') = after.reverse := by
    rw [h, reverse_append, reverse_cons, append_assoc, takeWhile_append_of_pos]
    · simp
    · intro c hc
      have hne : c ≠ '/' := fun heq => hafter (heq ▸ mem_reverse.mp hc)
      simpa using hne
  have hlen : p.toList.length - after.length = (before ++ ['/']).length := by
    rw [h]
    simp only [length_append, length_cons, length_nil]
    omega
  have hcut : p.toList = (before ++ ['/']) ++ after := by
    rw [h, append_assoc, singleton_append]
  unfold split
  simp only [htake, reverse_reverse]
  rw [hlen, hcut, take_left]

theorem split_of_no_slash (h : '/' ∉ p.toList) : split p = ("", p) := by
  have htake : p.toList.reverse.takeWhile (· ≠ '/') = p.toList.reverse := by
    rw [takeWhile_eq_self_iff]
    intro c hc
    have hne : c ≠ '/' := fun heq => h (heq ▸ mem_reverse.mp hc)
    simpa using hne
  unfold split
  simp only [htake, reverse_reverse, Nat.sub_self, take_zero]
  simp

variable {dirs : List String}

/-- **`Split` cuts off the last element.** -/
theorem split_intercalate (hname : '/' ∉ name.toList) :
    split ("/".intercalate (dirs ++ [name])) =
      (if dirs = [] then "" else "/".intercalate dirs ++ "/", name) := by
  by_cases hnil : dirs = []
  · subst hnil
    have hone : "/".intercalate ([] ++ [name]) = name := by simp
    rw [hone, split_of_no_slash hname, if_pos rfl]
  have hlist : ("/".intercalate (dirs ++ [name])).toList =
      ("/".intercalate dirs).toList ++ '/' :: name.toList := by
    rw [String.intercalate_append_of_ne_nil hnil (by simp)]
    simp
  have hdir : String.ofList (("/".intercalate dirs).toList ++ ['/']) =
      "/".intercalate dirs ++ "/" := by
    apply String.toList_injective
    have hslash : "/".toList = ['/'] := rfl
    simp
  rw [split_of_cut hlist hname, hdir, if_neg hnil]
  simp

theorem getLast?_intercalate (dirs : List String) (hname : IsName name) :
    ("/".intercalate (dirs ++ [name])).toList.getLast? ≠ some '/' := by
  have hchars : name.toList ≠ [] := by simpa using hname.1
  have hlast : ("/".intercalate (dirs ++ [name])).toList.getLast? = name.toList.getLast? := by
    by_cases hnil : dirs = []
    · simp [hnil]
    · rw [String.intercalate_append_of_ne_nil hnil (by simp), String.toList_append,
        String.intercalate_singleton, getLast?_append_of_ne_nil _ hchars]
  rw [hlast]
  exact fun hslash => hname.2 (mem_of_getLast? hslash)

theorem dropWhile_slash {l : List Char} (h : l.head? ≠ some '/') : l.dropWhile (· = '/') = l := by
  cases l with
  | nil => rfl
  | cons c rest =>
    simpa using h

theorem trim_intercalate (hne : dirs ≠ []) (h : ∀ d ∈ dirs, IsName d) :
    trim ("/".intercalate dirs ++ "/") = "/".intercalate dirs := by
  have hhead : ("/".intercalate dirs).toList.head? ≠ some '/' := by
    obtain ⟨d, rest, rfl⟩ := exists_cons_of_ne_nil hne
    exact head?_intercalate (h d mem_cons_self) rest
  have hlast : ("/".intercalate dirs).toList.getLast? ≠ some '/' := by
    obtain ⟨init, d, rfl⟩ := (eq_nil_or_concat dirs).resolve_left hne
    rw [concat_eq_append]
    exact getLast?_intercalate init (h d (by simp))
  have hnil : ("/".intercalate dirs).toList ≠ [] := by
    intro hnil
    have hsplit := splitList_intercalate hne fun d hd => (h d hd).2
    rw [String.toList_eq_nil_iff.mp hnil] at hsplit
    exact (h "" (hsplit ▸ mem_cons_self)).1 rfl
  generalize "/".intercalate dirs = p at hnil hhead hlast ⊢
  have hslash : "/".toList = ['/'] := rfl
  have hfront : (p.toList ++ ['/']).dropWhile (· = '/') = p.toList ++ ['/'] :=
    dropWhile_slash (by rwa [head?_append_of_ne_nil _ hnil])
  have hback : p.toList.reverse.dropWhile (· = '/') = p.toList.reverse :=
    dropWhile_slash (by rwa [head?_reverse])
  apply String.toList_injective
  rw [trim, String.toList_ofList, String.toList_append, hslash, hfront, reverse_append,
    reverse_singleton, singleton_append, dropWhile_cons_of_pos (by simp), hback,
    reverse_reverse]

/-! ## Joining -/

theorem joinAll_eq (hslash : ∀ e ∈ elems, '/' ∉ e.toList)
    (hout : elems.foldl (cleanStep false) [] ≠ []) :
    joinAll elems = "/".intercalate (elems.foldl (cleanStep false) []).reverse := by
  have hfold := foldl_cleanStep_dropWhile false elems []
  unfold joinAll
  cases hrest : elems.dropWhile (· = "") with
  | nil =>
    rw [hrest] at hfold
    exact absurd hfold.symm hout
  | cons e rest =>
    have hmem : ∀ d ∈ e :: rest, '/' ∉ d.toList := by
      intro d hd
      rw [← hrest] at hd
      exact hslash d ((dropWhile_sublist _).subset hd)
    have he : e ≠ "" := by
      have hhead := head?_dropWhile_not (fun e : String => decide (e = "")) elems
      rw [hrest] at hhead
      simpa using hhead
    rw [hrest] at hfold
    rw [if_neg (cons_ne_nil _ _), clean_relative ⟨he, hmem e mem_cons_self⟩
      (fun d hd => hmem d (mem_cons_of_mem _ hd)) (by rwa [hfold]), hfold]

theorem join_rooted (hne : dirs ≠ []) (hslash : ∀ e ∈ dirs, '/' ∉ e.toList)
    (hname : '/' ∉ name.toList) :
    join ("/" ++ "/".intercalate dirs) name =
      "/" ++ "/".intercalate ((dirs ++ [name]).foldl (cleanStep true) []).reverse := by
  have hdir : "/" ++ "/".intercalate dirs ≠ "" := by
    intro hnil
    have hchars := congrArg String.toList hnil
    rw [String.toList_append] at hchars
    cases hchars
  have htext : "/" ++ "/".intercalate dirs ++ "/" ++ name =
      "/" ++ "/".intercalate (dirs ++ [name]) := by
    rw [String.intercalate_append_of_ne_nil hne (by simp)]
    simp [String.append_assoc]
  have hsplit : splitList ("/".intercalate (dirs ++ [name])) = dirs ++ [name] := by
    refine splitList_intercalate (by simp) fun e he => ?_
    rcases mem_append.mp he with hmem | hmem
    · exact hslash e hmem
    · rwa [mem_singleton.mp hmem]
  rw [join, if_neg hdir, htext, clean_rooted, hsplit]

end GoPath
