import GoIpfs.GoUrlRoundTrip

/-!
# A URL is parsed, printed and parsed again

For texts that begin with `http://` or `https://`: what `ParseRequestURI` reads
from the text, and what it reads from the URL printed by `String`.
-/

namespace GoUrl

open GoBytes List

variable {scheme s t q : Bytes}

/-! ## Queries -/

theorem splitQuery_eq :
    splitQuery s = (before (byte '?') s, (splitQuery s).2.1, after (byte '?') s) := by
  unfold splitQuery
  split
  · rename_i hlast
    obtain ⟨hlast, hcount⟩ := hlast
    obtain ⟨a, rfl⟩ := getLast?_eq_some_iff.mp hlast
    have ha : byte '?' ∉ a := by
      rw [count_append, count_singleton_self] at hcount
      exact count_eq_zero.mp (by omega)
    rw [before_append ha, after_append ha, dropLast_concat]
  · rfl

theorem after_of_forceQuery (h : (splitQuery s).2.1 = true) : after (byte '?') s = [] := by
  have hsplit : splitQuery s = _ := splitQuery_eq
  unfold splitQuery at h hsplit
  split at h
  · rename_i hlast
    rw [if_pos hlast] at hsplit
    exact (Prod.ext_iff.mp (Prod.ext_iff.mp hsplit).2).2.symm
  · cases h

/-- The query as it is printed. -/
def queryText (force : Bool) (q : Bytes) : Bytes :=
  if force ∨ q ≠ [] then byte '?' :: q else []

theorem splitQuery_queryText {force : Bool} (hs : byte '?' ∉ s) (hq : force = true → q = []) :
    splitQuery (s ++ queryText force q) = (s, force, q) := by
  unfold splitQuery queryText
  have hcount : s.count (byte '?') = 0 := count_eq_zero.mpr hs
  by_cases hempty : q = []
  · subst hempty
    cases force with
    | true => simp [hcount]
    | false =>
      have hlast : ¬ (s.getLast? = some (byte '?') ∧ s.count (byte '?') = 1) := by
        omega
      simp [hlast, before_of_not_mem hs, after_of_not_mem hs]
  have hforce : force = false := by
    cases force with
    | true => exact absurd (hq rfl) hempty
    | false => rfl
  subst hforce
  rw [if_pos (Or.inr hempty), if_neg, before_append hs, after_append hs]
  rintro ⟨hlast, hone⟩
  -- a question mark at the end belongs to the query, and there is the one before it
  rw [count_append, count_cons_self, hcount] at hone
  have hnone : byte '?' ∉ q := count_eq_zero.mp (by omega)
  obtain ⟨c, q, rfl⟩ := exists_cons_of_ne_nil hempty
  simp only [getLast?_append, getLast?_cons_cons] at hlast
  rw [getLast?_cons] at hlast
  simp only [Option.some_or, Option.some.injEq] at hlast
  apply hnone
  rw [← hlast]
  exact mem_of_getLast? (by rw [getLast?_cons])

theorem splitQuery_slashes :
    splitQuery (ascii "//" ++ t) = (ascii "//" ++ (splitQuery t).1, (splitQuery t).2) := by
  have hslash : ∀ c ∈ ascii "//", (c != byte '?') = true := forall_of_all (by decide)
  have hcount : (ascii "//" ++ t).count (byte '?') = t.count (byte '?') := by
    rw [count_append]
    have hzero : (ascii "//").count (byte '?') = 0 := by decide
    omega
  have hbefore : before (byte '?') (ascii "//" ++ t) = ascii "//" ++ before (byte '?') t :=
    takeWhile_append_of_pos hslash
  have hafter : after (byte '?') (ascii "//" ++ t) = after (byte '?') t := by
    unfold GoBytes.after startingAt
    rw [dropWhile_append_of_pos hslash]
  cases t with
  | nil => decide
  | cons c t =>
    have hlast : (ascii "//" ++ c :: t).getLast? = (c :: t).getLast? := by
      rw [getLast?_append, getLast?_cons, Option.some_or]
    have hdrop : (ascii "//" ++ c :: t).dropLast = ascii "//" ++ (c :: t).dropLast :=
      dropLast_append_cons
    unfold splitQuery
    rw [hlast, hcount, hdrop, hbefore, hafter]
    split <;> rfl

/-! ## Texts with a web scheme -/

/-- The schemes of web addresses. -/
def WebScheme (scheme : Bytes) : Prop := scheme = ascii "http" ∨ scheme = ascii "https"

theorem WebScheme.ne_nil (h : WebScheme scheme) : scheme ≠ [] := by
  rcases h with rfl | rfl <;> decide

theorem parseRequestURI_web (h : WebScheme scheme) (rest : Bytes) :
    parseRequestURI (scheme ++ byte ':' :: rest) =
      if rest.any isCTL then none else parseRest scheme rest := by
  rcases h with rfl | rfl <;> rfl

/-- What is read from `scheme://t`. -/
def webUrl (scheme t : Bytes) : Option Url := do
  let (user, host) ← parseAuthority (before (byte '/') (before (byte '?') t))
  let path ← unescape .path (startingAt (byte '/') (before (byte '?') t))
  return {
    scheme := scheme, user := user, host := host, path := path
    rawPath :=
      if startingAt (byte '/') (before (byte '?') t) = escape .path path then []
      else startingAt (byte '/') (before (byte '?') t)
    forceQuery := (splitQuery t).2.1, rawQuery := after (byte '?') t }

theorem parseRequestURI_eq_webUrl (h : WebScheme scheme) (t : Bytes) :
    parseRequestURI (scheme ++ byte ':' :: (ascii "//" ++ t)) =
      if t.any isCTL then none else webUrl scheme t := by
  have hany : (ascii "//" ++ t).any isCTL = t.any isCTL := by
    have hslash : (ascii "//").any isCTL = false := by decide
    rw [any_append, hslash, Bool.false_or]
  have hsplit : splitQuery t = _ := splitQuery_eq
  have hhead : (ascii "//" ++ before (byte '?') t).head? = some (byte '/') := rfl
  have hdrop : (ascii "//" ++ before (byte '?') t).drop 2 = before (byte '?') t := rfl
  rw [parseRequestURI_web h, hany]
  congr 1
  unfold parseRest parseHier webUrl setPath
  rw [splitQuery_slashes, hsplit]
  rw [if_neg (not_not.mpr hhead), if_pos ⟨h.ne_nil, prefix_append _ _⟩, hdrop]
  cases parseAuthority (before (byte '/') (before (byte '?') t)) with
  | none => rfl
  | some p => cases unescape .path (startingAt (byte '/') (before (byte '?') t)) <;> rfl

/-- What the parts of a URL that has been read come from. -/
structure ReadFrom (scheme t : Bytes) (u : Url) : Prop where
  noCTL : t.any isCTL = false
  scheme_eq : u.scheme = scheme
  rootless_eq : u.rootless = []
  authority : parseAuthority (before (byte '/') (before (byte '?') t)) = some (u.user, u.host)
  path : unescape .path (startingAt (byte '/') (before (byte '?') t)) = some u.path
  rawPath : u.rawPath = [] ∨ u.rawPath = startingAt (byte '/') (before (byte '?') t)
  forceQuery_eq : u.forceQuery = (splitQuery t).2.1
  rawQuery_eq : u.rawQuery = after (byte '?') t

variable {u : Url}

theorem readFrom_of_parse (hscheme : WebScheme scheme)
    (h : parseRequestURI (scheme ++ byte ':' :: (ascii "//" ++ t)) = some u) :
    ReadFrom scheme t u := by
  rw [parseRequestURI_eq_webUrl hscheme] at h
  split at h
  · cases h
  rename_i hctl
  obtain ⟨⟨user, host⟩, hauth, h⟩ := Option.bind_eq_some_iff.mp h
  obtain ⟨path, hpath, h⟩ := Option.bind_eq_some_iff.mp h
  cases h
  refine ⟨by simpa using hctl, rfl, rfl, hauth, hpath, ?_, rfl, rfl⟩
  split
  · exact .inl rfl
  · exact .inr rfl

section

variable {u : Url} (h : ReadFrom scheme t u)
include h

theorem ReadFrom.force (hforce : u.forceQuery = true) : u.rawQuery = [] := by
  rw [h.forceQuery_eq] at hforce
  rw [h.rawQuery_eq]
  exact after_of_forceQuery hforce

theorem ReadFrom.query_noCTL : u.rawQuery.any isCTL = false := by
  rw [h.rawQuery_eq, any_eq_false]
  intro c hc
  have hmem : c ∈ t := (dropWhile_suffix _).mem (mem_of_mem_drop hc)
  exact any_eq_false.mp h.noCTL c hmem

theorem ReadFrom.path_head : u.path = [] ∨ u.path.head? = some (byte '/') := by
  have hpath := decoded_of_unescape h.path
  generalize u.path = path at hpath
  have hstart : startingAt (byte '/') (before (byte '?') t) = [] ∨ _ := startingAt_head
  generalize startingAt (byte '/') (before (byte '?') t) = start at hpath hstart
  cases hpath with
  | nil => exact .inl rfl
  | escape => exact absurd hstart (by simp; decide)
  | raw => simpa using hstart

end

/-! ## Paths -/

theorem mem_escapedPath (hstar : u.path ≠ ascii "*") {c : UInt8} (hc : c ∈ u.escapedPath) :
    c = byte '%' ∨ c ≠ byte '?' ∧ isCTL c = false := by
  unfold Url.escapedPath at hc
  split at hc
  · rename_i hraw
    have hvalid := all_eq_true.mp hraw.2.1 c hc
    simp only [Bool.or_eq_true, decide_eq_true_eq, Bool.not_eq_true'] at hvalid
    rcases hvalid with hmem | hplain
    · have hall : ∀ x ∈ ascii "!$&'()*+,;=:@[]%", x ≠ byte '?' ∧ isCTL x = false :=
        forall_of_all (by decide)
      exact .inr (hall c hmem)
    · refine .inr ⟨?_, (plain_of_not_shouldEscape hplain).notCTL⟩
      rintro rfl
      exact absurd hplain (by decide)
  · refine .inr ⟨?_, not_isCTL_of_mem_escape hc⟩
    rintro rfl
    exact not_mem_escape (by decide) (by decide) (by decide) hc

theorem unescape_escapedPath (hstar : u.path ≠ ascii "*") :
    unescape .path u.escapedPath = some u.path := by
  unfold Url.escapedPath
  split
  · rename_i hraw
    exact hraw.2.2
  · exact unescape_escape_self fun c _ => readsBack_path c

section

variable {u : Url} (h : ReadFrom scheme t u)
include h

theorem ReadFrom.path_ne_star : u.path ≠ ascii "*" := by
  intro heq
  have hhead := h.path_head
  rw [heq] at hhead
  exact absurd hhead (by decide)

theorem ReadFrom.escapedPath_head : u.escapedPath = [] ∨ u.escapedPath.head? = some (byte '/') := by
  unfold Url.escapedPath
  split
  · rename_i hraw
    rw [h.rawPath.resolve_left hraw.1]
    exact startingAt_head
  have hhead := h.path_head
  cases hpath : u.path with
  | nil => exact .inl rfl
  | cons c path =>
    rw [hpath] at hhead
    obtain rfl : c = byte '/' := by simpa using hhead
    exact .inr rfl

theorem ReadFrom.escapedPath_eq_nil : u.escapedPath = [] ↔ u.path = [] := by
  have hread := decoded_of_unescape (unescape_escapedPath h.path_ne_star)
  generalize u.escapedPath = p at hread
  generalize u.path = path at hread
  cases hread <;> simp

end

/-! ## The printed text -/

/-- A URL with neither user, host nor path is printed without slashes. -/
def Url.Bare (u : Url) : Prop := u.host = [] ∧ u.path = [] ∧ u.user = none

section Printed

variable {u : Url} (hscheme : WebScheme scheme) (h : ReadFrom scheme t u)
include hscheme h

theorem ReadFrom.string_eq (hbare : ¬ u.Bare) :
    u.string = scheme ++ byte ':' ::
      (ascii "//" ++ (u.authority ++ u.escapedPath ++ queryText u.forceQuery u.rawQuery)) := by
  have hne : u.scheme ≠ [] := by
    rw [h.scheme_eq]
    exact hscheme.ne_nil
  have hslashes : u.host ≠ [] ∨ u.path ≠ [] ∨ u.user ≠ none := by
    by_contra hnone
    simp only [not_or, ne_eq, not_not] at hnone
    exact hbare hnone
  have hslash : ¬ (u.escapedPath ≠ [] ∧ u.escapedPath.head? ≠ some (byte '/') ∧ u.host ≠ []) := by
    rintro ⟨hpath, hhead, _⟩
    exact hhead (h.escapedPath_head.resolve_left hpath)
  unfold Url.string Url.hierString
  dsimp only
  rw [if_pos hne, if_neg (not_not.mpr h.rootless_eq), if_pos (.inl hne), if_pos hslashes,
    if_neg hslash, h.scheme_eq]
  simp [hscheme.ne_nil, queryText]

theorem ReadFrom.string_eq_of_bare (hbare : u.Bare) :
    u.string = scheme ++ byte ':' :: queryText u.forceQuery u.rawQuery := by
  obtain ⟨hhost, hpath, huser⟩ := hbare
  have hescaped : u.escapedPath = [] := h.escapedPath_eq_nil.mpr hpath
  unfold Url.string Url.hierString Url.authority
  rw [h.scheme_eq, h.rootless_eq, hhost, hpath, huser, hescaped]
  simp [hscheme.ne_nil, queryText]

section

omit hscheme

theorem ReadFrom.queryText_noCTL : (queryText u.forceQuery u.rawQuery).any isCTL = false := by
  unfold queryText
  split
  · have hquestion : isCTL (byte '?') = false := by decide
    rw [any_cons, hquestion, Bool.false_or]
    exact h.query_noCTL
  · rfl

theorem ReadFrom.printed_noCTL :
    (u.authority ++ u.escapedPath ++ queryText u.forceQuery u.rawQuery).any isCTL = false := by
  have hescape : ∀ {mode : Mode} {x : Bytes}, (escape mode x).any isCTL = false := by
    intro mode x
    rw [any_eq_false]
    intro c hc
    simp [not_isCTL_of_mem_escape hc]
  have hauthority : u.authority.any isCTL = false := by
    unfold Url.authority Userinfo.string
    have hat : isCTL (byte '@') = false := by decide
    have hcolon : isCTL (byte ':') = false := by decide
    cases u.user with
    | none => simpa using hescape
    | some ui =>
      obtain ⟨username, password⟩ := ui
      cases password with
      | none =>
        simp only [any_append, any_cons, any_nil, hescape, hat, Bool.or_false]
      | some password =>
        simp only [any_append, any_cons, any_nil, hescape, hat, hcolon, Bool.or_false]
  have hpath : u.escapedPath.any isCTL = false := by
    rw [any_eq_false]
    intro c hc
    rcases mem_escapedPath h.path_ne_star hc with rfl | ⟨_, hctl⟩
    · decide
    · simp [hctl]
  rw [any_append, any_append, hauthority, hpath, h.queryText_noCTL]
  rfl

theorem ReadFrom.cut_printed :
    splitQuery (u.authority ++ u.escapedPath ++ queryText u.forceQuery u.rawQuery) =
        (u.authority ++ u.escapedPath, u.forceQuery, u.rawQuery) ∧
      before (byte '/') (u.authority ++ u.escapedPath) = u.authority ∧
      startingAt (byte '/') (u.authority ++ u.escapedPath) = u.escapedPath := by
  have hslash : byte '/' ∉ u.authority := not_mem_authority (by decide) u
  have hquestion : byte '?' ∉ u.authority ++ u.escapedPath := by
    rw [mem_append, not_or]
    refine ⟨not_mem_authority (by decide) u, ?_⟩
    intro hmem
    rcases mem_escapedPath h.path_ne_star hmem with heq | ⟨hne, _⟩
    · exact absurd heq (by decide)
    · exact hne rfl
  refine ⟨splitQuery_queryText hquestion h.force, ?_⟩
  rcases h.escapedPath_head with hnil | hhead
  · rw [hnil, append_nil]
    exact ⟨before_of_not_mem hslash, startingAt_of_not_mem hslash⟩
  obtain ⟨p, hp⟩ : ∃ p, u.escapedPath = byte '/' :: p := by
    cases hpath : u.escapedPath with
    | nil => simp [hpath] at hhead
    | cons c p =>
      rw [hpath] at hhead
      obtain rfl : c = byte '/' := by simpa using hhead
      exact ⟨p, rfl⟩
  rw [hp]
  exact ⟨before_append hslash, startingAt_append hslash⟩

end

end Printed

/-- The host in the text behind `//`. -/
def hostText (t : Bytes) : Bytes := afterLast (byte '@') (before (byte '/') (before (byte '?') t))

theorem ReadFrom.host (h : ReadFrom scheme t u) : parseHost (hostText t) = some u.host :=
  parseHost_of_parseAuthority h.authority

/-- The parts of a URL that a request is made from. -/
def Url.SameRequest (v u : Url) : Prop :=
  v.scheme = u.scheme ∧ v.host = u.host ∧ v.path = u.path ∧ v.rawQuery = u.rawQuery

theorem nonASCIIZone_eq_false {host : Bytes} (h : parseHost s = some host) (hhost : host = []) :
    nonASCIIZone s = false := by
  by_contra hzone
  have hhead : s.head? = some (byte '[') := by
    simp only [nonASCIIZone, Bool.not_eq_false, Bool.and_eq_true, beq_iff_eq] at hzone
    exact hzone.1
  obtain ⟨e, port, rfl, he, hport⟩ := exists_bracket h hhead
  rw [parseHost_bracket he hport, hhost] at h
  split at h
  · obtain ⟨x, _, hmap⟩ := Option.bind_eq_some_iff.mp h
    obtain ⟨y, _, heq⟩ := Option.map_eq_some_iff.mp hmap
    simp at heq
  · simp at h

/-- **A URL that has been read is read back from its printed text**: the same
request, unless the zone of its host has bytes that are not ASCII. -/
theorem ReadFrom.reparse (hscheme : WebScheme scheme) (h : ReadFrom scheme t u) :
    if nonASCIIZone (hostText t) then parseRequestURI u.string = none
    else ∃ v, parseRequestURI u.string = some v ∧ v.SameRequest u := by
  have hhost := parseHost_escape h.host
  by_cases hbare : u.Bare
  · have hzone : nonASCIIZone (hostText t) = false := nonASCIIZone_eq_false h.host hbare.1
    have hsplit : splitQuery (queryText u.forceQuery u.rawQuery) =
        ([], u.forceQuery, u.rawQuery) :=
      splitQuery_queryText (s := []) (by simp) h.force
    rw [hzone, if_neg (by simp), h.string_eq_of_bare hscheme hbare, parseRequestURI_web hscheme,
      h.queryText_noCTL, if_neg (by simp)]
    unfold parseRest parseHier
    rw [hsplit]
    simp only [head?_nil, ne_eq, reduceCtorEq, not_false_eq_true, if_true, hscheme.ne_nil]
    exact ⟨_, rfl, h.scheme_eq.symm, hbare.1.symm, hbare.2.1.symm, rfl⟩
  obtain ⟨hquery, hbefore, hstart⟩ := h.cut_printed
  have hsplit : splitQuery (u.authority ++ u.escapedPath ++ queryText u.forceQuery u.rawQuery) =
    _ := splitQuery_eq
  rw [hquery] at hsplit
  have hfst := (Prod.ext_iff.mp hsplit).1
  have hafter := (Prod.ext_iff.mp (Prod.ext_iff.mp hsplit).2).2
  dsimp only at hfst hafter
  have hprinted : parseRequestURI u.string =
      webUrl scheme (u.authority ++ u.escapedPath ++ queryText u.forceQuery u.rawQuery) := by
    rw [h.string_eq hscheme hbare, parseRequestURI_eq_webUrl hscheme, h.printed_noCTL]
    rfl
  rw [hprinted]
  unfold webUrl
  rw [← hfst, ← hafter, hbefore, hstart, parseAuthority_authority, hhost,
    unescape_escapedPath h.path_ne_star]
  by_cases hzone : nonASCIIZone (hostText t) = true
  · rw [if_pos hzone, if_pos hzone]
    rfl
  · rw [if_neg hzone, if_neg hzone]
    exact ⟨_, rfl, h.scheme_eq.symm, rfl, rfl, rfl⟩

end GoUrl
