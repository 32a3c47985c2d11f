import GoIpfs.GoUrlReparse
import GoIpfs.Hostname

/-!
# What a subdomain redirect keeps of the request

`toSubdomainURL` pastes decoded parts of the request into a text, has it parsed
and prints the URL.  So the path is decoded once more, and a separator in a
part is taken for a separator of the URL.  `toSubdomainURL_preserves_iff` says
for which parts path and query survive this.
-/

namespace Hostname

open GoBytes GoUrl List

/-! ## Pasting -/

section Pasting

variable {scheme host rest q : Bytes} {u : Url}

/-- The text behind `//`. -/
def pasted (host rest q : Bytes) : Bytes :=
  host ++ byte '/' :: (rest ++ if q ≠ [] then byte '?' :: q else [])

theorem pasted_eq : pasted host rest q = (host ++ byte '/' :: rest) ++ queryText false q := by
  simp [pasted, queryText]

theorem cut_pasted (h : byte '?' ∉ host ++ byte '/' :: rest) :
    before (byte '?') (pasted host rest q) = host ++ byte '/' :: rest ∧
      after (byte '?') (pasted host rest q) = q := by
  have hsplit : splitQuery (pasted host rest q) = _ := splitQuery_eq
  rw [pasted_eq, splitQuery_queryText h (by simp)] at hsplit
  have hfst := (Prod.ext_iff.mp hsplit).1
  have hafter := (Prod.ext_iff.mp (Prod.ext_iff.mp hsplit).2).2
  rw [pasted_eq]
  exact ⟨hfst.symm, hafter.symm⟩

theorem rest_of_query_kept (h : after (byte '?') (pasted host rest q) = q) :
    byte '?' ∉ host ∧ ∃ rest', byte '?' ∉ rest' ∧ (rest = rest' ∨ rest = rest' ++ [byte '?']) ∧
      before (byte '?') (pasted host rest q) = host ++ byte '/' :: rest' := by
  by_cases hmem : byte '?' ∈ host ++ byte '/' :: rest
  · obtain ⟨y, z, heq, hy⟩ := exists_cut hmem
    have hpasted : pasted host rest q = y ++ byte '?' :: (z ++ queryText false q) := by
      rw [pasted_eq, heq]
      simp
    rw [hpasted, after_append hy] at h
    -- the query would be longer than itself
    have hlen := congrArg length h
    have hq : q = [] := by
      by_contra hne
      simp [queryText, hne] at hlen
      omega
    have hz : z = [] := by
      subst hq
      simpa [queryText] using h
    subst hz
    rw [hpasted, before_append hy]
    -- so the question mark is the last byte of `rest`
    cases hrest : rest.reverse with
    | nil =>
      rw [reverse_eq_nil_iff.mp hrest] at heq
      have hlast := congrArg getLast? heq
      simp at hlast
      exact absurd hlast (by decide)
    | cons c l =>
      have hrest' : rest = l.reverse ++ [c] := by
        rw [← reverse_reverse rest, hrest, reverse_cons]
      rw [hrest', ← cons_append, ← append_assoc] at heq
      obtain ⟨hy', hc⟩ := append_inj' heq rfl
      obtain rfl : c = byte '?' := by simpa using hc
      rw [← hy'] at hy
      simp only [mem_append, mem_cons, not_or] at hy
      exact ⟨hy.1, l.reverse, hy.2.2, .inr hrest', hy'.symm⟩
  · have hcut := (cut_pasted (q := q) hmem).1
    simp only [mem_append, mem_cons, not_or] at hmem
    exact ⟨hmem.1, rest, hmem.2.2, .inl rfl, hcut⟩

theorem slash_not_mem_host {rest' : Bytes} (hcount : rest.count (byte '/') = rest'.count (byte '/'))
    (h : Decoded .path (startingAt (byte '/') (host ++ byte '/' :: rest')) (byte '/' :: rest)) :
    byte '/' ∉ host := by
  intro hmem
  obtain ⟨b, c, rfl, hb⟩ := exists_cut hmem
  rw [append_assoc, cons_append, startingAt_append hb] at h
  have hle := h.count_le (b := byte '/') (by decide) (by decide)
  simp only [count_cons_self, count_append] at hle
  omega

/-- **What survives pasting and parsing.** -/
theorem pasted_kept_iff (h : ReadFrom scheme (pasted host rest q) u) :
    u.path = byte '/' :: rest ∧ u.rawQuery = q ↔
      (byte '/' ∉ host ∧ byte '?' ∉ host) ∧ byte '?' ∉ rest ∧ byte '%' ∉ rest := by
  constructor
  · rintro ⟨hpath, hquery⟩
    rw [h.rawQuery_eq] at hquery
    obtain ⟨hhost, rest', hrest', hshape, hbefore⟩ := rest_of_query_kept hquery
    have hdecoded := decoded_of_unescape h.path
    rw [hpath, hbefore] at hdecoded
    have hcount : rest.count (byte '/') = rest'.count (byte '/') := by
      rcases hshape with rfl | rfl
      · rfl
      · have hzero : [byte '?'].count (byte '/') = 0 := by decide
        rw [count_append, hzero, Nat.add_zero]
    have hslash := slash_not_mem_host hcount hdecoded
    rw [startingAt_append hslash] at hdecoded
    have hlen := hdecoded.length_le
    have hsame : rest = rest' := by
      rcases hshape with heq | rfl
      · exact heq
      · simp only [length_cons, length_append, length_nil] at hlen
        omega
    subst hsame
    refine ⟨⟨hslash, hhost⟩, hrest', ?_⟩
    intro hpercent
    have hlt := hdecoded.length_lt (mem_cons_of_mem _ hpercent)
    omega
  · rintro ⟨⟨hslash, hquestion⟩, hrest, hpercent⟩
    have hnone : byte '?' ∉ host ++ byte '/' :: rest := by
      have hne : byte '?' ≠ byte '/' := by decide
      simp [hquestion, hrest, hne]
    obtain ⟨hbefore, hafter⟩ := cut_pasted (q := q) hnone
    have hplain : unescape .path (byte '/' :: rest) = some (byte '/' :: rest) := by
      apply unescape_of_rawAllowed
      intro c hc
      refine ⟨?_, rfl⟩
      rintro rfl
      rcases mem_cons.mp hc with heq | hc
      · exact absurd heq (by decide)
      · exact hpercent hc
    have hpath := h.path
    rw [hbefore, startingAt_append hslash, hplain] at hpath
    exact ⟨(Option.some.inj hpath).symm, h.rawQuery_eq.trans hafter⟩

theorem before_pasted (h : byte '?' ∉ host) :
    before (byte '?') (pasted host rest q) = host ++ byte '/' :: before (byte '?') rest := by
  have hne : byte '?' ≠ byte '/' := by decide
  by_cases hmem : byte '?' ∈ rest
  · obtain ⟨y, z, rfl, hy⟩ := exists_cut hmem
    have hshape : pasted host (y ++ byte '?' :: z) q =
        (host ++ byte '/' :: y) ++ byte '?' :: (z ++ queryText false q) := by
      rw [pasted_eq]
      simp
    rw [hshape, before_append (by simp [h, hy, hne]), before_append hy]
  · rw [(cut_pasted (by simp [h, hmem, hne])).1, before_of_not_mem hmem]

theorem hostText_pasted (hslash : byte '/' ∉ host) (hquestion : byte '?' ∉ host) :
    hostText (pasted host rest q) = afterLast (byte '@') host := by
  unfold hostText
  rw [before_pasted hquestion, before_append hslash]

end Pasting

/-! ## The parts of a redirect -/

variable {node : Node} {hostname path url : Bytes} {r : Request} {p : SubdomainParts}

/-- Where the parts of a redirect come from. -/
structure PartsOf (node : Node) (hostname path : Bytes) (r : Request) (root : Bytes)
    (p : SubdomainParts) : Prop where
  cut : cutPath path = some (p.ns, root, p.rest)
  namespaced : isSubdomainNamespace p.ns = true
  label : subdomainRoot node (isHTTPSRequest r) p.ns (normalizePeerID node p.ns root) =
    .ok p.rootID
  scheme_eq : p.scheme = if isHTTPSRequest r then ascii "https" else ascii "http"
  hostname_eq : p.hostname = hostname
  query_eq : p.query = r.rawQuery

theorem partsOf_of_subdomainParts (h : subdomainParts node hostname path r = .ok (some p)) :
    ∃ root, PartsOf node hostname path r root p := by
  unfold subdomainParts at h
  split at h
  · cases h
  rename_i ns root rest hcut
  split at h
  · rename_i hns
    cases hlabel : subdomainRoot node (isHTTPSRequest r) ns (normalizePeerID node ns root) with
    | error err =>
      rw [hlabel] at h
      cases h
    | ok label =>
      rw [hlabel] at h
      cases h
      exact ⟨root, hcut, hns, hlabel, rfl, rfl, rfl⟩
  · cases h

theorem PartsOf.webScheme {root : Bytes} (h : PartsOf node hostname path r root p) :
    WebScheme p.scheme := by
  rw [h.scheme_eq]
  split
  · exact .inr rfl
  · exact .inl rfl

theorem toSubdomainURL_cases (h : toSubdomainURL node hostname path r = .ok url) :
    (subdomainParts node hostname path r = .ok none ∧ url = []) ∨
      ∃ root p u, PartsOf node hostname path r root p ∧
        ReadFrom p.scheme (pasted p.authority p.rest p.query) u ∧ url = u.string := by
  unfold toSubdomainURL at h
  cases hparts : subdomainParts node hostname path r with
  | error err =>
    rw [hparts] at h
    cases h
  | ok parts =>
    rw [hparts] at h
    cases parts with
    | none =>
      cases h
      exact .inl ⟨rfl, rfl⟩
    | some p =>
      obtain ⟨root, hp⟩ := partsOf_of_subdomainParts hparts
      change safeRedirectURL p.text = .ok url at h
      unfold safeRedirectURL at h
      split at h
      · cases h
      · rename_i u hparse
        cases h
        exact .inr ⟨root, p, u, hp, readFrom_of_parse hp.webScheme hparse, rfl⟩

theorem toSubdomainURL_ok (h : toSubdomainURL node hostname path r = .ok url) (hurl : url ≠ []) :
    ∃ root p u, PartsOf node hostname path r root p ∧
      ReadFrom p.scheme (pasted p.authority p.rest p.query) u ∧ url = u.string :=
  (toSubdomainURL_cases h).resolve_left fun hnone => hurl hnone.2

/-! ## Path and query of the request -/

/-- What may be pasted into a URL: no separator in the host, neither a query nor
an escape in the rest, and no byte that would be escaped in a zone. -/
structure Pasteable (host rest : Bytes) : Prop where
  noSeparator : byte '/' ∉ host ∧ byte '?' ∉ host
  plainRest : byte '?' ∉ rest ∧ byte '%' ∉ rest
  asciiZone : nonASCIIZone (afterLast (byte '@') host) = false

/-- **Redirects that preserve the request.**  A redirect of `/ns/root/rest`, with
the root shown as `label`, leads to the path `/rest` and to the query of the
request exactly if its parts may be pasted. -/
theorem toSubdomainURL_preserves_iff {ns root rest label : Bytes}
    (hcut : cutPath path = some (ns, root, rest))
    (hlabel : subdomainRoot node (isHTTPSRequest r) ns (normalizePeerID node ns root) = .ok label)
    (h : toSubdomainURL node hostname path r = .ok url) (hurl : url ≠ []) :
    (∃ v, parseRequestURI url = some v ∧ v.path = byte '/' :: rest ∧ v.rawQuery = r.rawQuery) ↔
      Pasteable (label ++ byte '.' :: (ns ++ byte '.' :: hostname)) rest := by
  obtain ⟨root', p, u, hp, hread, rfl⟩ := toSubdomainURL_ok h hurl
  have hparts := Option.some.inj (hcut.symm.trans hp.cut)
  obtain ⟨rfl, rfl, rfl⟩ := hparts
  have hroot : label = p.rootID := Except.ok.inj (hlabel.symm.trans hp.label)
  have hauthority : label ++ byte '.' :: (p.ns ++ byte '.' :: hostname) = p.authority := by
    rw [hroot, ← hp.hostname_eq]
    rfl
  rw [hauthority, ← hp.query_eq]
  have hreparse := hread.reparse hp.webScheme
  have hkept := pasted_kept_iff hread
  constructor
  · rintro ⟨v, hv, hpath, hquery⟩
    split at hreparse
    · rw [hreparse] at hv
      cases hv
    rename_i hzone
    obtain ⟨w, hw, _, _, hwpath, hwquery⟩ := hreparse
    obtain rfl : w = v := Option.some.inj (hw.symm.trans hv)
    obtain ⟨hhost, hrest⟩ := hkept.mp ⟨hwpath.symm.trans hpath, hwquery.symm.trans hquery⟩
    rw [hostText_pasted hhost.1 hhost.2] at hzone
    exact ⟨hhost, hrest, by simpa using hzone⟩
  · rintro ⟨hhost, hrest, hzone⟩
    rw [hostText_pasted hhost.1 hhost.2, hzone] at hreparse
    obtain ⟨v, hv, _, _, hvpath, hvquery⟩ := hreparse
    obtain ⟨hpath, hquery⟩ := hkept.mpr ⟨hhost, hrest⟩
    exact ⟨v, hv, hvpath.trans hpath, hvquery.trans hquery⟩

/-- `GET /ipfs/babab/docs?page=2` at `localhost`. -/
def docsRequest : Request where
  host := ascii "localhost"
  forwardedHost := []
  forwardedProto := []
  scheme := []
  path := ascii "/ipfs/babab/docs"
  rawQuery := ascii "page=2"

theorem toSubdomainURL_preserves_docs :
    ∃ v, parseRequestURI (ascii "http://babab.ipfs.localhost/docs?page=2") = some v ∧
      v.path = ascii "/docs" ∧ v.rawQuery = ascii "page=2" := by
  have hpath : (cutPath docsRequest.path) = some (ascii "ipfs", ascii "babab", ascii "docs") := by
    decide
  have hlabel : subdomainRoot unaryNode (isHTTPSRequest docsRequest) (ascii "ipfs")
      (normalizePeerID unaryNode (ascii "ipfs") (ascii "babab")) = .ok (ascii "babab") := by
    rfl
  have hurl : toSubdomainURL unaryNode (ascii "localhost") docsRequest.path docsRequest =
      .ok (ascii "http://babab.ipfs.localhost/docs?page=2") := by decide +kernel
  apply (toSubdomainURL_preserves_iff hpath hlabel hurl (by decide)).mpr
  exact ⟨by decide, by decide, by decide⟩

/-- `GET /ipfs/babab/a%3Fb` at `localhost`: the escaped question mark of the path
begins a query in the redirect. -/
def escapedQuestionMark : Request where
  host := ascii "localhost"
  forwardedHost := []
  forwardedProto := []
  scheme := []
  path := ascii "/ipfs/babab/a?b"
  rawQuery := []

theorem escapedQuestionMark_redirect :
    handle unaryNode defaultKnownGateways false escapedQuestionMark =
        .ok (.serve (ascii "/ipfs/babab/a?b") none
          (some (ascii "http://babab.ipfs.localhost/a?b"))) ∧
      toSubdomainURL unaryNode (ascii "localhost") escapedQuestionMark.path escapedQuestionMark =
        .ok (ascii "http://babab.ipfs.localhost/a?b") ∧
      ∃ v, parseRequestURI (ascii "http://babab.ipfs.localhost/a?b") = some v ∧
        v.path = ascii "/a" ∧ v.rawQuery = ascii "b" := by
  refine ⟨by decide +kernel, by decide +kernel, ?_⟩
  let v : Url :=
    { scheme := ascii "http"
      host := ascii "babab.ipfs.localhost"
      path := ascii "/a"
      rawQuery := ascii "b" }
  exact ⟨v, by decide +kernel, rfl, rfl⟩

end Hostname
