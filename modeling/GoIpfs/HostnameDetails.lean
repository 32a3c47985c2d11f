import GoIpfs.HostnameUrl

/-!
# Which gateway a subdomain belongs to

`knownSubdomainDetails` looks for a known gateway among the label suffixes of a
host, the shortest first, and takes the first one that stands behind a
namespace label.  So the host `{rootID}.{ns}.{gateway}` is given to another
gateway if a namespace label and a known host behind it occur in the gateway's
own name, and only then: `knownSubdomainDetails_authority_iff`.
-/

namespace Hostname

open GoBytes GoUrl List Option

/-! ## Gateways without wildcards -/

/-- A configuration that names its gateways. -/
def GatewayHosts.ofExact (exactHost : Bytes → Option GatewaySpec) : GatewayHosts := ⟨exactHost, []⟩

/-- The gateway of a host, with or without its port. -/
def knownHost (exactHost : Bytes → Option GatewaySpec) (hostname : Bytes) : Option GatewaySpec :=
  (exactHost hostname).or (exactHost (stripPort hostname))

variable {exactHost : Bytes → Option GatewaySpec} (hostname : Bytes)

theorem isKnownHostname_ofExact :
    isKnownHostname hostname (.ofExact exactHost) = .ok (knownHost exactHost hostname) := by
  unfold isKnownHostname knownHost GatewayHosts.ofExact
  dsimp only
  cases exactHost hostname with
  | some gw => rfl
  | none => cases exactHost (stripPort hostname) <;> rfl

/-! ## The search for a suffix -/

section Search

variable (known : Bytes → Option GatewaySpec) (labels : List Bytes)

/-- The suffix from label `i` on is a known gateway behind a namespace. -/
def detailsAt (i : Nat) : Option SubdomainDetails :=
  match known (joinLabels (labels.drop i)) with
  | none => none
  | some gw =>
    if isSubdomainNamespace (labels.getD (i - 1) []) then
      some ⟨gw, joinLabels (labels.drop i), labels.getD (i - 1) [],
        joinLabels (labels.take (i - 1))⟩
    else none

/-- The first such suffix from label `i` downwards. -/
def findDetails : Nat → Option SubdomainDetails
  | i + 2 => (detailsAt known labels (i + 2)).or (findDetails (i + 1))
  | _ => none

theorem searchDetails_ofExact (i : Nat) :
    searchDetails (.ofExact exactHost) labels i =
      .ok (findDetails (knownHost exactHost) labels i) := by
  induction i with
  | zero => rfl
  | succ i ih =>
    cases i with
    | zero => rfl
    | succ i =>
      unfold searchDetails findDetails detailsAt
      dsimp only
      rw [isKnownHostname_ofExact, ih, Nat.add_succ_sub_one]
      cases knownHost exactHost (joinLabels (labels.drop (i + 2))) with
      | none => rfl
      | some gw => cases isSubdomainNamespace (labels.getD (i + 1) []) <;> rfl

variable {known labels}

theorem findDetails_eq_some {i : Nat} {d : SubdomainDetails} :
    findDetails known labels i = some d ↔
      ∃ j, 2 ≤ j ∧ j ≤ i ∧ detailsAt known labels j = some d ∧
        ∀ k, j < k → k ≤ i → detailsAt known labels k = none := by
  induction i with
  | zero =>
    constructor
    · intro h
      cases h
    · omega
  | succ i ih =>
    cases i with
    | zero =>
      constructor
      · intro h
        cases h
      · omega
    | succ i =>
      unfold findDetails
      cases hhere : detailsAt known labels (i + 2) with
      | some d' =>
        constructor
        · intro h
          refine ⟨i + 2, by omega, le_rfl, hhere.trans h, ?_⟩
          intro k hk hk'
          omega
        · rintro ⟨j, _, hji, hj, hnone⟩
          rcases Nat.lt_or_ge j (i + 2) with hlt | hge
          · rw [hnone (i + 2) hlt le_rfl] at hhere
            cases hhere
          · obtain rfl : j = i + 2 := by omega
            exact hhere.symm.trans hj
      | none =>
        rw [none_or, ih]
        constructor
        · rintro ⟨j, hj2, hji, hj, hnone⟩
          refine ⟨j, hj2, by omega, hj, ?_⟩
          intro k hk hk'
          rcases Nat.lt_or_ge k (i + 2) with hlt | hge
          · exact hnone k hk (by omega)
          · obtain rfl : k = i + 2 := by omega
            exact hhere
        · rintro ⟨j, hj2, hji, hj, hnone⟩
          have hne : j ≠ i + 2 := by
            rintro rfl
            rw [hhere] at hj
            cases hj
          exact ⟨j, hj2, by omega, hj, fun k hk hk' => hnone k hk (by omega)⟩

end Search

/-! ## Labels -/

theorem joinLabels_splitLabels : joinLabels (splitLabels hostname) = hostname :=
  intercalate_splitOn (byte '.')

theorem splitLabels_ne_nil : splitLabels hostname ≠ [] :=
  splitOnP_ne_nil _ hostname

theorem splitLabels_append (a b : Bytes) :
    splitLabels (a ++ byte '.' :: b) = splitLabels a ++ splitLabels b :=
  splitOnP_append_cons a b (by simp)

theorem dot_not_mem_of_namespace {ns : Bytes} (h : isSubdomainNamespace ns = true) :
    byte '.' ∉ ns := by
  have hall : ∀ x ∈ [ascii "ipfs", ascii "ipns", ascii "p2p", ascii "ipld"], byte '.' ∉ x := by
    decide
  exact hall ns (by simpa [isSubdomainNamespace] using h)

theorem splitLabels_subdomain (root host : Bytes) {ns : Bytes}
    (hns : isSubdomainNamespace ns = true) :
    splitLabels (root ++ byte '.' :: (ns ++ byte '.' :: host)) =
      splitLabels root ++ ns :: splitLabels host := by
  have hlabel : splitLabels ns = [ns] := splitOn_eq_singleton (dot_not_mem_of_namespace hns)
  rw [splitLabels_append, splitLabels_append, hlabel]
  rfl

/-- The labels of a host do not contain dots, so a list of them is determined by
the text. -/
theorem joinLabels_inj {xs ys : List Bytes} (hx : ∀ l ∈ xs, byte '.' ∉ l)
    (hy : ∀ l ∈ ys, byte '.' ∉ l) (hxs : xs ≠ []) (hys : ys ≠ [])
    (h : joinLabels xs = joinLabels ys) : xs = ys := by
  have hsplit : splitLabels (joinLabels xs) = splitLabels (joinLabels ys) := by rw [h]
  unfold splitLabels joinLabels at hsplit
  rwa [splitOn_intercalate _ hx hxs, splitOn_intercalate _ hy hys] at hsplit

theorem dot_not_mem_label {hostname : Bytes} : ∀ l ∈ splitLabels hostname, byte '.' ∉ l :=
  not_mem_of_mem_splitOn (byte '.') hostname

theorem labels_cut {labels : List Bytes} {k : Nat} (h1 : 1 ≤ k) (hk : k < labels.length) :
    labels = labels.take (k - 1) ++ labels.getD (k - 1) [] :: labels.drop k := by
  have hlt : k - 1 < labels.length := by omega
  have hget : labels.getD (k - 1) [] = labels[k - 1] := by simp [hlt]
  have hdrop := drop_eq_getElem_cons hlt
  have hk' : k - 1 + 1 = k := by omega
  rw [hk'] at hdrop
  rw [hget, ← hdrop, take_append_drop]

theorem detailsAt_append (known : Bytes → Option GatewaySpec) (xs ys : List Bytes) (ns : Bytes) :
    detailsAt known (xs ++ ns :: ys) (xs.length + 1) =
      match known (joinLabels ys) with
      | none => none
      | some gw =>
        if isSubdomainNamespace ns then some ⟨gw, joinLabels ys, ns, joinLabels xs⟩
        else none := by
  have hdrop : (xs ++ ns :: ys).drop (xs.length + 1) = ys := by
    rw [← drop_drop, drop_left]
    rfl
  have hget : (xs ++ ns :: ys).getD xs.length [] = ns := by simp
  have htake : (xs ++ ns :: ys).take xs.length = xs := take_left
  unfold detailsAt
  rw [hdrop, Nat.add_sub_cancel, hget, htake]

/-! ## Attribution -/

/-- A known host stands in a host name, directly behind a namespace label. -/
def Shadowed (known : Bytes → Option GatewaySpec) (host : Bytes) : Prop :=
  ∃ xs ns ys, splitLabels host = xs ++ ns :: ys ∧ ys ≠ [] ∧
    isSubdomainNamespace ns = true ∧ (known (joinLabels ys)).isSome

section Attribution

variable {known : Bytes → Option GatewaySpec} {root ns host : Bytes}

theorem shadowed_iff (front : List Bytes) :
    Shadowed known host ↔
      ∃ k, front.length < k ∧ k < (front ++ splitLabels host).length ∧
        (detailsAt known (front ++ splitLabels host) k).isSome := by
  constructor
  · rintro ⟨xs, ns, ys, hsplit, hys, hns, hknown⟩
    refine ⟨(front ++ xs).length + 1, ?_, ?_, ?_⟩
    · rw [length_append]
      omega
    · have hpos := length_pos_iff.mpr hys
      rw [hsplit]
      simp only [length_append, length_cons]
      omega
    · rw [hsplit, ← append_assoc, detailsAt_append]
      obtain ⟨gw, hgw⟩ := isSome_iff_exists.mp hknown
      rw [hgw]
      simp [hns]
  · rintro ⟨k, hk, hlen, hsome⟩
    rw [length_append] at hlen
    obtain ⟨xs, l, ys, hsplit, hxs⟩ : ∃ xs l ys, splitLabels host = xs ++ l :: ys ∧
        xs.length = k - front.length - 1 := by
      refine ⟨_, _, _, labels_cut (k := k - front.length) (by omega) (by omega), ?_⟩
      rw [length_take]
      omega
    have hk' : k = (front ++ xs).length + 1 := by
      rw [length_append]
      omega
    rw [hsplit, length_append, length_cons] at hlen
    rw [hsplit, ← append_assoc, hk', detailsAt_append] at hsome
    have hys : ys ≠ [] := by
      rintro rfl
      simp at hlen
      omega
    refine ⟨xs, l, ys, hsplit, hys, ?_⟩
    cases hknown : known (joinLabels ys) with
    | none => simp [hknown] at hsome
    | some gw =>
      cases hl : isSubdomainNamespace l with
      | false => simp [hknown, hl] at hsome
      | true => exact ⟨rfl, rfl⟩

/-- **Attribution.**  The host `{root}.{ns}.{host}` is found to belong to `host`
exactly if no known host stands in `host` behind a namespace. -/
theorem findDetails_subdomain_iff {spec : GatewaySpec} (hknown : known host = some spec)
    (hns : isSubdomainNamespace ns = true) :
    let labels := splitLabels (root ++ byte '.' :: (ns ++ byte '.' :: host))
    findDetails known labels (labels.length - 1) = some ⟨spec, host, ns, root⟩ ↔
      ¬ Shadowed known host := by
  intro labels
  have hlabels : labels = splitLabels root ++ ns :: splitLabels host :=
    splitLabels_subdomain root host hns
  have hrootlen := length_pos_iff.mpr (splitLabels_ne_nil root)
  have hhostlen := length_pos_iff.mpr (splitLabels_ne_nil host)
  have hlen : labels.length = (splitLabels root).length + 1 + (splitLabels host).length := by
    rw [hlabels, length_append, length_cons]
    omega
  have hhere : detailsAt known labels ((splitLabels root).length + 1) =
      some ⟨spec, host, ns, root⟩ := by
    rw [hlabels, detailsAt_append, joinLabels_splitLabels, hknown]
    simp [hns, joinLabels_splitLabels]
  have hfront : labels = (splitLabels root ++ [ns]) ++ splitLabels host := by simp [hlabels]
  have hshadowed : Shadowed known host ↔ _ := shadowed_iff (splitLabels root ++ [ns])
  rw [← hfront, length_append, length_singleton] at hshadowed
  rw [findDetails_eq_some, hshadowed]
  constructor
  · rintro ⟨j, hj2, hjlen, hj, hnone⟩ ⟨k, hk, hklen, hsome⟩
    -- the gateway's name tells at which label it has been found
    have hjoin : joinLabels (labels.drop j) = host := by
      unfold detailsAt at hj
      split at hj
      · cases hj
      · split at hj
        · exact congrArg SubdomainDetails.gwHostname (some.inj hj)
        · cases hj
    have hdots : ∀ l ∈ labels.drop j, byte '.' ∉ l := fun l hl =>
      dot_not_mem_label l (mem_of_mem_drop hl)
    have hdrop : labels.drop j = splitLabels host := by
      apply joinLabels_inj hdots dot_not_mem_label
      · intro hnil
        have hzero := congrArg length hnil
        rw [length_drop, length_nil] at hzero
        omega
      · exact splitLabels_ne_nil host
      · rw [hjoin, joinLabels_splitLabels]
    have hjk : j < k := by
      have hsize := congrArg length hdrop
      rw [length_drop] at hsize
      omega
    rw [hnone k hjk (by omega)] at hsome
    cases hsome
  · intro hnot
    refine ⟨(splitLabels root).length + 1, by omega, by omega, hhere, ?_⟩
    intro k hk hklen
    by_contra hsome
    exact hnot ⟨k, hk, by omega, isSome_iff_ne_none.mpr hsome⟩

end Attribution

theorem knownSubdomainDetails_ofExact :
    knownSubdomainDetails hostname (.ofExact exactHost) =
      .ok (findDetails (knownHost exactHost) (splitLabels hostname)
        ((splitLabels hostname).length - 1)) :=
  searchDetails_ofExact _ _

variable {node : Node} {host path : Bytes} {r : Request} {p : SubdomainParts}

/-- **A redirect is attributed to the gateway that issued it** exactly if no
known host stands in the gateway's own name behind a namespace label. -/
theorem knownSubdomainDetails_authority_iff {spec : GatewaySpec}
    (hknown : isKnownHostname host (.ofExact exactHost) = .ok (some spec))
    (hparts : subdomainParts node host path r = .ok (some p)) :
    knownSubdomainDetails p.authority (.ofExact exactHost) =
        .ok (some ⟨spec, host, p.ns, p.rootID⟩) ↔
      ¬ Shadowed (knownHost exactHost) host := by
  obtain ⟨root, hp⟩ := partsOf_of_subdomainParts hparts
  rw [isKnownHostname_ofExact] at hknown
  have hauthority : p.authority = p.rootID ++ byte '.' :: (p.ns ++ byte '.' :: host) := by
    rw [← hp.hostname_eq]
    rfl
  rw [knownSubdomainDetails_ofExact, hauthority, Except.ok.injEq]
  exact findDetails_subdomain_iff (Except.ok.inj hknown) hp.namespaced

/-- A gateway at `dweb.link`, asked with its port. -/
def dwebHosts (hostname : Bytes) : Option GatewaySpec :=
  if hostname = ascii "dweb.link" then some subdomainGatewaySpec else none

theorem dwebHosts_not_shadowed : ¬ Shadowed (knownHost dwebHosts) (ascii "dweb.link:8080") := by
  rintro ⟨xs, ns, ys, hsplit, hys, hns, hknown⟩
  have hlabels : splitLabels (ascii "dweb.link:8080") = [ascii "dweb", ascii "link:8080"] := by
    decide
  rw [hlabels] at hsplit
  match xs, hsplit with
  | [], hsplit =>
    obtain ⟨rfl, _⟩ := cons.inj hsplit
    exact absurd hns (by decide)
  | [_], hsplit =>
    obtain ⟨_, htail⟩ := cons.inj hsplit
    obtain ⟨_, rfl⟩ := cons.inj htail
    exact hys rfl
  | _ :: _ :: _, hsplit => simp at hsplit

/-- `docsRequest`, sent to another host. -/
def docsRequestTo (host : Bytes) : Request := { docsRequest with host := host }

theorem knownSubdomainDetails_authority_dweb :
    ∃ p, subdomainParts unaryNode (ascii "dweb.link:8080") docsRequest.path
        (docsRequestTo (ascii "dweb.link:8080")) = .ok (some p) ∧
      p.authority = ascii "babab.ipfs.dweb.link:8080" ∧
      knownSubdomainDetails p.authority (.ofExact dwebHosts) =
        .ok (some ⟨subdomainGatewaySpec, ascii "dweb.link:8080", ascii "ipfs", ascii "babab"⟩) := by
  let p : SubdomainParts :=
    { scheme := ascii "http"
      rootID := ascii "babab"
      ns := ascii "ipfs"
      hostname := ascii "dweb.link:8080"
      rest := ascii "docs"
      query := ascii "page=2" }
  have hparts : subdomainParts unaryNode (ascii "dweb.link:8080") docsRequest.path
      (docsRequestTo (ascii "dweb.link:8080")) = .ok (some p) := by decide +kernel
  refine ⟨p, hparts, by decide, ?_⟩
  exact (knownSubdomainDetails_authority_iff (by decide +kernel) hparts).mpr dwebHosts_not_shadowed

/-- Gateways at `example.com` and at `gw.ipfs.example.com`. -/
def nestedHosts (hostname : Bytes) : Option GatewaySpec :=
  if hostname = ascii "example.com" ∨ hostname = ascii "gw.ipfs.example.com" then
    some subdomainGatewaySpec
  else none

/-- The redirect of `gw.ipfs.example.com` is taken for a subdomain of
`example.com` with the root `babab.ipfs.gw`. -/
theorem nestedHosts_misattributed :
    isKnownHostname (ascii "gw.ipfs.example.com") (.ofExact nestedHosts) =
        .ok (some subdomainGatewaySpec) ∧
      toSubdomainURL unaryNode (ascii "gw.ipfs.example.com") docsRequest.path
          (docsRequestTo (ascii "gw.ipfs.example.com")) =
        .ok (ascii "http://babab.ipfs.gw.ipfs.example.com/docs?page=2") ∧
      knownSubdomainDetails (ascii "babab.ipfs.gw.ipfs.example.com") (.ofExact nestedHosts) =
        .ok (some ⟨subdomainGatewaySpec, ascii "example.com", ascii "ipfs",
          ascii "babab.ipfs.gw"⟩) :=
  ⟨by decide +kernel, by decide +kernel, by decide +kernel⟩

end Hostname
