import GoIpfs.HostnamePatterns

/-!
# The order in which gateways are prepared

`prepareKnownGateways` ranges over a map, so the order of its entries changes
from one start of the daemon to the next.  The exact hosts do not depend on it:
the keys of a map are distinct (`exactHost_perm`).  The wildcard hosts become a
list that is searched from the front, and the first one that matches decides.
So two patterns that match the same host with different specs are served as the
map happens to be ranged over, and this is the only way in which the order
matters.
-/

namespace Hostname

open GoBytes GoUtf8 GoRegexp List

/-! ## Exact hosts -/

section Exact

variable {engine : Bytes → Option (Bytes → Bool)}

/-- What an entry stores under its key in the map of exact hosts, if anything. -/
def exactOf (entry : Bytes × Option GatewaySpec) : Option (Option GatewaySpec) :=
  match entry.2 with
  | none => some none
  | some gw => if byte '*' ∈ entry.1 then none else some (some gw)

theorem add_exactHost (hosts : GatewayHosts) (entry : Bytes × Option GatewaySpec) :
    (hosts.add engine entry).exactHost entry.1 =
      (exactOf entry).getD (hosts.exactHost entry.1) := by
  obtain ⟨hostname, gw⟩ := entry
  cases gw with
  | none => exact if_pos rfl
  | some gw =>
    unfold GatewayHosts.add exactOf
    dsimp only
    split
    · rfl
    · exact if_pos rfl

variable {entry : Bytes × Option GatewaySpec}

theorem add_exactHost_of_ne (hosts : GatewayHosts) {h : Bytes} (hne : h ≠ entry.1) :
    (hosts.add engine entry).exactHost h = hosts.exactHost h := by
  obtain ⟨hostname, gw⟩ := entry
  cases gw with
  | none => exact if_neg hne
  | some gw =>
    unfold GatewayHosts.add
    dsimp only
    split
    · rfl
    · exact if_neg hne

variable {publicGateways : PublicGateways}

theorem foldl_exactHost_of_not_mem {h : Bytes} (hmem : h ∉ publicGateways.map Prod.fst)
    (hosts : GatewayHosts) :
    (publicGateways.foldl (GatewayHosts.add engine) hosts).exactHost h = hosts.exactHost h := by
  induction publicGateways generalizing hosts with
  | nil => rfl
  | cons entry rest ih =>
    rw [map_cons, mem_cons, not_or] at hmem
    rw [foldl_cons, ih hmem.2, add_exactHost_of_ne _ hmem.1]

theorem foldl_exactHost_of_mem (hdistinct : (publicGateways.map Prod.fst).Nodup)
    (hmem : entry ∈ publicGateways) (hosts : GatewayHosts) :
    (publicGateways.foldl (GatewayHosts.add engine) hosts).exactHost entry.1 =
      (exactOf entry).getD (hosts.exactHost entry.1) := by
  induction publicGateways generalizing hosts with
  | nil => exact absurd hmem not_mem_nil
  | cons first rest ih =>
    obtain ⟨hfirst, hrest⟩ := nodup_cons.mp hdistinct
    rw [foldl_cons]
    rcases mem_cons.mp hmem with rfl | hlater
    · rw [foldl_exactHost_of_not_mem hfirst, add_exactHost]
    · have hne : entry.1 ≠ first.1 := by
        intro heq
        exact hfirst (heq ▸ mem_map_of_mem (f := Prod.fst) hlater)
      rw [ih hrest hlater, add_exactHost_of_ne _ hne]

theorem exactHost_perm {order : PublicGateways} (hdistinct : (publicGateways.map Prod.fst).Nodup)
    (hperm : order.Perm publicGateways) (h : Bytes) :
    (prepareKnownGateways engine order).exactHost h =
      (prepareKnownGateways engine publicGateways).exactHost h := by
  have hkeys := hperm.map Prod.fst
  unfold prepareKnownGateways
  by_cases hmem : h ∈ publicGateways.map Prod.fst
  · obtain ⟨entry, hentry, rfl⟩ := mem_map.mp hmem
    rw [foldl_exactHost_of_mem hdistinct hentry,
      foldl_exactHost_of_mem (hkeys.nodup_iff.mpr hdistinct) (hperm.mem_iff.mpr hentry)]
  · rw [foldl_exactHost_of_not_mem hmem,
      foldl_exactHost_of_not_mem (fun hin => hmem (hkeys.mem_iff.mp hin))]

end Exact

/-! ## Wildcard hosts -/

/-- The regexp of a wildcard host matches. -/
def WildcardHost.selects (wildcard : WildcardHost) (host : Bytes) : Bool :=
  wildcard.re.any fun re => re host

theorem searchWildcards_eq {host : Bytes} {wildcards : List WildcardHost}
    (hvalid : ∀ w ∈ wildcards, w.re.isSome = true) :
    searchWildcards host wildcards =
      .ok ((wildcards.find? fun w => w.selects host).map WildcardHost.spec) := by
  induction wildcards with
  | nil => rfl
  | cons w rest ih =>
    obtain ⟨hw, hrest⟩ := forall_mem_cons.mp hvalid
    obtain ⟨re, spec⟩ := w
    cases re with
    | none => cases hw
    | some re =>
      have hselects : WildcardHost.selects ⟨some re, spec⟩ host = re host := rfl
      rw [searchWildcards, find?_cons, hselects, ih hrest]
      dsimp only
      cases re host with
      | false | true => rfl

/-- The first element that is found has the same value in every order, if all
that could be found agree. -/
theorem map_find?_eq_of_mem_iff {α β : Type} {l l' : List α} {p : α → Bool} {f : α → β}
    (hmem : ∀ x, x ∈ l ↔ x ∈ l')
    (hsame : ∀ x ∈ l, ∀ y ∈ l, p x = true → p y = true → f x = f y) :
    (l.find? p).map f = (l'.find? p).map f := by
  cases hx : l.find? p with
  | none =>
    have hnone : l'.find? p = none := by
      rw [find?_eq_none] at hx ⊢
      exact fun y hy => hx y ((hmem y).mpr hy)
    rw [hnone]
  | some x =>
    have hxmem := mem_of_find?_eq_some hx
    have hxp := find?_some hx
    cases hy : l'.find? p with
    | none => exact absurd hxp (find?_eq_none.mp hy x ((hmem x).mp hxmem))
    | some y =>
      have hymem := (hmem y).mpr (mem_of_find?_eq_some hy)
      exact congrArg some (hsame x hxmem y hymem hxp (find?_some hy))

section Order

variable (engine : Bytes → Option (Bytes → Bool)) (publicGateways : PublicGateways)

/-- Every key with a wildcard compiles; a null value is not looked at. -/
def ValidPatterns : Prop :=
  ∀ w ∈ publicGateways.filterMap (wildcardOf engine), w.re.isSome = true

/-- Every two orders of the entries serve every host alike. -/
def OrderFree : Prop :=
  ∀ first second : PublicGateways,
    first.Perm publicGateways → second.Perm publicGateways → ∀ host : Bytes,
      isKnownHostname host (prepareKnownGateways engine first) =
          isKnownHostname host (prepareKnownGateways engine second) ∧
        knownSubdomainDetails host (prepareKnownGateways engine first) =
          knownSubdomainDetails host (prepareKnownGateways engine second)

/-- No host that has to be looked up among the wildcards is matched by two
entries with different specs. -/
def Apart : Prop :=
  ∀ host : Bytes,
    (prepareKnownGateways engine publicGateways).exactHost host = none →
    (prepareKnownGateways engine publicGateways).exactHost (stripPort host) = none →
    ∀ w ∈ publicGateways.filterMap (wildcardOf engine),
      ∀ w' ∈ publicGateways.filterMap (wildcardOf engine),
        w.selects host = true → w'.selects host = true → w.spec = w'.spec

variable {engine publicGateways}

theorem searchDetails_congr {first second : GatewayHosts}
    (h : ∀ host, isKnownHostname host first = isKnownHostname host second)
    (labels : List Bytes) (i : Nat) :
    searchDetails first labels i = searchDetails second labels i := by
  induction i with
  | zero => rfl
  | succ i ih =>
    cases i with
    | zero => rfl
    | succ i =>
      rw [searchDetails, searchDetails, h]
      simp only [ih]

variable (hdistinct : (publicGateways.map Prod.fst).Nodup)
  (hvalid : ValidPatterns engine publicGateways)
include hdistinct hvalid

theorem isKnownHostname_order {order : PublicGateways} (hperm : order.Perm publicGateways)
    {host : Bytes} (hhost : (prepareKnownGateways engine publicGateways).exactHost host = none)
    (hport : (prepareKnownGateways engine publicGateways).exactHost (stripPort host) = none) :
    isKnownHostname host (prepareKnownGateways engine order) =
      .ok (((order.filterMap (wildcardOf engine)).find? fun w => w.selects host).map
        WildcardHost.spec) := by
  have hhost' := (exactHost_perm hdistinct hperm host).trans hhost
  have hport' := (exactHost_perm hdistinct hperm (stripPort host)).trans hport
  rw [isKnownHostname_of_not_exact hhost' hport', prepare_wildcard]
  refine searchWildcards_eq fun w hw => hvalid w ?_
  exact (hperm.filterMap (wildcardOf engine)).mem_iff.mp hw

theorem orderFree_of_apart (hapart : Apart engine publicGateways) :
    OrderFree engine publicGateways := by
  intro first second hfirst hsecond
  have hknown : ∀ host, isKnownHostname host (prepareKnownGateways engine first) =
      isKnownHostname host (prepareKnownGateways engine second) := by
    intro host
    cases hhost : (prepareKnownGateways engine publicGateways).exactHost host with
    | some gw =>
      unfold isKnownHostname
      rw [exactHost_perm hdistinct hfirst, exactHost_perm hdistinct hsecond, hhost]
    | none =>
      cases hport : (prepareKnownGateways engine publicGateways).exactHost (stripPort host) with
      | some gw =>
        unfold isKnownHostname
        simp only [exactHost_perm hdistinct hfirst, exactHost_perm hdistinct hsecond, hhost, hport]
      | none =>
        have hmem : ∀ {order : PublicGateways}, order.Perm publicGateways → ∀ w,
            w ∈ order.filterMap (wildcardOf engine) ↔
              w ∈ publicGateways.filterMap (wildcardOf engine) :=
          fun hperm w => (hperm.filterMap (wildcardOf engine)).mem_iff
        rw [isKnownHostname_order hdistinct hvalid hfirst hhost hport,
          isKnownHostname_order hdistinct hvalid hsecond hhost hport]
        refine congrArg Except.ok (map_find?_eq_of_mem_iff
          (fun w => (hmem hfirst w).trans (hmem hsecond w).symm) fun w hw w' hw' => ?_)
        exact hapart host hhost hport w ((hmem hfirst w).mp hw) w' ((hmem hfirst w').mp hw')
  exact fun host => ⟨hknown host, searchDetails_congr hknown _ _⟩

theorem apart_of_orderFree (hfree : OrderFree engine publicGateways) :
    Apart engine publicGateways := by
  intro host hhost hport
  -- with the entry of a matching wildcard in front, that wildcard decides
  have hfront : ∀ w ∈ publicGateways.filterMap (wildcardOf engine), w.selects host = true →
      ∃ order : PublicGateways, order.Perm publicGateways ∧
        isKnownHostname host (prepareKnownGateways engine order) = .ok (some w.spec) := by
    intro w hw hselects
    obtain ⟨entry, hentry, hof⟩ := mem_filterMap.mp hw
    obtain ⟨before, after, hsplit⟩ := append_of_mem hentry
    refine ⟨entry :: (before ++ after), hsplit ▸ perm_middle.symm, ?_⟩
    rw [isKnownHostname_order hdistinct hvalid (hsplit ▸ perm_middle.symm) hhost hport,
      filterMap_cons, hof]
    rw [find?_cons, hselects]
    rfl
  intro w hw w' hw' hselects hselects'
  obtain ⟨first, hfirst, hw⟩ := hfront w hw hselects
  obtain ⟨second, hsecond, hw'⟩ := hfront w' hw' hselects'
  have heq := (hfree first second hfirst hsecond host).1
  rw [hw, hw'] at heq
  exact Option.some.inj (Except.ok.inj heq)

end Order

/-- **The order of the gateways.**  For a map whose patterns compile, every two
orders of its entries serve every host alike exactly if no host is matched by
two patterns with different specs. -/
theorem gatewayOrder_iff (engine : Bytes → Option (Bytes → Bool))
    (publicGateways : PublicGateways) (hdistinct : (publicGateways.map Prod.fst).Nodup)
    (hvalid : ValidPatterns engine publicGateways) :
    OrderFree engine publicGateways ↔ Apart engine publicGateways :=
  ⟨apart_of_orderFree hdistinct hvalid, orderFree_of_apart hdistinct hvalid⟩

/-- The two patterns of the documentation, which have hosts in common. -/
def documentedPatterns (any foo : GatewaySpec) : PublicGateways :=
  [(ascii "*.example.com", some any), (ascii "foo-*.example.com", some foo)]

/-- With one spec for both patterns the order does not matter. -/
theorem gatewayOrder_iff_documented :
    OrderFree (fun _ => none) (documentedPatterns subdomainGatewaySpec subdomainGatewaySpec) := by
  have hvalid : ValidPatterns (fun _ => none)
      (documentedPatterns subdomainGatewaySpec subdomainGatewaySpec) := by
    intro w hw
    obtain ⟨entry, hentry, hof⟩ := mem_filterMap.mp hw
    rcases mem_cons.mp hentry with rfl | hentry
    · cases hof
      rw [compile_plain (by decide +kernel)]
      rfl
    · rw [mem_singleton.mp hentry] at hof
      cases hof
      rw [compile_plain (by decide +kernel)]
      rfl
  refine (gatewayOrder_iff _ _ (by decide +kernel) hvalid).mpr ?_
  have hspec : ∀ w ∈ (documentedPatterns subdomainGatewaySpec subdomainGatewaySpec).filterMap
      (wildcardOf fun _ => none), w.spec = subdomainGatewaySpec := by
    intro w hw
    rcases mem_cons.mp hw with rfl | hw
    · rfl
    · rw [mem_singleton.mp hw]
  exact fun host _ _ w hw w' hw' _ _ => (hspec w hw).trans (hspec w' hw').symm

/-- A host of both patterns is served by the one that the map yields first. -/
theorem documentedPatterns_order_matters :
    let engine : Bytes → Option (Bytes → Bool) := fun _ => none
    let foo : GatewaySpec := ⟨[ascii "/ipfs"], false, false⟩
    let publicGateways := documentedPatterns subdomainGatewaySpec foo
    (publicGateways.map Prod.fst).Nodup ∧
      isKnownHostname (ascii "foo-bar.example.com")
          (prepareKnownGateways engine publicGateways) = .ok (some subdomainGatewaySpec) ∧
      isKnownHostname (ascii "foo-bar.example.com")
          (prepareKnownGateways engine publicGateways.reverse) = .ok (some foo) :=
  ⟨by decide +kernel, rfl, rfl⟩

end Hostname
