import GoIpfs.GoUrl
import GoIpfs.CidV0V1

/-!
# Subdomain gateways

The handler of `HostnameOption` (`core/corehttp/hostname.go`) with the helpers
that it calls: which hosts are known gateways, how a host
`{rootID}.{ns}.{gateway}` is taken apart, and how `toSubdomainURL` turns a path
into such a host.  Texts are byte strings, as in Go.

Text encodings of CIDs and peer IDs are parameters, and DNSLink records are given
by the names that resolve.
-/

namespace Hostname

open GoBytes GoUrl List
open CidV0V1 (Cid Multihash newCidV1)

/-! ## Text encodings -/

/-- The bases that subdomains are written in. -/
inductive Base where
  | base32
  | base36
  deriving DecidableEq, Repr

def Base.code : Base → UInt8
  | .base32 => byte 'b'
  | .base36 => byte 'k'

/-- `cid.Libp2pKey`. -/
def libp2pKey : Nat := 0x72

/-- The text encodings of CIDs and peer IDs. -/
structure TextForms where
  /-- `cid.Decode`. -/
  decode : Bytes → Option Cid
  /-- What follows the multibase code of a CIDv1. -/
  digits : Base → Cid → Bytes
  /-- `mh.FromB58String`. -/
  fromB58String : Bytes → Option Multihash

/-- The text of a CIDv1 in a base. -/
def TextForms.text (forms : TextForms) (base : Base) (c : Cid) : Bytes :=
  base.code :: forms.digits base c

/-- A peer ID is the multihash of a public key. -/
abbrev PeerID := Multihash

/-- `peer.FromCid`. -/
def fromCid (c : Cid) : Option PeerID := if c.codec = libp2pKey then some c.hash else none

/-- `peer.ToCid`. -/
def toCid (id : PeerID) : Cid := newCidV1 libp2pKey id

/-- `peer.Decode`. -/
def TextForms.peerDecode (forms : TextForms) (s : Bytes) : Option PeerID :=
  if ascii "Qm" <+: s ∨ ascii "1" <+: s then forms.fromB58String s
  else (forms.decode s).bind fromCid

/-- What the node knows of names: text encodings and DNS. -/
structure Node extends TextForms where
  /-- `dns.IsDomainName`. -/
  isDomainName : Bytes → Bool
  /-- `Name().Resolve` at depth 1 succeeds or reports `ErrResolveRecursion`. -/
  resolves : Bytes → Bool

/-! ### Encodings for examples

A number is written as so many `a` and a `b`, a CIDv1 as the numbers that it
consists of. -/

def unary (n : Nat) : Bytes := replicate n (byte 'a') ++ [byte 'b']

def readUnary : Nat → Bytes → Option (List Nat)
  | acc, [] => if acc = 0 then some [] else none
  | acc, c :: s =>
    if c = byte 'a' then readUnary (acc + 1) s
    else if c = byte 'b' then (readUnary 0 s).map (acc :: ·)
    else none

def cidNumbers (c : Cid) : List Nat := c.codec :: c.hash.code :: c.hash.digest.map UInt8.toNat

def cidOfNumbers : List Nat → Option Cid
  | codec :: code :: digest => some (newCidV1 codec ⟨code, digest.map UInt8.ofNat⟩)
  | _ => none

def unaryForms : TextForms where
  decode s :=
    match s with
    | [] => none
    | code :: digits =>
      if code = byte 'b' ∨ code = byte 'k' then (readUnary 0 digits).bind cidOfNumbers else none
  digits _ c := (cidNumbers c).flatMap unary
  fromB58String _ := none

/-- A node that sees every name as a domain name and resolves none. -/
def unaryNode : Node where
  toTextForms := unaryForms
  isDomainName _ := true
  resolves _ := false

/-! ## Errors and requests -/

/-- The errors of `toSubdomainURL`. -/
inductive SubdomainError where
  /-- `ErrInvalidEncoding`: a CIDv0 is only written in base 58. -/
  | invalidEncoding
  /-- "CID incompatible with DNS label length limit of 63: %s". -/
  | cidLabelTooLong (rootID : Bytes)
  /-- "DNSLink representation incompatible with DNS label length limit of 63: %s". -/
  | dnsLinkLabelTooLong (dnsLabel : Bytes)
  /-- An error of `url.ParseRequestURI`. -/
  | badURL
  deriving DecidableEq, Repr

/-- The parts of an `http.Request` that are read; an absent header is empty. -/
structure Request where
  host : Bytes
  /-- `X-Forwarded-Host`. -/
  forwardedHost : Bytes
  /-- `X-Forwarded-Proto`. -/
  forwardedProto : Bytes
  /-- `URL.Scheme`. -/
  scheme : Bytes
  /-- `URL.Path`, decoded. -/
  path : Bytes
  /-- `URL.RawQuery`. -/
  rawQuery : Bytes
  deriving DecidableEq, Repr

/-- The host that the handler looks at. -/
def Request.effectiveHost (r : Request) : Bytes :=
  if r.forwardedHost ≠ [] then r.forwardedHost else r.host

def isHTTPSRequest (r : Request) : Bool :=
  r.scheme == ascii "https" || r.forwardedProto == ascii "https"

/-! ## Known gateways -/

/-- `config.GatewaySpec`. -/
structure GatewaySpec where
  paths : List Bytes
  useSubdomains : Bool
  noDNSLink : Bool
  deriving DecidableEq, Repr

/-- `wildcardHost`; `re` is `none` if the pattern could not be compiled. -/
structure WildcardHost where
  re : Option (Bytes → Bool)
  spec : GatewaySpec

/-- `gatewayHosts`. -/
structure GatewayHosts where
  exactHost : Bytes → Option GatewaySpec
  wildcard : List WildcardHost

def defaultPaths : List Bytes := [ascii "/ipfs/", ascii "/ipns/", ascii "/api/", ascii "/p2p/"]

def subdomainGatewaySpec : GatewaySpec := ⟨defaultPaths, true, false⟩

/-- The gateways that are known without any configuration. -/
def defaultKnownGateways : GatewayHosts where
  exactHost hostname := if hostname = ascii "localhost" then some subdomainGatewaySpec else none
  wildcard := []

/-- What aborts a request. -/
inductive Panic where
  | nilRegexp
  deriving DecidableEq, Repr

/-- `net.SplitHostPort`. -/
def splitHostPort (hostport : Bytes) : Option (Bytes × Bytes) :=
  if byte ':' ∉ hostport then none
  else if hostport.head? = some (byte '[') then
    -- the first `]` must stand just before the last colon
    if byte ']' ∉ hostport ∨
        after (byte ']') hostport ≠ byte ':' :: afterLast (byte ':') hostport then
      none
    else if byte '[' ∈ hostport.tail ∨ byte ']' ∈ after (byte ']') hostport then none
    else some ((before (byte ']') hostport).tail, afterLast (byte ':') hostport)
  else if byte ':' ∈ beforeLast (byte ':') hostport then none
  else if byte '[' ∈ hostport ∨ byte ']' ∈ hostport then none
  else some (beforeLast (byte ':') hostport, afterLast (byte ':') hostport)

def stripPort (hostname : Bytes) : Bytes :=
  match splitHostPort hostname with
  | some (host, _) => host
  | none => hostname

/-- The loop of `isKnownHostname` over the wildcard hosts. -/
def searchWildcards (hostname : Bytes) : List WildcardHost → Except Panic (Option GatewaySpec)
  | [] => .ok none
  | host :: rest =>
    match host.re with
    | none => .error .nilRegexp
    | some re => if re hostname then .ok (some host.spec) else searchWildcards hostname rest

def isKnownHostname (hostname : Bytes) (knownGateways : GatewayHosts) :
    Except Panic (Option GatewaySpec) :=
  match knownGateways.exactHost hostname with
  | some gw => .ok (some gw)
  | none =>
    match knownGateways.exactHost (stripPort hostname) with
    | some gw => .ok (some gw)
    | none => searchWildcards hostname knownGateways.wildcard

def isSubdomainNamespace (ns : Bytes) : Bool :=
  ns ∈ [ascii "ipfs", ascii "ipns", ascii "p2p", ascii "ipld"]

def isPeerIDNamespace (ns : Bytes) : Bool := ns ∈ [ascii "ipns", ascii "p2p"]

/-- `strings.Split(hostname, ".")`. -/
def splitLabels (hostname : Bytes) : List Bytes := hostname.splitOn (byte '.')

/-- `strings.Join(labels, ".")`. -/
def joinLabels (labels : List Bytes) : Bytes := [byte '.'].intercalate labels

/-- The results of `knownSubdomainDetails`. -/
structure SubdomainDetails where
  gw : GatewaySpec
  gwHostname : Bytes
  ns : Bytes
  rootID : Bytes
  deriving DecidableEq, Repr

/-- The loop of `knownSubdomainDetails`, from index `i` down to 2. -/
def searchDetails (knownGateways : GatewayHosts) (labels : List Bytes) :
    Nat → Except Panic (Option SubdomainDetails)
  | i + 2 => do
      let fqdn := joinLabels (labels.drop (i + 2))
      let ns := labels.getD (i + 1) []
      match ← isKnownHostname fqdn knownGateways with
      | none => searchDetails knownGateways labels (i + 1)
      | some gw =>
        if isSubdomainNamespace ns then
          return some ⟨gw, fqdn, ns, joinLabels (labels.take (i + 1))⟩
        else searchDetails knownGateways labels (i + 1)
  | _ => .ok none

def knownSubdomainDetails (hostname : Bytes) (knownGateways : GatewayHosts) :
    Except Panic (Option SubdomainDetails) :=
  searchDetails knownGateways (splitLabels hostname) ((splitLabels hostname).length - 1)

/-! ## Names and labels -/

variable (node : Node)

def isDomainNameAndNotPeerID (hostname : Bytes) : Bool :=
  hostname ≠ [] && (node.peerDecode hostname).isNone && node.isDomainName hostname

def isDNSLinkName (host : Bytes) : Bool :=
  isDomainNameAndNotPeerID node (stripPort host) &&
    node.resolves (ascii "/ipns/" ++ stripPort host)

/-- "Label's max length in DNS". -/
def dnsLabelMaxLength : Nat := 63

/-- `Cid.StringOfBase` in one of the two bases. -/
def stringOfBase (base : Base) (c : Cid) : Except SubdomainError Bytes :=
  match c.version with
  | .v0 => .error .invalidEncoding
  | .v1 => .ok (node.text base c)

def toDNSLabel (rootID : Bytes) (rootCID : Cid) : Except SubdomainError Bytes :=
  if rootID.length ≤ dnsLabelMaxLength then .ok rootID
  else do
    let rootID ← stringOfBase node .base36 (newCidV1 rootCID.codec rootCID.hash)
    if rootID.length ≤ dnsLabelMaxLength then .ok rootID else .error (.cidLabelTooLong rootID)

/-- `strings.ReplaceAll` of one byte. -/
def replaceByte (old : UInt8) (new : Bytes) (s : Bytes) : Bytes :=
  s.flatMap fun c => if c = old then new else [c]

def toDNSLinkDNSLabel (fqdn : Bytes) : Except SubdomainError Bytes :=
  let dnsLabel := replaceByte (byte '.') (ascii "-") (replaceByte (byte '-') (ascii "--") fqdn)
  if dnsLabel.length > dnsLabelMaxLength then .error (.dnsLinkLabelTooLong dnsLabel)
  else .ok dnsLabel

/-- `strings.ReplaceAll(s, "--", "@")`. -/
def replaceDoubleHyphen : Bytes → Bytes
  | c :: d :: rest =>
    if c = byte '-' ∧ d = byte '-' then byte '@' :: replaceDoubleHyphen rest
    else c :: replaceDoubleHyphen (d :: rest)
  | s => s

def toDNSLinkFQDN (dnsLabel : Bytes) : Bytes :=
  replaceByte (byte '@') (ascii "-")
    (replaceByte (byte '-') (ascii ".") (replaceDoubleHyphen dnsLabel))

/-! ## Redirects -/

/-- `strings.SplitN` at a byte, for a positive `n`. -/
def splitN (sep : UInt8) : Nat → Bytes → List Bytes
  | n + 2, s => if sep ∈ s then before sep s :: splitN sep (n + 1) (after sep s) else [s]
  | _, s => [s]

/-- "Normalize problematic PeerIDs (eg. ed25519+identity) to CID representation". -/
def normalizePeerID (ns rootID : Bytes) : Bytes :=
  if isPeerIDNamespace ns ∧ isDomainNameAndNotPeerID node rootID = false then
    match node.peerDecode rootID with
    | some peerID => node.text .base32 (toCid peerID)
    | none => rootID
  else rootID

/-- The CID that a root stands for in a namespace: "PeerIDs represented as CIDv1
are expected to have libp2p-key multicodec". -/
def canonicalCid (ns : Bytes) (c : Cid) : Cid :=
  newCidV1 (if isPeerIDNamespace ns then libp2pKey else c.codec) c.hash

/-- The base that roots of a namespace are written in. -/
def canonicalBase (ns : Bytes) : Base := if isPeerIDNamespace ns then .base36 else .base32

/-- "If rootID is a CID, ensure it uses DNS-friendly text representation". -/
def cidLabel (ns : Bytes) (c : Cid) : Except SubdomainError Bytes := do
  let rootID ← stringOfBase node (canonicalBase ns) (canonicalCid ns c)
  toDNSLabel node rootID (canonicalCid ns c)

/-- The root as it is written in a subdomain. -/
def subdomainRoot (isHTTPS : Bool) (ns rootID : Bytes) : Except SubdomainError Bytes :=
  match node.decode rootID with
  | some c => cidLabel node ns c
  | none =>
    if isHTTPS ∧ ns = ascii "ipns" ∧ byte '.' ∈ rootID ∧ isDNSLinkName node rootID then
      toDNSLinkDNSLabel rootID
    else .ok rootID

/-- What `toSubdomainURL` puts together. -/
structure SubdomainParts where
  scheme : Bytes
  rootID : Bytes
  ns : Bytes
  hostname : Bytes
  rest : Bytes
  query : Bytes
  deriving DecidableEq, Repr

/-- The host of the URL, `{rootID}.{ns}.{hostname}`. -/
def SubdomainParts.authority (p : SubdomainParts) : Bytes :=
  p.rootID ++ byte '.' :: (p.ns ++ byte '.' :: p.hostname)

/-- `fmt.Sprintf("%s//%s.%s.%s/%s%s", scheme, rootID, ns, hostname, rest, query)`. -/
def SubdomainParts.text (p : SubdomainParts) : Bytes :=
  p.scheme ++ byte ':' :: (ascii "//" ++
    (p.authority ++ byte '/' :: (p.rest ++ if p.query ≠ [] then byte '?' :: p.query else [])))

/-- The namespace, the root and what follows, if the path has them. -/
def cutPath (path : Bytes) : Option (Bytes × Bytes × Bytes) :=
  match splitN (byte '/') 4 path with
  | [_, ns, rootID, rest] => some (ns, rootID, rest)
  | [_, ns, rootID] => some (ns, rootID, [])
  | _ => none

/-- The parts of the URL, unless there is nothing to redirect. -/
def subdomainParts (hostname path : Bytes) (r : Request) :
    Except SubdomainError (Option SubdomainParts) :=
  match cutPath path with
  | none => .ok none
  | some (ns, rootID, rest) =>
    if isSubdomainNamespace ns then do
      let rootID ← subdomainRoot node (isHTTPSRequest r) ns (normalizePeerID node ns rootID)
      return some {
        scheme := if isHTTPSRequest r then ascii "https" else ascii "http"
        rootID := rootID, ns := ns, hostname := hostname, rest := rest, query := r.rawQuery }
    else .ok none

/-- `safeRedirectURL`. -/
def safeRedirectURL (uri : Bytes) : Except SubdomainError Bytes :=
  match parseRequestURI uri with
  | none => .error .badURL
  | some safeURI => .ok safeURI.string

/-- `toSubdomainURL`; the empty text means that nothing is to be redirected. -/
def toSubdomainURL (hostname path : Bytes) (r : Request) : Except SubdomainError Bytes := do
  match ← subdomainParts node hostname path r with
  | none => return []
  | some p => safeRedirectURL p.text

/-- `strings.TrimSuffix(s, "/")`. -/
def trimSlash (s : Bytes) : Bytes := if s.getLast? = some (byte '/') then s.dropLast else s

def hasPrefix (path : Bytes) (prefixes : List Bytes) : Bool :=
  prefixes.any fun p => trimSlash p == path || decide (trimSlash p ++ [byte '/'] <+: path)

/-! ## The handler -/

/-- How the handler answers a request. -/
inductive Answer where
  /-- `http.Redirect` to a URL. -/
  | redirect (url : Bytes)
  | badRequest (err : SubdomainError)
  | notFound
  /-- The request goes to the inner handlers, with this path, with the gateway
  host name in its context and with a `Location` header if one has been set. -/
  | serve (path : Bytes) (hostname : Option Bytes) (location : Option Bytes)
  deriving DecidableEq, Repr

/-- Handle the request as DNSLink. -/
def serveDNSLink (host : Bytes) (r : Request) : Answer :=
  .serve (ascii "/ipns/" ++ stripPort host ++ r.path) (some host) none

/-- A request to a known gateway that "is not using the subdomain feature". -/
def handleKnown (gw : GatewaySpec) (host : Bytes) (r : Request) : Answer :=
  if hasPrefix r.path gw.paths then
    if gw.useSubdomains then
      match toSubdomainURL node host r.path r with
      | .error err => .badRequest err
      | .ok newURL => .serve r.path none (if newURL = [] then none else some newURL)
    else .serve r.path none none
  else if gw.noDNSLink = false ∧ isDNSLinkName node host then serveDNSLink host r
  else .notFound

/-- Redirect to a URL, if it is not empty. -/
def redirectOr (newURL : Except SubdomainError Bytes) (otherwise : Answer) : Answer :=
  match newURL with
  | .error err => .badRequest err
  | .ok url => if url = [] then otherwise else .redirect url

/-- `/ns/rootID`. -/
def rootPath (ns rootID : Bytes) : Bytes := byte '/' :: (ns ++ byte '/' :: rootID)

/-- The path prefix of a root that is not a CID; a single label may be an
inlined DNSLink name. -/
def dnsLinkPath (ns rootID : Bytes) : Bytes :=
  if ns = ascii "ipns" ∧ byte '.' ∉ rootID ∧ isDNSLinkName node rootID = false ∧
      isDNSLinkName node (toDNSLinkFQDN rootID) then
    ascii "/ipns/" ++ toDNSLinkFQDN rootID
  else rootPath ns rootID

/-- A request to `{rootID}.{ns}.{gwHostname}`. -/
def handleSubdomain (d : SubdomainDetails) (r : Request) : Answer :=
  if d.gw.useSubdomains && hasPrefix (rootPath d.ns d.rootID) d.gw.paths then
    match node.decode d.rootID with
    | some rootCID =>
      match toDNSLabel node d.rootID rootCID with
      | .error err => .badRequest err
      | .ok dnsCID =>
        let served := .serve (rootPath d.ns d.rootID ++ r.path) (some d.gwHostname) none
        -- "Do we need to fix multicodec in PeerID represented as CIDv1?"
        let fixed :=
          if isPeerIDNamespace d.ns ∧ rootCID.codec ≠ libp2pKey then
            redirectOr
              (toSubdomainURL node d.gwHostname (rootPath d.ns d.rootID ++ r.path) r) served
          else served
        -- "Do we need to redirect root CID to a canonical DNS representation?"
        if dnsCID <+: r.host then fixed
        else
          redirectOr (toSubdomainURL node d.gwHostname (rootPath d.ns dnsCID ++ r.path) r) fixed
    | none => .serve (dnsLinkPath node d.ns d.rootID ++ r.path) (some d.gwHostname) none
  else .notFound

/-- The handler of `HostnameOption`; `noDNSLink` is `Gateway.NoDNSLink`. -/
def handle (knownGateways : GatewayHosts) (noDNSLink : Bool) (r : Request) :
    Except Panic Answer := do
  match ← isKnownHostname r.effectiveHost knownGateways with
  | some gw => return handleKnown node gw r.effectiveHost r
  | none =>
    match ← knownSubdomainDetails r.effectiveHost knownGateways with
    | some d => return handleSubdomain node d r
    | none =>
      if noDNSLink = false ∧ isDNSLinkName node r.effectiveHost then
        return serveDNSLink r.effectiveHost r
      else return .serve r.path none none

end Hostname
