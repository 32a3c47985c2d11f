import GoIpfs.GoBytes

/-!
# URLs

The part of Go's `net/url` that a server uses to read a request URI and to
print a URL: `ParseRequestURI`, `URL.String` and the escaping below them, on
byte strings.  `none` stands for an error.  A fragment is not split off by
`ParseRequestURI`, so there is none.
-/

namespace GoUrl

open GoBytes

/-- The parts of a URL with escaping rules of their own. -/
inductive Mode where
  | path
  | userPassword
  | host
  | zone
  deriving DecidableEq, Repr

def isAlnum (c : UInt8) : Bool :=
  byte 'a' ≤ c && c ≤ byte 'z' || byte 'A' ≤ c && c ≤ byte 'Z' || byte '0' ≤ c && c ≤ byte '9'

/-- The control bytes, which no URL may contain. -/
def isCTL (c : UInt8) : Bool := c < 0x20 || c == 0x7f

/-- `shouldEscape`. -/
def shouldEscape (mode : Mode) (c : UInt8) : Bool :=
  if isAlnum c then false
  else if (mode = .host ∨ mode = .zone) ∧ c ∈ ascii "!$&'()*+,;=:[]<>\"" then false
  else if c ∈ ascii "-_.~" then false
  else if c ∈ ascii "$&+,/:;=?@" then
    match mode with
    | .path => c == byte '?'
    | .userPassword => c ∈ ascii "@/?:"
    | _ => true
  else true

def upperhex (n : UInt8) : UInt8 := if n < 10 then byte '0' + n else byte 'A' + (n - 10)

def ishex (c : UInt8) : Bool :=
  byte '0' ≤ c && c ≤ byte '9' || byte 'a' ≤ c && c ≤ byte 'f' || byte 'A' ≤ c && c ≤ byte 'F'

def unhex (c : UInt8) : UInt8 :=
  if byte '0' ≤ c && c ≤ byte '9' then c - byte '0'
  else if byte 'a' ≤ c && c ≤ byte 'f' then c - byte 'a' + 10
  else if byte 'A' ≤ c && c ≤ byte 'F' then c - byte 'A' + 10
  else 0

/-- The byte behind the two hex digits of an escape. -/
def escaped (h l : UInt8) : UInt8 := unhex h * 16 + unhex l

/-- `%25` is the one ASCII escape that a host may contain. -/
def isPercent25 (h l : UInt8) : Bool := h == byte '2' && l == byte '5'

/-- `unescape` accepts `%hl`: in a host only for bytes that are not ASCII, in a
zone only for bytes that a host may contain and for the space. -/
def escapeAllowed (mode : Mode) (h l : UInt8) : Bool :=
  ishex h && ishex l &&
    match mode with
    | .host => !(unhex h < 8) || isPercent25 h l
    | .zone =>
      isPercent25 h l || escaped h l == byte ' ' || !shouldEscape .host (escaped h l)
    | _ => true

/-- `unescape` accepts a byte that is not the start of an escape. -/
def rawAllowed (mode : Mode) (c : UInt8) : Bool :=
  match mode with
  | .host | .zone => !(c < 0x80 && shouldEscape mode c)
  | _ => true

/-- `unescape`. -/
def unescape (mode : Mode) : Bytes → Option Bytes
  | [] => some []
  | c :: rest =>
    if c = byte '%' then
      match rest with
      | h :: l :: rest =>
        if escapeAllowed mode h l then (unescape mode rest).map (escaped h l :: ·) else none
      | _ => none
    else if rawAllowed mode c then (unescape mode rest).map (c :: ·) else none

/-- The escape of one byte. -/
def escapeByte (mode : Mode) (c : UInt8) : Bytes :=
  if shouldEscape mode c then [byte '%', upperhex (c / 16), upperhex (c % 16)] else [c]

/-- `escape`. -/
def escape (mode : Mode) (s : Bytes) : Bytes := s.flatMap (escapeByte mode)

/-- `validEncoded` in path mode. -/
def validEncoded (s : Bytes) : Bool :=
  s.all fun c => c ∈ ascii "!$&'()*+,;=:@[]%" || !shouldEscape .path c

structure Userinfo where
  username : Bytes
  password : Option Bytes
  deriving DecidableEq, Repr

/-- `url.URL`; `rootless` is the field `Opaque`. -/
structure Url where
  scheme : Bytes := []
  rootless : Bytes := []
  user : Option Userinfo := none
  host : Bytes := []
  path : Bytes := []
  rawPath : Bytes := []
  forceQuery : Bool := false
  rawQuery : Bytes := []
  deriving DecidableEq, Repr

/-! ## Parsing -/

/-- The loop of `getscheme`, after the bytes `acc` of a possible scheme. -/
def getSchemeLoop (raw : Bytes) : Bytes → Bytes → Option (Bytes × Bytes)
  | _, [] => some ([], raw)
  | acc, c :: rest =>
    if byte 'a' ≤ c && c ≤ byte 'z' || byte 'A' ≤ c && c ≤ byte 'Z' then
      getSchemeLoop raw (acc ++ [c]) rest
    else if byte '0' ≤ c && c ≤ byte '9' || c ∈ ascii "+-." then
      if acc = [] then some ([], raw) else getSchemeLoop raw (acc ++ [c]) rest
    else if c = byte ':' then
      if acc = [] then none else some (acc, rest)
    else some ([], raw)

def getScheme (raw : Bytes) : Option (Bytes × Bytes) := getSchemeLoop raw [] raw

/-- `strings.ToLower` on the bytes of a scheme. -/
def lower (s : Bytes) : Bytes :=
  s.map fun c => if byte 'A' ≤ c && c ≤ byte 'Z' then c + 32 else c

/-- Split off the query: what is left, `ForceQuery` and `RawQuery`. -/
def splitQuery (rest : Bytes) : Bytes × Bool × Bytes :=
  if rest.getLast? = some (byte '?') ∧ rest.count (byte '?') = 1 then
    (rest.dropLast, true, [])
  else (before (byte '?') rest, false, after (byte '?') rest)

/-- `validOptionalPort`. -/
def validOptionalPort : Bytes → Bool
  | [] => true
  | c :: port => c == byte ':' && port.all fun d => byte '0' ≤ d && d ≤ byte '9'

/-- Cut a bracketed host at the first `%25`, where its zone begins. -/
def cutZone : Bytes → Option (Bytes × Bytes)
  | [] => none
  | c :: rest =>
    if ascii "%25" <+: c :: rest then some ([], c :: rest)
    else (cutZone rest).map fun p => (c :: p.1, p.2)

def parseHost (host : Bytes) : Option Bytes :=
  if host.head? = some (byte '[') then
    if byte ']' ∈ host then
      if validOptionalPort (afterLast (byte ']') host) then
        match cutZone (beforeLast (byte ']') host) with
        | some (host1, zone) => do
            let host1 ← unescape .host host1
            let host2 ← unescape .zone zone
            let host3 ← unescape .host (byte ']' :: afterLast (byte ']') host)
            return host1 ++ host2 ++ host3
        | none => unescape .host host
      else none
    else none
  else if byte ':' ∈ host ∧ validOptionalPort (byte ':' :: afterLast (byte ':') host) = false then
    none
  else unescape .host host

def validUserinfo (s : Bytes) : Bool :=
  s.all fun c => isAlnum c || c ∈ ascii "-._:~!$&'()*+,;=%@"

/-- The user part of `parseAuthority`. -/
def parseUserinfo (userinfo : Bytes) : Option Userinfo :=
  if validUserinfo userinfo then
    if byte ':' ∈ userinfo then do
      let username ← unescape .userPassword (before (byte ':') userinfo)
      let password ← unescape .userPassword (after (byte ':') userinfo)
      return ⟨username, some password⟩
    else do
      let username ← unescape .userPassword userinfo
      return ⟨username, none⟩
  else none

def parseAuthority (authority : Bytes) : Option (Option Userinfo × Bytes) :=
  if byte '@' ∈ authority then do
    let host ← parseHost (afterLast (byte '@') authority)
    let user ← parseUserinfo (beforeLast (byte '@') authority)
    return (some user, host)
  else do
    let host ← parseHost authority
    return (none, host)

/-- `setPath`. -/
def setPath (u : Url) (p : Bytes) : Option Url := do
  let path ← unescape .path p
  return { u with path := path, rawPath := if p = escape .path path then [] else p }

/-- What follows the scheme, without the query. -/
def parseHier (scheme rest : Bytes) : Option Url :=
  if rest.head? ≠ some (byte '/') then
    if scheme ≠ [] then some { scheme := scheme, rootless := rest } else none
  else if scheme ≠ [] ∧ ascii "//" <+: rest then do
    let (user, host) ← parseAuthority (before (byte '/') (rest.drop 2))
    setPath { scheme := scheme, user := user, host := host } (startingAt (byte '/') (rest.drop 2))
  else setPath { scheme := scheme } rest

/-- What follows the scheme. -/
def parseRest (scheme rest : Bytes) : Option Url := do
  let u ← parseHier scheme (splitQuery rest).1
  return { u with forceQuery := (splitQuery rest).2.1, rawQuery := (splitQuery rest).2.2 }

/-- `ParseRequestURI`. -/
def parseRequestURI (raw : Bytes) : Option Url :=
  if raw.any isCTL then none
  else if raw = [] then none
  else if raw = ascii "*" then some { path := ascii "*" }
  else do
    let (scheme, rest) ← getScheme raw
    parseRest (lower scheme) rest

/-! ## Printing -/

def Userinfo.string (ui : Userinfo) : Bytes :=
  escape .userPassword ui.username ++
    match ui.password with
    | none => []
    | some password => byte ':' :: escape .userPassword password

def Url.escapedPath (u : Url) : Bytes :=
  if u.rawPath ≠ [] ∧ validEncoded u.rawPath = true ∧ unescape .path u.rawPath = some u.path then
    u.rawPath
  else if u.path = ascii "*" then ascii "*"
  else escape .path u.path

/-- User and host as they are printed. -/
def Url.authority (u : Url) : Bytes :=
  (match u.user with
    | none => []
    | some ui => ui.string ++ [byte '@']) ++ escape .host u.host

/-- The part between the scheme and the query. -/
def Url.hierString (u : Url) : Bytes :=
  if u.rootless ≠ [] then u.rootless
  else
    let start :=
      if u.scheme ≠ [] ∨ u.host ≠ [] ∨ u.user ≠ none then
        (if u.host ≠ [] ∨ u.path ≠ [] ∨ u.user ≠ none then ascii "//" else []) ++ u.authority
      else []
    let path := u.escapedPath
    let slash :=
      if path ≠ [] ∧ path.head? ≠ some (byte '/') ∧ u.host ≠ [] then [byte '/'] else []
    let dot :=
      if u.scheme = [] ∧ start ++ slash = [] ∧ byte ':' ∈ before (byte '/') path then ascii "./"
      else []
    start ++ slash ++ dot ++ path

/-- `URL.String`. -/
def Url.string (u : Url) : Bytes :=
  (if u.scheme ≠ [] then u.scheme ++ [byte ':'] else []) ++ u.hierString ++
    if u.forceQuery ∨ u.rawQuery ≠ [] then byte '?' :: u.rawQuery else []

end GoUrl
