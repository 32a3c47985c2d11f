import GoIpfs.GoRegexp
import GoIpfs.Hostname

/-!
# Wildcard hosts of the gateway

`prepareKnownGateways` turns the keys of `Gateway.PublicGateways` that contain a
`*` into regular expressions, by replacing text: `.` becomes `\.`, `*` becomes
`[^.]+`, and the result is put between `^` and `(?::\d+)?$`.  An expression that
does not compile is only logged; its regexp stays nil.

A pattern is *plain* if none of its other characters means anything in a regular
expression.  Then the expression says what the pattern says: a host is matched
exactly if it is the pattern with a non-empty text without dots for every `*`,
optionally followed by a port (`matchString_wildcardExpr`).  If a pattern is not
plain, some text that is too short is matched, or the expression does not
compile and every request panics (`plain_of_works`); this is proved for the
patterns that use no escapes, classes, counted repetitions and flags.

Texts are compared as `regexp` does, rune by rune.
-/

namespace Hostname

open GoBytes GoUtf8 GoRegexp List Option

/-! ## Preparing the gateways -/

/-- What `Gateway.PublicGateways` holds, in the order in which it is ranged
over; the value of a key can be null. -/
abbrev PublicGateways := List (Bytes × Option GatewaySpec)

/-- The expression that a key with a wildcard is turned into. -/
def wildcardExpr (hostname : Bytes) : Bytes :=
  let escaped := replaceByte (byte '.') (ascii "\\.") hostname
  let regexed := replaceByte (byte '*') (ascii "[^.]+") escaped
  ascii "^" ++ regexed ++ ascii "(?::\\d+)?$"

variable {pattern : Bytes}

section Prepare

variable (engine : Bytes → Option (Bytes → Bool))

/-- The body of the loop over `publicGateways`. -/
def GatewayHosts.add (hosts : GatewayHosts) (entry : Bytes × Option GatewaySpec) : GatewayHosts :=
  match entry.2 with
  | none => { hosts with exactHost := fun h => if h = entry.1 then none else hosts.exactHost h }
  | some gw =>
    if byte '*' ∈ entry.1 then
      { hosts with
        wildcard := hosts.wildcard ++ [⟨compile engine (wildcardExpr entry.1), gw⟩] }
    else
      { hosts with exactHost := fun h => if h = entry.1 then some gw else hosts.exactHost h }

def prepareKnownGateways (publicGateways : PublicGateways) : GatewayHosts :=
  publicGateways.foldl (GatewayHosts.add engine) defaultKnownGateways

/-- The wildcard host that an entry adds. -/
def wildcardOf (entry : Bytes × Option GatewaySpec) : Option WildcardHost :=
  match entry.2 with
  | none => none
  | some gw =>
    if byte '*' ∈ entry.1 then some ⟨compile engine (wildcardExpr entry.1), gw⟩ else none

theorem add_wildcard (hosts : GatewayHosts) (entry : Bytes × Option GatewaySpec) :
    (hosts.add engine entry).wildcard = hosts.wildcard ++ (wildcardOf engine entry).toList := by
  obtain ⟨hostname, gw⟩ := entry
  cases gw with
  | none => exact (append_nil _).symm
  | some gw =>
    unfold GatewayHosts.add wildcardOf
    dsimp only
    split
    · rfl
    · exact (append_nil _).symm

theorem prepare_wildcard (publicGateways : PublicGateways) :
    (prepareKnownGateways engine publicGateways).wildcard =
      publicGateways.filterMap (wildcardOf engine) := by
  have hfold : ∀ hosts : GatewayHosts,
      (publicGateways.foldl (GatewayHosts.add engine) hosts).wildcard =
        hosts.wildcard ++ publicGateways.filterMap (wildcardOf engine) := by
    induction publicGateways with
    | nil => exact fun hosts => (append_nil _).symm
    | cons entry rest ih =>
      intro hosts
      rw [foldl_cons, ih, add_wildcard, append_assoc, filterMap_cons]
      cases wildcardOf engine entry with
      | none | some host => rfl
  exact hfold defaultKnownGateways

/-- A map whose only key with a wildcard is `pattern`. -/
structure OnlyPattern (publicGateways : PublicGateways) (pattern : Bytes) (gw : GatewaySpec) :
    Prop where
  distinct : (publicGateways.map Prod.fst).Nodup
  mem : (pattern, some gw) ∈ publicGateways
  only : ∀ entry ∈ publicGateways, byte '*' ∈ entry.1 → entry.1 = pattern

variable {engine}

theorem wildcard_of_onlyPattern {publicGateways : PublicGateways} {gw : GatewaySpec}
    (hstar : byte '*' ∈ pattern) (h : OnlyPattern publicGateways pattern gw) :
    (prepareKnownGateways engine publicGateways).wildcard =
      [⟨compile engine (wildcardExpr pattern), gw⟩] := by
  obtain ⟨hdistinct, hmem, honly⟩ := h
  obtain ⟨before, after, rfl⟩ := append_of_mem hmem
  rw [map_append, map_cons, nodup_append] at hdistinct
  obtain ⟨-, hafter, hbefore⟩ := hdistinct
  have hnone : ∀ entry : Bytes × Option GatewaySpec,
      entry ∈ before ++ (pattern, some gw) :: after → entry.1 ≠ pattern →
        wildcardOf engine entry = none := by
    intro entry hentry hne
    unfold wildcardOf
    split
    · rfl
    · exact if_neg fun hin => hne (honly entry hentry hin)
  have hother : ∀ part : PublicGateways,
      (∀ entry ∈ part, wildcardOf engine entry = none) →
        part.filterMap (wildcardOf engine) = [] :=
    fun part hpart => filterMap_eq_nil_iff.mpr hpart
  have hthis : wildcardOf engine (pattern, some gw) =
      some ⟨compile engine (wildcardExpr pattern), gw⟩ := if_pos hstar
  rw [prepare_wildcard, filterMap_append, filterMap_cons, hthis, hother before ?_, hother after ?_]
  · rfl
  · intro entry hentry
    refine hnone entry (by simp [hentry]) fun heq => ?_
    have hkey : entry.1 ∈ after.map Prod.fst := mem_map_of_mem hentry
    exact (nodup_cons.mp hafter).1 (heq ▸ hkey)
  · intro entry hentry
    refine hnone entry (by simp [hentry]) fun heq => ?_
    exact hbefore _ (mem_map_of_mem hentry) pattern mem_cons_self heq

end Prepare

/-! ## The expression of a pattern -/

/-- What the two replacements do to a byte. -/
def wildcardByte (c : UInt8) : Bytes :=
  if c = byte '.' then ascii "\\." else if c = byte '*' then ascii "[^.]+" else [c]

/-- What the two replacements do to a rune. -/
def wildcardRune (r : Rune) : List Rune :=
  if r = rune '.' then [rune '\\', rune '.']
  else if r = rune '*' then [rune '[', rune '^', rune '.', rune ']', rune '+']
  else [r]

/-- The optional port at the end of the expression. -/
def portExpr : List Rune := (ascii "(?::\\d+)?$").map UInt8.toNat

theorem onRunes_other {f : UInt8 → Bytes} {r : Rune} (hf : ∀ b : UInt8, b.toNat = r → f b = [b]) :
    onRunes f r = [r] := by
  unfold onRunes
  split
  · next hlow =>
    have hback : (UInt8.ofNat r).toNat = r :=
      UInt8.toNat_ofNat_of_lt' (Nat.lt_trans hlow (by decide))
    rw [hf _ hback, map_singleton, hback]
  · rfl

theorem onRunes_wildcardByte (r : Rune) : onRunes wildcardByte r = wildcardRune r := by
  by_cases hdot : r = rune '.'
  · subst hdot
    rfl
  by_cases hstar : r = rune '*'
  · subst hstar
    rfl
  unfold wildcardRune
  rw [if_neg hdot, if_neg hstar]
  refine onRunes_other fun b hb => ?_
  unfold wildcardByte
  rw [if_neg fun heq => hdot (by rw [← hb, heq]; rfl),
    if_neg fun heq => hstar (by rw [← hb, heq]; rfl)]

theorem wildcardExpr_eq (hostname : Bytes) :
    wildcardExpr hostname = ascii "^" ++ hostname.flatMap wildcardByte ++ ascii "(?::\\d+)?$" := by
  unfold wildcardExpr replaceByte
  dsimp only
  rw [flatMap_assoc]
  congr 3
  funext c
  unfold wildcardByte
  split
  · decide
  · rw [flatMap_singleton]

theorem runes_wildcardExpr (hvalid : validString pattern = true) :
    runes (wildcardExpr pattern) =
        rune '^' :: ((runes pattern).flatMap wildcardRune ++ portExpr) ∧
      validString (wildcardExpr pattern) = true := by
  have hhigh : ∀ b : UInt8, ¬ b < 0x80 → wildcardByte b = [b] := by
    intro b hb
    have hdot : b ≠ byte '.' := fun heq => hb (heq ▸ by decide)
    have hstar : b ≠ byte '*' := fun heq => hb (heq ▸ by decide)
    unfold wildcardByte
    rw [if_neg hdot, if_neg hstar]
  have hlow : ∀ b : UInt8, b < 0x80 → ∀ c ∈ wildcardByte b, c < 0x80 := by
    intro b hb
    unfold wildcardByte
    split
    · exact forall_of_all (by decide)
    · split
      · exact forall_of_all (by decide)
      · exact fun c hc => mem_singleton.mp hc ▸ hb
  obtain ⟨hrunes, hflat⟩ := runes_flatMap hhigh hlow hvalid
  have hcaret : ∀ c ∈ ascii "^", c < 0x80 := forall_of_all (by decide)
  have hport : ∀ c ∈ ascii "(?::\\d+)?$", c < 0x80 := forall_of_all (by decide)
  have hfirst := validString_append (validString_low hcaret) hflat
  rw [wildcardExpr_eq]
  refine ⟨?_, validString_append hfirst (validString_low hport)⟩
  rw [runes_append hfirst, runes_append (validString_low hcaret), runes_low hcaret,
    runes_low hport, hrunes, funext onRunes_wildcardByte]
  rfl

/-! ## Plain patterns -/

/-- `f` holds at every rune, given what follows it. -/
def everywhere (f : Rune → List Rune → Bool) : List Rune → Bool
  | [] => true
  | r :: t => f r t && everywhere f t

/-- A rune that means in the expression what it means in the pattern. -/
def plainAt (r : Rune) (t : List Rune) : Bool :=
  r = rune '.' || r = rune '*' || kind r = .literal || (kind r = .brace && !startsRepeat t)

/-- A pattern without regexp syntax: UTF-8 without any of `\ + ? ( ) | [ ^ $` and
without a `{` that starts a counted repetition. -/
def plain (pattern : Bytes) : Bool :=
  validString pattern && everywhere plainAt (runes pattern)

/-- A text that a rune of a pattern stands for. -/
def FillsRune (r : Rune) (u : List Rune) : Prop :=
  if r = rune '*' then u ≠ [] ∧ rune '.' ∉ u else u = [r]

/-- A pattern with every `*` replaced by a non-empty text without dots. -/
def Fills : List Rune → List Rune → Prop
  | [], text => text = []
  | r :: pattern, text => ∃ u v, text = u ++ v ∧ FillsRune r u ∧ Fills pattern v

/-- Nothing, or a colon and digits. -/
def IsPort (text : List Rune) : Prop :=
  text = [] ∨ ∃ digits, digits ≠ [] ∧ (∀ d ∈ digits, isDigit d = true) ∧ text = rune ':' :: digits

/-- A host that the pattern stands for, optionally with a port.  Like the expression,
it compares runes, so any byte that is no UTF-8 counts as U+FFFD. -/
def IsInstance (pattern host : Bytes) : Prop :=
  ∃ body port, runes host = body ++ port ∧ Fills (runes pattern) body ∧ IsPort port

/-! ## The expression of a plain pattern -/

def wildcardTokens (r : Rune) : List Token :=
  if r = rune '*' then [.chars (.notSingle (rune '.')), .repetition .plus]
  else [.chars (.single r)]

def portTokens : List Token :=
  [.leftParen, .chars (.single (rune ':')), .chars .digit, .repetition .plus, .rightParen,
    .repetition .quest, .endText]

theorem tokens_portExpr : tokens portExpr = some portTokens := by decide

variable {p s rest : List Rune}

theorem head_flatMap_wildcardRune (h : p.head? ≠ some (rune '?')) :
    (p.flatMap wildcardRune ++ portExpr).head? ≠ some (rune '?') := by
  cases p with
  | nil => decide
  | cons r p =>
    have hescape : some (rune '\\') ≠ some (rune '?') := by decide
    have hclass : some (rune '[') ≠ some (rune '?') := by decide
    rw [flatMap_cons]
    unfold wildcardRune
    split
    · exact hescape
    · split
      · exact hclass
      · exact h

theorem startsRepeat_wildcardRune (p : List Rune) :
    startsRepeat (p.flatMap wildcardRune ++ portExpr) = startsRepeat p := by
  refine startsRepeat_flatMap (fun r => ?_) (by decide) p
  unfold wildcardRune
  split
  · next heq => exact .inr ⟨heq ▸ by decide, _, _, rfl, by decide⟩
  · split
    · next heq => exact .inr ⟨heq ▸ by decide, _, _, rfl, by decide⟩
    · exact .inl rfl

variable {r : Rune}

section Read

variable {p : List Rune}

theorem tokens_wildcard_dot :
    tokens (wildcardRune (rune '.') ++ s) = (tokens s).map (.chars (.single (rune '.')) :: ·) :=
  tokens_of_starts (.escaped rfl rfl)

theorem flatMap_wildcardRune_cons (hdot : r ≠ rune '.') (hstar : r ≠ rune '*') :
    (r :: p).flatMap wildcardRune ++ portExpr = r :: (p.flatMap wildcardRune ++ portExpr) := by
  rw [flatMap_cons, wildcardRune, if_neg hdot, if_neg hstar]
  rfl

theorem tokens_wildcard_star (hs : Starts (rune '+' :: s) (.repetition .plus) rest) :
    tokens (wildcardRune (rune '*') ++ s) = (tokens rest).map
      fun ts => .chars (.notSingle (rune '.')) :: .repetition .plus :: ts := by
  have hclass : tokens (wildcardRune (rune '*') ++ s) =
      (tokens (rune '+' :: s)).map (.chars (.notSingle (rune '.')) :: ·) :=
    tokens_of_starts (.notSingle rfl rfl)
  rw [hclass, tokens_of_starts hs, Option.map_map]
  rfl

theorem tokens_wildcard_plain (hplain : everywhere plainAt p = true) :
    tokens (p.flatMap wildcardRune ++ portExpr) =
      some (p.flatMap wildcardTokens ++ portTokens) := by
  induction p with
  | nil => exact tokens_portExpr
  | cons r p ih =>
    obtain ⟨hr, hp⟩ := Bool.and_eq_true_iff.mp hplain
    have hrest := ih hp
    by_cases hdot : r = rune '.'
    · subst hdot
      rw [flatMap_cons, append_assoc, tokens_wildcard_dot, hrest]
      rfl
    by_cases hstar : r = rune '*'
    · subst hstar
      rw [flatMap_cons, append_assoc,
        tokens_wildcard_star (.operator rfl (head_flatMap_wildcardRune ?_)), hrest]
      · rfl
      intro hquest
      cases p with
      | nil => cases hquest
      | cons x p =>
        cases hquest
        have hnot : plainAt (rune '?') p = false := rfl
        cases hp
    have hsingle : wildcardTokens r = [.chars (.single r)] := if_neg hstar
    rw [flatMap_wildcardRune_cons hdot hstar, flatMap_cons, hsingle]
    simp only [plainAt, hdot, hstar, decide_false, Bool.false_or, Bool.or_eq_true,
      decide_eq_true_eq, Bool.and_eq_true, Bool.not_eq_true'] at hr
    rcases hr with hliteral | ⟨hbrace, hrepeat⟩
    · rw [tokens_of_starts (.literal hliteral), hrest]
      rfl
    · rw [tokens_of_starts (.brace hbrace (by rw [startsRepeat_wildcardRune, hrepeat])), hrest]
      rfl

end Read

/-! ## Matching a plain pattern -/

/-- The expression of a rune of a plain pattern. -/
def wildcardRe (r : Rune) : Re :=
  if r = rune '*' then .plus (.chars (.notSingle (rune '.'))) else .chars (.single r)

/-- The expression of the optional port. -/
def portRe : Re := .quest (catParts [.plus (.chars .digit), .chars (.single (rune ':'))])

theorem run_wildcardTokens (p : List Rune) (q : Parser) :
    ∃ b, q.run (p.flatMap wildcardTokens) =
      some ⟨q.outer, ⟨q.top.alts, (p.map wildcardRe).reverse ++ q.top.parts⟩, b⟩ := by
  induction p generalizing q with
  | nil => exact ⟨q.repeated, rfl⟩
  | cons r p ih =>
    have hone : ∃ b, q.run (wildcardTokens r) =
        some ⟨q.outer, ⟨q.top.alts, wildcardRe r :: q.top.parts⟩, b⟩ := by
      unfold wildcardTokens wildcardRe
      split
      · exact ⟨true, rfl⟩
      · exact ⟨false, rfl⟩
    obtain ⟨b, hb⟩ := hone
    obtain ⟨b', hrest⟩ := ih ⟨q.outer, ⟨q.top.alts, wildcardRe r :: q.top.parts⟩, b⟩
    refine ⟨b', ?_⟩
    rw [flatMap_cons, Parser.run_append, hb, bind_some, hrest]
    simp only [map_cons, reverse_cons, append_assoc, singleton_append]

theorem run_portTokens (q : Parser) :
    q.run portTokens =
      some ⟨q.outer, ⟨q.top.alts, .endText :: portRe :: q.top.parts⟩, false⟩ := rfl

/-- The parts of the expression of a plain pattern, in order. -/
def plainParts (p : List Rune) : List Re :=
  .beginText :: (p.map wildcardRe ++ [portRe, .endText])

theorem parse_plain (p : List Rune) :
    parse (.beginText :: (p.flatMap wildcardTokens ++ portTokens)) =
      some (catParts (plainParts p).reverse) := by
  obtain ⟨b, hb⟩ := run_wildcardTokens p ⟨[], ⟨[], [.beginText]⟩, false⟩
  have hstart : Parser.start.step .beginText = some ⟨[], ⟨[], [.beginText]⟩, false⟩ := rfl
  unfold parse
  rw [Parser.run_cons, hstart, bind_some, Parser.run_append, hb, bind_some,
    run_portTokens, bind_some]
  unfold Parser.finish Frame.close plainParts
  simp

variable {b : Bool} {text : List Rune}

theorem run_wildcardRe {q : Pos} :
    Run (wildcardRe r) (b, text) q ↔
      ∃ u t, text = u ++ t ∧ FillsRune r u ∧ q = (false, t) := by
  unfold wildcardRe FillsRune
  split
  · rw [run_plus_chars]
    refine exists_congr fun u => exists_congr fun t => ?_
    have hfree : (∀ x ∈ u, (RuneSet.notSingle (rune '.')).has x = true) ↔ rune '.' ∉ u := by
      simp only [has_notSingle]
      exact ⟨fun h hin => h _ hin rfl, fun h x hx heq => h (heq ▸ hx)⟩
    tauto
  · rw [run_chars]
    refine ⟨fun ⟨x, t, htext, hx, hq⟩ => ⟨[x], t, htext, ?_, hq⟩,
      fun ⟨u, t, htext, hu, hq⟩ => ⟨r, t, ?_, has_single.mpr rfl, hq⟩⟩
    · rw [has_single.mp hx]
    · rw [htext, hu]
      rfl

theorem runAll_wildcardRe {q : Pos} :
    RunAll (p.map wildcardRe) (b, text) q ↔
      ∃ body t, text = body ++ t ∧ Fills p body ∧ q = (b && p.isEmpty, t) := by
  induction p generalizing b text with
  | nil =>
    refine ⟨fun h => ⟨[], text, rfl, rfl, ?_⟩, fun ⟨body, t, htext, hbody, hq⟩ => ?_⟩
    · rw [isEmpty_nil, Bool.and_true]
      exact h
    · subst htext
      rw [show body = [] from hbody]
      rw [isEmpty_nil, Bool.and_true] at hq
      exact hq
  | cons r p ih =>
    rw [isEmpty_cons, Bool.and_false]
    refine ⟨fun ⟨m, hm, h⟩ => ?_, fun ⟨body, t, htext, ⟨u, v, hbody, hu, hv⟩, hq⟩ => ?_⟩
    · obtain ⟨u, t, rfl, hu, rfl⟩ := run_wildcardRe.mp hm
      obtain ⟨body, t', rfl, hbody, hq⟩ := ih.mp h
      refine ⟨u ++ body, t', (append_assoc ..).symm, ⟨u, body, rfl, hu, hbody⟩, ?_⟩
      rw [hq, Bool.false_and]
    · subst htext hbody
      rw [append_assoc]
      refine ⟨(false, v ++ t), run_wildcardRe.mpr ⟨u, _, rfl, hu, rfl⟩, ih.mpr ?_⟩
      exact ⟨v, t, rfl, hv, by rw [hq, Bool.false_and]⟩

theorem run_portRe_end : (∃ q, RunAll [portRe, .endText] (b, text) q) ↔ IsPort text := by
  have hcolon : ∀ m : Pos, Run (catParts [.plus (.chars .digit), .chars (.single (rune ':'))])
      (b, text) m ↔ ∃ digits t, digits ≠ [] ∧ (∀ d ∈ digits, isDigit d = true) ∧
        text = rune ':' :: (digits ++ t) ∧ m = (false, t) := by
    intro m
    rw [run_catParts]
    refine ⟨fun ⟨n, hn, k, hk, hm⟩ => ?_, fun ⟨digits, t, hne, hdigits, htext, hm⟩ => ?_⟩
    · obtain ⟨x, t, rfl, hx, rfl⟩ := run_chars.mp hn
      obtain ⟨u, t', hne, rfl, hu, rfl⟩ := run_plus_chars.mp hk
      rw [has_single.mp hx]
      exact ⟨u, t', hne, fun d hd => has_digit d ▸ hu d hd, rfl, hm⟩
    · subst htext hm
      refine ⟨_, run_chars.mpr ⟨_, _, rfl, has_single.mpr rfl, rfl⟩, _, ?_, rfl⟩
      exact run_plus_chars.mpr
        ⟨digits, t, hne, rfl, fun d hd => (has_digit d).symm ▸ hdigits d hd, rfl⟩
  refine ⟨fun ⟨q, m, hm, n, hend, _⟩ => ?_, fun h => ?_⟩
  · cases hend
    cases hm with
    | questNone => exact .inl rfl
    | questSome hm =>
      obtain ⟨digits, t, hne, hdigits, rfl, heq⟩ := (hcolon _).mp hm
      cases heq
      exact .inr ⟨digits, hne, hdigits, by rw [append_nil]⟩
  · rcases h with rfl | ⟨digits, hne, hdigits, rfl⟩
    · exact ⟨_, _, Run.questNone, _, Run.endText, rfl⟩
    · refine ⟨_, (false, []), Run.questSome ((hcolon _).mpr ?_), _, Run.endText, rfl⟩
      exact ⟨digits, [], hne, hdigits, by rw [append_nil], rfl⟩

theorem matchString_plainParts :
    (catParts (plainParts p).reverse).matchString text = true ↔
      ∃ body port, text = body ++ port ∧ Fills p body ∧ IsPort port := by
  rw [matchString_iff]
  simp only [run_catParts, reverse_reverse, plainParts]
  refine ⟨fun ⟨m, hm, q, n, hn, hrest⟩ => ?_, fun ⟨body, port, htext, hbody, hport⟩ => ?_⟩
  · cases hn
    obtain rfl := eq_start_of_mem_positions hm
    obtain ⟨k, hk, hq⟩ := runAll_append.mp hrest
    obtain ⟨body, port, rfl, hbody, rfl⟩ := runAll_wildcardRe.mp hk
    exact ⟨body, port, rfl, hbody, run_portRe_end.mp ⟨q, hq⟩⟩
  · subst htext
    obtain ⟨q, hq⟩ := run_portRe_end.mpr hport
    refine ⟨_, start_mem_positions _, q, _, Run.beginText, runAll_append.mpr ⟨_, ?_, hq⟩⟩
    exact runAll_wildcardRe.mpr ⟨body, port, rfl, hbody, rfl⟩

/-! ## Patterns that are not plain -/

/-- A rune that is no escape, class, counted repetition or flag. -/
def simpleAt (r : Rune) (t : List Rune) : Bool :=
  match kind r with
  | .escape | .runeClass => false
  | .brace => !startsRepeat t
  | .leftParen => t.head? ≠ some (rune '?')
  | _ => true

/-- A pattern that is not plain only by anchors, groups, alternatives and the
operators `+` and `?`. -/
def simple (pattern : Bytes) : Bool :=
  validString pattern && everywhere simpleAt (runes pattern)

def flaws (p : List Rune) : Nat := if everywhere plainAt p then 0 else 1

theorem flaws_le_one (p : List Rune) : flaws p ≤ 1 := by
  unfold flaws
  split <;> decide

theorem flaws_cons (hr : plainAt r p = true) : flaws (r :: p) = flaws p := by
  unfold flaws
  rw [everywhere, hr, Bool.true_and]

/-- The expression of `p` is read as `ts` and the port, where `ts` consumes at
most one rune for each of `p`, and fewer if `p` is not plain. -/
structure Weighs (p : List Rune) (ts : List Token) : Prop where
  read : tokens (p.flatMap wildcardRune ++ portExpr) = some (ts ++ portTokens)
  weight : charTokens ts + flaws p ≤ p.length

variable {ts : List Token}

theorem weighs_append (rs : List Rune) (us : List Token) (h : Weighs p ts)
    (hread : tokens ((rs ++ p).flatMap wildcardRune ++ portExpr) =
      (tokens (p.flatMap wildcardRune ++ portExpr)).map (us ++ ·))
    (hweight : charTokens us + flaws (rs ++ p) ≤ rs.length + flaws p) :
    Weighs (rs ++ p) (us ++ ts) := by
  constructor
  · rw [hread, h.read, map_some, append_assoc]
  · have hrest := h.weight
    rw [charTokens_append, length_append]
    omega

theorem weighs_operator (us : List Token) (op : Repeat) (hchars : charTokens us ≤ 1)
    (hplain : charTokens us = 0 ∨ plainAt r p = true)
    (hgreedy : p.head? ≠ some (rune '?') → tokens ((r :: p).flatMap wildcardRune ++ portExpr) =
      (tokens (p.flatMap wildcardRune ++ portExpr)).map ((us ++ [.repetition op]) ++ ·))
    (hlazy : ∀ rest, p = rune '?' :: rest → tokens ((r :: p).flatMap wildcardRune ++ portExpr) =
      (tokens (rest.flatMap wildcardRune ++ portExpr)).map ((us ++ [.repetition op]) ++ ·))
    (hrest : ∀ rest, rest <:+ p → ∃ ts, Weighs rest ts) : ∃ ts, Weighs (r :: p) ts := by
  have hcount : charTokens (us ++ [.repetition op]) = charTokens us := charTokens_append _ _
  have hle := flaws_le_one (r :: p)
  by_cases hquest : p.head? = some (rune '?')
  · obtain ⟨rest, rfl⟩ : ∃ rest, p = rune '?' :: rest := by
      cases p with
      | nil => cases hquest
      | cons x rest =>
        cases hquest
        exact ⟨rest, rfl⟩
    obtain ⟨ts, hts⟩ := hrest rest (suffix_cons _ _)
    refine ⟨_, weighs_append [r, rune '?'] _ hts (hlazy rest rfl) ?_⟩
    simp only [cons_append, nil_append, length_cons, length_nil]
    omega
  · obtain ⟨ts, hts⟩ := hrest p suffix_rfl
    refine ⟨_, weighs_append [r] _ hts (hgreedy hquest) ?_⟩
    simp only [cons_append, nil_append, length_cons, length_nil]
    rcases hplain with hzero | hplain
    · omega
    · rw [flaws_cons hplain]
      omega

theorem weighs_cons {t : Token} (h : Weighs p ts) (hdot : r ≠ rune '.') (hstar : r ≠ rune '*')
    (hstarts : Starts (r :: (p.flatMap wildcardRune ++ portExpr)) t
      (p.flatMap wildcardRune ++ portExpr))
    (hweight : charTokens [t] = 0 ∨ charTokens [t] = 1 ∧ plainAt r p = true) :
    Weighs (r :: p) (t :: ts) := by
  refine weighs_append [r] [t] h ?_ ?_
  · rw [singleton_append, flatMap_wildcardRune_cons hdot hstar, tokens_of_starts hstarts]
    rfl
  have hle := flaws_le_one (r :: p)
  rw [singleton_append, length_singleton]
  rcases hweight with hzero | ⟨hone, hplain⟩
  · omega
  · rw [flaws_cons hplain]
    omega

theorem simpleAt_suffix (hsuffix : rest <:+ p) (hp : everywhere simpleAt p = true) :
    everywhere simpleAt rest = true := by
  induction p with
  | nil => rw [suffix_nil.mp hsuffix, everywhere]
  | cons r p ih =>
    rcases suffix_cons_iff.mp hsuffix with rfl | hlater
    · exact hp
    · exact ih hlater (Bool.and_eq_true_iff.mp hp).2

/-- **Every simple pattern is read, and what is read consumes too little if the
pattern is not plain.** -/
theorem exists_weighs (p : List Rune) (hp : everywhere simpleAt p = true) : ∃ ts, Weighs p ts := by
  induction hn : p.length using Nat.strong_induction_on generalizing p with
  | _ n ih =>
    cases p with
    | nil => exact ⟨[], tokens_portExpr, Nat.le_refl _⟩
    | cons r p =>
      obtain ⟨hr, hp⟩ := Bool.and_eq_true_iff.mp hp
      have hrest : ∀ rest, rest <:+ p → ∃ ts, Weighs rest ts := by
        intro rest hsuffix
        have hlen := hsuffix.length_le
        exact ih rest.length (by rw [← hn, length_cons]; omega) rest
          (simpleAt_suffix hsuffix hp) rfl
      obtain ⟨ts, hts⟩ := hrest p suffix_rfl
      by_cases hdot : r = rune '.'
      · subst hdot
        refine ⟨_, weighs_append [rune '.'] [.chars (.single (rune '.'))] hts
          tokens_wildcard_dot ?_⟩
        exact Nat.le_refl _
      by_cases hstar : r = rune '*'
      · subst hstar
        refine weighs_operator [.chars (.notSingle (rune '.'))] .plus (Nat.le_refl _)
          (.inr rfl) (fun hnext => ?_) (fun rest heq => ?_) hrest
        · exact tokens_wildcard_star (.operator rfl (head_flatMap_wildcardRune hnext))
        · subst heq
          exact tokens_wildcard_star (.lazy rfl)
      unfold simpleAt at hr
      cases hk : kind r with
      | beginText =>
        exact ⟨_, weighs_cons hts hdot hstar (.beginText hk) (.inl rfl)⟩
      | endText => exact ⟨_, weighs_cons hts hdot hstar (.endText hk) (.inl rfl)⟩
      | bar => exact ⟨_, weighs_cons hts hdot hstar (.bar hk) (.inl rfl)⟩
      | rightParen =>
        exact ⟨_, weighs_cons hts hdot hstar (.rightParen hk) (.inl rfl)⟩
      | any => exact absurd (eq_of_kind_eq hk (by decide)) hdot
      | leftParen =>
        rw [hk] at hr
        have hnext := head_flatMap_wildcardRune (of_decide_eq_true hr)
        exact ⟨_, weighs_cons hts hdot hstar (.leftParen hk hnext) (.inl rfl)⟩
      | escape | runeClass => rw [hk] at hr; cases hr
      | brace =>
        rw [hk] at hr
        have hrepeat : startsRepeat p = false := by simpa using hr
        have hplain : plainAt r p = true := by simp [plainAt, hk, hrepeat]
        refine ⟨_, weighs_cons hts hdot hstar (.brace hk ?_) (.inr ⟨rfl, hplain⟩)⟩
        rw [startsRepeat_wildcardRune, hrepeat]
      | operator op =>
        refine weighs_operator [] op (Nat.zero_le _) (.inl rfl)
          (fun hnext => ?_) (fun rest heq => ?_) hrest
        · rw [flatMap_wildcardRune_cons hdot hstar,
            tokens_of_starts (.operator hk (head_flatMap_wildcardRune hnext))]
          rfl
        · subst heq
          rw [flatMap_wildcardRune_cons hdot hstar,
            flatMap_wildcardRune_cons (by decide) (by decide), tokens_of_starts (.lazy hk)]
          rfl
      | literal =>
        have hplain : plainAt r p = true := by simp [plainAt, hk]
        exact ⟨_, weighs_cons hts hdot hstar (.literal hk) (.inr ⟨rfl, hplain⟩)⟩

theorem length_le_of_fills (h : Fills p text) : p.length ≤ text.length := by
  induction p generalizing text with
  | nil => exact Nat.zero_le _
  | cons r p ih =>
    obtain ⟨u, v, rfl, hu, hv⟩ := h
    have hrest := ih hv
    have hpos : 0 < u.length := by
      unfold FillsRune at hu
      split at hu
      · exact length_pos_iff.mpr hu.1
      · rw [hu]
        exact Nat.zero_lt_one
    rw [length_cons, length_append]
    omega

theorem least_of_parse {re : Re} (h : parse (.beginText :: (ts ++ portTokens)) = some re) :
    re.least ≤ charTokens ts := by
  obtain ⟨q, hq, hfinish⟩ := bind_eq_some_iff.mp h
  rw [Parser.run_cons] at hq
  obtain ⟨start, hstart, hrest⟩ := bind_eq_some_iff.mp hq
  rw [Parser.run_append] at hrest
  obtain ⟨m, hm, hport⟩ := bind_eq_some_iff.mp hrest
  rw [run_portTokens] at hport
  cases hstart
  cases hport
  have hrun : m.least ≤ charTokens ts := (Parser.run_least hm).trans_eq (Nat.zero_add _)
  unfold Parser.finish at hfinish
  split at hfinish
  · cases hfinish
    refine (least_close_le _).trans (le_trans ?_ hrun)
    have hnone : portRe.least = 0 := rfl
    simp only [Parser.least, Frame.least, leastAll_cons, hnone, Re.least]
    omega
  · cases hfinish

section Works

variable (engine : Bytes → Option (Bytes → Bool))

/-- Whatever else is configured, the pattern finds the hosts that it stands for,
no other ones, and no call panics. -/
def Works (pattern : Bytes) : Prop :=
  ∀ (publicGateways : PublicGateways) (gw : GatewaySpec),
    OnlyPattern publicGateways pattern gw →
    ∀ host : Bytes,
      (prepareKnownGateways engine publicGateways).exactHost host = none →
      (prepareKnownGateways engine publicGateways).exactHost (stripPort host) = none →
      (IsInstance pattern host →
        isKnownHostname host (prepareKnownGateways engine publicGateways) = .ok (some gw)) ∧
      (¬ IsInstance pattern host →
        isKnownHostname host (prepareKnownGateways engine publicGateways) = .ok none)

variable {engine}

theorem isKnownHostname_of_not_exact {hosts : GatewayHosts} {host : Bytes}
    (hhost : hosts.exactHost host = none) (hport : hosts.exactHost (stripPort host) = none) :
    isKnownHostname host hosts = searchWildcards host hosts.wildcard := by
  unfold isKnownHostname
  rw [hhost, hport]

theorem compile_plain (hplain : plain pattern = true) :
    compile engine (wildcardExpr pattern) =
      some fun s => (catParts (plainParts (runes pattern)).reverse).matchString (runes s) := by
  obtain ⟨hvalid, hrunes⟩ := Bool.and_eq_true_iff.mp hplain
  obtain ⟨hexpr, hok⟩ := runes_wildcardExpr hvalid
  unfold compile
  rw [if_pos hok, hexpr, tokens_of_starts (.beginText rfl), tokens_wildcard_plain hrunes, map_some]
  dsimp only
  rw [parse_plain, map_some]

theorem works_of_plain (hstar : byte '*' ∈ pattern) (hplain : plain pattern = true) :
    Works engine pattern := by
  intro publicGateways gw honly host hhost hport
  rw [isKnownHostname_of_not_exact hhost hport, wildcard_of_onlyPattern hstar honly,
    compile_plain hplain]
  refine ⟨fun h => if_pos (matchString_plainParts.mpr h), fun h => if_neg fun hmatch => ?_⟩
  exact h (matchString_plainParts.mp hmatch)

/-- A map that knows no host but those of the pattern. -/
def lonePattern (pattern : Bytes) : PublicGateways :=
  [(pattern, some subdomainGatewaySpec), (ascii "localhost", none)]

theorem onlyPattern_lonePattern (hstar : byte '*' ∈ pattern) :
    OnlyPattern (lonePattern pattern) pattern subdomainGatewaySpec where
  distinct := by
    have hne : pattern ≠ ascii "localhost" := fun heq => absurd (heq ▸ hstar) (by decide)
    simpa [lonePattern] using hne
  mem := mem_cons_self
  only entry hentry hin := by
    rcases mem_cons.mp hentry with rfl | hentry
    · rfl
    · rw [mem_singleton.mp hentry] at hin
      exact absurd hin (by decide)

theorem exactHost_lonePattern (hstar : byte '*' ∈ pattern) (host : Bytes) :
    (prepareKnownGateways engine (lonePattern pattern)).exactHost host = none := by
  have hexact : (prepareKnownGateways engine (lonePattern pattern)).exactHost host =
      if host = ascii "localhost" then none
      else (defaultKnownGateways.add engine (pattern, some subdomainGatewaySpec)).exactHost
        host := rfl
  rw [hexact]
  split
  · rfl
  · next hne =>
    have hadd : (defaultKnownGateways.add engine
        (pattern, some subdomainGatewaySpec)).exactHost = defaultKnownGateways.exactHost := by
      unfold GatewayHosts.add
      dsimp only
      rw [if_pos hstar]
    rw [hadd]
    exact if_neg hne

/-- The pattern with an `x` for every `*`. -/
theorem exists_instance (hvalid : validString pattern = true) :
    ∃ host : Bytes, validString host = true ∧ Fills (runes pattern) (runes host) := by
  let fill : UInt8 → Bytes := fun c => if c = byte '*' then ascii "x" else [c]
  have hhigh : ∀ b : UInt8, ¬ b < 0x80 → fill b = [b] :=
    fun b hb => if_neg fun heq : b = byte '*' => hb (heq ▸ by decide)
  have hlow : ∀ b : UInt8, b < 0x80 → ∀ c ∈ fill b, c < 0x80 := by
    intro b hb c hc
    by_cases hstar : b = byte '*'
    · have hx : ∀ c ∈ ascii "x", c < 0x80 := forall_of_all (by decide)
      rw [show fill b = ascii "x" from if_pos hstar] at hc
      exact hx c hc
    · rw [show fill b = [b] from if_neg hstar] at hc
      exact mem_singleton.mp hc ▸ hb
  obtain ⟨hrunes, hok⟩ := runes_flatMap hhigh hlow hvalid
  refine ⟨pattern.flatMap fill, hok, ?_⟩
  rw [hrunes]
  have hfills : ∀ r : Rune, FillsRune r (onRunes fill r) := by
    intro r
    unfold FillsRune
    split
    · next hstar =>
      subst hstar
      exact ⟨by decide, by decide⟩
    · next hne => exact onRunes_other fun b hb => if_neg fun heq => hne (by rw [← hb, heq]; rfl)
  induction runes pattern with
  | nil => rfl
  | cons r p ih => exact ⟨_, _, flatMap_cons, hfills r, ih⟩

/-- **A simple pattern that works is plain.** -/
theorem plain_of_works (hstar : byte '*' ∈ pattern) (hsimple : simple pattern = true)
    (hworks : Works engine pattern) : plain pattern = true := by
  obtain ⟨hvalid, hrunes⟩ := Bool.and_eq_true_iff.mp hsimple
  by_contra hnot
  obtain ⟨ts, hread, hweight⟩ := exists_weighs _ hrunes
  have hflaw : flaws (runes pattern) = 1 := by
    unfold flaws
    rw [if_neg]
    intro heverywhere
    exact hnot (Bool.and_eq_true_iff.mpr ⟨hvalid, heverywhere⟩)
  obtain ⟨hexpr, hok⟩ := runes_wildcardExpr hvalid
  have hcompile : compile engine (wildcardExpr pattern) =
      (parse (.beginText :: (ts ++ portTokens))).map fun re s => re.matchString (runes s) := by
    unfold compile
    rw [if_pos hok, hexpr, tokens_of_starts (.beginText rfl), hread]
    rfl
  have hknown : ∀ host : Bytes,
      isKnownHostname host (prepareKnownGateways engine (lonePattern pattern)) =
        searchWildcards host [⟨compile engine (wildcardExpr pattern), subdomainGatewaySpec⟩] := by
    intro host
    rw [isKnownHostname_of_not_exact (exactHost_lonePattern hstar _)
      (exactHost_lonePattern hstar _),
      wildcard_of_onlyPattern hstar (onlyPattern_lonePattern hstar)]
  have hworks := fun host => hworks _ _ (onlyPattern_lonePattern hstar) host
    (exactHost_lonePattern hstar _) (exactHost_lonePattern hstar _)
  obtain ⟨host, hhost, hfills⟩ := exists_instance hvalid
  have hfound := (hworks host).1 ⟨runes host, [], (append_nil _).symm, hfills, .inl rfl⟩
  cases hparse : parse (.beginText :: (ts ++ portTokens)) with
  | none =>
    rw [hknown, hcompile, hparse] at hfound
    cases hfound
  | some re =>
    -- the match of an instance can be cut short, to one that is no instance
    rw [hparse, map_some] at hcompile
    have hmatch : re.matchString (runes host) = true := by
      rw [hknown, hcompile] at hfound
      by_contra hno
      have hnone : searchWildcards host [⟨some fun s => re.matchString (runes s),
        subdomainGatewaySpec⟩] = .ok none := if_neg hno
      rw [hnone] at hfound
      cases hfound
    obtain ⟨w, hlen, hsub, hw⟩ := matchString_shorten hmatch
    obtain ⟨short, -, rfl⟩ := exists_runes hhost hsub
    have hleast := least_of_parse hparse
    have hshort : ¬ IsInstance pattern short := by
      intro ⟨body, port, heq, hbody, _⟩
      have hbodyLength := length_le_of_fills hbody
      have hlength := congrArg length heq
      rw [length_append] at hlength
      omega
    have hrefused := (hworks short).2 hshort
    have haccepted : searchWildcards short [⟨some fun s => re.matchString (runes s),
      subdomainGatewaySpec⟩] = .ok (some subdomainGatewaySpec) := if_pos hw
    rw [hknown, hcompile, haccepted] at hrefused
    cases hrefused

/-- **Wildcard hosts.**  A plain pattern works.  A pattern that uses no escapes,
classes, counted repetitions and flags works only if it is plain. -/
theorem wildcardHost_works_iff (engine : Bytes → Option (Bytes → Bool)) (pattern : Bytes)
    (hstar : byte '*' ∈ pattern) :
    (plain pattern = true → Works engine pattern) ∧
      (simple pattern = true → (Works engine pattern ↔ plain pattern = true)) :=
  ⟨works_of_plain hstar, fun hsimple =>
    ⟨plain_of_works hstar hsimple, works_of_plain hstar⟩⟩

theorem wildcardHost_works_iff_dwebLink :
    Works (fun _ => none) (ascii "*.dweb.link") ∧ ¬ Works (fun _ => none) (ascii "*.a+b.link") := by
  constructor
  · exact (wildcardHost_works_iff (fun _ => none) (ascii "*.dweb.link") (by decide)).1
      (by decide +kernel)
  · intro hworks
    have hplain := ((wildcardHost_works_iff (fun _ => none) (ascii "*.a+b.link")
      (by decide)).2 (by decide +kernel)).mp hworks
    exact absurd hplain (by decide +kernel)

/-- With the pattern `*.(dweb.link` every request for a host that is not known
exactly panics: the expression does not compile. -/
theorem wildcardHost_unbalanced_panics :
    let hosts := prepareKnownGateways (fun _ => none)
      [(ascii "*.(dweb.link", some subdomainGatewaySpec)]
    hosts.exactHost (ascii "dweb.link") = none ∧
      hosts.exactHost (stripPort (ascii "dweb.link")) = none ∧
      isKnownHostname (ascii "dweb.link") hosts = .error .nilRegexp :=
  ⟨rfl, rfl, rfl⟩

end Works

end Hostname
