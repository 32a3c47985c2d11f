import GoIpfs.GoBytes
import Mathlib.Algebra.Group.Nat.Defs
import Mathlib.Data.List.Basic

/-!
# Runes of a byte string

A Go string is a byte string; `range`, `unicode/utf8` and the regular
expressions read it as UTF-8.  A byte that does not start a well-formed encoding
is one rune of its own, U+FFFD, and the string is not valid.

A well-formed encoding is recognised from its own bytes, so a valid string is
read the same whatever follows it (`decode_append`), and replacing bytes below
`0x80` by others of that kind acts on the runes (`runes_flatMap`).
-/

namespace GoUtf8

open GoBytes List

abbrev Rune := Nat

/-- `utf8.RuneError` -/
def runeError : Rune := 0xFFFD

/-- The first byte of an encoding of two or more bytes: how many bytes follow
it, and the range of the next one. -/
def lead (b : UInt8) : Option (Nat × UInt8 × UInt8) :=
  if 0xC2 ≤ b ∧ b ≤ 0xDF then some (1, 0x80, 0xBF)
  else if b = 0xE0 then some (2, 0xA0, 0xBF)
  else if b = 0xED then some (2, 0x80, 0x9F)
  else if 0xE1 ≤ b ∧ b ≤ 0xEF then some (2, 0x80, 0xBF)
  else if b = 0xF0 then some (3, 0x90, 0xBF)
  else if b = 0xF4 then some (3, 0x80, 0x8F)
  else if 0xF1 ≤ b ∧ b ≤ 0xF3 then some (3, 0x80, 0xBF)
  else none

/-- The bytes that follow a first byte, if they are well-formed. -/
def isTail (n : Nat) (lo hi : UInt8) (tail : Bytes) : Bool :=
  tail.length = n && tail.all (fun b => 0x80 ≤ b && b ≤ 0xBF) &&
    tail.head?.any (fun b => lo ≤ b && b ≤ hi)

/-- The rune of a first byte and the bytes that follow it. -/
def runeOf (n : Nat) (b : UInt8) (tail : Bytes) : Nat :=
  tail.foldl (fun r c => r * 64 + c.toNat % 64) (b.toNat % 2 ^ (6 - n))

/-- `utf8.DecodeRuneInString` of a string that starts with `b`: the rune, the
rest of the string, and whether the encoding is well-formed. -/
def decodeRune (b : UInt8) (t : Bytes) : Rune × Bytes × Bool :=
  if b < 0x80 then (b.toNat, t, true)
  else
    match lead b with
    | some (n, lo, hi) =>
      if isTail n lo hi (t.take n) then (runeOf n b (t.take n), t.drop n, true)
      else (runeError, t, false)
    | none => (runeError, t, false)

def decodeN : Nat → Bytes → List (Rune × Bool)
  | n + 1, b :: t =>
    ((decodeRune b t).1, (decodeRune b t).2.2) :: decodeN n (decodeRune b t).2.1
  | _, _ => []

/-- The runes of a string, each with whether its encoding is well-formed. -/
def decode (s : Bytes) : List (Rune × Bool) := decodeN s.length s

def runes (s : Bytes) : List Rune := (decode s).map Prod.fst

/-- `utf8.ValidString` -/
def validString (s : Bytes) : Bool := (decode s).all Prod.snd

theorem length_decodeRune_le (b : UInt8) (t : Bytes) : (decodeRune b t).2.1.length ≤ t.length := by
  unfold decodeRune
  split
  · exact Nat.le_refl _
  · split
    · split
      · exact (length_drop ..).trans_le (Nat.sub_le _ _)
      · exact Nat.le_refl _
    · exact Nat.le_refl _

variable {n : Nat} {s : Bytes}

theorem decodeN_fuel {m : Nat} (hn : s.length ≤ n) (hm : s.length ≤ m) :
    decodeN n s = decodeN m s := by
  induction n generalizing m s with
  | zero =>
    rw [eq_nil_of_length_eq_zero (Nat.le_zero.mp hn)]
    cases m <;> rfl
  | succ n ih =>
    cases s with
    | nil => cases m <;> rfl
    | cons b t =>
      cases m with
      | zero => cases hm
      | succ m =>
        have hrest := length_decodeRune_le b t
        rw [decodeN, decodeN, ih (hrest.trans (Nat.le_of_succ_le_succ hn))
          (hrest.trans (Nat.le_of_succ_le_succ hm))]

theorem decode_cons (b : UInt8) (t : Bytes) :
    decode (b :: t) =
      ((decodeRune b t).1, (decodeRune b t).2.2) :: decode (decodeRune b t).2.1 := by
  unfold decode
  rw [length_cons, decodeN, decodeN_fuel (length_decodeRune_le b t) (Nat.le_refl _)]

variable {b : UInt8}

theorem decodeRune_low (hb : b < 0x80) (t : Bytes) :
    decodeRune b t = (b.toNat, t, true) := if_pos hb

variable {t : Bytes} {lo hi : UInt8}

theorem decodeRune_of_lead (hb : ¬ b < 0x80) (hlead : lead b = some (n, lo, hi))
    (htail : isTail n lo hi (t.take n) = true) :
    decodeRune b t = (runeOf n b (t.take n), t.drop n, true) := by
  unfold decodeRune
  rw [if_neg hb, hlead]
  exact if_pos htail

theorem exists_lead (hb : ¬ b < 0x80) (h : (decodeRune b t).2.2 = true) :
    ∃ n lo hi, lead b = some (n, lo, hi) ∧ isTail n lo hi (t.take n) = true := by
  unfold decodeRune at h
  rw [if_neg hb] at h
  cases hlead : lead b with
  | none => rw [hlead] at h; cases h
  | some p =>
    rw [hlead] at h
    refine ⟨p.1, p.2.1, p.2.2, rfl, ?_⟩
    by_contra htail
    dsimp only at h
    rw [if_neg htail] at h
    cases h

theorem decodeRune_append (h : (decodeRune b t).2.2 = true) (u : Bytes) :
    decodeRune b (t ++ u) = ((decodeRune b t).1, (decodeRune b t).2.1 ++ u, true) := by
  by_cases hb : b < 0x80
  · rw [decodeRune_low hb, decodeRune_low hb]
  obtain ⟨n, lo, hi, hlead, htail⟩ := exists_lead hb h
  have hlen : n ≤ t.length := by
    have hshort := htail
    simp only [isTail, Bool.and_eq_true, decide_eq_true_eq, length_take] at hshort
    omega
  have htake : (t ++ u).take n = t.take n := take_append_of_le_length hlen
  rw [decodeRune_of_lead hb hlead htail, decodeRune_of_lead hb hlead (by rw [htake]; exact htail),
    htake, drop_append_of_le_length hlen]

/-- The encoding of a rune that is not an ASCII one: it consists of bytes from
`0x80` on, and is read alone as well. -/
theorem decodeRune_high (hb : ¬ b < 0x80) (h : (decodeRune b t).2.2 = true) :
    ∃ tail : Bytes, t = tail ++ (decodeRune b t).2.1 ∧ (∀ c ∈ tail, ¬ c < 0x80) ∧
      decodeRune b tail = ((decodeRune b t).1, [], true) := by
  obtain ⟨n, lo, hi, hlead, htail⟩ := exists_lead hb h
  have htake : (t.take n).take n = t.take n := by rw [take_take, Nat.min_self]
  rw [decodeRune_of_lead hb hlead htail]
  refine ⟨t.take n, (take_append_drop n t).symm, ?_, ?_⟩
  · simp only [isTail, Bool.and_eq_true, all_eq_true, decide_eq_true_eq] at htail
    intro c hc
    exact UInt8.not_lt.mpr (htail.1.2 c hc).1
  · rw [decodeRune_of_lead hb hlead (by rw [htake]; exact htail), htake, drop_take,
      Nat.sub_self, take_zero]

theorem validString_cons :
    validString (b :: t) = true ↔
      (decodeRune b t).2.2 = true ∧ validString (decodeRune b t).2.1 = true := by
  unfold validString
  rw [decode_cons, all_cons, Bool.and_eq_true]

@[elab_as_elim]
theorem validString_induction {motive : Bytes → Prop} (hs : validString s = true) (nil : motive [])
    (cons : ∀ b t, (decodeRune b t).2.2 = true → validString (decodeRune b t).2.1 = true →
      motive (decodeRune b t).2.1 → motive (b :: t)) : motive s := by
  induction hn : s.length using Nat.strong_induction_on generalizing s with
  | _ n ih =>
    cases s with
    | nil => exact nil
    | cons b t =>
      obtain ⟨hok, hrest⟩ := validString_cons.mp hs
      have hlen := length_decodeRune_le b t
      exact cons b t hok hrest (ih _ (by rw [← hn, length_cons]; omega) hrest rfl)

/-- **A valid string is read the same whatever follows it.** -/
theorem decode_append (hs : validString s = true) (u : Bytes) :
    decode (s ++ u) = decode s ++ decode u := by
  refine validString_induction hs ?_ fun b t hok _ ih => ?_
  · rfl
  · rw [cons_append, decode_cons, decodeRune_append hok, decode_cons, cons_append, hok, ih]

theorem decode_low (hs : ∀ c ∈ s, c < 0x80) : decode s = s.map fun c => (c.toNat, true) := by
  induction s with
  | nil => rfl
  | cons b t ih =>
    obtain ⟨hb, ht⟩ := forall_mem_cons.mp hs
    rw [decode_cons, decodeRune_low hb, map_cons, ih ht]

theorem validString_low (hs : ∀ c ∈ s, c < 0x80) : validString s = true := by
  unfold validString
  rw [decode_low hs, all_map]
  exact all_eq_true.mpr fun _ _ => rfl

variable {f : UInt8 → Bytes}

theorem flatMap_high (hhigh : ∀ b : UInt8, ¬ b < 0x80 → f b = [b]) (hs : ∀ c ∈ s, ¬ c < 0x80) :
    s.flatMap f = s := by
  induction s with
  | nil => rfl
  | cons b t ih =>
    obtain ⟨hb, ht⟩ := forall_mem_cons.mp hs
    rw [flatMap_cons, hhigh b hb, ih ht, singleton_append]

/-- What a replacement of ASCII bytes does to a rune. -/
def onRunes (f : UInt8 → Bytes) (r : Rune) : List Rune :=
  if r < 0x80 then (f (UInt8.ofNat r)).map UInt8.toNat else [r]

theorem lead_cases (h : lead b = some (n, lo, hi)) :
    (n = 1 ∧ 0xC2 ≤ b.toNat ∧ b.toNat ≤ 0xDF) ∨
    (n = 2 ∧ b.toNat = 0xE0 ∧ lo = 0xA0) ∨ (n = 2 ∧ 0xE1 ≤ b.toNat ∧ b.toNat ≤ 0xEF) ∨
    (n = 3 ∧ b.toNat = 0xF0 ∧ lo = 0x90) ∨ (n = 3 ∧ 0xF1 ≤ b.toNat ∧ b.toNat ≤ 0xF4) := by
  unfold lead at h
  split at h
  · rename_i hb
    cases h
    exact .inl ⟨rfl, hb.1, hb.2⟩
  split at h
  · rename_i hb
    cases h
    exact .inr (.inl ⟨rfl, congrArg UInt8.toNat hb, rfl⟩)
  split at h
  · rename_i hb
    cases h
    have hnat : b.toNat = 0xED := congrArg UInt8.toNat hb
    exact .inr (.inr (.inl ⟨rfl, by omega, by omega⟩))
  split at h
  · rename_i hb
    cases h
    exact .inr (.inr (.inl ⟨rfl, hb.1, hb.2⟩))
  split at h
  · rename_i hb
    cases h
    exact .inr (.inr (.inr (.inl ⟨rfl, congrArg UInt8.toNat hb, rfl⟩)))
  split at h
  · rename_i hb
    cases h
    have hnat : b.toNat = 0xF4 := congrArg UInt8.toNat hb
    exact .inr (.inr (.inr (.inr ⟨rfl, by omega, by omega⟩)))
  · split at h
    · rename_i hb
      cases h
      have hle : b.toNat ≤ 0xF3 := hb.2
      exact .inr (.inr (.inr (.inr ⟨rfl, hb.1, by omega⟩)))
    · cases h

/-- The ranges of the first bytes keep longer encodings out of the ASCII
range. -/
theorem le_runeOf {tail : Bytes} (h : lead b = some (n, lo, hi))
    (htail : isTail n lo hi tail = true) : 0x80 ≤ runeOf n b tail := by
  simp only [isTail, Bool.and_eq_true, decide_eq_true_eq, all_eq_true] at htail
  obtain ⟨⟨hlen, hall⟩, hfirst⟩ := htail
  unfold runeOf
  rcases lead_cases h with h1 | h2 | h2 | h3 | h3
  · obtain ⟨rfl, hb⟩ := h1
    obtain ⟨c, rfl⟩ := length_eq_one_iff.mp hlen
    simp only [foldl_cons, foldl_nil, Nat.reduceSub, Nat.reducePow]
    omega
  · obtain ⟨rfl, hb, rfl⟩ := h2
    obtain ⟨c, d, rfl⟩ := length_eq_two.mp hlen
    have hc : c.toNat ≤ 0xBF := (hall c mem_cons_self).2
    simp only [foldl_cons, foldl_nil, Nat.reduceSub, Nat.reducePow, head?_cons,
      Option.any_some, Bool.and_eq_true, decide_eq_true_eq, UInt8.le_iff_toNat_le,
      UInt8.reduceToNat] at hfirst ⊢
    omega
  · obtain ⟨rfl, hb⟩ := h2
    obtain ⟨c, d, rfl⟩ := length_eq_two.mp hlen
    simp only [foldl_cons, foldl_nil, Nat.reduceSub, Nat.reducePow]
    omega
  · obtain ⟨rfl, hb, rfl⟩ := h3
    obtain ⟨c, d, e, rfl⟩ := length_eq_three.mp hlen
    have hc : c.toNat ≤ 0xBF := (hall c mem_cons_self).2
    simp only [foldl_cons, foldl_nil, Nat.reduceSub, Nat.reducePow, head?_cons,
      Option.any_some, Bool.and_eq_true, decide_eq_true_eq, UInt8.le_iff_toNat_le,
      UInt8.reduceToNat] at hfirst ⊢
    omega
  · obtain ⟨rfl, hb⟩ := h3
    obtain ⟨c, d, e, rfl⟩ := length_eq_three.mp hlen
    simp only [foldl_cons, foldl_nil, Nat.reduceSub, Nat.reducePow]
    omega

theorem le_decodeRune (hb : ¬ b < 0x80) (h : (decodeRune b t).2.2 = true) :
    0x80 ≤ (decodeRune b t).1 := by
  obtain ⟨n, lo, hi, hlead, htail⟩ := exists_lead hb h
  rw [decodeRune_of_lead hb hlead htail]
  exact le_runeOf hlead htail

theorem runes_cons (b : UInt8) (t : Bytes) :
    runes (b :: t) = (decodeRune b t).1 :: runes (decodeRune b t).2.1 := by
  unfold runes
  rw [decode_cons, map_cons]

section

variable (hhigh : ∀ b : UInt8, ¬ b < 0x80 → f b = [b])
  (hlow : ∀ b : UInt8, b < 0x80 → ∀ c ∈ f b, c < 0x80) (hs : validString s = true)
include hhigh hlow hs

/-- **Replacing ASCII bytes acts on the runes.** -/
theorem decode_flatMap :
    decode (s.flatMap f) = (runes s).flatMap fun r => (onRunes f r).map fun r => (r, true) := by
  refine validString_induction hs ?_ fun b t hok _ ih => ?_
  · rfl
  rw [runes_cons, flatMap_cons]
  by_cases hb : b < 0x80
  · -- the bytes that replace an ASCII byte are runes of their own
    rw [decodeRune_low hb] at ih ⊢
    have hsmall : b.toNat < 0x80 := UInt8.lt_iff_toNat_lt.mp hb
    rw [flatMap_cons, decode_append (validString_low (hlow b hb)),
      decode_low (hlow b hb), ih, onRunes, if_pos hsmall, UInt8.ofNat_toNat, map_map]
    rfl
  · -- the bytes of a longer encoding are kept
    obtain ⟨tail, ht, hhighs, halone⟩ := decodeRune_high hb hok
    have hrune : ¬ (decodeRune b t).1 < 0x80 := Nat.not_lt.mpr (le_decodeRune hb hok)
    have hbytes : t.flatMap f = tail ++ (decodeRune b t).2.1.flatMap f := by
      have hflat := congrArg (flatMap f) ht
      rwa [flatMap_append, flatMap_high hhigh hhighs] at hflat
    have hread : decodeRune b (tail ++ (decodeRune b t).2.1.flatMap f) =
        ((decodeRune b t).1, (decodeRune b t).2.1.flatMap f, true) := by
      rw [decodeRune_append (congrArg (fun p => p.2.2) halone), halone, nil_append]
    rw [flatMap_cons, hhigh b hb, singleton_append, hbytes, decode_cons, hread,
      ih, onRunes, if_neg hrune, map_singleton, singleton_append]

theorem runes_flatMap :
    runes (s.flatMap f) = (runes s).flatMap (onRunes f) ∧ validString (s.flatMap f) = true := by
  have hdecode := decode_flatMap hhigh hlow hs
  constructor
  · have hfst : ∀ l : List Rune, (l.map fun r => (r, true)).map Prod.fst = l := by
      intro l
      rw [map_map]
      exact map_id l
    unfold runes at hdecode ⊢
    rw [hdecode, map_flatMap]
    simp only [hfst]
  · unfold validString
    rw [hdecode, all_eq_true]
    intro p hp
    obtain ⟨r, _, hr⟩ := mem_flatMap.mp hp
    obtain ⟨_, _, rfl⟩ := mem_map.mp hr
    rfl

end

theorem runes_append (hs : validString s = true) (u : Bytes) :
    runes (s ++ u) = runes s ++ runes u := by
  unfold runes
  rw [decode_append hs, map_append]

theorem validString_append {u : Bytes} (hs : validString s = true) (hu : validString u = true) :
    validString (s ++ u) = true := by
  unfold validString at hu ⊢
  rw [decode_append hs, all_append, Bool.and_eq_true]
  exact ⟨hs, hu⟩

theorem runes_low (hs : ∀ c ∈ s, c < 0x80) : runes s = s.map UInt8.toNat := by
  unfold runes
  rw [decode_low hs, map_map]
  rfl

theorem exists_encoding (hs : validString s = true) {r : Rune} (hr : r ∈ runes s) :
    ∃ c : Bytes, validString c = true ∧ runes c = [r] := by
  revert hr
  refine validString_induction hs ?_ fun b t hok _ ih => ?_
  · exact fun hr => absurd hr not_mem_nil
  intro hr
  rw [runes_cons, mem_cons] at hr
  rcases hr with heq | hr
  · rw [heq]
    by_cases hb : b < 0x80
    · have hone : ∀ c ∈ [b], c < 0x80 := fun c hc => mem_singleton.mp hc ▸ hb
      refine ⟨[b], validString_low hone, ?_⟩
      rw [runes_low hone, decodeRune_low hb]
      rfl
    · obtain ⟨tail, _, _, htail⟩ := decodeRune_high hb hok
      refine ⟨b :: tail, validString_cons.mpr ?_, ?_⟩
      · rw [htail]
        exact ⟨rfl, rfl⟩
      · rw [runes_cons, htail]
        rfl
  · exact ih hr

/-- **Runes of a valid string can be put together anew.** -/
theorem exists_runes (hs : validString s = true) {w : List Rune} (hw : w ⊆ runes s) :
    ∃ u : Bytes, validString u = true ∧ runes u = w := by
  induction w with
  | nil => exact ⟨[], rfl, rfl⟩
  | cons r w ih =>
    obtain ⟨hr, hw⟩ := cons_subset.mp hw
    obtain ⟨c, hc, hcr⟩ := exists_encoding hs hr
    obtain ⟨u, hu, hur⟩ := ih hw
    refine ⟨c ++ u, validString_append hc hu, ?_⟩
    rw [runes_append hc, hcr, hur, singleton_append]

end GoUtf8
