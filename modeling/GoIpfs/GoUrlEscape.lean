import GoIpfs.GoUrl

/-!
# Percent escapes

What `escape` prints, `unescape` reads: byte by byte and with a text behind
it.  `Decoded` is the other direction, the texts that `unescape` accepts; a
text with an escape gets shorter, and a separator is never lost.
-/

namespace GoUrl

open GoBytes List Option

/-- Reading a hex digit that was printed. -/
theorem hexDigit_roundTrip {n : UInt8} (h : n < 16) :
    ishex (upperhex n) = true ∧ unhex (upperhex n) = n ∧ isAlnum (upperhex n) = true := by
  have hall : ∀ k : Fin 16, ishex (upperhex (UInt8.ofNat k)) = true ∧
      unhex (upperhex (UInt8.ofNat k)) = UInt8.ofNat k ∧
      isAlnum (upperhex (UInt8.ofNat k)) = true := by decide
  have hlt : n.toNat < 16 := h
  simpa using hall ⟨n.toNat, hlt⟩

variable (c : UInt8)

theorem div_lt : c / 16 < 16 := by
  have hc := c.toNat_lt
  show (c / 16).toNat < 16
  change c.toNat / 16 < 16
  omega

theorem mod_lt : c % 16 < 16 := by
  show (c % 16).toNat < 16
  change c.toNat % 16 < 16
  omega

/-- Reading an escape that was printed. -/
theorem escaped_upperhex : escaped (upperhex (c / 16)) (upperhex (c % 16)) = c := by
  unfold escaped
  rw [(hexDigit_roundTrip (div_lt c)).2.1, (hexDigit_roundTrip (mod_lt c)).2.1]
  have hc := c.toNat_lt
  apply UInt8.toNat.inj
  simp only [UInt8.toNat_add, UInt8.toNat_mul, UInt8.toNat_div, UInt8.toNat_mod]
  change (c.toNat / 16 * 16 % 256 + c.toNat % 16) % 256 = c.toNat
  omega

variable {c : UInt8}

theorem toNat_of_isAlnum (h : isAlnum c = true) : 48 ≤ c.toNat ∧ c.toNat ≤ 122 := by
  simp only [isAlnum, Bool.or_eq_true, Bool.and_eq_true, decide_eq_true_eq,
    UInt8.le_iff_toNat_le] at h
  change ((97 ≤ c.toNat ∧ c.toNat ≤ 122 ∨ 65 ≤ c.toNat ∧ c.toNat ≤ 90) ∨
    48 ≤ c.toNat ∧ c.toNat ≤ 57) at h
  omega

variable {b : UInt8}

theorem ne_of_isAlnum (h : isAlnum c = true) (hb : isAlnum b = false) : c ≠ b := by
  rintro rfl
  rw [hb] at h
  cases h

/-- A byte that is printed as it is. -/
structure Plain (c : UInt8) : Prop where
  notCTL : isCTL c = false
  ascii : c < 0x80
  notPercent : c ≠ byte '%'
  notSpace : c ≠ byte ' '

theorem plain_of_isAlnum (h : isAlnum c = true) : Plain c := by
  obtain ⟨hlo, hhi⟩ := toNat_of_isAlnum h
  refine ⟨?_, ?_, ne_of_isAlnum h (by decide), ne_of_isAlnum h (by decide)⟩
  · simp only [isCTL, Bool.or_eq_false_iff, decide_eq_false_iff_not, beq_eq_false_iff_ne,
      UInt8.lt_iff_toNat_lt, ne_eq, ← UInt8.toNat_inj]
    change ¬ c.toNat < 32 ∧ ¬ c.toNat = 127
    omega
  · change c.toNat < 128
    omega

theorem plain_of_mem {s : Bytes} (hc : c ∈ s)
    (hs : ∀ x ∈ s, isCTL x = false ∧ x < 0x80 ∧ x ≠ byte '%' ∧ x ≠ byte ' ') : Plain c :=
  ⟨(hs c hc).1, (hs c hc).2.1, (hs c hc).2.2.1, (hs c hc).2.2.2⟩

/-- What is not escaped is a plain byte. -/
theorem plain_of_not_shouldEscape {mode : Mode} (h : shouldEscape mode c = false) : Plain c := by
  unfold shouldEscape at h
  split at h
  · rename_i halnum
    exact plain_of_isAlnum halnum
  split at h
  · rename_i hhost
    exact plain_of_mem hhost.2 (forall_of_all (by decide))
  split at h
  · rename_i hmark
    exact plain_of_mem hmark (forall_of_all (by decide))
  · split at h
    · rename_i hreserved
      exact plain_of_mem hreserved (forall_of_all (by decide))
    · cases h

variable {mode mode' : Mode} {s t rest : Bytes} {x h l : UInt8}

/-- The bytes of a printed text. -/
theorem mem_escape (h : x ∈ escape mode s) :
    x = byte '%' ∨ isAlnum x = true ∨ x ∈ s ∧ shouldEscape mode x = false := by
  obtain ⟨c, hc, hx⟩ := mem_flatMap.mp h
  unfold escapeByte at hx
  split at hx
  · simp only [mem_cons, not_mem_nil, or_false] at hx
    rcases hx with rfl | rfl | rfl
    · exact .inl rfl
    · exact .inr (.inl (hexDigit_roundTrip (div_lt c)).2.2)
    · exact .inr (.inl (hexDigit_roundTrip (mod_lt c)).2.2)
  · rename_i hescape
    obtain rfl : x = c := by simpa using hx
    exact .inr (.inr ⟨hc, by simpa using hescape⟩)

/-- A byte that is escaped does not occur in the printed text. -/
theorem not_mem_escape (hpercent : b ≠ byte '%') (halnum : isAlnum b = false)
    (hescape : shouldEscape mode b = true) : b ∉ escape mode s := by
  intro h
  rcases mem_escape h with heq | hb | ⟨_, hb⟩
  · exact hpercent heq
  · rw [halnum] at hb
    cases hb
  · rw [hescape] at hb
    cases hb

theorem not_isCTL_of_mem_escape (h : x ∈ escape mode s) : isCTL x = false := by
  rcases mem_escape h with rfl | halnum | ⟨_, hescape⟩
  · decide
  · exact (plain_of_isAlnum halnum).notCTL
  · exact (plain_of_not_shouldEscape hescape).notCTL

@[simp] theorem escape_nil : escape mode [] = [] := rfl

theorem escape_cons : escape mode (c :: s) = escapeByte mode c ++ escape mode s := rfl
theorem escape_append : escape mode (s ++ t) = escape mode s ++ escape mode t :=
  flatMap_append

/-- What makes `mode'` read a byte back that `mode` has printed. -/
def ReadsBack (mode mode' : Mode) (c : UInt8) : Prop :=
  if shouldEscape mode c then
    escapeAllowed mode' (upperhex (c / 16)) (upperhex (c % 16)) = true
  else rawAllowed mode' c = true

theorem unescape_percent :
    unescape mode (byte '%' :: h :: l :: rest) =
      if escapeAllowed mode h l then (unescape mode rest).map (escaped h l :: ·) else none := by
  rw [unescape, if_pos rfl]

theorem unescape_cons (hc : c ≠ byte '%') :
    unescape mode (c :: rest) =
      if rawAllowed mode c then (unescape mode rest).map (c :: ·) else none := by
  conv => lhs; unfold unescape
  rw [if_neg hc]

/-- Reading a byte that was printed. -/
theorem unescape_escapeByte (h : ReadsBack mode mode' c) :
    unescape mode' (escapeByte mode c ++ rest) = (unescape mode' rest).map (c :: ·) := by
  unfold ReadsBack at h
  unfold escapeByte
  split at h
  · rename_i hescape
    rw [if_pos hescape]
    simp only [cons_append, nil_append]
    rw [unescape_percent, if_pos h, escaped_upperhex]
  · rename_i hescape
    have hplain := plain_of_not_shouldEscape (by simpa using hescape)
    rw [if_neg hescape]
    simp only [cons_append, nil_append]
    rw [unescape_cons hplain.notPercent, if_pos h]

/-- **Escaping is undone**, byte by byte. -/
theorem unescape_escape (h : ∀ c ∈ s, ReadsBack mode mode' c) :
    unescape mode' (escape mode s ++ rest) = (unescape mode' rest).map (s ++ ·) := by
  induction s with
  | nil => simp
  | cons c s ih =>
    rw [escape_cons, append_assoc, unescape_escapeByte (h c mem_cons_self),
      ih fun x hx => h x (mem_cons_of_mem c hx), Option.map_map]
    rfl

/-- **Reading what was printed**, if it can be for every byte. -/
theorem unescape_escape_self (h : ∀ c ∈ s, ReadsBack mode mode' c) :
    unescape mode' (escape mode s) = some s := by
  have hall : unescape mode' (escape mode s ++ []) = (unescape mode' []).map (s ++ ·) :=
    unescape_escape h
  simpa [unescape] using hall

theorem readsBack_path (c : UInt8) : ReadsBack .path .path c := by
  unfold ReadsBack
  split
  · simp [escapeAllowed, hexDigit_roundTrip (div_lt c), hexDigit_roundTrip (mod_lt c)]
  · rfl

theorem readsBack_userPassword (c : UInt8) : ReadsBack .userPassword .userPassword c := by
  unfold ReadsBack
  split
  · simp [escapeAllowed, hexDigit_roundTrip (div_lt c), hexDigit_roundTrip (mod_lt c)]
  · rfl

theorem unescape_short (hc : ishex c = false) {h : Bytes} (hlen : h.length ≤ 1) :
    unescape mode (byte '%' :: h) = none ∧ unescape mode (byte '%' :: (h ++ c :: t)) = none := by
  match h, hlen with
  | [], _ =>
    refine ⟨rfl, ?_⟩
    cases t with
    | nil => rfl
    | cons l t =>
      rw [nil_append, unescape_percent, if_neg (by simp [escapeAllowed, hc])]
  | [h], _ =>
    refine ⟨rfl, ?_⟩
    rw [cons_append, nil_append, unescape_percent, if_neg (by simp [escapeAllowed, hc])]

/-- A byte that is no hex digit ends every escape before it. -/
theorem unescape_append_cons (hc : ishex c = false) :
    unescape mode (s ++ c :: t) =
      (unescape mode s).bind fun x => (unescape mode (c :: t)).map (x ++ ·) := by
  induction s using unescape.induct mode with
  | case1 => simp [unescape]
  | case2 h l rest hallowed ih =>
    simp only [cons_append]
    rw [unescape_percent, unescape_percent, if_pos hallowed, if_pos hallowed, ih]
    cases unescape mode rest <;> simp [Function.comp_def]
  | case3 h l rest hallowed =>
    simp only [cons_append]
    rw [unescape_percent, unescape_percent, if_neg hallowed, if_neg hallowed]
    rfl
  | case4 rest hshort =>
    have hlen : rest.length ≤ 1 := by
      match rest, hshort with
      | [], _ => exact Nat.zero_le 1
      | [_], _ => exact Nat.le_refl 1
      | h :: l :: rest, hshort => exact (hshort h l rest rfl).elim
    have hnone : unescape mode (byte '%' :: rest) = none ∧
        unescape mode (byte '%' :: (rest ++ c :: t)) = none := unescape_short hc hlen
    rw [cons_append, hnone.1, hnone.2]
    rfl
  | case5 x rest hx hraw ih =>
    rw [cons_append, unescape_cons hx, unescape_cons hx, if_pos hraw, if_pos hraw, ih]
    cases unescape mode rest <;> simp [Function.comp_def]
  | case6 x rest hx hraw =>
    rw [cons_append, unescape_cons hx, unescape_cons hx, if_neg hraw, if_neg hraw]
    rfl

theorem unescape_of_rawAllowed (h : ∀ c ∈ s, c ≠ byte '%' ∧ rawAllowed mode c = true) :
    unescape mode s = some s := by
  induction s with
  | nil => rfl
  | cons c s ih =>
    obtain ⟨hc, hraw⟩ := h c mem_cons_self
    rw [unescape_cons hc, if_pos hraw, ih fun x hx => h x (mem_cons_of_mem c hx)]
    rfl

/-- What `unescape` accepts, and what it makes of it. -/
inductive Decoded (mode : Mode) : Bytes → Bytes → Prop
  | nil : Decoded mode [] []
  | escape {h l : UInt8} {s t : Bytes} (hallowed : escapeAllowed mode h l = true)
      (hst : Decoded mode s t) : Decoded mode (byte '%' :: h :: l :: s) (escaped h l :: t)
  | raw {c : UInt8} {s t : Bytes} (hc : c ≠ byte '%') (hraw : rawAllowed mode c = true)
      (hst : Decoded mode s t) : Decoded mode (c :: s) (c :: t)

/-- Reading as a relation. -/
theorem decoded_of_unescape (h : unescape mode s = some t) : Decoded mode s t := by
  induction s using unescape.induct mode generalizing t with
  | case1 =>
    obtain rfl : [] = t := some.inj h
    exact .nil
  | case2 x l rest hallowed ih =>
    rw [unescape_percent, if_pos hallowed] at h
    obtain ⟨u, hu, rfl⟩ := map_eq_some_iff.mp h
    exact .escape hallowed (ih hu)
  | case3 x l rest hallowed =>
    rw [unescape_percent, if_neg hallowed] at h
    cases h
  | case4 rest hshort =>
    match rest, hshort with
    | [], _ | [_], _ => cases h
    | x :: l :: rest, hshort => exact (hshort x l rest rfl).elim
  | case5 x rest hx hraw ih =>
    rw [unescape_cons hx, if_pos hraw] at h
    obtain ⟨u, hu, rfl⟩ := map_eq_some_iff.mp h
    exact .raw hx hraw (ih hu)
  | case6 x rest hx hraw =>
    rw [unescape_cons hx, if_neg hraw] at h
    cases h

theorem ishex_of_escapeAllowed (hallowed : escapeAllowed mode h l = true) :
    ishex h = true ∧ ishex l = true := by
  simp only [escapeAllowed, Bool.and_eq_true] at hallowed
  exact hallowed.1

/-- Reading does not lengthen a text. -/
theorem Decoded.length_le (h : Decoded mode s t) : t.length ≤ s.length := by
  induction h with
  | nil => exact Nat.le_refl 0
  | escape _ _ ih | raw _ _ _ ih =>
    simp only [length_cons]
    omega

theorem Decoded.length_lt (h : Decoded mode s t) (hs : byte '%' ∈ s) : t.length < s.length := by
  induction h with
  | nil => cases hs
  | escape _ hst _ =>
    have hle := hst.length_le
    simp only [length_cons]
    omega
  | raw hc _ _ ih =>
    rcases mem_cons.mp hs with heq | hs
    · exact absurd heq.symm hc
    · have hlt := ih hs
      simp only [length_cons]
      omega

/-- Reading loses no byte that cannot be part of an escape. -/
theorem Decoded.count_le (hb : ishex b = false) (hpercent : b ≠ byte '%') (h : Decoded mode s t) :
    s.count b ≤ t.count b := by
  induction h with
  | nil => exact Nat.le_refl 0
  | @escape x l s t hallowed _ ih =>
    obtain ⟨hx, hl⟩ := ishex_of_escapeAllowed hallowed
    have hxb : x ≠ b := fun heq => by rw [heq, hb] at hx; cases hx
    have hlb : l ≠ b := fun heq => by rw [heq, hb] at hl; cases hl
    rw [count_cons_of_ne hpercent.symm, count_cons_of_ne hxb, count_cons_of_ne hlb]
    exact ih.trans (count_le_count_cons)
  | @raw c s t _ _ _ ih =>
    rw [count_cons, count_cons]
    omega

end GoUrl
