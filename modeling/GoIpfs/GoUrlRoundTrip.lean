import GoIpfs.GoUrlEscape

/-!
# Printed URLs are read back

`ParseRequestURI` on the text of a URL that it has read itself.  The host is
the delicate part: in the zone of a bracketed host bytes that are not ASCII
are accepted as they are, printed as escapes, and then not accepted any more.
Everywhere else the text is read back to the same user, host, path and query.
-/

namespace GoUrl

open GoBytes List

variable {mode mode' : Mode} {s t rest : Bytes}

/-! ## Hosts -/

/-- A zone is printed as the rest of the host. -/
theorem shouldEscape_zone (c : UInt8) : shouldEscape .zone c = shouldEscape .host c := by
  unfold shouldEscape
  simp

variable {c : UInt8}

/-- The first hex digit says whether a byte is ASCII. -/
theorem le_div : 8 ≤ c / 16 ↔ 0x80 ≤ c := by
  change 8 ≤ c.toNat / 16 ↔ 128 ≤ c.toNat
  omega

/-- The bytes of a host that has been read. -/
def HostByte (c : UInt8) : Prop :=
  shouldEscape .host c = true → 0x80 ≤ c ∨ c = byte '%'

/-- What has been read in a host is read back. -/
theorem readsBack_host (h : HostByte c) : ReadsBack .host .host c := by
  unfold ReadsBack
  split
  · rename_i hescape
    obtain ⟨hhi, hun, _⟩ := hexDigit_roundTrip (div_lt c)
    obtain ⟨hlo, _, _⟩ := hexDigit_roundTrip (mod_lt c)
    rcases h hescape with hbig | rfl
    · have hdiv : ¬ c / 16 < 8 := UInt8.not_lt.mpr (le_div.mpr hbig)
      simp [escapeAllowed, hhi, hlo, hun, hdiv]
    · decide
  · rename_i hescape
    simp [rawAllowed, hescape]

/-- An unescaped byte of a host. -/
theorem hostByte_of_rawAllowed (h : rawAllowed .host c = true) : HostByte c := by
  intro hescape
  simp only [rawAllowed, hescape, Bool.and_true, Bool.not_eq_true', decide_eq_false_iff_not,
    UInt8.not_lt] at h
  exact .inl h

/-- A hex digit is less than 16. -/
theorem unhex_lt (c : UInt8) : (unhex c).toNat < 16 := by
  unfold unhex
  simp only [Bool.and_eq_true, decide_eq_true_eq, UInt8.le_iff_toNat_le]
  split
  · rename_i h
    rw [UInt8.toNat_sub_of_le _ _ (UInt8.le_iff_toNat_le.mpr h.1)]
    change 48 ≤ c.toNat ∧ c.toNat ≤ 57 at h
    change c.toNat - 48 < 16
    omega
  split
  · rename_i h
    rw [UInt8.toNat_add, UInt8.toNat_sub_of_le _ _ (UInt8.le_iff_toNat_le.mpr h.1)]
    change 97 ≤ c.toNat ∧ c.toNat ≤ 102 at h
    change (c.toNat - 97 + 10) % 256 < 16
    omega
  · split
    · rename_i h
      rw [UInt8.toNat_add, UInt8.toNat_sub_of_le _ _ (UInt8.le_iff_toNat_le.mpr h.1)]
      change 65 ≤ c.toNat ∧ c.toNat ≤ 70 at h
      change (c.toNat - 65 + 10) % 256 < 16
      omega
    · decide

/-- An escape whose first digit is at least 8 is not ASCII. -/
theorem le_escaped {h l : UInt8} (hh : ¬ unhex h < 8) : 0x80 ≤ escaped h l := by
  have hh' := unhex_lt h
  have hl' := unhex_lt l
  change ¬ (unhex h).toNat < 8 at hh
  change 128 ≤ ((unhex h).toNat * 16 % 256 + (unhex l).toNat) % 256
  omega

/-- The escapes that a host may contain. -/
theorem escaped_host {h l : UInt8} (hallowed : escapeAllowed .host h l = true) :
    0x80 ≤ escaped h l ∨ h = byte '2' ∧ l = byte '5' := by
  simp only [escapeAllowed, isPercent25, Bool.and_eq_true, Bool.or_eq_true, Bool.not_eq_true',
    decide_eq_false_iff_not, beq_iff_eq] at hallowed
  rcases hallowed.2 with hbig | heq
  · exact .inl (le_escaped hbig)
  · exact .inr heq

/-- Such an escape stands for no other ASCII byte than the percent sign. -/
theorem escaped_ne_of_host {h l b : UInt8} (hallowed : escapeAllowed .host h l = true)
    (hb : ¬ 0x80 ≤ b) (hpercent : b ≠ byte '%') : escaped h l ≠ b := by
  rintro rfl
  rcases escaped_host hallowed with hbig | ⟨rfl, rfl⟩
  · exact hb hbig
  · exact hpercent (by decide)

/-- The escapes that a zone may contain. -/
theorem escaped_zone {h l : UInt8} (hallowed : escapeAllowed .zone h l = true) :
    escaped h l = byte '%' ∨ escaped h l = byte ' ' ∨ shouldEscape .host (escaped h l) = false := by
  simp only [escapeAllowed, isPercent25, Bool.and_eq_true, Bool.or_eq_true, Bool.not_eq_true',
    beq_iff_eq] at hallowed
  rcases hallowed.2 with (⟨rfl, rfl⟩ | hspace) | hplain
  · exact .inl (by decide)
  · exact .inr (.inl hspace)
  · exact .inr (.inr hplain)

/-- Reading a host gives such bytes. -/
theorem Decoded.hostByte (h : Decoded .host s t) : ∀ c ∈ t, HostByte c := by
  induction h with
  | nil => simp
  | @escape x l s t hallowed _ ih =>
    rw [forall_mem_cons]
    refine ⟨?_, ih⟩
    rcases escaped_host hallowed with hbig | ⟨rfl, rfl⟩
    · exact fun _ => .inl hbig
    · exact fun _ => .inr (by decide)
  | raw _ hraw _ ih =>
    rw [forall_mem_cons]
    exact ⟨hostByte_of_rawAllowed hraw, ih⟩

/-- The bytes of a zone that has been read. -/
def ZoneByte (c : UInt8) : Prop :=
  shouldEscape .host c = true → c = byte '%' ∨ c = byte ' ' ∨ 0x80 ≤ c

/-- Reading a zone gives such bytes. -/
theorem Decoded.zoneByte (h : Decoded .zone s t) : ∀ c ∈ t, ZoneByte c := by
  induction h with
  | nil => simp
  | @escape x l s t hallowed _ ih =>
    rw [forall_mem_cons]
    refine ⟨?_, ih⟩
    intro hescape
    rcases escaped_zone hallowed with heq | heq | hplain
    · exact .inl heq
    · exact .inr (.inl heq)
    · rw [hplain] at hescape
      cases hescape
  | @raw c s t _ hraw _ ih =>
    rw [forall_mem_cons]
    refine ⟨?_, ih⟩
    intro hescape
    rw [← shouldEscape_zone] at hescape
    simp only [rawAllowed, hescape, Bool.and_true, Bool.not_eq_true', decide_eq_false_iff_not,
      UInt8.not_lt] at hraw
    exact .inr (.inr hraw)

/-- Hex digits are ASCII. -/
theorem lt_of_ishex (h : ishex c = true) : c < 0x80 := by
  simp only [ishex, Bool.or_eq_true, Bool.and_eq_true, decide_eq_true_eq,
    UInt8.le_iff_toNat_le] at h
  change ((48 ≤ c.toNat ∧ c.toNat ≤ 57 ∨ 97 ≤ c.toNat ∧ c.toNat ≤ 102) ∨
    65 ≤ c.toNat ∧ c.toNat ≤ 70) at h
  change c.toNat < 128
  omega

/-- In a zone, bytes that are not ASCII are those of the text. -/
theorem Decoded.zone_big (h : Decoded .zone s t) : (∃ c ∈ t, 0x80 ≤ c) ↔ ∃ c ∈ s, 0x80 ≤ c := by
  induction h with
  | nil => simp
  | @escape x l s t hallowed _ ih =>
    obtain ⟨hx, hl⟩ := ishex_of_escapeAllowed hallowed
    have hsmall : ¬ 0x80 ≤ escaped x l := by
      rcases escaped_zone hallowed with heq | heq | hplain
      · rw [heq]
        decide
      · rw [heq]
        decide
      · exact UInt8.not_le.mpr (plain_of_not_shouldEscape hplain).ascii
    have hx' : ¬ 0x80 ≤ x := UInt8.not_le.mpr (lt_of_ishex hx)
    have hl' : ¬ 0x80 ≤ l := UInt8.not_le.mpr (lt_of_ishex hl)
    have hpercent : ¬ 0x80 ≤ byte '%' := by decide
    simp only [mem_cons, exists_eq_or_imp, hsmall, hx', hl', hpercent, false_or, ih]
  | raw _ _ _ ih => simp only [mem_cons, exists_eq_or_imp, ih]

/-! ### The zone of a bracketed host -/

/-- A zone begins with a percent sign. -/
theorem cutZone_cons_of_ne (hc : c ≠ byte '%') :
    cutZone (c :: s) = (cutZone s).map fun p => (c :: p.1, p.2) := by
  rw [cutZone, if_neg]
  intro hpre
  obtain ⟨u, hu⟩ := hpre
  exact hc (cons.inj hu).1.symm

/-- A zone that is found is found after one byte more. -/
theorem cutZone_ne_none (h : cutZone s ≠ none) : cutZone (c :: s) ≠ none := by
  rw [cutZone]
  split
  · simp
  · simpa using h

variable {a z port : Bytes}

/-- The host is cut at the first `%25`. -/
theorem cutZone_some (h : cutZone s = some (a, z)) :
    s = a ++ z ∧ ascii "%25" <+: z ∧ cutZone a = none := by
  induction s generalizing a z with
  | nil => cases h
  | cons c s ih =>
    rw [cutZone] at h
    split at h
    · rename_i hpre
      cases h
      exact ⟨rfl, hpre, rfl⟩
    rename_i hpre
    obtain ⟨⟨a', z'⟩, hcut, heq⟩ := Option.map_eq_some_iff.mp h
    cases heq
    obtain ⟨rfl, hz, hnone⟩ := ih hcut
    refine ⟨rfl, hz, ?_⟩
    rw [cutZone, if_neg, hnone]
    · rfl
    · intro hpre'
      exact hpre (hpre'.trans (prefix_append (c :: a') z'))

/-- A percent sign in a host has been read from the begin of a zone. -/
theorem Decoded.cutZone_ne_none (h : Decoded .host s t) (ht : byte '%' ∈ t) : cutZone s ≠ none := by
  induction h with
  | nil => cases ht
  | @escape x l s t hallowed _ ih =>
    rcases mem_cons.mp ht with heq | ht
    · rcases escaped_host hallowed with hbig | ⟨rfl, rfl⟩
      · rw [← heq] at hbig
        exact absurd hbig (by decide)
      · rw [cutZone, if_pos ⟨s, rfl⟩]
        simp
    · exact GoUrl.cutZone_ne_none (GoUrl.cutZone_ne_none (GoUrl.cutZone_ne_none (ih ht)))
  | @raw c s t hc _ _ ih =>
    rcases mem_cons.mp ht with heq | ht
    · exact absurd heq.symm hc
    · exact GoUrl.cutZone_ne_none (ih ht)

/-- The printed host is cut where the host has its first percent sign. -/
theorem cutZone_escape (x : Bytes) :
    cutZone (escape .host x) =
      if byte '%' ∈ x then
        some (escape .host (before (byte '%') x), escape .host (startingAt (byte '%') x))
      else none := by
  induction x with
  | nil => rfl
  | cons c x ih =>
    by_cases hc : c = byte '%'
    · subst hc
      have hescape : escapeByte .host (byte '%') = ascii "%25" := by decide
      have hbefore : before (byte '%') (byte '%' :: x) = [] := by simp [before]
      have hstart : startingAt (byte '%') (byte '%' :: x) = byte '%' :: x := by
        simp [startingAt]
      rw [if_pos mem_cons_self, hbefore, hstart, escape_cons, hescape]
      show cutZone (byte '%' :: (byte '2' :: byte '5' :: escape .host x)) = _
      rfl
    have hmem : byte '%' ∈ c :: x ↔ byte '%' ∈ x := by
      simp [Ne.symm hc]
    have hbefore : before (byte '%') (c :: x) = c :: before (byte '%') x := by
      simp [before, hc]
    have hstart : startingAt (byte '%') (c :: x) = startingAt (byte '%') x := by
      simp [startingAt, hc]
    have hbyte : cutZone (escapeByte .host c ++ escape .host x) =
        (cutZone (escape .host x)).map fun p => (escapeByte .host c ++ p.1, p.2) := by
      unfold escapeByte
      split
      · -- an escape of another byte is not `%25`
        have hhi := (hexDigit_roundTrip (div_lt c)).2.2
        have hlo := (hexDigit_roundTrip (mod_lt c)).2.2
        simp only [cons_append, nil_append]
        rw [cutZone, if_neg, cutZone_cons_of_ne (ne_of_isAlnum hhi (by decide)),
          cutZone_cons_of_ne (ne_of_isAlnum hlo (by decide))]
        · cases cutZone (escape .host x) <;> rfl
        intro hpre
        obtain ⟨u, hu⟩ := hpre
        have h2 := (cons.inj (cons.inj hu).2).1
        have h5 := (cons.inj (cons.inj (cons.inj hu).2).2).1
        have heq := escaped_upperhex c
        rw [← h2, ← h5] at heq
        exact hc (heq.symm.trans (by decide))
      · exact cutZone_cons_of_ne hc
    rw [escape_cons, hbyte, ih, hbefore, hstart]
    by_cases hx : byte '%' ∈ x
    · rw [if_pos hx, if_pos (hmem.mpr hx)]
      rfl
    · rw [if_neg hx, if_neg fun h => hx (hmem.mp h)]
      rfl

/-! ### Ports -/

/-- A port has a colon and digits. -/
theorem port_byte (h : validOptionalPort port = true) :
    ∀ c ∈ port, c = byte ':' ∨ byte '0' ≤ c ∧ c ≤ byte '9' := by
  cases port with
  | nil => simp
  | cons c port =>
    simp only [validOptionalPort, Bool.and_eq_true, beq_iff_eq, all_eq_true, decide_eq_true_eq] at h
    rw [forall_mem_cons]
    exact ⟨.inl h.1, fun d hd => .inr (h.2 d hd)⟩

/-- A port is printed as it is. -/
theorem escapeByte_port (h : validOptionalPort port = true) :
    ∀ c ∈ port, shouldEscape .host c = false := by
  intro c hc
  rcases port_byte h c hc with rfl | ⟨hlo, hhi⟩
  · decide
  · have halnum : isAlnum c = true := by simp [isAlnum, hlo, hhi]
    simp [shouldEscape, halnum]

/-- A text without bytes to escape is printed as it is. -/
theorem escape_of_not_shouldEscape (h : ∀ c ∈ s, shouldEscape mode c = false) :
    escape mode s = s := by
  induction s with
  | nil => rfl
  | cons c s ih =>
    rw [escape_cons, ih fun x hx => h x (mem_cons_of_mem c hx), escapeByte, if_neg]
    · rfl
    · simp [h c mem_cons_self]

/-- And it is read as it is. -/
theorem unescape_of_not_shouldEscape (h : ∀ c ∈ s, shouldEscape .host c = false) :
    unescape .host s = some s := by
  apply unescape_of_rawAllowed
  intro c hc
  refine ⟨(plain_of_not_shouldEscape (h c hc)).notPercent, ?_⟩
  simp [rawAllowed, h c hc]

variable {b : UInt8}

/-- What is neither the colon nor a digit is not in a port. -/
theorem not_mem_port (h : validOptionalPort port = true) (hcolon : b ≠ byte ':')
    (hdigit : ¬ (byte '0' ≤ b ∧ b ≤ byte '9')) : b ∉ port := by
  intro hb
  rcases port_byte h b hb with heq | hrange
  · exact hcolon heq
  · exact hdigit hrange

/-- Reading a host in brackets, with its zone and its port. -/
theorem parseHost_bracket {e : Bytes} (he : e.head? = some (byte '['))
    (hport : validOptionalPort port = true) :
    parseHost (e ++ byte ']' :: port) =
      match cutZone e with
      | some (host1, zone) =>
        (unescape .host host1).bind fun x =>
          (unescape .zone zone).map fun y => x ++ y ++ byte ']' :: port
      | none => (unescape .host e).map (· ++ byte ']' :: port) := by
  have hhead : (e ++ byte ']' :: port).head? = some (byte '[') := by simp [he]
  have hmem : byte ']' ∈ e ++ byte ']' :: port := by simp
  have hnot : byte ']' ∉ port := not_mem_port hport (by decide) (by decide)
  have hplain : ∀ c ∈ byte ']' :: port, shouldEscape .host c = false := by
    rw [forall_mem_cons]
    exact ⟨by decide, escapeByte_port hport⟩
  have htail := unescape_of_not_shouldEscape hplain
  have hwhole : unescape .host (e ++ byte ']' :: port) =
      (unescape .host e).map (· ++ byte ']' :: port) := by
    rw [unescape_append_cons (by decide), htail]
    cases unescape .host e <;> rfl
  unfold parseHost
  rw [if_pos hhead, if_pos hmem, afterLast_append hnot, beforeLast_append hnot, if_pos hport,
    htail, hwhole]
  cases cutZone e with
  | none => rfl
  | some p =>
    obtain ⟨host1, zone⟩ := p
    dsimp only
    cases unescape .host host1 with
    | none => rfl
    | some x => cases unescape .zone zone <;> rfl

/-- Reading a host without brackets. -/
theorem parseHost_plain (hhead : s.head? ≠ some (byte '[')) :
    parseHost s =
      if byte ':' ∈ s ∧ validOptionalPort (byte ':' :: afterLast (byte ':') s) = false then none
      else unescape .host s := by
  unfold parseHost
  rw [if_neg hhead]

variable {host : Bytes}

/-- A bracketed host that is accepted ends with a bracket and a port. -/
theorem exists_bracket (h : parseHost s = some host) (hhead : s.head? = some (byte '[')) :
    ∃ e port, s = e ++ byte ']' :: port ∧ e.head? = some (byte '[') ∧
      validOptionalPort port = true := by
  unfold parseHost at h
  rw [if_pos hhead] at h
  split at h
  · rename_i hmem
    obtain ⟨e, port, rfl, hport⟩ := exists_cutLast hmem
    rw [afterLast_append hport] at h
    split at h
    · rename_i hvalid
      refine ⟨e, port, rfl, ?_, hvalid⟩
      cases e with
      | nil => exact absurd (Option.some.inj hhead) (by decide)
      | cons c e => simpa using hhead
    · cases h
  · cases h

/-- Reading keeps the opening bracket. -/
theorem Decoded.head_bracket (h : Decoded .host s t) :
    t.head? = some (byte '[') ↔ s.head? = some (byte '[') := by
  cases h with
  | nil => rfl
  | @escape x l s t hallowed _ =>
    have hne : escaped x l ≠ byte '[' := escaped_ne_of_host hallowed (by decide) (by decide)
    have hpercent : byte '%' ≠ byte '[' := by decide
    simp [hne, hpercent]
  | raw => simp

/-- So does printing. -/
theorem escape_head_bracket :
    (escape .host s).head? = some (byte '[') ↔ s.head? = some (byte '[') := by
  cases s with
  | nil => rfl
  | cons c s =>
    rw [escape_cons, escapeByte]
    split
    · rename_i hescape
      have hpercent : byte '%' ≠ byte '[' := by decide
      have hne : c ≠ byte '[' := by
        rintro rfl
        exact absurd hescape (by decide)
      simp [hpercent, hne]
    · simp

/-- A colon has been read as it is. -/
theorem Decoded.colon (h : Decoded .host s t) (ht : byte ':' ∈ t) : byte ':' ∈ s := by
  induction h with
  | nil => cases ht
  | escape hallowed _ ih =>
    rcases mem_cons.mp ht with heq | ht
    · exact absurd heq.symm (escaped_ne_of_host hallowed (by decide) (by decide))
    · exact mem_cons_of_mem _ (mem_cons_of_mem _ (mem_cons_of_mem _ (ih ht)))
  | raw _ _ _ ih =>
    rcases mem_cons.mp ht with heq | ht
    · exact mem_cons.mpr (.inl heq)
    · exact mem_cons_of_mem _ (ih ht)

/-- And it is printed as it is. -/
theorem colon_of_mem_escape (h : byte ':' ∈ escape .host s) : byte ':' ∈ s := by
  rcases mem_escape h with heq | halnum | ⟨hmem, _⟩
  · exact absurd heq (by decide)
  · exact absurd halnum (by decide)
  · exact hmem

/-- Printing and reading the bytes of a host. -/
theorem unescape_escape_host (h : Decoded .host s t) : unescape .host (escape .host t) = some t :=
  unescape_escape_self fun c hc => readsBack_host (h.hostByte c hc)

/-- A host without brackets is read back. -/
theorem parseHost_escape_plain (h : parseHost s = some host) (hhead : s.head? ≠ some (byte '[')) :
    parseHost (escape .host host) = some host := by
  rw [parseHost_plain hhead] at h
  split at h
  · cases h
  rename_i hport
  have hdecoded := decoded_of_unescape h
  have hhead' : (escape .host host).head? ≠ some (byte '[') := by
    rwa [ne_eq, escape_head_bracket, hdecoded.head_bracket]
  rw [parseHost_plain hhead', if_neg, unescape_escape_host hdecoded]
  rintro ⟨hcolon, hinvalid⟩
  have hs := hdecoded.colon (colon_of_mem_escape hcolon)
  obtain ⟨a, p, rfl, hp⟩ := exists_cutLast hs
  have hvalid : validOptionalPort (byte ':' :: p) = true := by
    rw [afterLast_append hp] at hport
    simpa [hs] using hport
  -- the port is the same in the printed host
  have hplain := escapeByte_port hvalid
  rw [unescape_append_cons (by decide), unescape_of_not_shouldEscape hplain] at h
  obtain ⟨x, _, hx⟩ := Option.bind_eq_some_iff.mp h
  obtain rfl : x ++ byte ':' :: p = host := by simpa using hx
  rw [escape_append, escape_of_not_shouldEscape hplain, afterLast_append hp, hvalid] at hinvalid
  cases hinvalid

/-- The zone of a bracketed host contains a byte that is not ASCII. -/
def nonASCIIZone (host : Bytes) : Bool :=
  host.head? == some (byte '[') &&
    match cutZone (beforeLast (byte ']') host) with
    | some (_, zone) => zone.any (0x80 ≤ ·)
    | none => false

/-- The ASCII bytes of a zone are read back. -/
theorem readsBack_zone (h : ZoneByte c) (hc : ¬ 0x80 ≤ c) : ReadsBack .host .zone c := by
  unfold ReadsBack
  split
  · rename_i hescape
    rcases h hescape with rfl | rfl | hbig
    · decide
    · decide
    · exact absurd hbig hc
  · rename_i hescape
    rw [← shouldEscape_zone] at hescape
    simp [rawAllowed, hescape]

/-- Any other byte is printed as an escape that is not accepted. -/
theorem unescape_zone_escape_none (hc : c ∈ s) (hbig : 0x80 ≤ c) (hbytes : ∀ x ∈ s, ZoneByte x) :
    unescape .zone (escape .host s) = none := by
  induction s with
  | nil => cases hc
  | cons x s ih =>
    rw [forall_mem_cons] at hbytes
    by_cases hx : 0x80 ≤ x
    · have hescape : shouldEscape .host x = true := by
        by_contra hplain
        have hsmall := (plain_of_not_shouldEscape (by simpa using hplain)).ascii
        exact UInt8.not_le.mpr hsmall hx
      have hne : x ≠ byte '%' ∧ x ≠ byte ' ' :=
        ⟨fun heq => absurd (heq ▸ hx) (by decide), fun heq => absurd (heq ▸ hx) (by decide)⟩
      have hnot : escapeAllowed .zone (upperhex (x / 16)) (upperhex (x % 16)) = false := by
        apply Bool.eq_false_iff.mpr
        intro hallowed
        have hzone := escaped_zone hallowed
        rw [escaped_upperhex, hescape] at hzone
        simp [hne] at hzone
      rw [escape_cons, escapeByte, if_pos hescape]
      simp only [cons_append, nil_append]
      rw [unescape_percent, hnot]
      rfl
    · have hmem : c ∈ s := by
        rcases mem_cons.mp hc with rfl | hmem
        · exact absurd hbig hx
        · exact hmem
      rw [escape_cons, unescape_escapeByte (readsBack_zone hbytes.1 hx), ih hmem hbytes.2]
      rfl

/-- A zone that has been read begins with a percent sign. -/
theorem Decoded.zone_head (h : Decoded .zone s t) (hs : ascii "%25" <+: s) :
    ∃ u, t = byte '%' :: u := by
  obtain ⟨u, rfl⟩ := hs
  cases h with
  | escape => exact ⟨_, rfl⟩
  | raw hc => exact absurd rfl hc

section Bracketed

variable {e port x : Bytes}

/-- The bracket and the port are printed as they are. -/
theorem escape_bracket_port (hport : validOptionalPort port = true) :
    escape .host (x ++ byte ']' :: port) = escape .host x ++ byte ']' :: port := by
  rw [escape_append]
  congr 1
  apply escape_of_not_shouldEscape
  rw [forall_mem_cons]
  exact ⟨by decide, escapeByte_port hport⟩

/-- A bracketed host without a zone is read back. -/
theorem parseHost_escape_bracket (he : e.head? = some (byte '['))
    (hport : validOptionalPort port = true) (hcut : cutZone e = none)
    (hx : Decoded .host e x) :
    parseHost (escape .host (x ++ byte ']' :: port)) = some (x ++ byte ']' :: port) := by
  have hpercent : byte '%' ∉ x := fun hmem => hx.cutZone_ne_none hmem hcut
  have hbracket : (escape .host x).head? = some (byte '[') := by
    rwa [escape_head_bracket, hx.head_bracket]
  rw [escape_bracket_port hport, parseHost_bracket hbracket hport, cutZone_escape, if_neg hpercent]
  simp [unescape_escape_host hx]

/-- With a zone it is if the zone is ASCII. -/
theorem parseHost_escape_zone {y : Bytes} (ha : a.head? = some (byte '['))
    (hport : validOptionalPort port = true) (hcut : cutZone a = none) (hz : ascii "%25" <+: z)
    (hx : Decoded .host a x) (hy : Decoded .zone z y) :
    parseHost (escape .host (x ++ y ++ byte ']' :: port)) =
      if z.any (0x80 ≤ ·) then none else some (x ++ y ++ byte ']' :: port) := by
  obtain ⟨u, rfl⟩ := hy.zone_head hz
  have hpercent : byte '%' ∉ x := fun hmem => hx.cutZone_ne_none hmem hcut
  have hbracket : (escape .host (x ++ byte '%' :: u)).head? = some (byte '[') := by
    rw [escape_head_bracket]
    have hx0 := hx.head_bracket.mpr ha
    cases x with
    | nil => cases hx0
    | cons c x => simpa using hx0
  rw [escape_bracket_port hport, parseHost_bracket hbracket hport, cutZone_escape,
    if_pos (by simp), before_append hpercent, startingAt_append hpercent]
  simp only [unescape_escape_host hx, Option.bind_some]
  have hbig : z.any (0x80 ≤ ·) = true ↔ ∃ c ∈ byte '%' :: u, 0x80 ≤ c := by
    rw [hy.zone_big]
    simp
  by_cases hany : z.any (0x80 ≤ ·) = true
  · obtain ⟨c, hc, hc'⟩ := hbig.mp hany
    rw [if_pos hany, unescape_zone_escape_none hc hc' hy.zoneByte]
    rfl
  have hreads : ∀ c ∈ byte '%' :: u, ReadsBack .host .zone c := by
    intro c hc
    apply readsBack_zone (hy.zoneByte c hc)
    intro hc'
    exact hany (hbig.mpr ⟨c, hc, hc'⟩)
  rw [if_neg hany, unescape_escape_self hreads]
  rfl

end Bracketed

/-- **A host that has been read is read back from its printed text**, unless its
zone contains bytes that are not ASCII. -/
theorem parseHost_escape (h : parseHost s = some host) :
    parseHost (escape .host host) = if nonASCIIZone s then none else some host := by
  by_cases hhead : s.head? = some (byte '[')
  · obtain ⟨e, port, rfl, he, hport⟩ := exists_bracket h hhead
    have hnot : byte ']' ∉ port := not_mem_port hport (by decide) (by decide)
    rw [parseHost_bracket he hport] at h
    unfold nonASCIIZone
    rw [hhead, beforeLast_append hnot]
    cases hcut : cutZone e with
    | none =>
      rw [hcut] at h
      obtain ⟨x, hx, rfl⟩ := Option.map_eq_some_iff.mp h
      simpa using parseHost_escape_bracket he hport hcut (decoded_of_unescape hx)
    | some p =>
      obtain ⟨a, z⟩ := p
      rw [hcut] at h
      obtain ⟨x, hx, hmap⟩ := Option.bind_eq_some_iff.mp h
      obtain ⟨y, hy, rfl⟩ := Option.map_eq_some_iff.mp hmap
      obtain ⟨rfl, hz, hnone⟩ := cutZone_some hcut
      have ha : a.head? = some (byte '[') := by
        cases a with
        | nil =>
          obtain ⟨v, rfl⟩ := hz
          exact absurd (Option.some.inj he) (by decide)
        | cons c a => simpa using he
      simpa using parseHost_escape_zone ha hport hnone hz (decoded_of_unescape hx)
        (decoded_of_unescape hy)
  · have hzone : nonASCIIZone s = false := by simp [nonASCIIZone, hhead]
    rw [parseHost_escape_plain h hhead, hzone]
    rfl

/-! ## User and authority -/

/-- Bytes that are printed as they are may stand in a user name. -/
theorem validUserinfo_of_not_shouldEscape (h : shouldEscape .userPassword c = false) :
    (isAlnum c || c ∈ ascii "-._:~!$&'()*+,;=%@") = true := by
  unfold shouldEscape at h
  split at h
  · rename_i halnum
    simp [halnum]
  rw [if_neg (by simp)] at h
  split at h
  · rename_i hmark
    have hall : ∀ x ∈ ascii "-_.~", x ∈ ascii "-._:~!$&'()*+,;=%@" := forall_of_all (by decide)
    simp [hall c hmark]
  split at h
  · rename_i hreserved
    have hall : ∀ x ∈ ascii "$&+,/:;=?@",
        x ∉ ascii "@/?:" → x ∈ ascii "-._:~!$&'()*+,;=%@" := forall_of_all (by decide)
    simp [hall c hreserved (by simpa using h)]
  · cases h

/-- What is printed of a user is accepted. -/
theorem validUserinfo_escape : validUserinfo (escape .userPassword s) = true := by
  apply all_eq_true.mpr
  intro c hc
  rcases mem_escape hc with rfl | halnum | ⟨_, hplain⟩
  · decide
  · simp [halnum]
  · exact validUserinfo_of_not_shouldEscape hplain

/-- The parts of a user are checked byte by byte. -/
theorem validUserinfo_append :
    validUserinfo (s ++ t) = (validUserinfo s && validUserinfo t) := all_append

/-- A printed user contains no separator. -/
theorem not_mem_escape_user (hb : b ∈ ascii "@/?:") : b ∉ escape .userPassword s := by
  have hall : ∀ x ∈ ascii "@/?:", x ≠ byte '%' ∧ isAlnum x = false ∧
      shouldEscape .userPassword x = true := forall_of_all (by decide)
  obtain ⟨hpercent, halnum, hescape⟩ := hall b hb
  exact not_mem_escape hpercent halnum hescape

/-- A printed host contains no separator. -/
theorem not_mem_escape_host (hb : b ∈ ascii "@/?") : b ∉ escape .host s := by
  have hall : ∀ x ∈ ascii "@/?", x ≠ byte '%' ∧ isAlnum x = false ∧
      shouldEscape .host x = true := forall_of_all (by decide)
  obtain ⟨hpercent, halnum, hescape⟩ := hall b hb
  exact not_mem_escape hpercent halnum hescape

/-- Printing and reading a user name or a password. -/
theorem unescape_escape_user : unescape .userPassword (escape .userPassword s) = some s :=
  unescape_escape_self fun c _ => readsBack_userPassword c

/-- **Every user is read back.** -/
theorem parseUserinfo_string (ui : Userinfo) : parseUserinfo ui.string = some ui := by
  have hcolon : ∀ x, byte ':' ∉ escape .userPassword x := fun x =>
    not_mem_escape_user (by decide)
  obtain ⟨username, password⟩ := ui
  unfold parseUserinfo Userinfo.string
  cases password with
  | none =>
    rw [append_nil, if_pos validUserinfo_escape, if_neg (hcolon username), unescape_escape_user]
    rfl
  | some password =>
    have hvalid : validUserinfo
        (escape .userPassword username ++ byte ':' :: escape .userPassword password) = true := by
      rw [validUserinfo_append, validUserinfo_escape, Bool.true_and]
      exact validUserinfo_escape
    rw [if_pos hvalid, if_pos (by simp), before_append (hcolon username),
      after_append (hcolon username), unescape_escape_user, unescape_escape_user]
    rfl

/-- A printed user ends before the host and the path. -/
theorem not_mem_userinfo_string (hb : b ∈ ascii "@/?") (ui : Userinfo) : b ∉ ui.string := by
  have hsub : ∀ x ∈ ascii "@/?", x ∈ ascii "@/?:" ∧ x ≠ byte ':' := forall_of_all (by decide)
  obtain ⟨hb', hcolon⟩ := hsub b hb
  obtain ⟨username, password⟩ := ui
  cases password with
  | none => simpa [Userinfo.string] using not_mem_escape_user hb'
  | some password =>
    simp [Userinfo.string, not_mem_escape_user hb', hcolon]

/-- A printed authority ends before the path and the query. -/
theorem not_mem_authority (hb : b ∈ ascii "/?") (u : Url) : b ∉ u.authority := by
  have hsub : ∀ x ∈ ascii "/?", x ∈ ascii "@/?" ∧ x ≠ byte '@' := forall_of_all (by decide)
  obtain ⟨hb', hat⟩ := hsub b hb
  unfold Url.authority
  cases u.user with
  | none => simpa using not_mem_escape_host hb'
  | some ui => simp [not_mem_userinfo_string hb', hat, not_mem_escape_host hb']

/-- Reading the printed authority comes to reading its host. -/
theorem parseAuthority_authority (u : Url) :
    parseAuthority u.authority =
      (parseHost (escape .host u.host)).map fun host => (u.user, host) := by
  have hat : byte '@' ∉ escape .host u.host := not_mem_escape_host (by decide)
  unfold parseAuthority Url.authority
  cases u.user with
  | none =>
    rw [nil_append, if_neg hat]
    cases parseHost (escape .host u.host) <;> rfl
  | some ui =>
    have hshape : ui.string ++ [byte '@'] ++ escape .host u.host =
        ui.string ++ byte '@' :: escape .host u.host := by simp
    rw [hshape, if_pos (by simp), afterLast_append hat, beforeLast_append hat, parseUserinfo_string]
    cases parseHost (escape .host u.host) <;> rfl

/-- The host stands behind the last `@`. -/
theorem parseHost_of_parseAuthority {user : Option Userinfo}
    (h : parseAuthority s = some (user, host)) :
    parseHost (afterLast (byte '@') s) = some host := by
  unfold parseAuthority at h
  split at h
  · obtain ⟨x, hx, hrest⟩ := Option.bind_eq_some_iff.mp h
    obtain ⟨y, _, hy⟩ := Option.bind_eq_some_iff.mp hrest
    cases hy
    exact hx
  · rename_i hat
    obtain ⟨x, hx, hrest⟩ := Option.bind_eq_some_iff.mp h
    cases hrest
    rwa [afterLast_of_not_mem hat]

end GoUrl
