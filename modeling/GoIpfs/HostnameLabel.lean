import GoIpfs.Hostname

/-!
# Names inlined into a label

Over HTTPS a DNSLink name has to fit into one label, so `toDNSLinkDNSLabel`
writes `-` as `--` and `.` as `-`, and `toDNSLinkFQDN` reads such a label back
by three replacements with `@` as a placeholder.

Both are single passes in disguise: the label is `flatMap labelBytes`, and the
three replacements are `readHyphens`, which takes hyphens two at a time from the
left, followed by the loss of `@`.  A run of hyphens is read back as the run of
dots and hyphens that was written unless a dot is followed by another dot or by
a hyphen (`Spaced`), which is where two names share a label.
-/

namespace Hostname

open GoBytes List

/-- What a byte of a name becomes in the label. -/
def labelBytes (c : UInt8) : Bytes :=
  if c = byte '-' then ascii "--" else if c = byte '.' then ascii "-" else [c]

/-- Hyphens of a label, taken two at a time from the left. -/
def readHyphens : Bytes → Bytes
  | [] => []
  | [c] => if c = byte '-' then [byte '.'] else [c]
  | c :: d :: rest =>
    if c = byte '-' then
      if d = byte '-' then byte '-' :: readHyphens rest
      else byte '.' :: readHyphens (d :: rest)
    else c :: readHyphens (d :: rest)

/-- The placeholder is turned into a hyphen, wherever it comes from. -/
def losePlaceholder (c : UInt8) : UInt8 := if c = byte '@' then byte '-' else c

/-- No dot is followed by a dot or by a hyphen. -/
def Spaced : Bytes → Prop
  | [] => True
  | c :: s =>
    (c = byte '.' → s.head? ≠ some (byte '.') ∧ s.head? ≠ some (byte '-')) ∧ Spaced s

/-- A host name whose labels are not empty and do not start with a hyphen. -/
def WellLabelled (fqdn : Bytes) : Prop :=
  ∀ label ∈ fqdn.splitOn (byte '.'), label ≠ [] ∧ label.head? ≠ some (byte '-')

instance (fqdn : Bytes) : Decidable (WellLabelled fqdn) :=
  inferInstanceAs (Decidable (∀ label ∈ _, _))

/-! ## The replacements as single passes -/

theorem replaceByte_nil (old : UInt8) (new : Bytes) : replaceByte old new [] = [] := rfl

theorem replaceByte_cons (old : UInt8) (new : Bytes) (c : UInt8) (s : Bytes) :
    replaceByte old new (c :: s) = (if c = old then new else [c]) ++ replaceByte old new s :=
  flatMap_cons

theorem replaceByte_append (old : UInt8) (new s t : Bytes) :
    replaceByte old new (s ++ t) = replaceByte old new s ++ replaceByte old new t :=
  flatMap_append

theorem dnsLabel_eq (fqdn : Bytes) :
    replaceByte (byte '.') (ascii "-") (replaceByte (byte '-') (ascii "--") fqdn) =
      fqdn.flatMap labelBytes := by
  induction fqdn with
  | nil => rfl
  | cons c s ih =>
    have hbyte : replaceByte (byte '.') (ascii "-")
        (if c = byte '-' then ascii "--" else [c]) = labelBytes c := by
      unfold labelBytes
      by_cases hh : c = byte '-'
      · rw [if_pos hh, if_pos hh]
        decide
      · rw [if_neg hh, if_neg hh, replaceByte_cons, replaceByte_nil, append_nil]
    rw [replaceByte_cons, replaceByte_append, ih, hbyte, flatMap_cons]

theorem toDNSLinkDNSLabel_ok {fqdn label : Bytes} (h : toDNSLinkDNSLabel fqdn = .ok label) :
    label = fqdn.flatMap labelBytes ∧ label.length ≤ dnsLabelMaxLength := by
  unfold toDNSLinkDNSLabel at h
  dsimp only at h
  split at h
  · cases h
  · rename_i hlen
    obtain rfl := Except.ok.inj h
    exact ⟨dnsLabel_eq fqdn, Nat.le_of_not_lt hlen⟩

theorem readHyphens_hyphens (s : Bytes) :
    readHyphens (byte '-' :: byte '-' :: s) = byte '-' :: readHyphens s := by
  rw [readHyphens, if_pos rfl, if_pos rfl]

variable {s : Bytes}

theorem readHyphens_hyphen (hs : s.head? ≠ some (byte '-')) :
    readHyphens (byte '-' :: s) = byte '.' :: readHyphens s := by
  cases s with
  | nil => rfl
  | cons d rest =>
    have hd : d ≠ byte '-' := fun heq => hs (congrArg some heq)
    rw [readHyphens, if_pos rfl, if_neg hd]

variable {c : UInt8}

theorem readHyphens_other (hc : c ≠ byte '-') (s : Bytes) :
    readHyphens (c :: s) = c :: readHyphens s := by
  cases s with
  | nil => simp only [readHyphens, if_neg hc]
  | cons d rest => rw [readHyphens, if_neg hc]

theorem toDNSLinkFQDN_eq (label : Bytes) :
    toDNSLinkFQDN label = (readHyphens label).map losePlaceholder := by
  unfold toDNSLinkFQDN
  -- one byte that is no part of a double hyphen
  have hsingle : ∀ c : UInt8, replaceByte (byte '@') (ascii "-")
      (if c = byte '-' then ascii "." else [c]) =
        [losePlaceholder (if c = byte '-' then byte '.' else c)] := by
    intro c
    by_cases hc : c = byte '-'
    · rw [if_pos hc, if_pos hc]
      decide
    · rw [if_neg hc, if_neg hc, replaceByte_cons, replaceByte_nil, append_nil]
      unfold losePlaceholder
      split <;> rfl
  induction label using readHyphens.induct with
  | case1 => rfl
  | case2 => decide
  | case3 c hc =>
    rw [replaceDoubleHyphen, readHyphens, if_neg hc, replaceByte_cons, replaceByte_nil,
      append_nil, hsingle, if_neg hc]
    · rfl
    · intro _ _ _ heq
      cases heq
  | case4 rest ih =>
    rw [readHyphens_hyphens, replaceDoubleHyphen, if_pos ⟨rfl, rfl⟩, replaceByte_cons,
      replaceByte_append, ih]
    rfl
  | case5 d rest hd ih =>
    rw [replaceDoubleHyphen, if_neg (fun h => hd h.2), replaceByte_cons, replaceByte_append,
      hsingle, ih, readHyphens, if_pos rfl, if_neg hd]
    rfl
  | case6 c d rest hc ih =>
    rw [replaceDoubleHyphen, if_neg (fun h => hc h.1), replaceByte_cons, replaceByte_append,
      hsingle, ih, if_neg hc, readHyphens_other hc]
    rfl

/-! ## Reading a label back -/

theorem labelBytes_other (hh : c ≠ byte '-') (hd : c ≠ byte '.') : labelBytes c = [c] := by
  rw [labelBytes, if_neg hh, if_neg hd]

theorem head?_label_iff (s : Bytes) :
    (s.flatMap labelBytes).head? = some (byte '-') ↔
      s.head? = some (byte '.') ∨ s.head? = some (byte '-') := by
  cases s with
  | nil => simp
  | cons c rest =>
    rw [flatMap_cons, head?_cons]
    by_cases hh : c = byte '-'
    · subst hh
      exact ⟨fun _ => Or.inr rfl, fun _ => rfl⟩
    · by_cases hd : c = byte '.'
      · subst hd
        exact ⟨fun _ => Or.inl rfl, fun _ => rfl⟩
      · rw [labelBytes_other hh hd]
        simp [hh, hd]

/-- **Reading hyphens in pairs undoes the label** exactly of the names in which
no dot is followed by a dot or a hyphen. -/
theorem readHyphens_label_iff (s : Bytes) : readHyphens (s.flatMap labelBytes) = s ↔ Spaced s := by
  induction s with
  | nil => exact ⟨fun _ => True.intro, fun _ => rfl⟩
  | cons c rest ih =>
    rw [flatMap_cons, Spaced]
    by_cases hh : c = byte '-'
    · subst hh
      have hne : byte '-' ≠ byte '.' := by decide
      show readHyphens (byte '-' :: byte '-' :: rest.flatMap labelBytes) = _ ↔ _
      rw [readHyphens_hyphens, cons_inj_right, ih]
      exact ⟨fun h => ⟨fun heq => absurd heq hne, h⟩, fun h => h.2⟩
    by_cases hd : c = byte '.'
    · subst hd
      show readHyphens (byte '-' :: rest.flatMap labelBytes) = _ ↔ _
      by_cases hhead : (rest.flatMap labelBytes).head? = some (byte '-')
      -- the hyphen of the dot is paired with the one that follows it
      · obtain ⟨t, ht⟩ := head?_eq_some_iff.mp hhead
        have hne : byte '-' ≠ byte '.' := by decide
        rw [ht, readHyphens_hyphens]
        constructor
        · intro heq
          exact absurd (head_eq_of_cons_eq heq) hne
        · intro hspaced
          rcases (head?_label_iff rest).mp hhead with hdot | hhyphen
          · exact absurd hdot (hspaced.1 rfl).1
          · exact absurd hhyphen (hspaced.1 rfl).2
      · have hnext := fun h => hhead ((head?_label_iff rest).mpr h)
        rw [readHyphens_hyphen hhead, cons_inj_right, ih]
        exact ⟨fun h => ⟨fun _ => ⟨fun e => hnext (Or.inl e), fun e => hnext (Or.inr e)⟩, h⟩,
          fun h => h.2⟩
    · rw [labelBytes_other hh hd, singleton_append, readHyphens_other hh,
        cons_inj_right, ih]
      exact ⟨fun h => ⟨fun heq => absurd heq hd, h⟩, fun h => h.2⟩

theorem mem_of_mem_readHyphens (h : byte '@' ∈ readHyphens s) : byte '@' ∈ s := by
  have hhyphen : byte '@' ≠ byte '-' := by decide
  have hdot : byte '@' ≠ byte '.' := by decide
  induction s using readHyphens.induct with
  | case1 => exact h
  | case2 => exact absurd h (by decide)
  | case3 c hc => simpa only [readHyphens, if_neg hc] using h
  | case4 rest ih =>
    have hrest := (mem_cons.mp h).resolve_left hhyphen
    exact mem_cons_of_mem _ (mem_cons_of_mem _ (ih hrest))
  | case5 d rest hd ih =>
    rw [readHyphens, if_pos rfl, if_neg hd] at h
    have hrest := (mem_cons.mp h).resolve_left hdot
    exact mem_cons_of_mem _ (ih hrest)
  | case6 c d rest hc ih =>
    rw [readHyphens_other hc] at h
    rcases mem_cons.mp h with heq | hrest
    · exact heq ▸ mem_cons_self
    · exact mem_cons_of_mem _ (ih hrest)

theorem mem_labelBytes (h : byte '@' ∈ labelBytes c) : byte '@' = c := by
  unfold labelBytes at h
  split at h
  · exact absurd h (by decide)
  · split at h
    · exact absurd h (by decide)
    · exact mem_singleton.mp h

theorem losePlaceholder_ne (c : UInt8) : losePlaceholder c ≠ byte '@' := by
  unfold losePlaceholder
  split
  · decide
  · assumption

/-- **The round trip.** -/
theorem toDNSLinkFQDN_label_iff (fqdn : Bytes) :
    toDNSLinkFQDN (fqdn.flatMap labelBytes) = fqdn ↔ Spaced fqdn ∧ byte '@' ∉ fqdn := by
  rw [toDNSLinkFQDN_eq, ← readHyphens_label_iff]
  -- without a placeholder in the name there is none to lose
  have hkept : byte '@' ∉ fqdn →
      (readHyphens (fqdn.flatMap labelBytes)).map losePlaceholder =
        readHyphens (fqdn.flatMap labelBytes) := by
    intro hat
    have hsame : ∀ c ∈ readHyphens (fqdn.flatMap labelBytes), losePlaceholder c = id c := by
      intro c hc
      refine if_neg fun heq => hat ?_
      subst heq
      obtain ⟨d, hd, hmem⟩ := mem_flatMap.mp (mem_of_mem_readHyphens hc)
      rwa [mem_labelBytes hmem]
    rw [map_congr_left hsame, map_id]
  constructor
  · intro heq
    have hat : byte '@' ∉ fqdn := by
      rw [← heq]
      intro hmem
      obtain ⟨c, _, hc⟩ := mem_map.mp hmem
      exact losePlaceholder_ne c hc
    exact ⟨(hkept hat).symm.trans heq, hat⟩
  · intro h
    rw [hkept h.2, h.1]

/-! ## Spaced names -/

theorem pair_prefix_iff (a b c : UInt8) (s : Bytes) :
    [a, b] <+: c :: s ↔ c = a ∧ s.head? = some b := by
  cases s with
  | nil => simp
  | cons d rest => simp [eq_comm]

theorem spaced_iff (s : Bytes) : Spaced s ↔ ¬ ascii ".." <:+: s ∧ ¬ ascii ".-" <:+: s := by
  induction s with
  | nil => exact ⟨fun _ => by decide, fun _ => True.intro⟩
  | cons c rest ih =>
    have hdots : ascii ".." <+: c :: rest ↔ c = byte '.' ∧ rest.head? = some (byte '.') :=
      pair_prefix_iff _ _ c rest
    have hhyphen : ascii ".-" <+: c :: rest ↔ c = byte '.' ∧ rest.head? = some (byte '-') :=
      pair_prefix_iff _ _ c rest
    rw [Spaced, ih, infix_cons_iff, infix_cons_iff, hdots, hhyphen, not_or, not_or,
      not_and, not_and, imp_and, and_and_and_comm]

theorem spaced_of_labels
    (h : ∀ label ∈ (s.splitOn (byte '.')).tail, label ≠ [] ∧ label.head? ≠ some (byte '-')) :
    Spaced s := by
  induction s with
  | nil => exact True.intro
  | cons c rest ih =>
    rw [splitOn_cons_eq_if_modifyHead] at h
    by_cases hc : c = byte '.'
    · -- the label that follows the dot is the first one of the rest
      rw [if_pos (beq_iff_eq.mpr hc), tail_cons] at h
      refine ⟨fun _ => ?_, ih fun label hlabel => h label (mem_of_mem_tail hlabel)⟩
      cases rest with
      | nil => exact ⟨by decide, by decide⟩
      | cons d t =>
        rw [splitOn_cons_eq_if_modifyHead] at h
        by_cases hd : d = byte '.'
        · rw [if_pos (beq_iff_eq.mpr hd)] at h
          exact absurd rfl (h [] mem_cons_self).1
        rw [if_neg (fun heq => hd (beq_iff_eq.mp heq))] at h
        refine ⟨fun heq => hd (Option.some.inj heq), fun heq => ?_⟩
        obtain ⟨first, later, hsplit⟩ :=
          exists_cons_of_ne_nil (splitOn_ne_nil (byte '.') t)
        rw [hsplit] at h
        exact (h (d :: first) mem_cons_self).2 heq
    · rw [if_neg (fun heq => hc (beq_iff_eq.mp heq)), tail_modifyHead] at h
      exact ⟨fun heq => absurd heq hc, ih h⟩

theorem spaced_of_wellLabelled {fqdn : Bytes} (h : WellLabelled fqdn) : Spaced fqdn :=
  spaced_of_labels fun label hlabel => h label (mem_of_mem_tail hlabel)

theorem label_injective {t : Bytes} (hs : Spaced s) (ht : Spaced t)
    (heq : s.flatMap labelBytes = t.flatMap labelBytes) : s = t := by
  rw [← (readHyphens_label_iff s).mpr hs, heq, (readHyphens_label_iff t).mpr ht]

theorem dot_not_mem_dnsLabel (fqdn : Bytes) : byte '.' ∉ fqdn.flatMap labelBytes := by
  intro hmem
  obtain ⟨c, _, hc⟩ := mem_flatMap.mp hmem
  unfold labelBytes at hc
  split at hc
  · exact absurd hc (by decide)
  · split at hc
    · exact absurd hc (by decide)
    · rename_i hd
      exact hd (mem_singleton.mp hc).symm

/-- **The label codec.**  A name that is accepted is read back from its label
exactly if it contains none of `..`, `.-` and `@`; its label has no dot and at
most 63 bytes, and is the label of no other host name with non-empty labels that
do not start with a hyphen. -/
theorem dnsLinkLabel_codec {fqdn label : Bytes} (h : toDNSLinkDNSLabel fqdn = .ok label) :
    (toDNSLinkFQDN label = fqdn ↔
      ¬ ascii ".." <:+: fqdn ∧ ¬ ascii ".-" <:+: fqdn ∧ byte '@' ∉ fqdn) ∧
    (WellLabelled fqdn → ∀ other, WellLabelled other →
      toDNSLinkDNSLabel other = .ok label → other = fqdn) ∧
    byte '.' ∉ label ∧ label.length ≤ 63 := by
  obtain ⟨rfl, hlen⟩ := toDNSLinkDNSLabel_ok h
  refine ⟨?_, ?_, dot_not_mem_dnsLabel fqdn, hlen⟩
  · rw [toDNSLinkFQDN_label_iff, spaced_iff, and_assoc]
  · intro hfqdn other hother hlabel
    have heq := (toDNSLinkDNSLabel_ok hlabel).1
    exact label_injective (spaced_of_wellLabelled hother) (spaced_of_wellLabelled hfqdn) heq.symm

/-- The name of the gateway's own test. -/
theorem dnsLinkLabel_codec_longName :
    toDNSLinkFQDN (ascii "dnslink-long--name-example-com") =
      ascii "dnslink.long-name.example.com" := by
  have hlabel : toDNSLinkDNSLabel (ascii "dnslink.long-name.example.com") =
      .ok (ascii "dnslink-long--name-example-com") := by decide +kernel
  exact (dnsLinkLabel_codec hlabel).1.mpr (by decide +kernel)

end Hostname
