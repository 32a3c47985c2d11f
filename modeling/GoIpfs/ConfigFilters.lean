import GoIpfs.ConfigCommands
import GoIpfs.GoConceal

/-!
# What the filters let through

The three filters of the config commands, on configs that are alike.  Scrubbing
a selector removes what the selector may hide.  A key that passes the checks of
`config <key>` never reaches a value with a secret in it.
-/

namespace ConfigCommands

open GoJson Config FsRepo Effects List

variable {folding : Folding} {k : String} {m m' : Members} {sels : Selectors} {key : List String}

@[simp] theorem selects_self (folding : Folding) (p : String) : selects folding p p = true := by
  simp [selects, Folding.equalFold]

theorem selects_of_ascii (folding : Folding) {p : String} (hascii : ∀ c ∈ p.toList, c.toNat < 128) :
    selects folding p k = (p = "*" || equalFold p k) := by
  rw [selects, folding.equalFold_of_ascii k hascii]

section Scrub

variable {selected : String → Bool} {scrub : Json → Except String (Option Json)}

theorem lookup_scrubMembers (hk : selected k = false) {n : Members}
    (h : scrubMembers selected scrub m = .ok n) : n.lookup k = m.lookup k := by
  induction m generalizing n with
  | nil =>
    cases h
    rfl
  | cons e rest ih =>
    obtain ⟨k', j⟩ := e
    rw [scrubMembers] at h
    cases hsel : selected k' with
    | true =>
      have hne : k ≠ k' := by
        intro heq
        rw [heq, hsel] at hk
        cases hk
      rw [hsel, if_pos rfl] at h
      obtain ⟨u, _, h⟩ := bind_eq_ok.mp h
      obtain ⟨n', hn', h⟩ := bind_eq_ok.mp h
      rw [lookup_cons, if_neg hne, ← ih hn']
      cases u with
      | none =>
        cases h
        rfl
      | some u =>
        cases h
        rw [lookup_cons, if_neg hne]
    | false =>
      rw [hsel, if_neg Bool.false_ne_true] at h
      obtain ⟨n', hn', h⟩ := bind_eq_ok.mp h
      cases h
      rw [lookup_cons, lookup_cons, ih hn']

/-- The values that scrubbing leaves, or nothing on both sides. -/
def AlikeLeft (sels : Selectors) (u u' : Option Json) : Prop :=
  (u = none ∧ u' = none) ∨ ∃ j j', u = some j ∧ u' = some j' ∧ Alike sels j j'

theorem scrubMembers_agree {sels' : Selectors}
    (hscrub : ∀ k j j', selected k = true → Alike (advance k sels) j j' →
      Agree (AlikeLeft (advance k sels')) (scrub j) (scrub j'))
    (hkeep : ∀ k, selected k = false → advance k sels ⊆ advance k sels')
    (h : AlikeEntries Alike sels m m') :
    Agree (AlikeEntries Alike sels') (scrubMembers selected scrub m)
      (scrubMembers selected scrub m') := by
  induction m generalizing m' with
  | nil =>
    obtain rfl := alikeEntries_nil.mp h
    exact alikeEntries_nil.mpr rfl
  | cons e rest ih =>
    obtain ⟨k, j⟩ := e
    obtain ⟨j', rest', rfl, hj, hrest⟩ := alikeEntries_cons.mp h
    rw [scrubMembers, scrubMembers]
    cases hsel : selected k with
    | true =>
      refine (hscrub k j j' hsel hj).bind fun u u' hu => ?_
      refine (ih hrest).bind fun n n' hn => ?_
      rcases hu with ⟨rfl, rfl⟩ | ⟨a, b, rfl, rfl, hab⟩
      · exact hn
      · exact alikeEntries_cons.mpr ⟨b, n', rfl, hab, hn⟩
    | false =>
      refine (ih hrest).bind fun n n' hn => ?_
      exact alikeEntries_cons.mpr ⟨j', n', rfl, alike_mono_all.1 j j' _ _ (hkeep k hsel) hj, hn⟩

theorem scrubEither_agree {scrubMap : Members → Except String Members} {okIfMissing : Bool}
    {sels' : Selectors} {j j' : Json}
    (hmap : ∀ m m', AlikeEntries Alike sels m m' →
      Agree (AlikeEntries Alike sels') (scrubMap m) (scrubMap m'))
    (h : Alike sels j j') :
    Agree (AlikeLeft sels') (scrubEither scrubMap okIfMissing j)
      (scrubEither scrubMap okIfMissing j') := by
  have hobj : ∀ m m', AlikeEntries Alike sels m m' →
      Agree (AlikeLeft sels') (scrubEither scrubMap okIfMissing (.obj m))
        (scrubEither scrubMap okIfMissing (.obj m')) := by
    intro m m' hm
    refine (hmap m m' hm).map fun n n' hn => ?_
    exact .inr ⟨_, _, rfl, rfl, alike_obj.mpr hn⟩
  rcases h.elim with rfl | ⟨a, b, rfl, rfl, _⟩ | ⟨m, m', rfl, rfl, hm⟩
  · cases j with
    | obj m => exact hobj m m (alike_refl_all.2 m sels)
    | _ => exact .inl ⟨rfl, rfl⟩
  · exact .inl ⟨rfl, rfl⟩
  · exact hobj m m' hm

theorem advance_cons_of_selects {p : String} :
    advance k ((p :: key) :: sels) ⊆ key :: advance k sels := by
  intro sel hsel
  simp only [advance, filterMap_cons] at hsel
  split at hsel
  · exact mem_cons_of_mem _ hsel
  · rename_i rest hrest
    split at hrest
    · cases hrest
      exact hsel
    · cases hrest

theorem advance_cons_of_not_selects {p : String} (h : selects folding p k = false) :
    advance k ((p :: key) :: sels) = advance k sels := by
  unfold selects at h
  rw [Bool.or_eq_false_iff, decide_eq_false_iff_not] at h
  obtain ⟨hstar, hfold⟩ := h
  have hne : p ≠ k := by
    intro heq
    subst heq
    simp [Folding.equalFold] at hfold
  simp [advance, hstar, hne]

/-- **Scrubbing hides the selected strings.** -/
theorem scrubMapInternal_agree (okIfMissing : Bool) (h : AlikeEntries Alike (key :: sels) m m') :
    Agree (AlikeEntries Alike sels) (scrubMapInternal folding okIfMissing key m)
      (scrubMapInternal folding okIfMissing key m') := by
  induction key generalizing sels m m' with
  | nil => exact alikeEntries_nil.mpr rfl
  | cons p key ih =>
    refine scrubMembers_agree ?_ ?_ h
    · intro k j j' _ hj
      exact scrubEither_agree (fun n n' hn => ih hn)
        (alike_mono_all.1 j j' _ _ advance_cons_of_selects hj)
    · intro k hsel
      rw [advance_cons_of_not_selects hsel]
      exact List.Subset.refl _

end Scrub

def secretSelectors : Selectors := [privKeyPath, pinningConcealSelector]

/-- Both scrubbers together hide all secrets. -/
theorem scrubShown_eq (h : AlikeEntries Alike secretSelectors m m') :
    scrubShown folding m = scrubShown folding m' := by
  have hagree : Agree (AlikeEntries Alike []) (scrubShown folding m) (scrubShown folding m') :=
    (scrubMapInternal_agree false h).bind fun n n' hn => scrubMapInternal_agree true hn
  rcases hagree.elim with ⟨e, hm, hm'⟩ | ⟨n, n', hm, hm', hn⟩
  · rw [hm, hm']
  · rw [hm, hm', alike_eq_all.2 n n' hn]

variable {parts : List String}

section Keys

/-- A path that ends at a selected place or above one. -/
def reaches : List String → List String → Bool
  | [], _ => true
  | _ :: _, [] => false
  | k :: parts, p :: sel => (p = "*" || p = k) && reaches parts sel

theorem getParts_eq {sofar : List String} {j j' : Json}
    (hparts : ∀ sel ∈ sels, reaches parts sel = false) (h : Alike sels j j') :
    getParts sofar parts j = getParts sofar parts j' := by
  induction parts generalizing sofar sels j j' with
  | nil =>
    cases sels with
    | nil => rw [alike_eq_all.1 j j' h]
    | cons sel rest => exact absurd (hparts sel mem_cons_self) (by simp [reaches])
  | cons k parts ih =>
    rcases h.elim with rfl | ⟨a, b, rfl, rfl, _⟩ | ⟨m, m', rfl, rfl, hm⟩
    · rfl
    · rfl
    rw [getParts, getParts]
    rcases hm.lookup k with ⟨hnone, hnone'⟩ | ⟨v, w, hv, hw, hvw⟩
    · rw [hnone, hnone']
    rw [hv, hw]
    refine ih ?_ hvw
    intro sel hsel
    obtain ⟨full, hfull, hrest⟩ := mem_filterMap.mp hsel
    have hno := hparts full hfull
    cases full with
    | nil => cases hrest
    | cons p tail =>
      dsimp only at hrest
      split at hrest
      · rename_i hp
        cases hrest
        simpa [reaches, hp] using hno
      · cases hrest

theorem matchesParts_of_reaches {glob : List String} (h : reaches parts glob = true) :
    matchesParts folding parts glob = true := by
  induction parts generalizing glob with
  | nil => rfl
  | cons k parts ih =>
    cases glob with
    | nil => rfl
    | cons g glob =>
      rw [reaches, Bool.and_eq_true] at h
      rw [matchesParts, Bool.and_eq_true]
      refine ⟨?_, ih h.2⟩
      have hg : g = "*" ∨ g = k := by simpa using h.1
      rcases hg with rfl | rfl
      · simp
      · simp [Folding.equalFold]

theorem splitKey_inj {key key' : String} (h : splitKey key = splitKey key') : key = key' := by
  have hsplit : key.toList.splitOn '.' = key'.toList.splitOn '.' := by
    have hinj : Function.Injective String.ofList := fun a b hab => by
      simpa using congrArg String.toList hab
    exact map_injective_iff.mpr hinj h
  have hlist := congrArg (intercalate ['.']) hsplit
  rw [intercalate_splitOn, intercalate_splitOn] at hlist
  exact String.toList_injective hlist

theorem reaches_privKeyPath (h : reaches parts privKeyPath = true) :
    parts = [] ∨ parts = ["Identity"] ∨ parts = ["Identity", "PrivKey"] := by
  unfold privKeyPath at h
  match parts, h with
  | [], _ => exact .inl rfl
  | [a], h | [a, b], h =>
    simp [reaches] at h
    simp [h]
  | a :: b :: c :: rest, h => simp [reaches] at h

/-- **A key that passes the checks reads no secret.** -/
theorem reaches_of_allowed {key : String}
    (hident : ¬ (toLower key = "identity" ∨ toLower key = "identity.privkey"))
    (hglob : matchesGlobPrefix folding key pinningConcealSelector = false) :
    ∀ sel ∈ secretSelectors, reaches (splitKey key) sel = false := by
  intro sel hsel
  rcases mem_cons.mp hsel with rfl | hsel
  · rw [Bool.eq_false_iff]
    intro hreach
    rcases reaches_privKeyPath hreach with hnil | hone | htwo
    · exact splitKey_ne_nil key hnil
    · have hkey : key = "Identity" :=
        splitKey_inj (hone.trans (by decide))
      exact hident (.inl (by rw [hkey]; decide))
    · have hkey : key = privKeySelector :=
        splitKey_inj (htwo.trans splitKey_privKeySelector.symm)
      exact hident (.inr (by rw [hkey]; decide))
  · obtain rfl := mem_singleton.mp hsel
    rw [Bool.eq_false_iff]
    intro hreach
    unfold matchesGlobPrefix at hglob
    rw [matchesParts_of_reaches hreach] at hglob
    cases hglob

end Keys

end ConfigCommands
