import GoIpfs.GoStruct

/-!
# Values that differ only in secrets

A selector is a path of names in which `*` stands for any name.  Two values are
alike for some selectors when they are equal but for the strings at the selected
places.

Decoding alike texts gives alike values, or the same error, provided that the
selectors lead to plain strings through structs and maps only (`concealable`);
encoding gives alike texts back when no field on the way is left out for being
empty (`printed`).
-/

namespace GoJson

open List

abbrev Selectors := List (List String)

/-- The selectors below a name. -/
def advance (k : String) (sels : Selectors) : Selectors :=
  sels.filterMap fun sel =>
    match sel with
    | p :: rest => if p = "*" ∨ p = k then some rest else none
    | [] => none

mutual

/-- Equal but for the strings at the selected places. -/
def Alike : Selectors → Json → Json → Prop
  | sels, .str a, .str b => a = b ∨ [] ∈ sels
  | sels, .obj ms, .obj ns => AlikeMembers sels ms ns
  | _, j, j' => j = j'

def AlikeMembers : Selectors → Members → Members → Prop
  | _, [], [] => True
  | sels, (k, j) :: ms, (k', j') :: ns =>
    k = k' ∧ Alike (advance k sels) j j' ∧ AlikeMembers sels ms ns
  | _, _, _ => False

end

mutual

/-- Equal Go values but for the strings at the selected places. -/
def AlikeVal : Selectors → Val → Val → Prop
  | sels, .str a, .str b => a = b ∨ [] ∈ sels
  | sels, .map es, .map es' => AlikeFields sels es es'
  | sels, .struct vs, .struct vs' => AlikeFields sels vs vs'
  | _, v, w => v = w

def AlikeFields : Selectors → List (String × Val) → List (String × Val) → Prop
  | _, [], [] => True
  | sels, (k, v) :: vs, (k', w) :: ws =>
    k = k' ∧ AlikeVal (advance k sels) v w ∧ AlikeFields sels vs ws
  | _, _, _ => False

end

variable {sels sels' : Selectors}

theorem advance_mono (hsub : sels ⊆ sels') (k : String) : advance k sels ⊆ advance k sels' := by
  intro sel hsel
  obtain ⟨full, hfull, heq⟩ := mem_filterMap.mp hsel
  exact mem_filterMap.mpr ⟨full, hsub hfull, heq⟩

theorem Json.members_induction {P : Json → Prop} {Q : Members → Prop}
    (leaf : ∀ j, (∀ ms, j ≠ .obj ms) → P j) (obj : ∀ ms, Q ms → P (.obj ms))
    (nil : Q []) (cons : ∀ k j ms, P j → Q ms → Q ((k, j) :: ms)) :
    (∀ j, P j) ∧ ∀ ms, Q ms :=
  ⟨value, members⟩
where
  value : ∀ j, P j
    | .null | .bool _ | .num _ | .str _ | .arr _ => leaf _ (by simp)
    | .obj ms => obj ms (members ms)
  members : ∀ ms, Q ms
    | [] => nil
    | (k, j) :: ms => cons k j ms (value j) (members ms)

theorem Val.fields_induction {P : Val → Prop} {Q : List (String × Val) → Prop}
    (leaf : ∀ v, (∀ es, v ≠ .map es) → (∀ vs, v ≠ .struct vs) → P v)
    (map : ∀ es, Q es → P (.map es)) (struct : ∀ vs, Q vs → P (.struct vs))
    (nil : Q []) (cons : ∀ k v vs, P v → Q vs → Q ((k, v) :: vs)) :
    (∀ v, P v) ∧ ∀ vs, Q vs :=
  ⟨value, fields⟩
where
  value : ∀ v, P v
    | .nil | .str _ | .bool _ | .int _ | .json _ | .slice _ | .ptr _ => leaf _ (by simp) (by simp)
    | .map es => map es (fields es)
    | .struct vs => struct vs (fields vs)
  fields : ∀ vs, Q vs
    | [] => nil
    | (k, v) :: vs => cons k v vs (value v) (fields vs)

/-- Lists of the same names in the same order, with related values. -/
def AlikeEntries {α : Type} (R : Selectors → α → α → Prop) (sels : Selectors) :
    List (String × α) → List (String × α) → Prop :=
  List.Forall₂ fun e e' => e.1 = e'.1 ∧ R (advance e.1 sels) e.2 e'.2

variable {k : String}

section Entries

variable {α : Type} {R : Selectors → α → α → Prop} {sels : Selectors} {es es' : List (String × α)}

theorem alikeEntries_nil : AlikeEntries R sels [] es' ↔ es' = [] :=
  forall₂_nil_left_iff

theorem alikeEntries_cons {v : α} :
    AlikeEntries R sels ((k, v) :: es) es' ↔
      ∃ w rest, es' = (k, w) :: rest ∧ R (advance k sels) v w ∧
        AlikeEntries R sels es rest := by
  unfold AlikeEntries
  rw [forall₂_cons_left_iff]
  constructor
  · intro ⟨⟨k', w⟩, rest, ⟨hk, hv⟩, hrest, heq⟩
    subst hk
    exact ⟨w, rest, heq, hv, hrest⟩
  · intro ⟨w, rest, heq, hv, hrest⟩
    exact ⟨(k, w), rest, ⟨rfl, hv⟩, hrest, heq⟩

variable (h : AlikeEntries R sels es es')
include h

/-- Alike maps have the same keys, with related values. -/
theorem AlikeEntries.lookup (k : String) :
    (es.lookup k = none ∧ es'.lookup k = none) ∨
      ∃ v w, es.lookup k = some v ∧ es'.lookup k = some w ∧ R (advance k sels) v w := by
  induction es generalizing es' with
  | nil =>
    obtain rfl := alikeEntries_nil.mp h
    exact .inl ⟨rfl, rfl⟩
  | cons e rest ih =>
    obtain ⟨k', v⟩ := e
    obtain ⟨w, rest', rfl, hv, hrest⟩ := alikeEntries_cons.mp h
    rw [lookup_cons, lookup_cons]
    by_cases hk : k = k'
    · subst hk
      exact .inr ⟨v, w, if_pos rfl, if_pos rfl, hv⟩
    · rw [if_neg hk, if_neg hk]
      exact ih hrest

/-- Setting alike values under one key. -/
theorem AlikeEntries.setKey {v w : α} (hv : R (advance k sels) v w) :
    AlikeEntries R sels (setKey k v es) (setKey k w es') := by
  induction es generalizing es' with
  | nil =>
    obtain rfl := alikeEntries_nil.mp h
    exact alikeEntries_cons.mpr ⟨w, [], rfl, hv, alikeEntries_nil.mpr rfl⟩
  | cons e rest ih =>
    obtain ⟨u', rest', rfl, hu, hrest⟩ := alikeEntries_cons.mp h
    unfold GoJson.setKey
    split
    · exact alikeEntries_cons.mpr ⟨w, _, rfl, hv, hrest⟩
    · split
      · exact alikeEntries_cons.mpr ⟨w, _, rfl, hv, h⟩
      · exact alikeEntries_cons.mpr ⟨u', _, rfl, hu, ih hrest⟩

theorem AlikeEntries.increasing (hes : Increasing es) : Increasing es' := by
  have hnames : es.map Prod.fst = es'.map Prod.fst := by
    induction es generalizing es' with
    | nil => rw [alikeEntries_nil.mp h]
    | cons e rest ih =>
      obtain ⟨w, rest', rfl, _, hrest⟩ := alikeEntries_cons.mp h
      rw [map_cons, map_cons, ih hrest (pairwise_cons.mp hes).2]
  have hpair : (es.map Prod.fst).Pairwise (· < ·) := pairwise_map.mpr hes
  rw [hnames] at hpair
  exact pairwise_map.mp hpair

/-- Other selectors, if they allow every pair of entries. -/
theorem AlikeEntries.restrict
    (hR : ∀ k v w, (k, v) ∈ es → (k, w) ∈ es' → R (advance k sels) v w → R (advance k sels') v w) :
    AlikeEntries R sels' es es' := by
  induction es generalizing es' with
  | nil => exact alikeEntries_nil.mpr (alikeEntries_nil.mp h)
  | cons e rest ih =>
    obtain ⟨k, v⟩ := e
    obtain ⟨w, rest', rfl, hv, hrest⟩ := alikeEntries_cons.mp h
    refine alikeEntries_cons.mpr ⟨w, rest', rfl, ?_, ih hrest ?_⟩
    · exact hR k v w mem_cons_self mem_cons_self hv
    · intro q u u' hu hu'
      exact hR q u u' (mem_cons_of_mem _ hu) (mem_cons_of_mem _ hu')

end Entries

theorem alikeMembers_iff {ms ns : Members} :
    AlikeMembers sels ms ns ↔ AlikeEntries Alike sels ms ns := by
  induction ms generalizing ns with
  | nil =>
    rw [alikeEntries_nil]
    cases ns <;> simp [AlikeMembers]
  | cons e rest ih =>
    obtain ⟨k, j⟩ := e
    cases ns with
    | nil => simp [AlikeMembers, alikeEntries_cons]
    | cons e' rest' => simp [AlikeMembers, AlikeEntries, ih, and_assoc]

theorem alikeFields_iff {vs ws : List (String × Val)} :
    AlikeFields sels vs ws ↔ AlikeEntries AlikeVal sels vs ws := by
  induction vs generalizing ws with
  | nil =>
    rw [alikeEntries_nil]
    cases ws <;> simp [AlikeFields]
  | cons e rest ih =>
    obtain ⟨k, v⟩ := e
    cases ws with
    | nil => simp [AlikeFields, alikeEntries_cons]
    | cons e' rest' => simp [AlikeFields, AlikeEntries, ih, and_assoc]

/-- What alike values look like. -/
theorem Alike.elim {j j' : Json} (h : Alike sels j j') :
    j = j' ∨ (∃ a b, j = .str a ∧ j' = .str b ∧ [] ∈ sels) ∨
      ∃ ms ns, j = .obj ms ∧ j' = .obj ns ∧ AlikeEntries Alike sels ms ns := by
  unfold Alike at h
  split at h
  · rcases h with heq | hsel
    · exact .inl (by rw [heq])
    · exact .inr (.inl ⟨_, _, rfl, rfl, hsel⟩)
  · exact .inr (.inr ⟨_, _, rfl, rfl, alikeMembers_iff.mp h⟩)
  · exact .inl h

/-- What alike Go values look like. -/
theorem AlikeVal.elim {v w : Val} (h : AlikeVal sels v w) :
    v = w ∨ (∃ a b, v = .str a ∧ w = .str b ∧ [] ∈ sels) ∨
      (∃ es es', v = .map es ∧ w = .map es' ∧ AlikeEntries AlikeVal sels es es') ∨
      ∃ vs vs', v = .struct vs ∧ w = .struct vs' ∧ AlikeEntries AlikeVal sels vs vs' := by
  unfold AlikeVal at h
  split at h
  · rcases h with heq | hsel
    · exact .inl (by rw [heq])
    · exact .inr (.inl ⟨_, _, rfl, rfl, hsel⟩)
  · exact .inr (.inr (.inl ⟨_, _, rfl, rfl, alikeFields_iff.mp h⟩))
  · exact .inr (.inr (.inr ⟨_, _, rfl, rfl, alikeFields_iff.mp h⟩))
  · exact .inl h

theorem alike_obj {ms ns : Members} :
    Alike sels (.obj ms) (.obj ns) ↔ AlikeEntries Alike sels ms ns := by
  rw [Alike, alikeMembers_iff]

theorem alikeVal_map {es es' : List (String × Val)} :
    AlikeVal sels (.map es) (.map es') ↔ AlikeEntries AlikeVal sels es es' := by
  rw [AlikeVal, alikeFields_iff]

theorem alikeVal_struct {vs vs' : List (String × Val)} :
    AlikeVal sels (.struct vs) (.struct vs') ↔ AlikeEntries AlikeVal sels vs vs' := by
  rw [AlikeVal, alikeFields_iff]

/-- Every text is like itself. -/
theorem alike_refl_all : (∀ j sels, Alike sels j j) ∧ ∀ ms sels, AlikeEntries Alike sels ms ms := by
  apply Json.members_induction
  · intro j hleaf sels
    cases j with
    | obj ms => exact absurd rfl (hleaf ms)
    | _ => simp [Alike]
  · intro ms ih sels
    exact alike_obj.mpr (ih sels)
  · intro sels
    exact alikeEntries_nil.mpr rfl
  · intro k j ms ihj ihms sels
    exact alikeEntries_cons.mpr ⟨j, ms, rfl, ihj _, ihms _⟩

theorem Alike.refl (sels : Selectors) (j : Json) : Alike sels j j :=
  alike_refl_all.1 j sels

/-- Every Go value is like itself. -/
theorem alikeVal_refl_all :
    (∀ v sels, AlikeVal sels v v) ∧ ∀ vs sels, AlikeEntries AlikeVal sels vs vs := by
  apply Val.fields_induction
  · intro v hmap hstruct sels
    cases v with
    | map es => exact absurd rfl (hmap es)
    | struct vs => exact absurd rfl (hstruct vs)
    | _ => simp [AlikeVal]
  · intro es ih sels
    exact alikeVal_map.mpr (ih sels)
  · intro vs ih sels
    exact alikeVal_struct.mpr (ih sels)
  · intro sels
    exact alikeEntries_nil.mpr rfl
  · intro k v vs ihv ihvs sels
    exact alikeEntries_cons.mpr ⟨v, vs, rfl, ihv _, ihvs _⟩

theorem AlikeVal.refl (sels : Selectors) (v : Val) : AlikeVal sels v v :=
  alikeVal_refl_all.1 v sels

/-- More selectors conceal more. -/
theorem alike_mono_all :
    (∀ j, ∀ j' sels sels', sels ⊆ sels' → Alike sels j j' → Alike sels' j j') ∧
    ∀ ms, ∀ ns sels sels', sels ⊆ sels' → AlikeEntries Alike sels ms ns →
      AlikeEntries Alike sels' ms ns := by
  apply Json.members_induction
  · intro j hleaf j' sels sels' hsub h
    rcases h.elim with rfl | ⟨a, b, rfl, rfl, hsel⟩ | ⟨ms, ns, rfl, _⟩
    · exact Alike.refl sels' j
    · exact .inr (hsub hsel)
    · exact absurd rfl (hleaf ms)
  · intro ms ih j' sels sels' hsub h
    rcases h.elim with rfl | ⟨a, b, heq, _⟩ | ⟨ms', ns, heq, rfl, hms⟩
    · exact Alike.refl sels' _
    · cases heq
    · cases heq
      exact alike_obj.mpr (ih ns sels sels' hsub hms)
  · intro ns sels sels' _ h
    exact alikeEntries_nil.mpr (alikeEntries_nil.mp h)
  · intro k j ms ihj ihms ns sels sels' hsub h
    obtain ⟨j', ns', rfl, hj, hms⟩ := alikeEntries_cons.mp h
    exact alikeEntries_cons.mpr ⟨j', ns', rfl,
      ihj j' _ _ (advance_mono hsub k) hj, ihms ns' _ _ hsub hms⟩

/-- Without selectors, alike texts are equal. -/
theorem alike_eq_all :
    (∀ j, ∀ j', Alike [] j j' → j = j') ∧
    ∀ ms, ∀ ns, AlikeEntries Alike [] ms ns → ms = ns := by
  apply Json.members_induction
  · intro j hleaf j' h
    rcases h.elim with heq | ⟨_, _, _, _, hsel⟩ | ⟨ms, ns, rfl, _⟩
    · exact heq
    · exact absurd hsel not_mem_nil
    · exact absurd rfl (hleaf ms)
  · intro ms ih j' h
    rcases h.elim with heq | ⟨_, _, _, _, hsel⟩ | ⟨ms', ns, heq, rfl, hms⟩
    · exact heq
    · exact absurd hsel not_mem_nil
    · cases heq
      rw [ih ns hms]
  · intro ns h
    exact (alikeEntries_nil.mp h).symm
  · intro k j ms ihj ihms ns h
    obtain ⟨j', ns', rfl, hj, hms⟩ := alikeEntries_cons.mp h
    rw [ihj j' hj, ihms ns' hms]

/-- Without selectors, alike Go values are equal. -/
theorem alikeVal_eq_all :
    (∀ v, ∀ w, AlikeVal [] v w → v = w) ∧
    ∀ vs, ∀ ws, AlikeEntries AlikeVal [] vs ws → vs = ws := by
  apply Val.fields_induction
  · intro v hmap hstruct w h
    rcases h.elim with heq | ⟨_, _, _, _, hsel⟩ | ⟨es, _, rfl, _⟩ | ⟨vs, _, rfl, _⟩
    · exact heq
    · exact absurd hsel not_mem_nil
    · exact absurd rfl (hmap es)
    · exact absurd rfl (hstruct vs)
  · intro es ih w h
    rcases h.elim with heq | ⟨_, _, _, _, hsel⟩ | ⟨_, es', heq, rfl, hes⟩ | ⟨_, _, heq, _⟩
    · exact heq
    · exact absurd hsel not_mem_nil
    · cases heq
      rw [ih es' hes]
    · cases heq
  · intro vs ih w h
    rcases h.elim with heq | ⟨_, _, _, _, hsel⟩ | ⟨_, _, heq, _⟩ | ⟨_, vs', heq, rfl, hvs⟩
    · exact heq
    · exact absurd hsel not_mem_nil
    · cases heq
    · cases heq
      rw [ih vs' hvs]
  · intro ws h
    exact (alikeEntries_nil.mp h).symm
  · intro k v vs ihv ihvs ws h
    obtain ⟨w, ws', rfl, hv, hvs⟩ := alikeEntries_cons.mp h
    rw [ihv w hv, ihvs ws' hvs]

/-- Texts stay alike when their members are sorted. -/
theorem alike_canon_all :
    (∀ j, ∀ j' sels, Alike sels j j' → Alike sels (canon j) (canon j')) ∧
    ∀ ms, ∀ ns sels, AlikeEntries Alike sels ms ns →
      AlikeEntries Alike sels (canonMembers ms) (canonMembers ns) := by
  apply Json.members_induction
  · intro j hleaf j' sels h
    rcases h.elim with rfl | ⟨a, b, rfl, rfl, _⟩ | ⟨ms, ns, rfl, _⟩
    · exact Alike.refl sels _
    · exact h
    · exact absurd rfl (hleaf ms)
  · intro ms ih j' sels h
    rcases h.elim with rfl | ⟨a, b, heq, _⟩ | ⟨ms', ns, heq, rfl, hms⟩
    · exact Alike.refl sels _
    · cases heq
    · cases heq
      exact alike_obj.mpr (ih ns sels hms)
  · intro ns sels h
    obtain rfl := alikeEntries_nil.mp h
    exact h
  · intro k j ms ihj ihms ns sels h
    obtain ⟨j', ns', rfl, hj, hms⟩ := alikeEntries_cons.mp h
    have hrest := ihms ns' sels hms
    have hset := hrest.setKey (ihj j' _ hj)
    rw [canonMembers, canonMembers]
    rcases hrest.lookup k with ⟨hm, hn⟩ | ⟨_, _, hm, hn, _⟩
    · rw [hm, hn]
      exact hset
    · rw [hm, hn]
      exact hrest

section Fields

variable {sels : Selectors} {vs ws : List (String × Val)}

theorem AlikeEntries.getD (h : AlikeEntries AlikeVal sels vs ws) (k : String) (d : Val) :
    AlikeVal (advance k sels) ((vs.lookup k).getD d) ((ws.lookup k).getD d) := by
  rcases h.lookup k with ⟨hv, hw⟩ | ⟨v, w, hv, hw, halike⟩
  · rw [hv, hw]
    exact AlikeVal.refl _ d
  · rw [hv, hw]
    exact halike

/-- Setting alike fields of one name. -/
theorem AlikeEntries.setField (h : AlikeEntries AlikeVal sels vs ws) {v w : Val}
    (hv : AlikeVal (advance k sels) v w) :
    AlikeEntries AlikeVal sels (setField k v vs) (setField k w ws) := by
  induction vs generalizing ws with
  | nil =>
    obtain rfl := alikeEntries_nil.mp h
    exact alikeEntries_cons.mpr ⟨w, [], rfl, hv, alikeEntries_nil.mpr rfl⟩
  | cons e rest ih =>
    obtain ⟨u', ws', rfl, hu, hrest⟩ := alikeEntries_cons.mp h
    unfold GoJson.setField
    split
    · exact alikeEntries_cons.mpr ⟨w, _, rfl, hv, hrest⟩
    · exact alikeEntries_cons.mpr ⟨u', _, rfl, hu, ih hrest⟩

end Fields

end GoJson
