import GoIpfs.GoAlike
import GoIpfs.GoEncode
import GoIpfs.TwoRuns

/-!
# Decoding and encoding values that differ in secrets

Decoding texts that are alike gives values that are alike, or the same error,
when the selectors lead to plain strings through structs and maps only
(`concealable`).  Encoding such values gives alike texts back when no field on
the way is left out for being empty (`printed`).
-/

namespace GoJson

open Effects List

variable {κ : Type}

mutual

/-- The selectors lead to strings, through named fields of structs and through
any name of maps. -/
def concealable : Selectors → GoTy κ → Bool
  | _, .string => true
  | sels, .struct fields =>
    sels.all (fun sel => sel.head?.any fun p =>
      p ≠ "*" && (fields.map Field.name).contains p) && concealableFields sels fields
  | sels, .map elem =>
    sels.all (fun sel => sel.head? = some "*") && concealable (sels.map List.tail) elem
  | sels, _ => sels.isEmpty

def concealableFields : Selectors → List (Field (GoTy κ)) → Bool
  | _, [] => true
  | sels, ⟨name, _, ty⟩ :: rest =>
    concealable (advance name sels) ty && concealableFields sels rest

end

mutual

/-- No field on the way to a selected place is left out for being empty. -/
def printed : Selectors → GoTy κ → Bool
  | sels, .struct fields => printedFields sels fields
  | sels, .map elem => printed (sels.map List.tail) elem
  | _, _ => true

def printedFields : Selectors → List (Field (GoTy κ)) → Bool
  | _, [] => true
  | sels, ⟨name, omitEmpty, ty⟩ :: rest =>
    ((advance name sels).isEmpty || !omitEmpty && printed (advance name sels) ty) &&
      printedFields sels rest

end

variable {sels : Selectors}

theorem advance_star (h : ∀ sel ∈ sels, sel.head? = some "*") (k : String) :
    advance k sels = sels.map tail := by
  induction sels with
  | nil => rfl
  | cons sel rest ih =>
    obtain ⟨tail, rfl⟩ : ∃ tail, sel = "*" :: tail := by
      cases sel with
      | nil => exact absurd (h [] mem_cons_self) (by simp)
      | cons p tail =>
        have hp := h _ mem_cons_self
        simp only [head?_cons, Option.some.injEq] at hp
        exact ⟨tail, by rw [hp]⟩
    have hrest := ih fun s hs => h s (mem_cons_of_mem _ hs)
    simp only [advance] at hrest ⊢
    simp [hrest]

variable {k : String} {f : Field (GoTy κ)}

theorem advance_eq_nil {fields : List (Field (GoTy κ))}
    (h : ∀ sel ∈ sels, sel.head?.any fun p => p ≠ "*" && (fields.map Field.name).contains p)
    (hfind : findField fields k = some f) : f.name = k ∨ advance k sels = [] := by
  by_cases hk : f.name = k
  · exact .inl hk
  refine .inr (filterMap_eq_nil_iff.mpr ?_)
  intro sel hsel
  have hhead := h sel hsel
  cases sel with
  | nil => rfl
  | cons p tail =>
    simp only [head?_cons, Option.any_some, Bool.and_eq_true, decide_eq_true_eq,
      contains_iff_mem] at hhead
    obtain ⟨hstar, hmem⟩ := hhead
    have hpk : p ≠ k := by
      intro hpk
      subst hpk
      obtain ⟨g, hg, hname⟩ := mem_map.mp hmem
      -- the exact name is looked for first
      obtain ⟨g', hg'⟩ := Option.isSome_iff_exists.mp
        (find?_isSome.mpr ⟨g, hg, by simpa using hname⟩ :
          (fields.find? fun f => f.name = p).isSome)
      rw [findField, hg'] at hfind
      cases hfind
      exact hk (by simpa using find?_some hg')
    simp [hstar, hpk]

theorem concealable_of_mem {fields : List (Field (GoTy κ))}
    (h : concealableFields sels fields = true) (hf : f ∈ fields) :
    concealable (advance f.name sels) f.ty = true := by
  induction fields with
  | nil => exact absurd hf not_mem_nil
  | cons g rest ih =>
    rw [concealableFields, Bool.and_eq_true] at h
    rcases mem_cons.mp hf with rfl | hrest
    · exact h.1
    · exact ih h.2 hrest

variable {v w : Val}

theorem AlikeVal.fields (h : AlikeVal sels v w) : AlikeEntries AlikeVal sels v.fields w.fields := by
  rcases h.elim with rfl | ⟨a, b, rfl, rfl, _⟩ | ⟨es, es', rfl, rfl, _⟩ | ⟨vs, vs', rfl, rfl, hvs⟩
  · exact alikeVal_refl_all.2 _ sels
  · exact alikeEntries_nil.mpr rfl
  · exact alikeEntries_nil.mpr rfl
  · exact hvs

theorem AlikeVal.entries (h : AlikeVal sels v w) :
    AlikeEntries AlikeVal sels v.entries w.entries := by
  rcases h.elim with rfl | ⟨a, b, rfl, rfl, _⟩ | ⟨es, es', rfl, rfl, hes⟩ | ⟨vs, vs', rfl, rfl, _⟩
  · exact alikeVal_refl_all.2 _ sels
  · exact alikeEntries_nil.mpr rfl
  · exact hes
  · exact alikeEntries_nil.mpr rfl

/-- What `decode` has to do for a text, and `decodeStruct` and `decodeMap` for
the members of one. -/
def DecodesAlike (cs : κ → Codec) (j : Json) : Prop :=
  ∀ (t : GoTy κ) (sels : Selectors) (j' : Json) (v w : Val), concealable sels t = true →
    Alike sels j j' → AlikeVal sels v w →
    Agree (AlikeVal sels) (decode cs j t v) (decode cs j' t w)

def FieldsDecodeAlike (cs : κ → Codec) (ms : Members) : Prop :=
  ∀ (fields : List (Field (GoTy κ))) (sels : Selectors) (ns : Members)
    (vs ws : List (String × Val)), concealable sels (.struct fields) = true →
    AlikeEntries Alike sels ms ns → AlikeEntries AlikeVal sels vs ws →
    Agree (AlikeEntries AlikeVal sels) (decodeStruct cs ms fields vs)
      (decodeStruct cs ns fields ws)

def MapDecodesAlike (cs : κ → Codec) (ms : Members) : Prop :=
  ∀ (elem : GoTy κ) (sels : Selectors) (ns : Members)
    (vs ws : List (String × Val)), concealable sels (.map elem) = true →
    AlikeEntries Alike sels ms ns → AlikeEntries AlikeVal sels vs ws →
    Agree (AlikeEntries AlikeVal sels) (decodeMap cs ms elem vs) (decodeMap cs ns elem ws)

variable {j : Json} {ms : Members}

section Decode

variable {cs : κ → Codec}

theorem agree_of_nil {t : GoTy κ} {j' : Json} (hj : Alike [] j j') (hv : AlikeVal [] v w) :
    Agree (AlikeVal []) (decode cs j t v) (decode cs j' t w) := by
  rw [alike_eq_all.1 j j' hj, alikeVal_eq_all.1 v w hv]
  exact Agree.refl (AlikeVal.refl []) _

theorem decodesAlike_leaf (hleaf : ∀ ms, j ≠ .obj ms) : DecodesAlike cs j := by
  intro t sels j' v w hcon hj hv
  rcases hj.elim with rfl | ⟨a, b, rfl, rfl, hsel⟩ | ⟨ms, ns, rfl, _⟩
  · cases t with
    | string =>
      cases j with
      | obj ms => exact absurd rfl (hleaf ms)
      | null => exact hv
      | str s => exact .inl rfl
      | _ => rfl
    | struct fields =>
      cases j with
      | obj ms => exact absurd rfl (hleaf ms)
      | null => exact hv
      | _ => rfl
    | map elem =>
      cases j with
      | obj ms => exact absurd rfl (hleaf ms)
      | _ => rfl
    | _ =>
      obtain rfl : sels = [] := by simpa [concealable] using hcon
      exact agree_of_nil hj hv
  · cases t with
    | string => exact .inr hsel
    | struct fields | map elem => rfl
    | _ =>
      obtain rfl : sels = [] := by simpa [concealable] using hcon
      exact absurd hsel not_mem_nil
  · exact absurd rfl (hleaf ms)

theorem decodesAlike_obj (hfields : FieldsDecodeAlike cs ms) (hmap : MapDecodesAlike cs ms) :
    DecodesAlike cs (.obj ms) := by
  intro t sels j' v w hcon hj hv
  obtain ⟨ns, rfl, hms⟩ : ∃ ns, j' = .obj ns ∧ AlikeEntries Alike sels ms ns := by
    rcases hj.elim with rfl | ⟨_, _, heq, _⟩ | ⟨_, ns, heq, rfl, hms⟩
    · exact ⟨ms, rfl, alike_refl_all.2 ms sels⟩
    · cases heq
    · cases heq
      exact ⟨ns, rfl, hms⟩
  cases t with
  | string => rfl
  | struct fields =>
    refine (hfields fields sels ns _ _ hcon hms hv.fields).map ?_
    intro vs ws hvs
    exact alikeVal_struct.mpr hvs
  | map elem =>
    refine (hmap elem sels ns _ _ hcon hms hv.entries).map ?_
    intro vs ws hvs
    exact alikeVal_map.mpr hvs
  | _ =>
    obtain rfl : sels = [] := by simpa [concealable] using hcon
    exact agree_of_nil hj hv

theorem fieldsDecodeAlike_cons (hj : DecodesAlike cs j) (hms : FieldsDecodeAlike cs ms) :
    FieldsDecodeAlike cs ((k, j) :: ms) := by
  intro fields sels ns vs ws hcon halike hvs
  obtain ⟨j', ns', rfl, hjj, hrest⟩ := alikeEntries_cons.mp halike
  rw [decodeStruct, decodeStruct]
  cases hfind : findField fields k with
  | none => exact hms fields sels ns' vs ws hcon hrest hvs
  | some f =>
    have hcon' := hcon
    rw [concealable, Bool.and_eq_true, all_eq_true] at hcon'
    -- a member with another spelling is the same on both sides
    have hsel : Alike (advance f.name sels) j j' := by
      rcases advance_eq_nil hcon'.1 hfind with hname | hnil
      · rw [hname]
        exact hjj
      · rw [hnil] at hjj
        rw [alike_eq_all.1 j j' hjj]
        exact Alike.refl _ j'
    have hval := hj f.ty (advance f.name sels) j' _ _
      (concealable_of_mem hcon'.2 (mem_of_findField hfind).1) hsel
      (hvs.getD f.name (zero cs f.ty))
    refine hval.bind fun v w hvw => ?_
    exact hms fields sels ns' _ _ hcon hrest (hvs.setField hvw)

theorem mapDecodesAlike_cons (hj : DecodesAlike cs j) (hms : MapDecodesAlike cs ms) :
    MapDecodesAlike cs ((k, j) :: ms) := by
  intro elem sels ns vs ws hcon halike hvs
  obtain ⟨j', ns', rfl, hjj, hrest⟩ := alikeEntries_cons.mp halike
  have hcon' := hcon
  rw [concealable, Bool.and_eq_true, all_eq_true] at hcon'
  have hadv : advance k sels = sels.map tail :=
    advance_star (fun sel hsel => by simpa using hcon'.1 sel hsel) k
  have hval := hj elem (advance k sels) j' _ _ (by rw [hadv]; exact hcon'.2) hjj
    (AlikeVal.refl _ (zero cs elem))
  refine hval.bind fun v w hvw => ?_
  exact hms elem sels ns' _ _ hcon hrest (hvs.setKey hvw)

/-- **Decoding does not mix secrets with the rest.** -/
theorem decode_alike (j : Json) : DecodesAlike cs j := by
  refine (Json.members_induction (P := DecodesAlike cs)
    (Q := fun ms => FieldsDecodeAlike cs ms ∧ MapDecodesAlike cs ms) ?_ ?_ ?_ ?_).1 j
  · intro j hleaf
    exact decodesAlike_leaf hleaf
  · intro ms hms
    exact decodesAlike_obj hms.1 hms.2
  · constructor
    · intro fields sels ns vs ws _ halike hvs
      obtain rfl := alikeEntries_nil.mp halike
      exact hvs
    · intro elem sels ns vs ws _ halike hvs
      obtain rfl := alikeEntries_nil.mp halike
      exact hvs
  · intro k j ms hj hms
    exact ⟨fieldsDecodeAlike_cons hj hms.1, mapDecodesAlike_cons hj hms.2⟩

end Decode

variable {elem : GoTy κ}

section Encode

variable (cs : κ → Codec)

theorem alike_encode_nil (hsels : sels = []) (t : GoTy κ) (h : AlikeVal sels v w) :
    Alike sels (encode cs t v) (encode cs t w) := by
  rw [hsels] at h ⊢
  rw [alikeVal_eq_all.1 v w h]
  exact Alike.refl [] _

theorem alike_encode_map (hstar : ∀ sel ∈ sels, sel.head? = some "*")
    (helem : ∀ v w, AlikeVal (sels.map tail) v w →
      Alike (sels.map tail) (encode cs elem v) (encode cs elem w))
    {es es' : List (String × Val)} (h : AlikeEntries AlikeVal sels es es') :
    AlikeEntries Alike sels (es.map fun e => (e.1, encode cs elem e.2))
      (es'.map fun e => (e.1, encode cs elem e.2)) := by
  induction es generalizing es' with
  | nil =>
    obtain rfl := alikeEntries_nil.mp h
    exact alikeEntries_nil.mpr rfl
  | cons e rest ih =>
    obtain ⟨k, v⟩ := e
    obtain ⟨w, rest', rfl, hv, hrest⟩ := alikeEntries_cons.mp h
    refine alikeEntries_cons.mpr ⟨_, _, rfl, ?_, ih hrest⟩
    rw [advance_star hstar k] at hv ⊢
    exact helem v w hv

mutual

/-- **Encoding does not mix secrets with the rest.** -/
theorem alike_encode : ∀ (t : GoTy κ) (sels : Selectors), concealable sels t = true →
    printed sels t = true → ∀ v w, AlikeVal sels v w →
    Alike sels (encode cs t v) (encode cs t w)
  | .string, sels, _, _, v, w, h => by
      rcases h.elim with rfl | ⟨a, b, rfl, rfl, hsel⟩ | ⟨es, es', rfl, rfl, _⟩ |
        ⟨vs, vs', rfl, rfl, _⟩
      · exact Alike.refl sels _
      · exact .inr hsel
      · rfl
      · rfl
  | .struct fields, sels, hcon, hpr, v, w, h => by
      rw [concealable, Bool.and_eq_true] at hcon
      rcases h.elim with rfl | ⟨a, b, rfl, rfl, hsel⟩ | ⟨es, es', rfl, rfl, _⟩ |
        ⟨vs, vs', rfl, rfl, hvs⟩
      · exact Alike.refl sels _
      · rfl
      · rfl
      · rw [encode, encode]
        exact alike_obj.mpr (alike_encodeFields fields sels hcon.2 hpr vs vs' hvs)
  | .map elem, sels, hcon, hpr, v, w, h => by
      rw [concealable, Bool.and_eq_true, all_eq_true] at hcon
      rw [printed] at hpr
      rcases h.elim with rfl | ⟨a, b, rfl, rfl, hsel⟩ | ⟨es, es', rfl, rfl, hes⟩ |
        ⟨vs, vs', rfl, rfl, _⟩
      · exact Alike.refl sels _
      · rfl
      · rw [encode, encode]
        exact alike_obj.mpr (alike_encode_map cs (fun sel hsel => by simpa using hcon.1 sel hsel)
          (alike_encode elem _ hcon.2 hpr) hes)
      · rfl
  | .bool, _, hcon, _, _, _, h
  | .int, _, hcon, _, _, _, h
  | .any, _, hcon, _, _, _, h
  | .raw, _, hcon, _, _, _, h
  | .slice _, _, hcon, _, _, _, h
  | .ptr _, _, hcon, _, _, _, h
  | .custom _, _, hcon, _, _, _, h =>
    -- no selector reaches below these types
    alike_encode_nil cs (by simpa [concealable] using hcon) _ h

theorem alike_encodeFields : ∀ (fields : List (Field (GoTy κ))) (sels : Selectors),
    concealableFields sels fields = true → printedFields sels fields = true →
    ∀ vs ws, AlikeEntries AlikeVal sels vs ws →
    AlikeEntries Alike sels (encodeFields cs fields vs) (encodeFields cs fields ws)
  | [], _, _, _, _, _, _ => alikeEntries_nil.mpr rfl
  | ⟨name, omitEmpty, ty⟩ :: rest, sels, hcon, hpr, vs, ws, h => by
      rw [concealableFields, Bool.and_eq_true] at hcon
      rw [printedFields, Bool.and_eq_true, Bool.or_eq_true, Bool.and_eq_true] at hpr
      have hrest := alike_encodeFields rest sels hcon.2 hpr.2 vs ws h
      have hfield := h.getD name (zero cs ty)
      rw [encodeFields, encodeFields]
      rcases hpr.1 with hnil | ⟨homit, hprinted⟩
      · rw [List.isEmpty_iff] at hnil
        rw [hnil] at hfield
        rw [alikeVal_eq_all.1 _ _ hfield]
        split
        · exact hrest
        · exact alikeEntries_cons.mpr ⟨_, _, rfl, Alike.refl _ _, hrest⟩
      · have hshown : omitEmpty = false := by simpa using homit
        rw [hshown]
        exact alikeEntries_cons.mpr ⟨_, _, rfl, alike_encode ty _ hcon.1 hprinted _ _ hfield, hrest⟩

end

end Encode

section Shown

variable {cs : κ → Codec} {sels : Selectors}

/-- **A struct shows the field that differs.** -/
theorem encode_struct_eq_iff {fields : List (Field (GoTy κ))} (hnd : (fields.map Field.name).Nodup)
    (hf : f ∈ fields) (homit : f.omitEmpty = false)
    (hothers : ∀ g ∈ fields, g.name ≠ f.name → advance g.name sels = []) (h : AlikeVal sels v w) :
    encode cs (.struct fields) v = encode cs (.struct fields) w ↔
      encode cs f.ty (getField cs v.fields f) = encode cs f.ty (getField cs w.fields f) := by
  rcases h.elim with rfl | ⟨a, b, rfl, rfl, _⟩ | ⟨es, es', rfl, rfl, _⟩ | ⟨vs, ws, rfl, rfl, hvs⟩
  · exact iff_of_true rfl rfl
  · exact iff_of_true rfl rfl
  · exact iff_of_true rfl rfl
  · rw [encode, encode, Json.obj.injEq]
    constructor
    · intro heq
      have hlook := congrArg (lookup f.name) heq
      rw [lookup_encodeFields hnd hf homit, lookup_encodeFields hnd hf homit] at hlook
      exact Option.some.inj hlook
    intro heq
    refine encodeFields_congr fun g hg => ?_
    by_cases hname : g.name = f.name
    · obtain rfl : g = f := inj_on_of_nodup_map hnd hg hf hname
      exact .inr ⟨homit, heq⟩
    · have hfield := hvs.getD g.name (zero cs g.ty)
      rw [hothers g hg hname] at hfield
      exact .inl (alikeVal_eq_all.1 _ _ hfield)

variable {γ : Type} {key : Val → γ} (hstar : ∀ sel ∈ sels, sel.head? = some "*")
  (helem : ∀ v w, AlikeVal (sels.map tail) v w →
    (encode cs elem v = encode cs elem w ↔ key v = key w))
include hstar helem

theorem map_encode_eq_iff {es es' : List (String × Val)} (h : AlikeEntries AlikeVal sels es es') :
    es.map (fun e => (e.1, encode cs elem e.2)) = es'.map (fun e => (e.1, encode cs elem e.2)) ↔
      es.map (fun e => (e.1, key e.2)) = es'.map fun e => (e.1, key e.2) := by
  induction es generalizing es' with
  | nil =>
    obtain rfl := alikeEntries_nil.mp h
    exact iff_of_true rfl rfl
  | cons e rest ih =>
    obtain ⟨k, u⟩ := e
    obtain ⟨u', rest', rfl, hu, hrest⟩ := alikeEntries_cons.mp h
    rw [advance_star hstar k] at hu
    simp only [map_cons, cons.injEq, Prod.mk.injEq, true_and]
    exact and_congr (helem u u' hu) (ih hrest)

/-- **A map shows what its elements show.** -/
theorem encode_map_eq_iff (h : AlikeVal sels v w) :
    encode cs (.map elem) v = encode cs (.map elem) w ↔
      v.entries.map (fun e => (e.1, key e.2)) = w.entries.map fun e => (e.1, key e.2) := by
  rcases h.elim with rfl | ⟨a, b, rfl, rfl, _⟩ | ⟨es, es', rfl, rfl, hes⟩ | ⟨vs, ws, rfl, rfl, _⟩
  · exact iff_of_true rfl rfl
  · exact iff_of_true rfl rfl
  · rw [encode, encode, Json.obj.injEq]
    exact map_encode_eq_iff hstar helem hes
  · exact iff_of_true rfl rfl

end Shown

end GoJson
