import GoIpfs.GoStruct

/-!
# What an encoded value shows

An encoded struct has the encodings of its fields, each under its name, and they
can be read back from the map that the text stands for.  The encoding of a type
whose fields are declared in the order of their names is already in the form of
that map (`orderly`).
-/

namespace GoJson

open List

variable {κ : Type} {cs : κ → Codec}

variable {name : String} {members : Members}

section Fields

variable {fields : List (Field (GoTy κ))} {f : Field (GoTy κ)} {vs ws : List (String × Val)}

theorem mem_encodeFields {e : String × Json} (h : e ∈ encodeFields cs fields vs) :
    ∃ f ∈ fields, e = (f.name, encode cs f.ty (getField cs vs f)) := by
  induction fields with
  | nil =>
    rw [encodeFields] at h
    exact absurd h not_mem_nil
  | cons g rest ih =>
    obtain ⟨name, omitEmpty, ty⟩ := g
    have hrest : e ∈ encodeFields cs rest vs →
        ∃ f ∈ ⟨name, omitEmpty, ty⟩ :: rest,
          e = (f.name, encode cs f.ty (getField cs vs f)) := by
      intro hmem
      obtain ⟨f, hf, he⟩ := ih hmem
      exact ⟨f, mem_cons_of_mem _ hf, he⟩
    rw [encodeFields] at h
    split at h
    · exact hrest h
    · rcases mem_cons.mp h with rfl | hmem
      · exact ⟨_, mem_cons_self, rfl⟩
      · exact hrest hmem

theorem name_of_mem_encodeFields (h : name ∈ (encodeFields cs fields vs).map Prod.fst) :
    name ∈ fields.map Field.name := by
  obtain ⟨e, he, rfl⟩ := mem_map.mp h
  obtain ⟨f, hf, rfl⟩ := mem_encodeFields he
  exact mem_map_of_mem hf

section

variable (hnd : (fields.map Field.name).Nodup)
include hnd

theorem lookup_encodeFields_omit (hf : f ∈ fields) :
    (encodeFields cs fields vs).lookup f.name =
      if f.omitEmpty && isEmpty cs f.ty (getField cs vs f) then none
      else some (encode cs f.ty (getField cs vs f)) := by
  induction fields with
  | nil => exact absurd hf not_mem_nil
  | cons g rest ih =>
    rw [map_cons, nodup_cons] at hnd
    obtain ⟨name, omitEmpty, ty⟩ := g
    rw [encodeFields]
    rcases mem_cons.mp hf with rfl | hrest
    · have hgone : (encodeFields cs rest vs).lookup name = none :=
        lookup_eq_none_of_not_mem fun hmem => hnd.1 (name_of_mem_encodeFields hmem)
      by_cases hempty :
          (omitEmpty && isEmpty cs ty ((vs.lookup name).getD (zero cs ty))) = true
      · rw [if_pos hempty]
        exact hgone.trans (if_pos hempty).symm
      · rw [if_neg hempty, lookup_cons, if_pos rfl]
        exact (if_neg hempty).symm
    · have hne : f.name ≠ name := by
        intro heq
        exact hnd.1 (mem_map.mpr ⟨f, hrest, heq⟩)
      split
      · exact ih hnd.2 hrest
      · rw [lookup_cons, if_neg hne]
        exact ih hnd.2 hrest

theorem lookup_encodeFields (hf : f ∈ fields) (homit : f.omitEmpty = false) :
    (encodeFields cs fields vs).lookup f.name =
      some (encode cs f.ty (getField cs vs f)) := by
  rw [lookup_encodeFields_omit hnd hf, homit, Bool.false_and, if_neg Bool.false_ne_true]

theorem nodup_encodeFields : ((encodeFields cs fields vs).map Prod.fst).Nodup := by
  induction fields with
  | nil =>
    rw [encodeFields]
    exact nodup_nil
  | cons g rest ih =>
    rw [map_cons, nodup_cons] at hnd
    rw [encodeFields]
    split
    · exact ih hnd.2
    · rw [map_cons, nodup_cons]
      exact ⟨fun hmem => hnd.1 (name_of_mem_encodeFields hmem), ih hnd.2⟩

theorem lookup_canon_encodeFields (hf : f ∈ fields) (homit : f.omitEmpty = false) :
    (canonMembers (encodeFields cs fields vs)).lookup f.name =
      some (canon (encode cs f.ty (getField cs vs f))) := by
  rw [lookup_canonMembers_of_nodup (nodup_encodeFields hnd), lookup_encodeFields hnd hf homit]
  rfl

end

theorem name_of_mem_canonMembers (h : name ∈ (canonMembers members).map Prod.fst) :
    name ∈ members.map Prod.fst := by
  by_contra hnot
  obtain ⟨e, he, rfl⟩ := mem_map.mp h
  have hsome := lookup_eq_some_of_mem (increasing_canonMembers members).nodup he
  rw [lookup_canonMembers_of_not_mem hnot] at hsome
  cases hsome

theorem spellings_eq_singleton {j : Json} (hnodup : (members.map Prod.fst).Nodup)
    (hnames : ∀ e ∈ members, equalFold name e.1 = true → e.1 = name)
    (h : members.lookup name = some j) : spellings name members = [j] := by
  induction members with
  | nil => cases h
  | cons e rest ih =>
    rw [map_cons, nodup_cons] at hnodup
    have hrest : ∀ e' ∈ rest, equalFold name e'.1 = true → e'.1 = name :=
      fun e' he' => hnames e' (mem_cons_of_mem _ he')
    rw [lookup_cons] at h
    by_cases he : name = e.1
    · rw [if_pos he] at h
      obtain rfl := Option.some.inj h
      have hgone : rest.filter (fun e' => equalFold name e'.1) = [] := by
        refine filter_eq_nil_iff.mpr fun e' he' hfold => hnodup.1 ?_
        rw [← he, ← hrest e' he' hfold]
        exact mem_map_of_mem he'
      have hself : equalFold name e.1 = true := equalFold_iff.mpr (congrArg foldName he)
      rw [spellings, filter_cons, if_pos hself, hgone]
      rfl
    · rw [if_neg he] at h
      have hother : ¬ equalFold name e.1 = true :=
        fun hfold => he (hnames e mem_cons_self hfold).symm
      rw [spellings, filter_cons, if_neg hother]
      exact ih hnodup.2 hrest h

/-- **What is written under a name is all that is read for it.** -/
theorem spellings_canon_encodeFields (hun : Unambiguous fields)
    (hnd : (fields.map Field.name).Nodup) (hf : f ∈ fields) (homit : f.omitEmpty = false) :
    spellings f.name (canonMembers (encodeFields cs fields vs)) =
      [canon (encode cs f.ty (getField cs vs f))] := by
  refine spellings_eq_singleton (increasing_canonMembers _).nodup ?_
    (lookup_canon_encodeFields hnd hf homit)
  intro e he hfold
  have hname := name_of_mem_encodeFields (name_of_mem_canonMembers (mem_map_of_mem he))
  obtain ⟨g, hg, hge⟩ := mem_map.mp hname
  rw [← hge] at hfold ⊢
  rw [hun.eq_of_fold hf hg (equalFold_iff.mp hfold)]

theorem encodeFields_congr (h : ∀ g ∈ fields, getField cs vs g = getField cs ws g ∨
      g.omitEmpty = false ∧
        encode cs g.ty (getField cs vs g) = encode cs g.ty (getField cs ws g)) :
    encodeFields cs fields vs = encodeFields cs fields ws := by
  induction fields with
  | nil => rw [encodeFields, encodeFields]
  | cons g rest ih =>
    have hrest := ih fun f hf => h f (mem_cons_of_mem _ hf)
    have hhead := h g mem_cons_self
    simp only [getField] at hhead
    rw [encodeFields, encodeFields, hrest]
    rcases hhead with heq | ⟨hshown, htext⟩
    · rw [heq]
    · rw [htext, hshown, Bool.false_and, Bool.false_and]

end Fields

variable {v : Val}

section Order

mutual

/-- The fields are declared in the order of their names, and there are no maps
and no types with a form of their own. -/
def orderly : GoTy κ → Bool
  | .string | .bool | .int => true
  | .struct fields => orderlyFields fields
  | _ => false

def orderlyFields : List (Field (GoTy κ)) → Bool
  | [] => true
  | ⟨name, _, ty⟩ :: rest =>
    orderly ty && rest.all (fun f => name < f.name) && orderlyFields rest

end

theorem pairwise_of_orderly {fields : List (Field (GoTy κ))}
    (h : orderlyFields fields = true) : (fields.map Field.name).Pairwise (· < ·) := by
  induction fields with
  | nil => exact List.Pairwise.nil
  | cons f rest ih =>
    rw [orderlyFields, Bool.and_eq_true, Bool.and_eq_true, all_eq_true] at h
    refine pairwise_cons.mpr ⟨fun q hq => ?_, ih h.2⟩
    obtain ⟨f, hf, rfl⟩ := mem_map.mp hq
    exact of_decide_eq_true (h.1.2 f hf)

theorem canonical_encodeFields {fields : List (Field (GoTy κ))}
    (hord : (fields.map Field.name).Pairwise (· < ·)) {vs : List (String × Val)}
    (h : ∀ f ∈ fields, Canonical (encode cs f.ty (getField cs vs f))) :
    Canonical (.obj (encodeFields cs fields vs)) := by
  constructor
  · induction fields with
    | nil =>
      rw [encodeFields]
      exact List.Pairwise.nil
    | cons f rest ih =>
      rw [map_cons, pairwise_cons] at hord
      have hrest := ih hord.2 fun f hf => h f (mem_cons_of_mem _ hf)
      rw [encodeFields]
      split
      · exact hrest
      · refine pairwise_cons.mpr ⟨fun e he => ?_, hrest⟩
        exact hord.1 e.1 (name_of_mem_encodeFields (mem_map_of_mem he))
  · refine canonicalMembers_iff.mpr fun e he => ?_
    obtain ⟨f, hf, rfl⟩ := mem_encodeFields he
    exact h f hf

mutual

theorem canonical_encode : ∀ {t : GoTy κ}, orderly t = true → ∀ v, Canonical (encode cs t v)
  | .string, _, v | .bool, _, v | .int, _, v => by cases v <;> exact True.intro
  | .struct fields, h, v => by
      cases v with
      | struct vs =>
        rw [encode]
        rw [orderly] at h
        exact canonical_encodeFields (pairwise_of_orderly h) fun f hf => canonical_field h hf _
      | _ => exact True.intro

theorem canonical_field : ∀ {fields : List (Field (GoTy κ))}, orderlyFields fields = true →
    ∀ {f : Field (GoTy κ)}, f ∈ fields → ∀ v, Canonical (encode cs f.ty v)
  | [], _, _, hf, _ => absurd hf not_mem_nil
  | ⟨name, omitEmpty, ty⟩ :: rest, h, f, hf, v => by
      rw [orderlyFields, Bool.and_eq_true, Bool.and_eq_true] at h
      rcases mem_cons.mp hf with rfl | hrest
      · exact canonical_encode h.1.1 v
      · exact canonical_field h.2 hrest v

end

theorem canonical_encode_map {elem : GoTy κ} (helem : orderly elem = true)
    (hv : Increasing v.entries) : Canonical (encode cs (.map elem) v) := by
  cases v with
  | map es =>
    constructor
    · exact pairwise_map.mpr hv
    · refine canonicalMembers_iff.mpr fun e he => ?_
      obtain ⟨e', _, rfl⟩ := mem_map.mp he
      exact canonical_encode helem e'.2
  | _ => exact True.intro

end Order

variable {w : Val} {js : List Json}

section Decoded

/-! What storing a decoded element keeps, decoding into a map keeps. -/

variable {elem : GoTy κ} {P : List (String × Val) → Prop}

theorem decodeMap_invariant {es es' : List (String × Val)}
    (hset : ∀ es k j v, P es → decode cs j elem (zero cs elem) = .ok v → P (setKey k v es))
    (hes : P es) (h : decodeMap cs members elem es = .ok es') : P es' := by
  induction members generalizing es with
  | nil =>
    cases h
    exact hes
  | cons e rest ih =>
    obtain ⟨k, j⟩ := e
    obtain ⟨v, hv, hrest⟩ := bind_eq_ok.mp h
    exact ih (hset es k j v hes hv) hrest

theorem decode_map_invariant {j : Json}
    (hset : ∀ es k j v, P es → decode cs j elem (zero cs elem) = .ok v → P (setKey k v es))
    (hnil : P []) (hv : P v.entries) (h : decode cs j (.map elem) v = .ok w) : P w.entries := by
  rcases decode_map_ok h with ⟨rfl, rfl⟩ | ⟨members, es, rfl, rfl, hes⟩
  · exact hnil
  · exact decodeMap_invariant hset hv hes

theorem decodeAll_map_invariant
    (hset : ∀ es k j v, P es → decode cs j elem (zero cs elem) = .ok v → P (setKey k v es))
    (hnil : P []) (hv : P v.entries) (h : decodeAll cs (.map elem) js v = .ok w) : P w.entries := by
  induction js generalizing v with
  | nil =>
    cases h
    exact hv
  | cons j rest ih =>
    obtain ⟨u, hu, hrest⟩ := bind_eq_ok.mp h
    exact ih (decode_map_invariant hset hnil hv hu) hrest

theorem increasing_decodeAll_map (hv : Increasing v.entries)
    (h : decodeAll cs (.map elem) js v = .ok w) : Increasing w.entries :=
  decodeAll_map_invariant (fun _ k _ v hes _ => increasing_setKey k v hes)
    List.Pairwise.nil hv h

theorem structs_decodeAll_map {fields : List (Field (GoTy κ))}
    (h : decodeAll cs (.map (.struct fields)) js .nil = .ok w) :
    ∀ e ∈ w.entries, ∃ vs, e.2 = .struct vs := by
  refine decodeAll_map_invariant (P := fun es => ∀ e ∈ es, ∃ vs, e.2 = .struct vs) ?_ ?_ ?_ h
  · intro es k j v hes hv e he
    rcases mem_setKey he with rfl | he
    · obtain ⟨vs, rfl, _⟩ := decode_struct_ok hv
      exact ⟨vs, rfl⟩
    · exact hes e he
  · intro e he
    cases he
  · intro e he
    cases he

end Decoded

end GoJson
