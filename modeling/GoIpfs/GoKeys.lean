import GoIpfs.GoEncode
import Mathlib.Data.List.Induction

/-!
# Key paths through a decoded value

A value that has been decoded and is encoded again shows, under each name, what
was read for that name.  `below` is the type of that place and the texts that were
decoded into it, one over the other: for a field of a struct all its spellings, for
an entry of a map the last text of that name, and below an `interface{}` the text
itself.  `null` sets a pointer or a map to nil, so what came before it is gone.

`lookup_encode` says that nothing else is under the name.
-/

namespace GoJson

open List

variable {κ : Type}

def Json.isNull : Json → Bool
  | .null => true
  | _ => false

/-- The texts after the last `null`. -/
def afterNull (js : List Json) : List Json :=
  js.foldl (fun acc j => if j.isNull then [] else acc ++ [j]) []

theorem afterNull_append_null (js : List Json) : afterNull (js ++ [.null]) = [] := by
  simp [afterNull, Json.isNull]

variable {j : Json}

theorem afterNull_append (hj : j.isNull = false) (js : List Json) :
    afterNull (js ++ [j]) = afterNull js ++ [j] := by
  simp [afterNull, hj]

section

variable (cs : κ → Codec)

/-- The texts decode to a value that `omitempty` leaves out. -/
def readsEmpty (t : GoTy κ) (js : List Json) : Bool :=
  match decodeAll cs t js (zero cs t) with
  | .ok v => isEmpty cs t v
  | .error _ => false

/-- The place that a value of type `t`, decoded from the texts `js`, has under a name,
with the texts that are decoded into it. -/
def below : GoTy κ → List Json → String → Option (GoTy κ × List Json)
  | .ptr t, js, part =>
    if (afterNull js).isEmpty then none else below t (afterNull js) part
  | .struct fields, js, part =>
    match fields.find? fun f => f.name = part with
    | none => none
    | some f =>
      if f.omitEmpty && readsEmpty cs f.ty (spellings f.name (js.flatMap Json.members)) then
        none
      else some (f.ty, spellings f.name (js.flatMap Json.members))
  | .map elem, js, part =>
    (((afterNull js).flatMap Json.members).reverse.lookup part).map fun j => (elem, [j])
  | .any, js, part | .raw, js, part =>
    ((canon (js.getLastD .null)).members.lookup part).map fun j => (.any, [j])
  | .custom k, js, part =>
    match decodeAll cs (.custom k) js (zero cs (.custom k)) with
    | .ok v => ((canon ((cs k).marshal v)).members.lookup part).map fun j => (.any, [j])
    | .error _ => none
  | .string, _, _ | .bool, _, _ | .int, _, _ | .slice _, _, _ => none

/-- The place at the end of a key path. -/
def placeAt : GoTy κ → List Json → List String → Option (GoTy κ × List Json)
  | t, js, [] => some (t, js)
  | t, js, part :: rest =>
    match below cs t js part with
    | none => none
    | some place => placeAt place.1 place.2 rest

end

/-- The type under a name: a struct has its fields, a map every name, and an
`interface{}` or a type with its own codec whatever it holds. -/
def GoTy.step : GoTy κ → String → Option (GoTy κ)
  | .ptr t, part => t.step part
  | .struct fields, part => (fields.find? fun f => f.name = part).map Field.ty
  | .map elem, _ => some elem
  | .any, _ | .raw, _ | .custom _, _ => some .any
  | .string, _ | .bool, _ | .int, _ | .slice _, _ => none

def GoTy.hasPath : GoTy κ → List String → Bool
  | _, [] => true
  | t, part :: rest =>
    match t.step part with
    | none => false
    | some t' => t'.hasPath rest

mutual

/-- No struct in the type has two fields that differ only in case. -/
def wellNamed : GoTy κ → Bool
  | .struct fields =>
    decide (fields.map fun f => foldName f.name).Nodup && wellNamedFields fields
  | .slice elem | .map elem | .ptr elem => wellNamed elem
  | .string | .bool | .int | .any | .raw | .custom _ => true

def wellNamedFields : List (Field (GoTy κ)) → Bool
  | [] => true
  | ⟨_, _, ty⟩ :: rest => wellNamed ty && wellNamedFields rest

end

variable {cs : κ → Codec}

theorem step_of_below : ∀ {t t' : GoTy κ} {js js' : List Json} {part : String},
    below cs t js part = some (t', js') → t.step part = some t'
  | .ptr t, t', js, js', part, h => by
      rw [below] at h
      split at h
      · cases h
      · rw [GoTy.step]
        exact step_of_below h
  | .struct fields, t', js, js', part, h => by
      rw [below] at h
      split at h
      · cases h
      rename_i f hf
      split at h
      · cases h
      · cases h
        rw [GoTy.step, hf]
        rfl
  | .map elem, t', js, js', part, h | .any, t', js, js', part, h | .raw, t', js, js', part, h => by
      rw [below] at h
      obtain ⟨j, _, heq⟩ := Option.map_eq_some_iff.mp h
      cases heq
      rfl
  | .custom k, t', js, js', part, h => by
      rw [below] at h
      split at h
      · obtain ⟨j, _, heq⟩ := Option.map_eq_some_iff.mp h
        cases heq
        rfl
      · cases h
  | .string, _, _, _, _, h | .bool, _, _, _, _, h | .int, _, _, _, _, h
  | .slice _, _, _, _, _, h => by cases h

variable {js : List Json}

theorem placeAt_eq_none {t : GoTy κ} {path : List String} (h : t.hasPath path = false) :
    placeAt cs t js path = none := by
  induction path generalizing t js with
  | nil => cases h
  | cons part rest ih =>
    rw [placeAt]
    cases hbelow : below cs t js part with
    | none => rfl
    | some place =>
      rw [GoTy.hasPath, step_of_below hbelow] at h
      exact ih h

/-! ### What the texts for one type decode to -/

theorem decodeAll_append (t : GoTy κ) (js : List Json) (j : Json) (v : Val) :
    decodeAll cs t (js ++ [j]) v = decodeAll cs t js v >>= fun u => decode cs j t u := by
  simp [decodeAll, foldlM_append]

theorem decode_ptr (hj : j.isNull = false) (t : GoTy κ) (prev : Val) :
    decode cs j (.ptr t) prev =
      Val.ptr <$> decode cs j t (match prev with | .ptr v => v | _ => zero cs t) := by
  have htarget : GoTy.target cs (.ptr t) prev =
      t.target cs (match prev with | .ptr v => v | _ => zero cs t) := by
    have hzero : zero cs t.base = t.target cs (zero cs t) := by
      cases t <;> rfl
    cases prev <;> first | exact hzero | rfl
  cases j with
  | null => cases hj
  | bool b | str s | arr items | obj members =>
    rw [decode, decode, htarget]
    simp only [GoTy.base, GoTy.wrap]
    cases t.base <;> first | rfl | simp only [Functor.map_map]
  | num text =>
    rw [decode, decode, htarget]
    simp only [GoTy.base, GoTy.wrap]
    cases goInt text <;> cases t.base <;> first | rfl | simp only [Functor.map_map]

variable {x : Val}

theorem decodeAll_ptr {t : GoTy κ} (h : decodeAll cs (.ptr t) js .nil = .ok x) :
    (afterNull js = [] ∧ x = .nil) ∨
      (afterNull js ≠ [] ∧ ∃ y, x = .ptr y ∧
        decodeAll cs t (afterNull js) (zero cs t) = .ok y) := by
  induction js using reverseRecOn generalizing x with
  | nil =>
    cases h
    exact .inl ⟨rfl, rfl⟩
  | append_singleton js j ih =>
    rw [decodeAll_append] at h
    obtain ⟨u, hu, hj⟩ := bind_eq_ok.mp h
    cases hnull : j.isNull with
    | true =>
      obtain rfl : j = .null := by
        cases j <;> first | rfl | cases hnull
      cases hj
      exact .inl ⟨afterNull_append_null js, rfl⟩
    | false =>
      rw [decode_ptr hnull] at hj
      obtain ⟨y, hy, rfl⟩ := map_eq_ok.mp hj
      refine .inr ⟨by simp [afterNull_append hnull], y, rfl, ?_⟩
      rw [afterNull_append hnull, decodeAll_append]
      rcases ih hu with ⟨hnil, rfl⟩ | ⟨_, z, rfl, hz⟩
      · rw [hnil]
        exact hy
      · rw [hz]
        exact hy

variable {elem : GoTy κ}

theorem lookup_decodeMap {members : Members} {es es' : List (String × Val)}
    (h : decodeMap cs members elem es = .ok es') (part : String) :
    match members.reverse.lookup part with
    | some j => ∃ v, decode cs j elem (zero cs elem) = .ok v ∧ es'.lookup part = some v
    | none => es'.lookup part = es.lookup part := by
  induction members generalizing es with
  | nil =>
    cases h
    rfl
  | cons e rest ih =>
    obtain ⟨k, j⟩ := e
    obtain ⟨v, hv, hrest⟩ := bind_eq_ok.mp h
    have hih := ih hrest
    rw [reverse_cons, lookup_append]
    cases hlast : rest.reverse.lookup part with
    | some j' =>
      rw [hlast] at hih
      exact hih
    | none =>
      rw [hlast] at hih
      rw [Option.none_or, lookup_cons]
      rw [lookup_setKey] at hih
      by_cases hk : part = k
      · rw [if_pos hk]
        rw [if_pos hk] at hih
        exact ⟨v, hv, hih⟩
      · rw [if_neg hk]
        rw [if_neg hk] at hih
        exact hih

theorem decodeAll_map (h : decodeAll cs (.map elem) js .nil = .ok x) (part : String) :
    match ((afterNull js).flatMap Json.members).reverse.lookup part with
    | some j => ∃ v, decode cs j elem (zero cs elem) = .ok v ∧
        x.entries.lookup part = some v
    | none => x.entries.lookup part = none := by
  induction js using reverseRecOn generalizing x with
  | nil =>
    cases h
    rfl
  | append_singleton js j ih =>
    rw [decodeAll_append] at h
    obtain ⟨u, hu, hj⟩ := bind_eq_ok.mp h
    rcases decode_map_ok hj with ⟨rfl, rfl⟩ | ⟨members, es, rfl, rfl, hes⟩
    · rw [afterNull_append_null]
      rfl
    have hmem := lookup_decodeMap hes part
    rw [afterNull_append rfl, flatMap_append, reverse_append, lookup_append]
    simp only [flatMap_cons, flatMap_nil, append_nil, Json.members]
    cases hlast : members.reverse.lookup part with
    | some j' =>
      rw [hlast] at hmem
      exact hmem
    | none =>
      rw [hlast] at hmem
      rw [Option.none_or]
      have hih := ih hu
      simp only [Val.entries] at hmem ⊢
      rw [hmem]
      exact hih

theorem canon_canon (j : Json) : canon (canon j) = canon j :=
  canon_eq_self (canonical_canon j)

theorem canon_encode_last {ty : GoTy κ} (hnil : canon (encode cs ty .nil) = canon .null)
    (hone : ∀ j u x, decode cs j ty u = .ok x → canon (encode cs ty x) = canon j)
    (h : decodeAll cs ty js .nil = .ok x) : canon (encode cs ty x) = canon (js.getLastD .null) := by
  cases js using reverseRecOn with
  | nil =>
    cases h
    exact hnil
  | append_singleton js j =>
    rw [decodeAll_append] at h
    obtain ⟨u, _, hj⟩ := bind_eq_ok.mp h
    have hlast : (js ++ [j]).getLastD .null = j := by simp
    rw [hlast]
    exact hone j u x hj

theorem canon_encode_any (h : decodeAll cs .any js .nil = .ok x) :
    canon (encode cs .any x) = canon (js.getLastD .null) := by
  refine canon_encode_last rfl (fun j u x hj => ?_) h
  cases j with
  | null | bool b | num text | str s =>
    cases hj
    rfl
  | arr items | obj members =>
    cases hj
    exact canon_canon _

theorem canon_encode_raw (h : decodeAll cs .raw js .nil = .ok x) :
    canon (encode cs .raw x) = canon (js.getLastD .null) := by
  refine canon_encode_last rfl (fun j u x hj => ?_) h
  cases j <;> (rw [decode] at hj; cases hj; rfl)

/-! ### What is printed under a name -/

variable {fields : List (Field (GoTy κ))}

theorem nodup_names (hun : Unambiguous fields) : (fields.map Field.name).Nodup := by
  have hmap : fields.map (fun f => foldName f.name) = (fields.map Field.name).map foldName := by
    simp
  unfold Unambiguous at hun
  rw [hmap] at hun
  exact hun.of_map _

theorem wellNamed_of_mem (h : wellNamedFields fields = true) {f : Field (GoTy κ)}
    (hf : f ∈ fields) :
    wellNamed f.ty = true := by
  induction fields with
  | nil => exact absurd hf not_mem_nil
  | cons g rest ih =>
    rw [wellNamedFields, Bool.and_eq_true] at h
    rcases mem_cons.mp hf with rfl | hrest
    · exact h.1
    · exact ih h.2 hrest

theorem getField_zeroFields (hnd : (fields.map Field.name).Nodup) {f : Field (GoTy κ)}
    (hf : f ∈ fields) : getField cs (zeroFields cs fields) f = zero cs f.ty := by
  induction fields with
  | nil => exact absurd hf not_mem_nil
  | cons g rest ih =>
    rw [map_cons, nodup_cons] at hnd
    obtain ⟨name, omitEmpty, ty⟩ := g
    rw [zeroFields, getField, lookup_cons]
    rcases mem_cons.mp hf with rfl | hrest
    · rw [if_pos rfl]
      rfl
    · have hne : f.name ≠ name := by
        intro heq
        exact hnd.1 (mem_map.mpr ⟨f, hrest, heq⟩)
      rw [if_neg hne]
      exact ih hnd.2 hrest

/-- What is under a name of a text that `js` stands for: nothing, or what the texts
for the name print as. -/
def Shows (cs : κ → Codec) (place : Option (GoTy κ × List Json)) (text : Option Json) : Prop :=
  match place with
  | none => text = none
  | some (t, js) => wellNamed t = true ∧
      ∃ v, decodeAll cs t js (zero cs t) = .ok v ∧ text = some (canon (encode cs t v))

theorem shows_text (hj : Canonical j) (part : String) :
    Shows cs ((j.members.lookup part).map fun j => (.any, [j])) (j.members.lookup part) := by
  cases hpart : j.members.lookup part with
  | none => rfl
  | some j' =>
    have hcanon : Canonical j' := by
      cases j with
      | obj members => exact canonical_lookup hj hpart
      | _ => cases hpart
    have hdecode : ∃ v, decodeAll cs .any [j'] (zero cs .any) = .ok v := by
      cases j' <;> exact ⟨_, rfl⟩
    obtain ⟨v, hv⟩ := hdecode
    refine ⟨rfl, v, hv, ?_⟩
    rw [canon_encode_any hv]
    exact congrArg some (canon_eq_self hcanon).symm

theorem shows_struct (hwell : wellNamed (.struct fields) = true)
    (h : decodeAll cs (.struct fields) js (zero cs (.struct fields)) = .ok x) (part : String) :
    Shows cs (below cs (.struct fields) js part)
      ((canon (encode cs (.struct fields) x)).members.lookup part) := by
  rw [wellNamed, Bool.and_eq_true] at hwell
  have hun : Unambiguous fields := by
    unfold Unambiguous
    exact of_decide_eq_true hwell.1
  have hnd := nodup_names hun
  obtain ⟨vs, rfl, hvs⟩ := decodeAll_struct h
  rw [encode, canon, Json.members, lookup_canonMembers_of_nodup (nodup_encodeFields hnd), below]
  cases hfind : fields.find? fun f => f.name = part with
  | none =>
    have hnone : (encodeFields cs fields vs).lookup part = none := by
      refine lookup_eq_none_of_not_mem fun hmem => ?_
      obtain ⟨f, hf, rfl⟩ := mem_map.mp (name_of_mem_encodeFields hmem)
      exact find?_eq_none.mp hfind f hf (by simp)
    rw [hnone]
    rfl
  | some f =>
    have hf : f ∈ fields := mem_of_find?_eq_some hfind
    obtain rfl : f.name = part := by simpa using find?_some hfind
    have hread := decodeStruct_field hun hf hvs
    rw [getField_zeroFields hnd hf] at hread
    have hempty : readsEmpty cs f.ty (spellings f.name (js.flatMap Json.members)) =
        isEmpty cs f.ty (getField cs vs f) := by
      rw [readsEmpty, hread]
    rw [lookup_encodeFields_omit hnd hf]
    simp only [hempty]
    split
    · rfl
    · exact ⟨wellNamed_of_mem hwell.2 hf, _, hread, rfl⟩

theorem shows_map (hwell : wellNamed elem = true) (h : decodeAll cs (.map elem) js .nil = .ok x)
    (part : String) :
    Shows cs (below cs (.map elem) js part)
      ((canon (encode cs (.map elem) x)).members.lookup part) := by
  have hinc : Increasing x.entries :=
    increasing_decodeAll_map (v := .nil) List.Pairwise.nil h
  have hlookup : (canon (encode cs (.map elem) x)).members.lookup part =
      (x.entries.lookup part).map fun v => canon (encode cs elem v) := by
    cases x with
    | map es =>
      have hnd : ((es.map fun e => (e.1, encode cs elem e.2)).map Prod.fst).Nodup := by
        rw [map_map]
        exact List.Pairwise.map _ (fun a b hab => ne_of_lt hab) hinc
      rw [encode, canon, Json.members, lookup_canonMembers_of_nodup hnd, lookup_map_values,
        Option.map_map]
      rfl
    | _ => rfl
  have hmap := decodeAll_map h part
  rw [hlookup, below]
  cases hlast : ((afterNull js).flatMap Json.members).reverse.lookup part with
  | none =>
    rw [hlast] at hmap
    rw [hmap]
    rfl
  | some j =>
    rw [hlast] at hmap
    obtain ⟨v, hv, hentry⟩ := hmap
    rw [hentry]
    refine ⟨hwell, v, ?_, rfl⟩
    rw [decodeAll, foldlM_cons, hv]
    rfl

/-- **What is printed under a name is what was read for it.** -/
theorem lookup_encode : ∀ {t : GoTy κ} {js : List Json} {x : Val}, wellNamed t = true →
    decodeAll cs t js (zero cs t) = .ok x → ∀ part,
    Shows cs (below cs t js part) ((canon (encode cs t x)).members.lookup part)
  | .ptr t, js, x, hwell, h, part => by
      rw [wellNamed] at hwell
      rw [below]
      rcases decodeAll_ptr h with ⟨hnil, rfl⟩ | ⟨hne, y, rfl, hy⟩
      · rw [hnil]
        rfl
      · rw [if_neg (by simpa using hne)]
        rw [encode]
        exact lookup_encode hwell hy part
  | .struct fields, js, x, hwell, h, part => shows_struct hwell h part
  | .map elem, js, x, hwell, h, part => by
      rw [wellNamed] at hwell
      exact shows_map hwell h part
  | .any, js, x, _, h, part => by
      rw [below, canon_encode_any h]
      exact shows_text (canonical_canon _) part
  | .raw, js, x, _, h, part => by
      rw [below, canon_encode_raw h]
      exact shows_text (canonical_canon _) part
  | .custom k, js, x, _, h, part => by
      rw [below, h]
      exact shows_text (canonical_canon _) part
  | .string, js, x, _, h, part => by
      rw [decodeAll_string h]
      rfl
  | .bool, js, x, _, h, part | .int, js, x, _, h, part | .slice elem, js, x, _, h, part => by
      cases x <;> rfl

end GoJson
