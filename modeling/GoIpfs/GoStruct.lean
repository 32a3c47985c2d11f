import GoIpfs.GoJson
import Mathlib.Algebra.Ring.Int.Defs
import Mathlib.Data.List.Nodup

/-!
# Decoding JSON into Go structs

`GoTy` describes a Go type as `encoding/json` sees it and `Val` its values.
`decode` is `json.Unmarshal` into a variable that holds a value already: a
struct keeps the fields that the text does not name, a member is matched to a
field by its exact name or else by a name that differs only in case, and a
later member decodes over an earlier one.  `encode` is `json.Marshal`.

A decoder stops here at its first error, where Go goes on and returns the error
in the end; no caller uses the value of a decoder that fails.
-/

namespace GoJson

open List Option

/-- A struct field: its name, whether it has `omitempty`, and its type. -/
structure Field (τ : Type) where
  name : String
  omitEmpty : Bool
  ty : τ

/-- Go types; `κ` names the types with an `UnmarshalJSON` of their own. -/
inductive GoTy (κ : Type) where
  | string
  | bool
  | int
  | any
  | raw
  | slice (elem : GoTy κ)
  | map (elem : GoTy κ)
  | ptr (elem : GoTy κ)
  | struct (fields : List (Field (GoTy κ)))
  | custom (k : κ)

/-- Go values.  `nil` is the nil pointer, map, slice and interface, and `json`
the value of an interface, of raw JSON or of a type with its own codec. -/
inductive Val where
  | nil
  | str (s : String)
  | bool (b : Bool)
  | int (i : Int)
  | json (j : Json)
  | slice (items : List Val)
  | map (entries : List (String × Val))
  | ptr (target : Val)
  | struct (fields : List (String × Val))

/-- A type with its own `UnmarshalJSON` and `MarshalJSON`. -/
structure Codec where
  zero : Val
  /-- Decode a text over a value. -/
  unmarshal : Json → Val → Except String Val
  marshal : Val → Json
  /-- The value counts as empty for `omitempty`. -/
  isEmpty : Val → Bool

/-- Simple case folding, as far as it meets ASCII letters: besides the other
case of the letter, the Kelvin sign is a `k` and the long s is an `s`. -/
def foldChar (c : Char) : Char :=
  if c.val = 0x212A then 'k'
  else if c.val = 0x17F then 's'
  else if 'A' ≤ c ∧ c ≤ 'Z' then Char.ofNat (c.toNat + 32)
  else c

/-- The name without its case. -/
def foldName (s : String) : List Char := s.toList.map foldChar

/-- `strings.EqualFold`, where one of the strings is ASCII. -/
def equalFold (a b : String) : Bool := foldName a = foldName b

/-- Simple case folding of all runes, by a rune for each orbit of `unicode.SimpleFold`.
The orbits come with the Unicode tables; those of the ASCII runes are known. -/
structure Folding where
  fold : Char → Char
  fold_ascii : ∀ c d, c.toNat < 128 → (fold c = fold d ↔ foldChar c = foldChar d)

/-- `strings.EqualFold`. -/
def Folding.equalFold (folding : Folding) (a b : String) : Bool :=
  a.toList.map folding.fold = b.toList.map folding.fold

/-- Only ASCII letters, and what they fold with, have another case. -/
def asciiFolding : Folding := ⟨foldChar, fun _ _ _ => Iff.rfl⟩

/-- If one of the strings is ASCII, the tables do not matter. -/
theorem Folding.equalFold_of_ascii (folding : Folding) {a : String} (b : String)
    (hascii : ∀ c ∈ a.toList, c.toNat < 128) : folding.equalFold a b = GoJson.equalFold a b := by
  unfold Folding.equalFold GoJson.equalFold foldName
  generalize a.toList = cs at hascii
  generalize b.toList = ds
  congr 1
  induction cs generalizing ds with
  | nil => cases ds <;> simp
  | cons c cs ih =>
    cases ds with
    | nil => simp
    | cons d ds =>
      obtain ⟨hc, hcs⟩ := List.forall_mem_cons.mp hascii
      simp only [List.map_cons, List.cons.injEq, folding.fold_ascii c d hc, ih hcs ds]

variable {κ : Type}

/-- The field that a member decodes into. -/
def findField (fields : List (Field (GoTy κ))) (k : String) : Option (Field (GoTy κ)) :=
  (fields.find? fun f => f.name = k).or (fields.find? fun f => equalFold f.name k)

def setField (name : String) (v : Val) : List (String × Val) → List (String × Val)
  | [] => [(name, v)]
  | e :: rest => if e.1 = name then (name, v) :: rest else e :: setField name v rest

/-- The text of an `int` that Go accepts. -/
def goInt (text : String) : Option Int :=
  let digits (cs : List Char) : Option Nat :=
    if cs ≠ [] ∧ cs.all Char.isDigit then
      some (cs.foldl (fun n c => 10 * n + (c.toNat - '0'.toNat)) 0)
    else none
  let value := match text.toList with
    | '-' :: cs => (digits cs).map fun n => -(n : Int)
    | cs => (digits cs).map fun n => (n : Int)
  value.filter fun i => -(2 ^ 63) ≤ i ∧ i < 2 ^ 63

section

variable (cs : κ → Codec)

mutual

def zero : GoTy κ → Val
  | .string => .str ""
  | .bool => .bool false
  | .int => .int 0
  | .struct fields => .struct (zeroFields fields)
  | .custom k => (cs k).zero
  | .any | .raw | .slice _ | .map _ | .ptr _ => .nil

def zeroFields : List (Field (GoTy κ)) → List (String × Val)
  | [] => []
  | ⟨name, _, ty⟩ :: rest => (name, zero ty) :: zeroFields rest

end

def getField (fields : List (String × Val)) (f : Field (GoTy κ)) : Val :=
  (fields.lookup f.name).getD (zero cs f.ty)

/-- The type behind the pointers. -/
def GoTy.base : GoTy κ → GoTy κ
  | .ptr t => t.base
  | t => t

/-- A value of the base type behind new pointers. -/
def GoTy.wrap : GoTy κ → Val → Val
  | .ptr t, v => .ptr (t.wrap v)
  | _, v => v

/-- The value that the pointers lead to; nil pointers are allocated. -/
def GoTy.target : GoTy κ → Val → Val
  | .ptr t, .ptr v => t.target v
  | .ptr t, _ => zero cs t.base
  | _, v => v

def Val.fields : Val → List (String × Val)
  | .struct fields => fields
  | _ => []

def Val.entries : Val → List (String × Val)
  | .map entries => entries
  | _ => []

def Val.items : Val → List Val
  | .slice items => items
  | _ => []

/-- The error for a value that does not fit the type. -/
def mismatch {α : Type} (value : String) : Except String α :=
  .error ("json: cannot unmarshal " ++ value)

/-- `null` sets pointers, maps, slices and interfaces to nil and does nothing to
the other types. -/
def decodeNull : GoTy κ → Val → Except String Val
  | .any, _ | .slice _, _ | .map _, _ | .ptr _, _ => .ok .nil
  | .raw, _ => .ok (.json .null)
  | .custom k, prev => (cs k).unmarshal .null prev
  | .string, prev | .bool, prev | .int, prev | .struct _, prev => .ok prev

mutual

/-- `json.Unmarshal` over a value of the type. -/
def decode : Json → GoTy κ → Val → Except String Val
  | .null, t, prev => decodeNull cs t prev
  | .bool b, t, prev =>
    match t.base with
    | .bool => .ok (t.wrap (.bool b))
    | .any | .raw => .ok (t.wrap (.json (.bool b)))
    | .custom k => t.wrap <$> (cs k).unmarshal (.bool b) (t.target cs prev)
    | _ => mismatch "bool"
  | .num text, t, prev =>
    match t.base with
    | .int =>
      match goInt text with
      | some i => .ok (t.wrap (.int i))
      | none => mismatch ("number " ++ text)
    | .any | .raw => .ok (t.wrap (.json (.num text)))
    | .custom k => t.wrap <$> (cs k).unmarshal (.num text) (t.target cs prev)
    | _ => mismatch "number"
  | .str s, t, prev =>
    match t.base with
    | .string => .ok (t.wrap (.str s))
    | .any | .raw => .ok (t.wrap (.json (.str s)))
    | .custom k => t.wrap <$> (cs k).unmarshal (.str s) (t.target cs prev)
    | _ => mismatch "string"
  | .arr items, t, prev =>
    match t.base with
    | .slice elem =>
      (fun vs => t.wrap (.slice vs)) <$> decodeItems items elem (t.target cs prev).items
    | .any => .ok (t.wrap (.json (canon (.arr items))))
    | .raw => .ok (t.wrap (.json (.arr items)))
    | .custom k => t.wrap <$> (cs k).unmarshal (.arr items) (t.target cs prev)
    | _ => mismatch "array"
  | .obj members, t, prev =>
    match t.base with
    | .struct fields =>
      (fun vs => t.wrap (.struct vs)) <$>
        decodeStruct members fields (t.target cs prev).fields
    | .map elem =>
      (fun es => t.wrap (.map es)) <$>
        decodeMap members elem (t.target cs prev).entries
    | .any => .ok (t.wrap (.json (canon (.obj members))))
    | .raw => .ok (t.wrap (.json (.obj members)))
    | .custom k => t.wrap <$> (cs k).unmarshal (.obj members) (t.target cs prev)
    | _ => mismatch "object"

/-- Each element decodes over the one that the slice had in its place. -/
def decodeItems : List Json → GoTy κ → List Val → Except String (List Val)
  | [], _, _ => .ok []
  | j :: rest, elem, prev => do
      let v ← decode j elem (prev.headD (zero cs elem))
      let vs ← decodeItems rest elem prev.tail
      pure (v :: vs)

/-- Members without a field are skipped. -/
def decodeStruct : Members → List (Field (GoTy κ)) → List (String × Val) →
    Except String (List (String × Val))
  | [], _, vs => .ok vs
  | (k, j) :: rest, fields, vs =>
    match findField fields k with
    | none => decodeStruct rest fields vs
    | some f => do
        let v ← decode j f.ty (getField cs vs f)
        decodeStruct rest fields (setField f.name v vs)

/-- The elements of a map are always decoded from scratch. -/
def decodeMap : Members → GoTy κ → List (String × Val) → Except String (List (String × Val))
  | [], _, es => .ok es
  | (k, j) :: rest, elem, es => do
      let v ← decode j elem (zero cs elem)
      decodeMap rest elem (setKey k v es)

end

/-- The value is left out under `omitempty`. -/
def isEmpty : GoTy κ → Val → Bool
  | .custom k, v => (cs k).isEmpty v
  | _, .nil => true
  | _, .str s => s = ""
  | _, .bool b => !b
  | _, .int i => i = 0
  | _, .slice items => items.isEmpty
  | _, .map entries => entries.isEmpty
  | _, _ => false

mutual

/-- `json.Marshal`. -/
def encode : GoTy κ → Val → Json
  | .string, .str s => .str s
  | .bool, .bool b => .bool b
  | .int, .int i => .num (toString i)
  | .any, .json j | .raw, .json j => j
  | .slice elem, .slice items => .arr (items.map (encode elem))
  | .map elem, .map entries => .obj (entries.map fun e => (e.1, encode elem e.2))
  | .ptr elem, .ptr v => encode elem v
  | .struct fields, .struct vs => .obj (encodeFields fields vs)
  | .custom k, v => (cs k).marshal v
  | _, _ => .null

def encodeFields : List (Field (GoTy κ)) → List (String × Val) → Members
  | [], _ => []
  | ⟨name, omitEmpty, ty⟩ :: rest, vs =>
    if omitEmpty && isEmpty cs ty ((vs.lookup name).getD (zero cs ty)) then
      encodeFields rest vs
    else (name, encode ty ((vs.lookup name).getD (zero cs ty))) :: encodeFields rest vs

end

end

/-- The members that may decode into a field of this name, in the order of the
text. -/
def spellings (name : String) (members : Members) : List Json :=
  (members.filter fun e => equalFold name e.1).map Prod.snd

/-- Texts decoded one over the other. -/
def decodeAll (cs : κ → Codec) (t : GoTy κ) (js : List Json) (v : Val) : Except String Val :=
  js.foldlM (fun v j => decode cs j t v) v

/-- No two fields differ only in the case of their names. -/
def Unambiguous (fields : List (Field (GoTy κ))) : Prop :=
  (fields.map fun f => foldName f.name).Nodup

theorem bind_eq_ok {ε α β : Type} {x : Except ε α} {f : α → Except ε β} {b : β} :
    (x >>= f) = .ok b ↔ ∃ a, x = .ok a ∧ f a = .ok b := by
  cases x with
  | error e | ok a => simp [bind, Except.bind]

theorem map_eq_ok {ε α β : Type} {f : α → β} {x : Except ε α} {b : β} :
    f <$> x = .ok b ↔ ∃ a, x = .ok a ∧ f a = b := by
  cases x with
  | error e | ok a => simp [Functor.map, Except.map]

variable {k : String} {vs : List (String × Val)} {j : Json} {w v : Val}

section Fields

variable {cs : κ → Codec} {fields : List (Field (GoTy κ))} {f g : Field (GoTy κ)}

theorem equalFold_iff {a b : String} : equalFold a b = true ↔ foldName a = foldName b := by
  simp [equalFold]

theorem Unambiguous.eq_of_fold (hun : Unambiguous fields) (hf : f ∈ fields)
    (hg : g ∈ fields) (h : foldName f.name = foldName g.name) : f = g :=
  inj_on_of_nodup_map hun hf hg h

theorem mem_of_findField (h : findField fields k = some f) :
    f ∈ fields ∧ equalFold f.name k = true := by
  rcases or_eq_some_iff.mp h with hexact | ⟨_, hfold⟩
  · refine ⟨mem_of_find?_eq_some hexact, ?_⟩
    have hname : f.name = k := by simpa using find?_some hexact
    exact equalFold_iff.mpr (congrArg foldName hname)
  · exact ⟨mem_of_find?_eq_some hfold, by simpa using find?_some hfold⟩

theorem findField_eq (hun : Unambiguous fields) (hf : f ∈ fields) (h : equalFold f.name k = true) :
    findField fields k = some f := by
  cases hfind : findField fields k with
  | none =>
    have hnone := (or_eq_none_iff.mp hfind).2
    have := find?_eq_none.mp hnone f hf
    simp [h] at this
  | some g =>
    obtain ⟨hg, hgk⟩ := mem_of_findField hfind
    have hfg : foldName g.name = foldName f.name :=
      (equalFold_iff.mp hgk).trans (equalFold_iff.mp h).symm
    rw [hun.eq_of_fold hg hf hfg]

theorem lookup_setField (q name : String) (v : Val) (vs : List (String × Val)) :
    (setField name v vs).lookup q = if q = name then some v else vs.lookup q := by
  induction vs with
  | nil => simp [setField]
  | cons e rest ih =>
    unfold setField
    split
    · rename_i he
      by_cases hq : q = name
      · simp [hq]
      · simp [hq, he]
    · rename_i he
      by_cases hq : q = e.1
      · simp [hq, he]
      · rw [lookup_cons, if_neg hq, ih, lookup_cons, if_neg hq]

theorem getField_setField_self (v : Val) (vs : List (String × Val)) :
    getField cs (setField f.name v vs) f = v := by
  simp [getField, lookup_setField]

theorem getField_setField_ne (hne : f.name ≠ g.name) (v : Val) (vs : List (String × Val)) :
    getField cs (setField g.name v vs) f = getField cs vs f := by
  simp [getField, lookup_setField, hne]

/-- **One field of a decoded struct.**  It is what its spellings give when they
are decoded one over the other, whatever the other members are. -/
theorem decodeStruct_field (hun : Unambiguous fields) (hf : f ∈ fields) {members : Members}
    {vs' : List (String × Val)} (h : decodeStruct cs members fields vs = .ok vs') :
    decodeAll cs f.ty (spellings f.name members) (getField cs vs f) =
      .ok (getField cs vs' f) := by
  induction members generalizing vs with
  | nil =>
    rw [decodeStruct] at h
    cases h
    rfl
  | cons e rest ih =>
    obtain ⟨k, j⟩ := e
    rw [decodeStruct] at h
    cases hfind : findField fields k with
    | none =>
      rw [hfind] at h
      have hk : equalFold f.name k = false := by
        cases hk : equalFold f.name k with
        | false => rfl
        | true =>
          rw [findField_eq hun hf hk] at hfind
          cases hfind
      have hspell : spellings f.name ((k, j) :: rest) = spellings f.name rest := by
        simp [spellings, hk]
      rw [hspell]
      exact ih h
    | some g =>
      rw [hfind] at h
      obtain ⟨v, hv, hrest⟩ := bind_eq_ok.mp h
      have hih := ih hrest
      cases hk : equalFold f.name k with
      | true =>
        rw [findField_eq hun hf hk] at hfind
        obtain rfl : f = g := some.inj hfind
        have hspell : spellings f.name ((k, j) :: rest) =
            j :: spellings f.name rest := by
          simp [spellings, hk]
        rw [getField_setField_self] at hih
        rw [hspell, decodeAll, foldlM_cons, hv]
        exact hih
      | false =>
        obtain ⟨hg, hgk⟩ := mem_of_findField hfind
        have hne : f.name ≠ g.name := by
          intro heq
          rw [heq, hgk] at hk
          cases hk
        have hspell : spellings f.name ((k, j) :: rest) = spellings f.name rest := by
          simp [spellings, hk]
        rw [getField_setField_ne hne] at hih
        rw [hspell]
        exact hih

theorem decodeStruct_append (before after : Members) (vs : List (String × Val)) :
    decodeStruct cs (before ++ after) fields vs =
      decodeStruct cs before fields vs >>= decodeStruct cs after fields := by
  induction before generalizing vs with
  | nil =>
    rfl
  | cons e rest ih =>
    obtain ⟨k, j⟩ := e
    rw [cons_append, decodeStruct, decodeStruct]
    cases findField fields k with
    | none => exact ih vs
    | some f =>
      dsimp only
      cases decode cs j f.ty (getField cs vs f) with
      | error e => rfl
      | ok v => exact ih (setField f.name v vs)

theorem decodeStruct_singleton (hfind : findField fields k = some f) (j : Json)
    (vs : List (String × Val)) :
    decodeStruct cs [(k, j)] fields vs =
      (fun v => setField f.name v vs) <$> decode cs j f.ty (getField cs vs f) := by
  rw [decodeStruct, hfind]
  dsimp only
  cases decode cs j f.ty (getField cs vs f) with
  | error e => rfl
  | ok v =>
    show decodeStruct cs [] fields (setField f.name v vs) = _
    rfl

def Json.string? : Json → Option String
  | .str s => some s
  | _ => none

def Json.members : Json → Members
  | .obj members => members
  | _ => []

theorem decode_string_ok {s : String} (h : decode cs j .string (.str s) = .ok w) :
    w = .str (j.string?.getD s) := by
  cases j with
  | null | str _ =>
    cases h
    rfl
  | _ => cases h

theorem decode_struct_ok (h : decode cs j (.struct fields) (.struct vs) = .ok w) :
    ∃ vs', w = .struct vs' ∧ decodeStruct cs j.members fields vs = .ok vs' := by
  cases j with
  | null =>
    cases h
    exact ⟨vs, rfl, by simp only [Json.members, decodeStruct]⟩
  | obj members =>
    obtain ⟨vs', hvs', rfl⟩ := map_eq_ok.mp h
    exact ⟨vs', rfl, hvs'⟩
  | _ => cases h

theorem decode_map_ok {elem : GoTy κ} (h : decode cs j (.map elem) v = .ok w) :
    (j = .null ∧ w = .nil) ∨
      ∃ members es, j = .obj members ∧ w = .map es ∧
        decodeMap cs members elem v.entries = .ok es := by
  cases j with
  | null =>
    cases h
    exact .inl ⟨rfl, rfl⟩
  | obj members =>
    obtain ⟨es, hes, rfl⟩ := map_eq_ok.mp h
    exact .inr ⟨members, es, rfl, rfl, hes⟩
  | _ => cases h

theorem decodeAll_string {js : List Json} {s : String}
    (h : decodeAll cs .string js (.str s) = .ok v) :
    v = .str ((js.filterMap Json.string?).getLastD s) := by
  induction js generalizing s with
  | nil =>
    cases h
    rfl
  | cons j rest ih =>
    obtain ⟨w, hw, hrest⟩ := bind_eq_ok.mp h
    obtain rfl := decode_string_ok hw
    rw [ih hrest, filterMap_cons]
    cases j.string? with
    | none => rfl
    | some s' => rw [getD_some, getLastD_cons]

theorem decodeAll_struct {js : List Json}
    (h : decodeAll cs (.struct fields) js (.struct vs) = .ok v) :
    ∃ vs', v = .struct vs' ∧
      decodeStruct cs (js.flatMap Json.members) fields vs = .ok vs' := by
  induction js generalizing vs with
  | nil =>
    cases h
    exact ⟨vs, rfl, by rw [flatMap_nil, decodeStruct]⟩
  | cons j rest ih =>
    obtain ⟨w, hw, hrest⟩ := bind_eq_ok.mp h
    obtain ⟨vs', rfl, hmem⟩ := decode_struct_ok hw
    obtain ⟨vs'', hv, hdec⟩ := ih hrest
    refine ⟨vs'', hv, ?_⟩
    rw [flatMap_cons, decodeStruct_append, hmem]
    exact hdec

end Fields

end GoJson
