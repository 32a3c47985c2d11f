import GoIpfs.GoStruct

/-!
# Equality of texts and of values

Whether two JSON texts are the same can be decided, and so can it for two Go
values; runs of decoders and encoders can then be compared by evaluation.
-/

namespace GoJson

mutual

def Json.beq : Json → Json → Bool
  | .null, .null => true
  | .bool a, .bool b => a = b
  | .num a, .num b => a = b
  | .str a, .str b => a = b
  | .arr items, .arr items' => itemsBeq items items'
  | .obj members, .obj members' => membersBeq members members'
  | _, _ => false

def itemsBeq : List Json → List Json → Bool
  | [], [] => true
  | j :: rest, j' :: rest' => j.beq j' && itemsBeq rest rest'
  | _, _ => false

def membersBeq : List (String × Json) → List (String × Json) → Bool
  | [], [] => true
  | (k, j) :: rest, (k', j') :: rest' => k = k' && j.beq j' && membersBeq rest rest'
  | _, _ => false

end

mutual

theorem Json.eq_of_beq : ∀ {j j' : Json}, j.beq j' = true → j = j'
  | .null, j', h | .bool b, j', h | .num text, j', h
  | .str s, j', h => by cases j' <;> simp_all [Json.beq]
  | .arr items, j', h => by
      cases j' with
      | arr items' =>
        rw [Json.beq] at h
        rw [eq_of_itemsBeq h]
      | _ => simp [Json.beq] at h
  | .obj members, j', h => by
      cases j' with
      | obj members' =>
        rw [Json.beq] at h
        rw [eq_of_membersBeq h]
      | _ => simp [Json.beq] at h

theorem eq_of_itemsBeq : ∀ {items items' : List Json}, itemsBeq items items' = true → items = items'
  | [], [], _ => rfl
  | [], _ :: _, h | _ :: _, [], h => by simp [itemsBeq] at h
  | j :: rest, j' :: rest', h => by
      rw [itemsBeq, Bool.and_eq_true] at h
      rw [Json.eq_of_beq h.1, eq_of_itemsBeq h.2]

theorem eq_of_membersBeq : ∀ {members members' : List (String × Json)},
    membersBeq members members' = true → members = members'
  | [], [], _ => rfl
  | [], _ :: _, h | _ :: _, [], h => by simp [membersBeq] at h
  | (k, j) :: rest, (k', j') :: rest', h => by
      rw [membersBeq, Bool.and_eq_true, Bool.and_eq_true, decide_eq_true_eq] at h
      rw [h.1.1, Json.eq_of_beq h.1.2, eq_of_membersBeq h.2]

end

mutual

theorem Json.beq_self : ∀ j : Json, j.beq j = true
  | .null => rfl
  | .bool _ | .num _ | .str _ => by simp [Json.beq]
  | .arr items => by rw [Json.beq, itemsBeq_self items]
  | .obj members => by rw [Json.beq, membersBeq_self members]

theorem itemsBeq_self : ∀ items : List Json, itemsBeq items items = true
  | [] => rfl
  | j :: rest => by
      rw [itemsBeq, j.beq_self, itemsBeq_self rest]
      rfl

theorem membersBeq_self : ∀ members : List (String × Json), membersBeq members members = true
  | [] => rfl
  | (k, j) :: rest => by simp [membersBeq, j.beq_self, membersBeq_self rest]

end

instance : DecidableEq Json := fun j j' =>
  decidable_of_iff (j.beq j' = true) ⟨Json.eq_of_beq, fun h => h ▸ j.beq_self⟩

mutual

def Val.beq : Val → Val → Bool
  | .nil, .nil => true
  | .str a, .str b => a = b
  | .bool a, .bool b => a = b
  | .int a, .int b => a = b
  | .json j, .json j' => j = j'
  | .slice items, .slice items' => valsBeq items items'
  | .map entries, .map entries' => entriesBeq entries entries'
  | .ptr v, .ptr v' => v.beq v'
  | .struct fields, .struct fields' => entriesBeq fields fields'
  | _, _ => false

def valsBeq : List Val → List Val → Bool
  | [], [] => true
  | v :: rest, v' :: rest' => v.beq v' && valsBeq rest rest'
  | _, _ => false

def entriesBeq : List (String × Val) → List (String × Val) → Bool
  | [], [] => true
  | (k, v) :: rest, (k', v') :: rest' => k = k' && v.beq v' && entriesBeq rest rest'
  | _, _ => false

end

mutual

theorem Val.eq_of_beq : ∀ {v v' : Val}, v.beq v' = true → v = v'
  | .nil, v', h | .str _, v', h | .bool _, v', h | .int _, v', h | .json _, v', h => by
      cases v' <;> simp_all [Val.beq]
  | .slice items, v', h => by
      cases v' with
      | slice items' =>
        rw [Val.beq] at h
        rw [eq_of_valsBeq h]
      | _ => simp [Val.beq] at h
  | .map entries, v', h => by
      cases v' with
      | map entries' =>
        rw [Val.beq] at h
        rw [eq_of_entriesBeq h]
      | _ => simp [Val.beq] at h
  | .ptr v, v', h => by
      cases v' with
      | ptr w =>
        rw [Val.beq] at h
        rw [Val.eq_of_beq h]
      | _ => simp [Val.beq] at h
  | .struct fields, v', h => by
      cases v' with
      | struct fields' =>
        rw [Val.beq] at h
        rw [eq_of_entriesBeq h]
      | _ => simp [Val.beq] at h

theorem eq_of_valsBeq : ∀ {items items' : List Val}, valsBeq items items' = true → items = items'
  | [], [], _ => rfl
  | [], _ :: _, h | _ :: _, [], h => by simp [valsBeq] at h
  | v :: rest, v' :: rest', h => by
      rw [valsBeq, Bool.and_eq_true] at h
      rw [Val.eq_of_beq h.1, eq_of_valsBeq h.2]

theorem eq_of_entriesBeq : ∀ {entries entries' : List (String × Val)},
    entriesBeq entries entries' = true → entries = entries'
  | [], [], _ => rfl
  | [], _ :: _, h | _ :: _, [], h => by simp [entriesBeq] at h
  | (k, v) :: rest, (k', v') :: rest', h => by
      rw [entriesBeq, Bool.and_eq_true, Bool.and_eq_true, decide_eq_true_eq] at h
      rw [h.1.1, Val.eq_of_beq h.1.2, eq_of_entriesBeq h.2]

end

mutual

theorem Val.beq_self : ∀ v : Val, v.beq v = true
  | .nil => rfl
  | .str _ | .bool _ | .int _ | .json _ => by simp [Val.beq]
  | .slice items => by rw [Val.beq, valsBeq_self items]
  | .map entries => by rw [Val.beq, entriesBeq_self entries]
  | .ptr v => by rw [Val.beq, v.beq_self]
  | .struct fields => by rw [Val.beq, entriesBeq_self fields]

theorem valsBeq_self : ∀ items : List Val, valsBeq items items = true
  | [] => rfl
  | v :: rest => by
      rw [valsBeq, v.beq_self, valsBeq_self rest]
      rfl

theorem entriesBeq_self : ∀ entries : List (String × Val), entriesBeq entries entries = true
  | [] => rfl
  | (k, v) :: rest => by simp [entriesBeq, v.beq_self, entriesBeq_self rest]

end

instance : DecidableEq Val := fun v v' =>
  decidable_of_iff (v.beq v' = true) ⟨Val.eq_of_beq, fun h => h ▸ v.beq_self⟩

end GoJson
