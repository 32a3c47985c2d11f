import GoIpfs.GoJson
import Mathlib.Data.List.TakeWhile

/-!
# The text of a JSON value

`json.Marshal` prints a value without blanks.  Two values with the same text are
equal (`text_injective`), if their numbers are numbers: a value is read off its
text together with whatever follows it, as long as that does not continue a
number.
-/

namespace GoJson

open List

/-! ## Strings -/

def hexDigit (n : Nat) : Char := if n < 10 then Char.ofNat (48 + n) else Char.ofNat (87 + n)

def hexValue (c : Char) : Nat := if c.toNat < 58 then c.toNat - 48 else c.toNat - 87

/-- The escape of a code point below `0x10000`. -/
def escapeUnicode (n : Nat) : List Char :=
  ['\\', 'u', hexDigit (n / 4096), hexDigit (n / 256 % 16), hexDigit (n / 16 % 16),
    hexDigit (n % 16)]

/-- What `encodeState.string` writes for a character. -/
def escapeChar (c : Char) : List Char :=
  if c = '"' ∨ c = '\\' then ['\\', c]
  else if c = '\n' then ['\\', 'n']
  else if c = '\r' then ['\\', 'r']
  else if c = '\t' then ['\\', 't']
  else if c.toNat < 0x20 ∨ c = '<' ∨ c = '>' ∨ c = '&' ∨ c.toNat = 0x2028 ∨ c.toNat = 0x2029 then
    escapeUnicode c.toNat
  else [c]

/-- The characters of a string up to the closing quotation mark. -/
def stringChars (cs : List Char) : List Char := cs.flatMap escapeChar ++ ['"']

/-- The character at the front of an escaped text. -/
def readChar : List Char → Option (Char × List Char)
  | '\\' :: 'u' :: a :: b :: c :: d :: rest =>
    some (Char.ofNat (((hexValue a * 16 + hexValue b) * 16 + hexValue c) * 16 + hexValue d), rest)
  | '\\' :: 'n' :: rest => some ('\n', rest)
  | '\\' :: 'r' :: rest => some ('\r', rest)
  | '\\' :: 't' :: rest => some ('\t', rest)
  | '\\' :: c :: rest => some (c, rest)
  | c :: rest => some (c, rest)
  | [] => none

theorem hexValue_hexDigit : ∀ n < 16, hexValue (hexDigit n) = n := by decide

variable {c : Char}

theorem readChar_escapeUnicode (h : c.toNat < 65536) (rest : List Char) :
    readChar (escapeUnicode c.toNat ++ rest) = some (c, rest) := by
  have h1 := hexValue_hexDigit (c.toNat / 4096) (by omega)
  have h2 := hexValue_hexDigit (c.toNat / 256 % 16) (by omega)
  have h3 := hexValue_hexDigit (c.toNat / 16 % 16) (by omega)
  have h4 := hexValue_hexDigit (c.toNat % 16) (by omega)
  have hsum : ((c.toNat / 4096 * 16 + c.toNat / 256 % 16) * 16 + c.toNat / 16 % 16) * 16 +
      c.toNat % 16 = c.toNat := by omega
  simp only [escapeUnicode, cons_append, nil_append, readChar, h1, h2, h3, h4, hsum,
    Char.ofNat_toNat]

/-- **Escapes can be read back.** -/
theorem readChar_escapeChar (c : Char) (rest : List Char) :
    readChar (escapeChar c ++ rest) = some (c, rest) := by
  unfold escapeChar
  split
  · rename_i h
    rcases h with rfl | rfl <;> rfl
  rename_i hplain
  split
  · subst_vars
    rfl
  split
  · subst_vars
    rfl
  split
  · subst_vars
    rfl
  split
  · rename_i h
    apply readChar_escapeUnicode
    rcases h with h | rfl | rfl | rfl | h | h
    · omega
    · decide
    · decide
    · decide
    · omega
    · omega
  · rw [singleton_append]
    unfold readChar
    split <;> simp_all

variable {r s : List Char}

theorem escapeChar_append_inj {d : Char} (h : escapeChar c ++ r = escapeChar d ++ s) :
    c = d ∧ r = s := by
  have hread := congrArg readChar h
  rw [readChar_escapeChar, readChar_escapeChar] at hread
  simpa using hread

theorem escapeChar_ne_quote : escapeChar c ++ r ≠ '"' :: s := by
  intro h
  have hread := congrArg readChar h
  have hquote : readChar ('"' :: s) = some ('"', s) := rfl
  rw [readChar_escapeChar, hquote] at hread
  obtain rfl : c = '"' := (Prod.mk.inj (Option.some.inj hread)).1
  have hescape : escapeChar '"' = ['\\', '"'] := by decide
  exact absurd (cons.inj h).1 (by decide)

theorem stringChars_cons (c : Char) (cs : List Char) :
    stringChars (c :: cs) = escapeChar c ++ stringChars cs := by
  rw [stringChars, flatMap_cons, append_assoc, stringChars]

/-- **Strings can be read back.** -/
theorem stringChars_append_inj {cs ds : List Char} (h : stringChars cs ++ r = stringChars ds ++ s) :
    cs = ds ∧ r = s := by
  induction cs generalizing ds with
  | nil =>
    cases ds with
    | nil => exact ⟨rfl, (cons.inj h).2⟩
    | cons d ds =>
      rw [stringChars_cons, append_assoc] at h
      exact absurd h.symm escapeChar_ne_quote
  | cons c cs ih =>
    cases ds with
    | nil =>
      rw [stringChars_cons, append_assoc] at h
      exact absurd h escapeChar_ne_quote
    | cons d ds =>
      rw [stringChars_cons, stringChars_cons, append_assoc, append_assoc] at h
      obtain ⟨rfl, hrest⟩ := escapeChar_append_inj h
      obtain ⟨rfl, hrs⟩ := ih hrest
      exact ⟨rfl, hrs⟩

/-! ## Values -/

mutual

def chars : Json → List Char
  | .null => ['n', 'u', 'l', 'l']
  | .bool true => ['t', 'r', 'u', 'e']
  | .bool false => ['f', 'a', 'l', 's', 'e']
  | .num text => text.toList
  | .str s => '"' :: stringChars s.toList
  | .arr [] => ['[', ']']
  | .arr (j :: rest) => '[' :: (chars j ++ itemChars rest)
  | .obj [] => ['\x7b', '\x7d']
  | .obj ((k, j) :: rest) =>
    '\x7b' :: '"' :: (stringChars k.toList ++ ':' :: (chars j ++ memberChars rest))

/-- The further elements of an array. -/
def itemChars : List Json → List Char
  | [] => [']']
  | j :: rest => ',' :: (chars j ++ itemChars rest)

/-- The further members of an object. -/
def memberChars : Members → List Char
  | [] => ['\x7d']
  | (k, j) :: rest =>
    ',' :: '"' :: (stringChars k.toList ++ ':' :: (chars j ++ memberChars rest))

end

/-- `json.Marshal`. -/
def text (j : Json) : String := String.ofList (chars j)

def isNumberChar (c : Char) : Bool :=
  c.isDigit || c == '+' || c == '-' || c == '.' || c == 'e' || c == 'E'

/-- A number as it is printed. -/
def IsNumber (text : String) : Prop :=
  (∃ c rest, text.toList = c :: rest ∧ (c.isDigit = true ∨ c = '-')) ∧
    ∀ c ∈ text.toList, isNumberChar c = true

mutual

/-- Every number of the value is one. -/
def Numeric : Json → Prop
  | .num text => IsNumber text
  | .arr items => NumericItems items
  | .obj members => NumericMembers members
  | _ => True

def NumericItems : List Json → Prop
  | [] => True
  | j :: rest => Numeric j ∧ NumericItems rest

def NumericMembers : Members → Prop
  | [] => True
  | (_, j) :: rest => Numeric j ∧ NumericMembers rest

end

theorem numericMembers_iff {members : Members} :
    NumericMembers members ↔ ∀ e ∈ members, Numeric e.2 := by
  induction members with
  | nil => simp [NumericMembers]
  | cons e rest ih =>
    simp [NumericMembers, ih]

variable {j : Json}

theorem numeric_setKey {k : String} {m : Members} (hj : Numeric j) (hm : Numeric (.obj m)) :
    Numeric (.obj (setKey k j m)) := by
  rw [Numeric, numericMembers_iff] at hm ⊢
  intro e he
  rcases mem_setKey he with rfl | he
  · exact hj
  · exact hm e he

/-- What follows a value does not continue a number. -/
def Ended (r : List Char) : Prop := ∀ c, r.head? = some c → isNumberChar c = false

theorem ended_nil : Ended [] := by simp [Ended]

theorem ended_itemChars (items : List Json) (r : List Char) : Ended (itemChars items ++ r) := by
  intro c hc
  cases items with
  | nil =>
    obtain rfl : ']' = c := by simpa [itemChars] using hc
    decide
  | cons j rest =>
    obtain rfl : ',' = c := by simpa [itemChars] using hc
    decide

variable (members : Members)

theorem ended_memberChars (r : List Char) : Ended (memberChars members ++ r) := by
  intro c hc
  cases members with
  | nil =>
    obtain rfl : '\x7d' = c := by simpa [memberChars] using hc
    decide
  | cons e rest =>
    obtain rfl : ',' = c := by simpa [memberChars] using hc
    decide

/-- What a text begins with tells the kind of its value. -/
inductive Kind where
  | null
  | yes
  | no
  | num
  | str
  | arr
  | obj
  deriving DecidableEq

def Json.kind : Json → Kind
  | .null => .null
  | .bool true => .yes
  | .bool false => .no
  | .num _ => .num
  | .str _ => .str
  | .arr _ => .arr
  | .obj _ => .obj

def leadKind (c : Char) : Option Kind :=
  if c.isDigit = true ∨ c = '-' then some .num
  else if c = 'n' then some .null
  else if c = 't' then some .yes
  else if c = 'f' then some .no
  else if c = '"' then some .str
  else if c = '[' then some .arr
  else if c = '\x7b' then some .obj
  else none

theorem chars_lead (h : Numeric j) : ∃ c l, chars j = c :: l ∧ leadKind c = some j.kind := by
  cases j with
  | null | str s => exact ⟨_, _, by rw [chars], rfl⟩
  | bool b =>
    cases b with
    | true | false => exact ⟨_, _, by rw [chars], rfl⟩
  | num text =>
    obtain ⟨⟨c, l, htext, hc⟩, _⟩ := h
    exact ⟨c, l, by rw [chars, htext], if_pos hc⟩
  | arr items =>
    cases items with
    | nil | cons j rest => exact ⟨_, _, by rw [chars], rfl⟩
  | obj members =>
    cases members with
    | nil | cons e rest => exact ⟨_, _, by rw [chars], rfl⟩

theorem kind_eq {a b : Json} (ha : Numeric a) (hb : Numeric b) (h : chars a ++ r = chars b ++ s) :
    a.kind = b.kind := by
  obtain ⟨c, l, hchars, hlead⟩ := chars_lead ha
  obtain ⟨d, l', hchars', hlead'⟩ := chars_lead hb
  rw [hchars, hchars'] at h
  rw [(cons.inj h).1, hlead'] at hlead
  exact (Option.some.inj hlead).symm

/-- Two values of one kind. -/
inductive SameKind : Json → Json → Prop
  | null : SameKind .null .null
  | bool (x : Bool) : SameKind (.bool x) (.bool x)
  | num (t u : String) : SameKind (.num t) (.num u)
  | str (t u : String) : SameKind (.str t) (.str u)
  | arr (as bs : List Json) : SameKind (.arr as) (.arr bs)
  | obj (as bs : Members) : SameKind (.obj as) (.obj bs)

theorem sameKind {a b : Json} (ha : Numeric a) (hb : Numeric b)
    (h : chars a ++ r = chars b ++ s) : SameKind a b := by
  have hkind := kind_eq ha hb h
  cases a with
  | bool x =>
    cases b with
    | bool y => cases x <;> cases y <;> first | exact .bool _ | cases hkind
    | _ => cases x <;> cases hkind
  | _ =>
    cases b with
    | bool y => cases y <;> cases hkind
    | _ => first | constructor | cases hkind

theorem takeWhile_number {text : String} (h : IsNumber text) (hr : Ended r) :
    (text.toList ++ r).takeWhile isNumberChar = text.toList := by
  rw [takeWhile_append_of_pos h.2]
  cases r with
  | nil => simp
  | cons c rest =>
    have hc : isNumberChar c = false := hr c rfl
    simp [hc]

theorem number_append_inj {t u : String} (ht : IsNumber t) (hu : IsNumber u) (hr : Ended r)
    (hs : Ended s) (h : t.toList ++ r = u.toList ++ s) : t = u ∧ r = s := by
  have hlist : t.toList = u.toList := by
    rw [← takeWhile_number ht hr, h, takeWhile_number hu hs]
  rw [hlist] at h
  exact ⟨String.toList_injective hlist, append_cancel_left h⟩

theorem stringChars_toList_inj {k l : String}
    (h : stringChars k.toList ++ r = stringChars l.toList ++ s) : k = l ∧ r = s := by
  obtain ⟨hlist, hrs⟩ := stringChars_append_inj h
  exact ⟨String.toList_injective hlist, hrs⟩

theorem arr_nil_ne {rest : List Json} (hj : Numeric (.arr (j :: rest))) :
    chars (.arr []) ++ r ≠ chars (.arr (j :: rest)) ++ s := by
  intro h
  obtain ⟨c, l, hchars, hlead⟩ := chars_lead hj.1
  rw [chars, chars, hchars] at h
  obtain rfl : ']' = c := (cons.inj (cons.inj h).2).1
  cases hlead

mutual

/-- **Values can be read back**, with whatever follows them. -/
theorem chars_append_inj : ∀ (a : Json) {b : Json} {r s : List Char}, Numeric a → Numeric b →
    Ended r → Ended s → chars a ++ r = chars b ++ s → a = b ∧ r = s
  | .null, _, r, s, ha, hb, _, _, h | .bool _, _, r, s, ha, hb, _, _, h => by
      cases sameKind ha hb h
      exact ⟨rfl, append_cancel_left h⟩
  | .num t, _, r, s, ha, hb, hr, hs, h => by
      cases sameKind ha hb h with
      | num _ u =>
      rw [Numeric] at ha hb
      rw [chars, chars] at h
      obtain ⟨rfl, hrs⟩ := number_append_inj ha hb hr hs h
      exact ⟨rfl, hrs⟩
  | .str t, _, r, s, ha, hb, _, _, h => by
      cases sameKind ha hb h with
      | str _ u =>
      rw [chars, chars] at h
      obtain ⟨rfl, hrs⟩ := stringChars_toList_inj (cons.inj h).2
      exact ⟨rfl, hrs⟩
  | .arr as, _, r, s, ha, hb, _, _, h => by
      have hitems := @itemChars_append_inj as
      cases sameKind ha hb h with
      | arr _ bs =>
      cases as with
      | nil =>
        cases bs with
        | nil => exact ⟨rfl, append_cancel_left h⟩
        | cons j rest => exact absurd h (arr_nil_ne hb)
      | cons i rest =>
        cases bs with
        | nil => exact absurd h.symm (arr_nil_ne ha)
        | cons j rest' =>
          rw [chars, chars] at h
          obtain ⟨heq, hrs⟩ := hitems ha hb (congrArg (cons ',') (cons.inj h).2)
          exact ⟨congrArg Json.arr heq, hrs⟩
  | .obj as, _, r, s, ha, hb, _, _, h => by
      have hmembers := @memberChars_append_inj as
      cases sameKind ha hb h with
      | obj _ bs =>
      cases as with
      | nil =>
        cases bs with
        | nil => exact ⟨rfl, append_cancel_left h⟩
        | cons e rest =>
          rw [chars, chars] at h
          exact absurd (cons.inj (cons.inj h).2).1 (by decide)
      | cons e rest =>
        cases bs with
        | nil =>
          rw [chars, chars] at h
          exact absurd (cons.inj (cons.inj h).2).1 (by decide)
        | cons e' rest' =>
          rw [chars, chars] at h
          obtain ⟨heq, hrs⟩ := hmembers ha hb (congrArg (cons ',') (cons.inj h).2)
          exact ⟨congrArg Json.obj heq, hrs⟩

theorem itemChars_append_inj : ∀ (as : List Json) {bs : List Json} {r s : List Char},
    NumericItems as → NumericItems bs → itemChars as ++ r = itemChars bs ++ s → as = bs ∧ r = s
  | [], bs, r, s, _, _, h => by
      cases bs with
      | nil => exact ⟨rfl, append_cancel_left h⟩
      | cons j rest =>
        rw [itemChars, itemChars] at h
        exact absurd (cons.inj h).1 (by decide)
  | i :: rest, bs, r, s, ha, hb, h => by
      cases bs with
      | nil =>
        rw [itemChars, itemChars] at h
        exact absurd (cons.inj h).1 (by decide)
      | cons j rest' =>
        rw [NumericItems] at ha hb
        rw [itemChars, itemChars, cons_append, cons_append, append_assoc, append_assoc] at h
        obtain ⟨rfl, htail⟩ := chars_append_inj i ha.1 hb.1 (ended_itemChars _ _)
          (ended_itemChars _ _) (cons.inj h).2
        obtain ⟨rfl, hrs⟩ := itemChars_append_inj rest ha.2 hb.2 htail
        exact ⟨rfl, hrs⟩

theorem memberChars_append_inj : ∀ (as : Members) {bs : Members} {r s : List Char},
    NumericMembers as → NumericMembers bs → memberChars as ++ r = memberChars bs ++ s →
      as = bs ∧ r = s
  | [], bs, r, s, _, _, h => by
      cases bs with
      | nil => exact ⟨rfl, append_cancel_left h⟩
      | cons e rest =>
        rw [memberChars, memberChars] at h
        exact absurd (cons.inj h).1 (by decide)
  | (k, i) :: rest, bs, r, s, ha, hb, h => by
      cases bs with
      | nil =>
        rw [memberChars, memberChars] at h
        exact absurd (cons.inj h).1 (by decide)
      | cons e rest' =>
        obtain ⟨l, j⟩ := e
        rw [NumericMembers] at ha hb
        rw [memberChars, memberChars] at h
        simp only [cons_append, append_assoc] at h
        obtain ⟨rfl, hvalue⟩ := stringChars_toList_inj (cons.inj (cons.inj h).2).2
        obtain ⟨rfl, htail⟩ := chars_append_inj i ha.1 hb.1 (ended_memberChars _ _)
          (ended_memberChars _ _) (cons.inj hvalue).2
        obtain ⟨rfl, hrs⟩ := memberChars_append_inj rest ha.2 hb.2 htail
        exact ⟨rfl, hrs⟩

end

theorem getLast?_memberChars : (memberChars members).getLast? = some '\x7d' := by
  induction members with
  | nil => rw [memberChars]; rfl
  | cons e rest ih =>
    rw [memberChars]
    simp [getLast?_cons, getLast?_append, ih]

theorem ends_obj :
    (chars (.obj members)).head? = some '\x7b' ∧ (chars (.obj members)).getLast? = some '\x7d' := by
  cases members with
  | nil => rw [chars]; exact ⟨rfl, rfl⟩
  | cons e rest =>
    have hlast := getLast?_memberChars rest
    rw [chars]
    refine ⟨rfl, ?_⟩
    simp [getLast?_cons, getLast?_append, hlast]

/-- **The text determines the value.** -/
theorem text_injective {a b : Json} (ha : Numeric a) (hb : Numeric b) (h : text a = text b) :
    a = b := by
  have hchars : chars a = chars b := String.ofList_injective h
  have happend : chars a ++ [] = chars b ++ [] := by rw [hchars]
  exact (chars_append_inj a ha hb ended_nil ended_nil happend).1

end GoJson
