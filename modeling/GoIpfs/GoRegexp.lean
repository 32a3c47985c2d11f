import GoIpfs.GoUtf8
import Mathlib.Algebra.GroupWithZero.Nat
import Mathlib.Data.List.Infix

/-!
# Regular expressions of Go

`regexp.Compile` and `MatchString` for expressions made of literal runes,
escaped punctuation, `\d`, classes of one rune, `.`, `^`, `$`, groups,
alternatives and the operators `*`, `+` and `?`.  An expression that uses any
other syntax (escapes of letters, longer classes, counted repetitions, flags) is
left to the parameter `engine`, so what is proved holds whatever such an
expression means.

An expression is cut into tokens and parsed with a stack of open groups, as in
`regexp/syntax`: an operator without an operand, an operator after an operator
and an unbalanced parenthesis are errors.  Whether an operator is lazy does not
matter for matching.

The matcher `ends` computes the positions at which a match can end; `Run` says
the same as a relation (`mem_ends_iff`).  A match can be cut short: leaving out
repetitions and optional parts gives a match of at most `least` runes, which
still meets the anchors (`Run.shorten`).
-/

namespace GoRegexp

open GoBytes GoUtf8 Option

/-- The rune of an ASCII character. -/
def rune (c : Char) : Rune := c.toNat

/-! ## Expressions -/

/-- A set of runes: ranges, possibly complemented. -/
structure RuneSet where
  negated : Bool
  ranges : List (Rune × Rune)
  deriving DecidableEq, Repr

def RuneSet.has (set : RuneSet) (r : Rune) : Bool :=
  (set.ranges.any fun range => range.1 ≤ r && r ≤ range.2) != set.negated

def RuneSet.single (r : Rune) : RuneSet := ⟨false, [(r, r)]⟩

def RuneSet.notSingle (r : Rune) : RuneSet := ⟨true, [(r, r)]⟩

/-- `\d` -/
def RuneSet.digit : RuneSet := ⟨false, [(rune '0', rune '9')]⟩

/-- `.` without the flag `s`. -/
def RuneSet.notNewline : RuneSet := RuneSet.notSingle (rune '\n')

inductive Re where
  | empty
  | chars (set : RuneSet)
  /-- `^` without the flag `m`. -/
  | beginText
  /-- `$` without the flag `m`. -/
  | endText
  | cat (a b : Re)
  | alt (a b : Re)
  | star (a : Re)
  | plus (a : Re)
  | quest (a : Re)
  deriving DecidableEq, Repr

/-! ## Matching -/

/-- A position in a text: whether it is the beginning, and what follows. -/
abbrev Pos := Bool × List Rune

/-- Up to `n` steps of `f`, in all ways. -/
def iterate (f : Pos → List Pos) : Nat → Pos → List Pos
  | 0, p => [p]
  | n + 1, p => p :: (f p).flatMap (iterate f n)

/-- The positions at which a match from `p` can end.  A repetition that consumes
nothing need not be repeated. -/
def Re.ends : Re → Pos → List Pos
  | .empty, p => [p]
  | .chars _, (_, []) => []
  | .chars set, (_, r :: t) => if set.has r then [(false, t)] else []
  | .beginText, p => if p.1 then [p] else []
  | .endText, p => if p.2 = [] then [p] else []
  | .cat a b, p => (a.ends p).flatMap b.ends
  | .alt a b, p => a.ends p ++ b.ends p
  | .star a, p => iterate a.ends p.2.length p
  | .plus a, p => (a.ends p).flatMap fun q => iterate a.ends q.2.length q
  | .quest a, p => p :: a.ends p

def positions : List Rune → List Pos
  | text => (true, text) :: (text.tails.drop 1).map fun t => (false, t)

/-- `Regexp.MatchString`, on the runes of the string. -/
def Re.matchString (re : Re) (text : List Rune) : Bool :=
  (positions text).any fun p => re.ends p ≠ []

/-! ## Tokens -/

inductive Repeat where
  | star
  | plus
  | quest
  deriving DecidableEq, Repr

def Repeat.apply : Repeat → Re → Re
  | .star, a => .star a
  | .plus, a => .plus a
  | .quest, a => .quest a

inductive Token where
  | chars (set : RuneSet)
  | beginText
  | endText
  | leftParen
  | rightParen
  | bar
  | repetition (op : Repeat)
  deriving DecidableEq, Repr

def isDigit (r : Rune) : Bool := rune '0' ≤ r && r ≤ rune '9'

def isLetter (r : Rune) : Bool :=
  (rune 'a' ≤ r && r ≤ rune 'z') || (rune 'A' ≤ r && r ≤ rune 'Z')

/-- What follows the number that a text starts with; a number has no leading
zero. -/
def afterNumber : List Rune → Option (List Rune)
  | [] => none
  | r :: t =>
    if isDigit r then
      if r = rune '0' ∧ t.head?.any isDigit then none else some (t.dropWhile isDigit)
    else none

/-- The text after an opening brace makes it a counted repetition `{n}`, `{n,}`
or `{n,m}`; otherwise the brace is a literal. -/
def startsRepeat (t : List Rune) : Bool :=
  match afterNumber t with
  | some (r :: u) =>
    if r = rune ',' then
      u.head? = some (rune '\x7d') ||
        ((afterNumber u).any fun v => v.head? = some (rune '\x7d'))
    else r = rune '\x7d'
  | _ => false

/-- The set that an escape stands for: punctuation stands for itself. -/
def escaped (r : Rune) : Option RuneSet :=
  if r = rune 'd' then some .digit
  else if r < 0x80 ∧ ¬ isLetter r ∧ ¬ isDigit r then some (.single r)
  else none

/-- A rune that stands for itself in a class. -/
def plainInClass (r : Rune) : Bool :=
  r ∉ [rune '\\', rune '[', rune ']', rune '^', rune '-']

/-- What a rune starts in an expression. -/
inductive Kind where
  | beginText
  | endText
  | any
  | bar
  | rightParen
  | leftParen
  | escape
  | runeClass
  | brace
  | operator (op : Repeat)
  | literal
  deriving DecidableEq, Repr

/-- The runes that do not stand for themselves. -/
def kinds : List (Rune × Kind) :=
  [(rune '^', .beginText), (rune '$', .endText), (rune '.', .any), (rune '|', .bar),
    (rune ')', .rightParen), (rune '(', .leftParen), (rune '\\', .escape),
    (rune '[', .runeClass), (rune '\x7b', .brace), (rune '*', .operator .star),
    (rune '+', .operator .plus), (rune '?', .operator .quest)]

def kind (r : Rune) : Kind := (kinds.lookup r).getD .literal

/-- The tokens of an expression, `none` if it uses syntax that is not modelled. -/
def tokens : List Rune → Option (List Token)
  | [] => some []
  | r :: s =>
    match kind r with
    | .beginText => (tokens s).map (.beginText :: ·)
    | .endText => (tokens s).map (.endText :: ·)
    | .any => (tokens s).map (.chars .notNewline :: ·)
    | .bar => (tokens s).map (.bar :: ·)
    | .rightParen => (tokens s).map (.rightParen :: ·)
    | .leftParen =>
      match s with
      | x :: c :: t =>
        if x = rune '?' then
          if c = rune ':' then (tokens t).map (.leftParen :: ·) else none
        else (tokens (x :: c :: t)).map (.leftParen :: ·)
      | [x] => if x = rune '?' then none else (tokens [x]).map (.leftParen :: ·)
      | [] => some [.leftParen]
    | .escape =>
      match s with
      | x :: t => (escaped x).bind fun set => (tokens t).map (.chars set :: ·)
      | [] => none
    | .runeClass =>
      match s with
      | x :: y :: z :: t =>
        if x = rune '^' ∧ plainInClass y ∧ z = rune ']' then
          (tokens t).map (.chars (.notSingle y) :: ·)
        else none
      | _ => none
    | .brace => if startsRepeat s then none else (tokens s).map (.chars (.single r) :: ·)
    | .operator op =>
      -- a question mark after an operator makes it lazy
      match s with
      | x :: t =>
        if x = rune '?' then (tokens t).map (.repetition op :: ·)
        else (tokens (x :: t)).map (.repetition op :: ·)
      | [] => some [.repetition op]
    | .literal => (tokens s).map (.chars (.single r) :: ·)

/-! ## Parsing -/

/-- An open group: the alternatives that a bar has ended and the parts of the
current one, both last first. -/
structure Frame where
  alts : List Re
  parts : List Re
  deriving DecidableEq, Repr

/-- The parts of a concatenation, last first. -/
def catParts : List Re → Re
  | [] => .empty
  | a :: rest => .cat (catParts rest) a

def Frame.close (f : Frame) : Re := f.alts.foldl (fun re a => .alt a re) (catParts f.parts)

structure Parser where
  /-- The groups around the current one. -/
  outer : List Frame
  top : Frame
  /-- The last token was an operator. -/
  repeated : Bool
  deriving DecidableEq, Repr

def Parser.start : Parser := ⟨[], ⟨[], []⟩, false⟩

def Parser.push (p : Parser) (a : Re) : Parser :=
  ⟨p.outer, ⟨p.top.alts, a :: p.top.parts⟩, false⟩

/-- One token; `none` is a syntax error. -/
def Parser.step (p : Parser) : Token → Option Parser
  | .chars set => some (p.push (.chars set))
  | .beginText => some (p.push .beginText)
  | .endText => some (p.push .endText)
  | .leftParen => some ⟨p.top :: p.outer, ⟨[], []⟩, false⟩
  | .rightParen =>
    match p.outer with
    | [] => none
    | f :: rest => some ⟨rest, ⟨f.alts, p.top.close :: f.parts⟩, false⟩
  | .bar => some ⟨p.outer, ⟨catParts p.top.parts :: p.top.alts, []⟩, false⟩
  | .repetition op =>
    if p.repeated then none
    else
      match p.top.parts with
      | [] => none
      | a :: rest => some ⟨p.outer, ⟨p.top.alts, op.apply a :: rest⟩, true⟩

def Parser.run (p : Parser) (ts : List Token) : Option Parser := ts.foldlM Parser.step p

def Parser.finish (p : Parser) : Option Re :=
  if p.outer = [] then some p.top.close else none

def parse (ts : List Token) : Option Re := (Parser.start.run ts).bind Parser.finish

/-- `regexp.Compile`, as the function that `MatchString` computes; `none` is an
error. -/
def compile (engine : Bytes → Option (Bytes → Bool)) (expr : Bytes) : Option (Bytes → Bool) :=
  if validString expr then
    match tokens (runes expr) with
    | none => engine expr
    | some ts => (parse ts).map fun re s => re.matchString (runes s)
  else none

/-! ## Matching as a relation -/

/-- A match from one position to another. -/
inductive Run : Re → Pos → Pos → Prop where
  | empty {p} : Run .empty p p
  | chars {set b r t} :
      set.has r = true → Run (.chars set) (b, r :: t) (false, t)
  | beginText {t} : Run .beginText (true, t) (true, t)
  | endText {b} : Run .endText (b, []) (b, [])
  | cat {a b p m q} : Run a p m → Run b m q → Run (.cat a b) p q
  | altLeft {a b p q} : Run a p q → Run (.alt a b) p q
  | altRight {a b p q} : Run b p q → Run (.alt a b) p q
  | starNil {a p} : Run (.star a) p p
  | starCons {a p m q} : Run a p m → Run (.star a) m q → Run (.star a) p q
  | plus {a p m q} : Run a p m → Run (.star a) m q → Run (.plus a) p q
  | questNone {a p} : Run (.quest a) p p
  | questSome {a p q} : Run a p q → Run (.quest a) p q

/-- How a match moves: it consumes nothing and stays where it is, or it leaves
the beginning behind. -/
def Moves (p q : Pos) : Prop := q = p ∨ q.1 = false ∧ q.2.length < p.2.length

open List

variable {p q : Pos}

theorem Moves.trans {m : Pos} (h1 : Moves p m) (h2 : Moves m q) : Moves p q := by
  rcases h1 with rfl | ⟨hfirst, hless⟩
  · exact h2
  · rcases h2 with rfl | ⟨hsecond, hless'⟩
    · exact .inr ⟨hfirst, hless⟩
    · exact .inr ⟨hsecond, hless'.trans hless⟩

variable {re : Re}

theorem Run.moves (h : Run re p q) : Moves p q := by
  induction h with
  | empty | beginText | endText | starNil | questNone => exact .inl rfl
  | chars _ => exact .inr ⟨rfl, Nat.lt_succ_self _⟩
  | cat _ _ ih1 ih2 | starCons _ _ ih1 ih2 | plus _ _ ih1 ih2 => exact ih1.trans ih2
  | altLeft _ ih | altRight _ ih | questSome _ ih => exact ih

section Iterate

variable {f : Pos → List Pos}

theorem iterate_mono {n k : Nat} (hnk : n ≤ k) (h : q ∈ iterate f n p) : q ∈ iterate f k p := by
  induction n generalizing p k with
  | zero =>
    obtain rfl := mem_singleton.mp h
    cases k <;> exact mem_cons_self
  | succ n ih =>
    obtain ⟨k, rfl⟩ := Nat.exists_eq_add_of_lt hnk
    rcases mem_cons.mp h with rfl | hmem
    · exact mem_cons_self
    · obtain ⟨m, hm, hq⟩ := mem_flatMap.mp hmem
      exact mem_cons_of_mem _ (mem_flatMap.mpr ⟨m, hm, ih (by omega) hq⟩)

theorem run_of_mem_iterate {a : Re} (hf : ∀ {p q}, q ∈ f p → Run a p q) {n : Nat}
    (h : q ∈ iterate f n p) : Run (.star a) p q := by
  induction n generalizing p with
  | zero =>
    obtain rfl := mem_singleton.mp h
    exact Run.starNil
  | succ n ih =>
    rcases mem_cons.mp h with rfl | hmem
    · exact Run.starNil
    · obtain ⟨m, hm, hq⟩ := mem_flatMap.mp hmem
      exact Run.starCons (hf hm) (ih hq)

end Iterate

theorem run_of_mem_ends (h : q ∈ re.ends p) : Run re p q := by
  induction re generalizing p q with
  | empty =>
    obtain rfl := mem_singleton.mp h
    exact Run.empty
  | chars set =>
    obtain ⟨b, _ | ⟨r, t⟩⟩ := p
    · cases h
    · obtain ⟨hr, rfl⟩ : set.has r = true ∧ q = (false, t) := by simpa [Re.ends] using h
      exact Run.chars hr
  | beginText =>
    obtain ⟨_ | _, text⟩ := p
    · cases h
    · obtain rfl := mem_singleton.mp h
      exact Run.beginText
  | endText =>
    obtain ⟨b, _ | ⟨r, t⟩⟩ := p
    · obtain rfl := mem_singleton.mp h
      exact Run.endText
    · cases h
  | cat a b iha ihb =>
    obtain ⟨m, hm, hq⟩ := mem_flatMap.mp h
    exact Run.cat (iha hm) (ihb hq)
  | alt a b iha ihb =>
    rcases mem_append.mp h with ha | hb
    · exact Run.altLeft (iha ha)
    · exact Run.altRight (ihb hb)
  | star a iha => exact run_of_mem_iterate iha h
  | plus a iha =>
    obtain ⟨m, hm, hq⟩ := mem_flatMap.mp h
    exact Run.plus (iha hm) (run_of_mem_iterate iha hq)
  | quest a iha =>
    rcases mem_cons.mp h with rfl | ha
    · exact Run.questNone
    · exact Run.questSome (iha ha)

/-- Repetitions that consume nothing can be left out, so as many steps as there
are runes suffice. -/
theorem Run.mem_ends (h : Run re p q) : q ∈ re.ends p := by
  induction h with
  | empty | beginText | endText | questNone => exact mem_cons_self
  | chars hr => simp [Re.ends, hr]
  | cat _ _ ih1 ih2 | plus _ _ ih1 ih2 => exact mem_flatMap.mpr ⟨_, ih1, ih2⟩
  | altLeft _ ih => exact mem_append_left _ ih
  | altRight _ ih => exact mem_append_right _ ih
  | starNil => exact iterate_mono (Nat.zero_le _) mem_cons_self
  | @starCons a p m q h1 _ ih1 ih2 =>
    rcases h1.moves with rfl | ⟨_, hless⟩
    · exact ih2
    · obtain ⟨n, hn⟩ := Nat.exists_eq_add_of_lt hless
      unfold Re.ends
      rw [hn]
      refine mem_cons_of_mem _ (mem_flatMap.mpr ⟨m, ih1, ?_⟩)
      exact iterate_mono (Nat.le_add_right _ _) ih2
  | questSome _ ih => exact mem_cons_of_mem _ ih

/-- **The matcher computes the relation.** -/
theorem mem_ends_iff : q ∈ re.ends p ↔ Run re p q := ⟨run_of_mem_ends, Run.mem_ends⟩

theorem start_mem_positions (text : List Rune) : (true, text) ∈ positions text :=
  mem_cons_self

variable {text : List Rune}

theorem eq_start_of_mem_positions {t : List Rune} (h : (true, t) ∈ positions text) : t = text := by
  rcases mem_cons.mp h with heq | hlater
  · exact congrArg Prod.snd heq
  · obtain ⟨_, _, hfalse⟩ := mem_map.mp hlater
    cases hfalse

theorem matchString_iff : re.matchString text = true ↔ ∃ p ∈ positions text, ∃ q, Run re p q := by
  unfold Re.matchString
  rw [List.any_eq_true]
  refine exists_congr fun p => and_congr_right fun _ => ?_
  rw [decide_eq_true_iff]
  refine ⟨fun h => ?_, fun ⟨q, hq⟩ h => ?_⟩
  · obtain ⟨q, hq⟩ := exists_mem_of_ne_nil _ h
    exact ⟨q, mem_ends_iff.mp hq⟩
  · have hmem := mem_ends_iff.mpr hq
    rw [h] at hmem
    exact absurd hmem not_mem_nil

/-! ## Short matches -/

/-- A number of runes that suffices for a match, if there is one. -/
def Re.least : Re → Nat
  | .empty | .beginText | .endText => 0
  | .chars _ => 1
  | .cat a b => a.least + b.least
  | .alt a b => max a.least b.least
  | .star _ | .quest _ => 0
  | .plus a => a.least

/-- The runes `w` can stand for what a match from `p` to `q` consumes, wherever
the match does not lose the beginning or the end of the text. -/
structure Stands (re : Re) (p q : Pos) (w : List Rune) : Prop where
  subset : w ⊆ p.2
  nil : p = q → w = []
  run : ∀ (b : Bool) (t : List Rune), (p.1 = true → b = true) → (q.2 = [] → t = []) →
    Run re (b, w ++ t) (b && w.isEmpty, t)

theorem stands_nil (h : ∀ m : Pos, Run re m m) : Stands re p q [] where
  subset := nil_subset _
  nil _ := rfl
  run b t _ _ := by simpa using h (b, t)

theorem Run.suffix (h : Run re p q) : q.2 <:+ p.2 := by
  induction h with
  | empty | beginText | endText | starNil | questNone => exact suffix_rfl
  | chars _ => exact suffix_cons _ _
  | cat _ _ ih1 ih2 | starCons _ _ ih1 ih2 | plus _ _ ih1 ih2 => exact ih2.trans ih1
  | altLeft _ ih | altRight _ ih | questSome _ ih => exact ih

theorem Moves.eq_of_eq {m : Pos} (h1 : Moves p m) (h2 : Moves m q) (h : p = q) : p = m ∧ m = q := by
  subst h
  rcases h1 with rfl | ⟨_, hless⟩
  · exact ⟨rfl, rfl⟩
  · rcases h2 with rfl | ⟨_, hless'⟩
    · exact ⟨rfl, rfl⟩
    · omega

theorem Moves.eq_of_first (h : Moves p q) (hq : q.1 = true) : p = q := by
  rcases h with rfl | ⟨hfalse, _⟩
  · rfl
  · rw [hfalse] at hq
    cases hq

theorem Moves.eq_of_end (h : Moves p q) (hp : p.2 = []) : p = q := by
  rcases h with rfl | ⟨_, hless⟩
  · rfl
  · rw [hp] at hless
    cases hless

/-- **Matches can be cut short.**  Leaving out repetitions and optional parts
gives a match of at most `least` runes that meets the same anchors. -/
theorem Run.shorten (h : Run re p q) : ∃ w : List Rune, w.length ≤ re.least ∧ Stands re p q w := by
  induction h with
  | empty => exact ⟨[], Nat.le_refl _, stands_nil fun _ => Run.empty⟩
  | @chars set b r t hr =>
    refine ⟨[r], Nat.le_refl _, ?_, ?_, ?_⟩
    · intro x hx
      rw [mem_singleton.mp hx]
      exact mem_cons_self
    · intro heq
      have hlen := congrArg (fun p : Pos => p.2.length) heq
      simp at hlen
    · intro b' t' _ _
      rw [isEmpty_cons, Bool.and_false]
      exact Run.chars hr
  | @beginText t =>
    refine ⟨[], Nat.le_refl _, nil_subset _, fun _ => rfl, ?_⟩
    intro b t' hb _
    obtain rfl := hb rfl
    exact Run.beginText
  | @endText b =>
    refine ⟨[], Nat.le_refl _, nil_subset _, fun _ => rfl, ?_⟩
    intro b' t' _ ht
    obtain rfl := ht rfl
    rw [isEmpty_nil, Bool.and_true]
    exact Run.endText
  | @cat a c p m q h1 h2 ih1 ih2 =>
    obtain ⟨w1, hlen1, hsub1, hnil1, hrun1⟩ := ih1
    obtain ⟨w2, hlen2, hsub2, hnil2, hrun2⟩ := ih2
    refine ⟨w1 ++ w2, ?_, ?_, ?_, ?_⟩
    · rw [length_append, Re.least]
      omega
    · exact append_subset.mpr ⟨hsub1, List.Subset.trans hsub2 h1.suffix.subset⟩
    · intro heq
      obtain ⟨hpm, hmq⟩ := h1.moves.eq_of_eq h2.moves heq
      rw [hnil1 hpm, hnil2 hmq]
      rfl
    · intro b t hb ht
      rw [append_assoc]
      refine Run.cat (hrun1 b (w2 ++ t) hb ?_) ?_
      · -- at the end of the text the second part consumes nothing
        intro hend
        have hmq := h2.moves.eq_of_end hend
        rw [hnil2 hmq, ht (hmq ▸ hend)]
        rfl
      · have hfinal := hrun2 (b && w1.isEmpty) t ?_ ht
        · cases w1 <;> simpa using hfinal
        · -- at the beginning of the text the first part has consumed nothing
          intro hfirst
          have hpm := h1.moves.eq_of_first hfirst
          rw [hnil1 hpm, hb (hpm ▸ hfirst)]
          rfl
  | @altLeft a c p q _ ih =>
    obtain ⟨w, hlen, hsub, hnil, hrun⟩ := ih
    exact ⟨w, hlen.trans (Nat.le_max_left _ _), hsub, hnil,
      fun b t hb ht => Run.altLeft (hrun b t hb ht)⟩
  | @altRight a c p q _ ih =>
    obtain ⟨w, hlen, hsub, hnil, hrun⟩ := ih
    exact ⟨w, hlen.trans (Nat.le_max_right _ _), hsub, hnil,
      fun b t hb ht => Run.altRight (hrun b t hb ht)⟩
  | starNil | starCons => exact ⟨[], Nat.le_refl _, stands_nil fun _ => Run.starNil⟩
  | @plus a p m q h1 h2 ih1 _ =>
    -- the first repetition alone
    obtain ⟨w, hlen, hsub, hnil, hrun⟩ := ih1
    refine ⟨w, hlen, hsub, fun heq => hnil (h1.moves.eq_of_eq h2.moves heq).1, ?_⟩
    intro b t hb ht
    refine Run.plus (hrun b t hb fun hend => ?_) Run.starNil
    exact ht (h2.moves.eq_of_end hend ▸ hend)
  | questNone | questSome => exact ⟨[], Nat.le_refl _, stands_nil fun _ => Run.questNone⟩

theorem matchString_shorten (h : re.matchString text = true) :
    ∃ w : List Rune, w.length ≤ re.least ∧ w ⊆ text ∧ re.matchString w = true := by
  obtain ⟨p, hp, q, hrun⟩ := matchString_iff.mp h
  obtain ⟨w, hlen, hsub, -, hshort⟩ := hrun.shorten
  have hsuffix : p.2 ⊆ text := by
    rcases mem_cons.mp hp with rfl | hlater
    · exact List.Subset.refl _
    · obtain ⟨t, ht, rfl⟩ := mem_map.mp hlater
      exact ((mem_tails t text).mp (mem_of_mem_drop ht)).subset
  refine ⟨w, hlen, List.Subset.trans hsub hsuffix, ?_⟩
  have hmatch := hshort true [] (fun _ => rfl) (fun _ => rfl)
  rw [append_nil] at hmatch
  exact matchString_iff.mpr ⟨_, start_mem_positions w, _, hmatch⟩

/-! ## Reading tokens -/

variable {r : Rune}

theorem mem_kinds_of_kind (h : kind r ≠ .literal) : (r, kind r) ∈ kinds := by
  unfold kind at h ⊢
  cases hlookup : kinds.lookup r with
  | none => exact absurd (congrArg (getD · Kind.literal) hlookup) h
  | some k =>
    obtain ⟨before, after, heq, -⟩ := lookup_eq_some_iff.mp hlookup
    rw [heq]
    exact mem_append_right _ mem_cons_self

theorem eq_of_kind_eq {x : Rune} (h : kind r = kind x) (hx : kind x ≠ .literal) : r = x := by
  have hdistinct : ∀ e ∈ kinds, ∀ e' ∈ kinds, e.2 = e'.2 → e.1 = e'.1 := by decide
  exact hdistinct _ (mem_kinds_of_kind (h ▸ hx)) _ (mem_kinds_of_kind hx) h

/-- A text starts with a token; the runes after it are left. -/
inductive Starts : List Rune → Token → List Rune → Prop
  | beginText {r s} (hr : kind r = .beginText) : Starts (r :: s) .beginText s
  | endText {r s} (hr : kind r = .endText) : Starts (r :: s) .endText s
  | bar {r s} (hr : kind r = .bar) : Starts (r :: s) .bar s
  | rightParen {r s} (hr : kind r = .rightParen) :
      Starts (r :: s) .rightParen s
  | leftParen {r s} (hr : kind r = .leftParen)
      (hs : s.head? ≠ some (rune '?')) : Starts (r :: s) .leftParen s
  | escaped {r x s set} (hr : kind r = .escape)
      (hx : escaped x = some set) : Starts (r :: x :: s) (.chars set) s
  | notSingle {r y s} (hr : kind r = .runeClass)
      (hy : plainInClass y = true) :
      Starts (r :: rune '^' :: y :: rune ']' :: s) (.chars (.notSingle y)) s
  | brace {r s} (hr : kind r = .brace) (hs : startsRepeat s = false) :
      Starts (r :: s) (.chars (.single r)) s
  | literal {r s} (hr : kind r = .literal) :
      Starts (r :: s) (.chars (.single r)) s
  | operator {r s op} (hr : kind r = .operator op)
      (hs : s.head? ≠ some (rune '?')) : Starts (r :: s) (.repetition op) s
  | lazy {r s op} (hr : kind r = .operator op) :
      Starts (r :: rune '?' :: s) (.repetition op) s

/-- **A token at the start of a text is cut off.** -/
theorem tokens_of_starts {s rest : List Rune} {t : Token} (h : Starts s t rest) :
    tokens s = (tokens rest).map (t :: ·) := by
  rw [tokens.eq_def]
  cases h with
  | beginText hr | endText hr | bar hr | rightParen hr | literal hr => simp only [hr]
  | leftParen hr hs =>
    match rest, hs with
    | [], _ => simp only [hr, tokens, map_some]
    | [x], hs | x :: c :: rest, hs =>
      have hx : x ≠ rune '?' := fun heq => hs (congrArg some heq)
      simp only [hr, if_neg hx]
  | escaped hr hx => simp only [hr, hx, bind_some]
  | notSingle hr hy => simp only [hr, hy, and_self, if_true]
  | brace hr hs => simp only [hr, hs, Bool.false_eq_true, if_false]
  | operator hr hs =>
    cases rest with
    | nil => simp only [hr, tokens, map_some]
    | cons x rest =>
      have hx : x ≠ rune '?' := fun heq => hs (congrArg some heq)
      simp only [hr, if_neg hx]
  | lazy hr => simp only [hr, if_true]

/-! ## Counted repetitions -/

/-- The runes of a counted repetition after its opening brace. -/
def inBraces (r : Rune) : Bool := isDigit r || r = rune ',' || r = rune '\x7d'

theorem inBraces_of_isDigit (h : isDigit r = true) : inBraces r = true := by
  simp only [inBraces, h, Bool.true_or]

theorem any_filter_of_imp {α : Type} {f g : α → Bool} (h : ∀ a, g a = true → f a = true)
    (o : Option α) : (o.filter f).any g = o.any g := by
  cases o with
  | none => rfl
  | some a =>
    by_cases hf : f a = true
    · rw [filter_some_pos hf]
    · have hg : g a = false := by
        rw [← Bool.not_eq_true]
        exact fun hg => hf (h a hg)
      rw [filter_some_neg (by simpa using hf), any_some, hg]
      rfl

theorem dropWhile_takeWhile_of_imp {α : Type} {f g : α → Bool}
    (h : ∀ a, g a = true → f a = true) (s : List α) :
    (s.takeWhile f).dropWhile g = (s.dropWhile g).takeWhile f := by
  induction s with
  | nil => rfl
  | cons a s ih =>
    by_cases hg : g a = true
    · rw [takeWhile_cons_of_pos (h a hg), dropWhile_cons_of_pos hg,
        dropWhile_cons_of_pos hg, ih]
    · rw [dropWhile_cons_of_neg hg]
      by_cases hf : f a = true
      · rw [takeWhile_cons_of_pos hf, dropWhile_cons_of_neg hg]
      · rw [takeWhile_cons_of_neg hf]
        rfl

theorem afterNumber_takeWhile (s : List Rune) :
    afterNumber (s.takeWhile inBraces) = (afterNumber s).map (takeWhile inBraces) := by
  cases s with
  | nil => rfl
  | cons r t =>
    by_cases hr : isDigit r = true
    · rw [takeWhile_cons_of_pos (inBraces_of_isDigit hr), afterNumber, afterNumber,
        if_pos hr, if_pos hr, head?_takeWhile,
        any_filter_of_imp (fun _ => inBraces_of_isDigit),
        dropWhile_takeWhile_of_imp (fun _ => inBraces_of_isDigit)]
      split <;> rfl
    · have hnone : afterNumber (r :: t) = none := if_neg hr
      rw [hnone]
      by_cases hb : inBraces r = true
      · rw [takeWhile_cons_of_pos hb]
        exact if_neg hr
      · rw [takeWhile_cons_of_neg hb]
        rfl

theorem closes_takeWhile (s : List Rune) :
    (s.takeWhile inBraces).head? = some (rune '\x7d') ↔ s.head? = some (rune '\x7d') := by
  rw [head?_takeWhile, filter_eq_some_iff]
  exact and_iff_left (by decide)

/-- Whether a brace starts a counted repetition is decided by the digits, commas
and braces that follow it. -/
theorem startsRepeat_takeWhile (s : List Rune) :
    startsRepeat (s.takeWhile inBraces) = startsRepeat s := by
  unfold startsRepeat
  rw [afterNumber_takeWhile]
  cases afterNumber s with
  | none => rfl
  | some v =>
    cases v with
    | nil => rfl
    | cons r u =>
      rw [map_some]
      by_cases hb : inBraces r = true
      · rw [takeWhile_cons_of_pos hb]
        simp only [closes_takeWhile, afterNumber_takeWhile, Option.any_map]
      have hcomma : r ≠ rune ',' := by
        intro heq
        exact hb (heq ▸ by decide)
      have hclose : r ≠ rune '\x7d' := by
        intro heq
        exact hb (heq ▸ by decide)
      rw [takeWhile_cons_of_neg hb]
      simp only [if_neg hcomma, hclose, decide_false]

theorem startsRepeat_flatMap {f : Rune → List Rune} {tail : List Rune}
    (hf : ∀ r, f r = [r] ∨ inBraces r = false ∧ ∃ x t, f r = x :: t ∧ inBraces x = false)
    (htail : tail.takeWhile inBraces = []) (s : List Rune) :
    startsRepeat (s.flatMap f ++ tail) = startsRepeat s := by
  have hprefix : (s.flatMap f ++ tail).takeWhile inBraces = s.takeWhile inBraces := by
    induction s with
    | nil => exact htail
    | cons r s ih =>
      rw [flatMap_cons, append_assoc]
      rcases hf r with hr | ⟨hr, x, t, hx, hout⟩
      · rw [hr, singleton_append, takeWhile_cons, takeWhile_cons, ih]
      · rw [hx, cons_append, takeWhile_cons, takeWhile_cons, hr, hout]
        rfl
  rw [← startsRepeat_takeWhile, hprefix, startsRepeat_takeWhile]

/-! ## What the parser builds -/

theorem Parser.run_append (p : Parser) (ts us : List Token) :
    p.run (ts ++ us) = (p.run ts).bind fun q => q.run us :=
  foldlM_append

theorem Parser.run_cons (p : Parser) (t : Token) (ts : List Token) :
    p.run (t :: ts) = (p.step t).bind fun q => q.run ts :=
  foldlM_cons

/-- Matches of several expressions, one after the other. -/
def RunAll : List Re → Pos → Pos → Prop
  | [], p, q => q = p
  | a :: rest, p, q => ∃ m, Run a p m ∧ RunAll rest m q

theorem runAll_append {as bs : List Re} :
    RunAll (as ++ bs) p q ↔ ∃ m, RunAll as p m ∧ RunAll bs m q := by
  induction as generalizing p with
  | nil => exact ⟨fun h => ⟨p, rfl, h⟩, fun ⟨_, hm, h⟩ => hm ▸ h⟩
  | cons a as ih =>
    refine ⟨fun ⟨n, hn, h⟩ => ?_, fun ⟨m, ⟨n, hn, hm⟩, h⟩ => ⟨n, hn, ih.mpr ⟨m, hm, h⟩⟩⟩
    obtain ⟨m, hm, hq⟩ := ih.mp h
    exact ⟨m, ⟨n, hn, hm⟩, hq⟩

theorem run_catParts {parts : List Re} : Run (catParts parts) p q ↔ RunAll parts.reverse p q := by
  induction parts generalizing q with
  | nil =>
    refine ⟨fun h => ?_, fun h => ?_⟩
    · cases h
      rfl
    · cases h
      exact Run.empty
  | cons a rest ih =>
    rw [reverse_cons, runAll_append]
    refine ⟨fun h => ?_, fun ⟨m, hm, n, hn, hq⟩ => ?_⟩
    · cases h with
      | cat hm hq => exact ⟨_, ih.mp hm, _, hq, rfl⟩
    · cases hq
      exact Run.cat (ih.mpr hm) hn

variable {set : RuneSet}

theorem run_chars {b : Bool} :
    Run (.chars set) (b, text) q ↔ ∃ r t, text = r :: t ∧ set.has r = true ∧ q = (false, t) := by
  refine ⟨fun h => ?_, fun ⟨r, t, htext, hr, hq⟩ => ?_⟩
  · cases h with
    | chars hr => exact ⟨_, _, rfl, hr, rfl⟩
  · subst htext hq
    exact Run.chars hr

theorem run_star_of_forall {u : List Rune} (hu : ∀ r ∈ u, set.has r = true) (b : Bool)
    (t : List Rune) : Run (.star (.chars set)) (b, u ++ t) (b && u.isEmpty, t) := by
  induction u generalizing b with
  | nil =>
    rw [isEmpty_nil, Bool.and_true]
    exact Run.starNil
  | cons r u ih =>
    obtain ⟨hr, hu⟩ := forall_mem_cons.mp hu
    have hrest := ih hu false
    rw [isEmpty_cons, Bool.and_false]
    exact Run.starCons (Run.chars hr) hrest

theorem forall_of_run_star (h : Run (.star (.chars set)) p q) :
    ∃ u, p.2 = u ++ q.2 ∧ (∀ r ∈ u, set.has r = true) ∧ q.1 = (p.1 && u.isEmpty) := by
  generalize hre : Re.star (.chars set) = re at h
  induction h with
  | @starNil _ p => exact ⟨[], rfl, forall_mem_nil _, (Bool.and_true _).symm⟩
  | @starCons _ p _ _ hfirst _ _ ih =>
    cases hre
    obtain ⟨r, t, htext, hr, rfl⟩ := run_chars.mp hfirst
    obtain ⟨u, ht, hu, hq⟩ := ih rfl
    refine ⟨r :: u, ?_, forall_mem_cons.mpr ⟨hr, hu⟩, ?_⟩
    · rw [htext, cons_append, ← ht]
    · rw [hq, Bool.false_and, isEmpty_cons, Bool.and_false]
  | _ => cases hre

theorem run_plus_chars {b : Bool} :
    Run (.plus (.chars set)) (b, text) q ↔
      ∃ u t, u ≠ [] ∧ text = u ++ t ∧ (∀ r ∈ u, set.has r = true) ∧ q = (false, t) := by
  refine ⟨fun h => ?_, fun ⟨u, t, hne, htext, hu, hq⟩ => ?_⟩
  · cases h with
    | plus hfirst hrest =>
      obtain ⟨r, t, rfl, hr, rfl⟩ := run_chars.mp hfirst
      obtain ⟨u, ht, hu, hq⟩ := forall_of_run_star hrest
      refine ⟨r :: u, q.2, cons_ne_nil _ _, ?_, forall_mem_cons.mpr ⟨hr, hu⟩, ?_⟩
      · exact congrArg (r :: ·) ht
      · exact Prod.ext (hq.trans (Bool.false_and _)) rfl
  · subst htext hq
    cases u with
    | nil => exact absurd rfl hne
    | cons r u =>
      obtain ⟨hr, hu⟩ := forall_mem_cons.mp hu
      exact Run.plus (Run.chars hr) (run_star_of_forall hu false t)

theorem has_single {x : Rune} : (RuneSet.single r).has x = true ↔ x = r := by
  simp only [RuneSet.has, RuneSet.single, any_cons, any_nil, Bool.or_false,
    Bool.bne_false, Bool.and_eq_true, decide_eq_true_eq]
  exact ⟨fun h => Nat.le_antisymm h.2 h.1, fun h => h ▸ ⟨Nat.le_refl _, Nat.le_refl _⟩⟩

theorem has_notSingle {x : Rune} : (RuneSet.notSingle r).has x = true ↔ x ≠ r := by
  have hnot : (RuneSet.notSingle r).has x = !(RuneSet.single r).has x := by
    simp only [RuneSet.has, RuneSet.single, RuneSet.notSingle, Bool.bne_false, Bool.bne_true]
  rw [hnot, Bool.not_eq_true', ← Bool.not_eq_true, has_single]

theorem has_digit (x : Rune) : RuneSet.digit.has x = isDigit x := by
  simp only [RuneSet.has, RuneSet.digit, any_cons, any_nil, Bool.or_false,
    Bool.bne_false, isDigit]

/-- How many runes the tokens consume at least. -/
def charTokens : List Token → Nat
  | [] => 0
  | .chars _ :: ts => charTokens ts + 1
  | _ :: ts => charTokens ts

def leastAll (res : List Re) : Nat := (res.map Re.least).sum

def Frame.least (f : Frame) : Nat := leastAll f.alts + leastAll f.parts

def Parser.least (p : Parser) : Nat := (p.outer.map Frame.least).sum + p.top.least

theorem least_catParts (parts : List Re) : (catParts parts).least = leastAll parts := by
  induction parts with
  | nil => rfl
  | cons a rest ih =>
    rw [catParts, Re.least, ih, leastAll, leastAll, map_cons, sum_cons, Nat.add_comm]

theorem least_apply_le (op : Repeat) (a : Re) : (op.apply a).least ≤ a.least := by
  cases op with
  | star | quest => exact Nat.zero_le _
  | plus => exact Nat.le_refl _

theorem least_foldl_alt_le (alts : List Re) (re : Re) :
    (alts.foldl (fun re a => .alt a re) re).least ≤ leastAll alts + re.least := by
  induction alts generalizing re with
  | nil => exact Nat.le_add_left _ _
  | cons a rest ih =>
    have hrest := ih (.alt a re)
    have halt : (Re.alt a re).least = max a.least re.least := rfl
    have hall : leastAll (a :: rest) = a.least + leastAll rest := sum_cons
    rw [foldl_cons]
    omega

theorem least_close_le (f : Frame) : f.close.least ≤ f.least := by
  have h := least_foldl_alt_le f.alts (catParts f.parts)
  rwa [least_catParts] at h

theorem leastAll_cons (a : Re) (rest : List Re) : leastAll (a :: rest) = a.least + leastAll rest :=
  sum_cons

theorem Parser.step_least {p q : Parser} {t : Token} (h : p.step t = some q) :
    q.least ≤ p.least + charTokens [t] := by
  obtain ⟨outer, ⟨alts, parts⟩, repeated⟩ := p
  cases t with
  | chars set | beginText | endText =>
    cases h
    simp only [Parser.least, Parser.push, Frame.least, leastAll_cons, Re.least, charTokens]
    omega
  | leftParen =>
    cases h
    simp only [Parser.least, Frame.least, map_cons, sum_cons, charTokens]
    simp only [leastAll, map_nil, sum_nil]
    omega
  | rightParen =>
    cases outer with
    | nil => cases h
    | cons f rest =>
      cases h
      have hclose := least_close_le ⟨alts, parts⟩
      simp only [Parser.least, Frame.least, map_cons, sum_cons, leastAll_cons,
        charTokens] at hclose ⊢
      omega
  | bar =>
    cases h
    simp only [Parser.least, Frame.least, leastAll_cons, least_catParts, charTokens]
    simp only [leastAll, map_nil, sum_nil]
    omega
  | repetition op =>
    cases repeated with
    | true => cases h
    | false =>
      cases parts with
      | nil => cases h
      | cons a rest =>
        cases h
        have hop := least_apply_le op a
        simp only [Parser.least, Frame.least, leastAll_cons, charTokens]
        omega

theorem charTokens_append (ts us : List Token) :
    charTokens (ts ++ us) = charTokens ts + charTokens us := by
  induction ts with
  | nil => exact (Nat.zero_add _).symm
  | cons t ts ih =>
    cases t with
    | chars set =>
      rw [cons_append, charTokens, charTokens, ih]
      omega
    | _ => exact ih

theorem Parser.run_least {p q : Parser} {ts : List Token} (h : p.run ts = some q) :
    q.least ≤ p.least + charTokens ts := by
  induction ts generalizing p with
  | nil =>
    cases h
    exact Nat.le_refl _
  | cons t ts ih =>
    obtain ⟨m, hm, hq⟩ := bind_eq_some_iff.mp h
    have hstep := Parser.step_least hm
    have hrest := ih hq
    have hcount := charTokens_append [t] ts
    rw [singleton_append] at hcount
    omega

end GoRegexp
