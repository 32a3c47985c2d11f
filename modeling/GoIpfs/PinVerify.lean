import GoIpfs.FiniteDag

/-!
# Verification of recursive pins

`pinVerify` (`core/commands/pin/pin.go`) and `PinAPI.Verify`
(`core/coreapi/pin.go`).  Both walk the DAG below each recursive pin with one
memo for all pins.  They are the same recursion over different checks, so each
is a `Summary` that the library evaluates with a memo; what is proved here is
what the statuses mean.
-/

namespace PinVerify

open LinkReach FiniteDag List Except

variable {Cid : Type} [DecidableEq Cid]

/-- What the walks ask about a CID, the same during the whole run: the error of
`verifcid.ValidateCid`, the error of the link fetch, and the links.  The rank
stands for a finite DAG. -/
structure Dag (Cid : Type) where
  validateCid : Cid → Option String
  fetchErr : Cid → Option String
  links : Cid → List Cid
  rank : Cid → Nat
  rank_lt : Ranked links rank

/-- `dag.GetLinksWithDAG` on the offline DAG service. -/
def Dag.getLinks (dag : Dag Cid) (c : Cid) : Except String (List Cid) :=
  match dag.fetchErr c with
  | some err => .error err
  | none => .ok (dag.links c)

structure BadNode where
  cid : String
  err : String
  deriving DecidableEq, Repr

structure PinStatus where
  ok : Bool
  badNodes : List BadNode
  deriving DecidableEq, Repr

structure PinVerifyRes where
  cid : String
  status : PinStatus
  deriving DecidableEq, Repr

structure PinVerifyOpts where
  explain : Bool
  includeOk : Bool

/-- The status of a CID that fails a check itself. -/
def badStatus (opts : PinVerifyOpts) (enc : Cid → String) (key : Cid) (err : String) :
    PinStatus where
  ok := false
  badNodes := if opts.explain then [⟨enc key, err⟩] else []

/-- `checkPin` of `pinVerify`: the CID is validated, then its links are fetched
and checked one after the other. -/
def checkPin (dag : Dag Cid) (opts : PinVerifyOpts) (enc : Cid → String) :
    Summary Cid PinStatus where
  expand := fun root =>
    match dag.validateCid root with
    | some err => .error (badStatus opts enc root err)
    | none =>
      match dag.getLinks root with
      | .error err => .error (badStatus opts enc root err)
      | .ok links => .ok links
  start := fun _ => ⟨true, []⟩
  merge := fun status res =>
    if !res.ok then ⟨false, status.badNodes ++ res.badNodes⟩ else status

/-- The goroutine of `pinVerify`: the pins are checked with one memo, and the
results are sent that are not ok or asked for. -/
def sendResults (dag : Dag Cid) (opts : PinVerifyOpts) (enc : Cid → String) :
    List Cid → (Cid → Option PinStatus) → List PinVerifyRes
  | [], _ => []
  | c :: rest, visited =>
    let r := (checkPin dag opts enc).visit (dag.rank c) c visited
    if !r.1.ok || opts.includeOk then ⟨enc c, r.1⟩ :: sendResults dag opts enc rest r.2
    else sendResults dag opts enc rest r.2

/-- `pinVerify`, with the answer of `RecursiveKeys`. -/
def pinVerify (dag : Dag Cid) (opts : PinVerifyOpts) (enc : Cid → String)
    (recPins : Except String (List Cid)) : Except String (List PinVerifyRes) :=
  match recPins with
  | .error err => .error err
  | .ok pins => .ok (sendResults dag opts enc pins fun _ => none)

/-- The status of `PinAPI.Verify`; a bad node is named by its IPLD path, that is,
by its CID. -/
structure ApiStatus (Cid : Type) where
  ok : Bool
  cid : Cid
  badNodes : List (Cid × String)
  deriving DecidableEq, Repr

/-- `checkPin` of `PinAPI.Verify`, which does not validate the CID. -/
def apiCheckPin (dag : Dag Cid) : Summary Cid (ApiStatus Cid) where
  expand := fun root =>
    match dag.getLinks root with
    | .error err => .error ⟨false, root, [(root, err)]⟩
    | .ok links => .ok links
  start := fun root => ⟨true, root, []⟩
  merge := fun status res =>
    if !res.ok then { status with ok := false, badNodes := status.badNodes ++ res.badNodes }
    else status

/-- The goroutine of `PinAPI.Verify`. -/
def apiSendResults (dag : Dag Cid) :
    List Cid → (Cid → Option (ApiStatus Cid)) → List (ApiStatus Cid)
  | [], _ => []
  | c :: rest, visited =>
    let r := (apiCheckPin dag).visit (dag.rank c) c visited
    r.1 :: apiSendResults dag rest r.2

def apiVerify (dag : Dag Cid) (recPins : Except String (List Cid)) :
    Except String (List (ApiStatus Cid)) :=
  match recPins with
  | .error err => .error err
  | .ok pins => .ok (apiSendResults dag pins fun _ => none)

/-! ## Good nodes -/

def Dag.good (dag : Dag Cid) (c : Cid) : Bool :=
  (dag.validateCid c).isNone && (dag.fetchErr c).isNone

def Dag.goodLinks (dag : Dag Cid) (c : Cid) : List Cid :=
  if dag.good c then dag.links c else []

variable {dag : Dag Cid} {opts : PinVerifyOpts} {enc : Cid → String} {c : Cid}

omit [DecidableEq Cid]

theorem expand_of_good (h : dag.good c = true) :
    (checkPin dag opts enc).expand c = .ok (dag.links c) := by
  simp only [Dag.good, Bool.and_eq_true, Option.isNone_iff_eq_none] at h
  simp [checkPin, Dag.getLinks, h]

theorem expand_of_bad (h : dag.good c = false) :
    ∃ err, (checkPin dag opts enc).expand c = .error (badStatus opts enc c err) := by
  cases hvalid : dag.validateCid c with
  | some err => exact ⟨err, by simp [checkPin, hvalid]⟩
  | none =>
    cases hfetch : dag.fetchErr c with
    | some err => exact ⟨err, by simp [checkPin, Dag.getLinks, hvalid, hfetch]⟩
    | none => simp [Dag.good, hvalid, hfetch] at h

theorem expand_ok {below : List Cid} (h : (checkPin dag opts enc).expand c = .ok below) :
    dag.good c = true ∧ below = dag.links c := by
  cases hgood : dag.good c with
  | true =>
    rw [expand_of_good hgood] at h
    exact ⟨rfl, (ok.inj h).symm⟩
  | false =>
    obtain ⟨err, hbad⟩ := expand_of_bad hgood
    rw [hbad] at h
    cases h

theorem lowers_checkPin : (checkPin dag opts enc).Lowers dag.rank := by
  intro a below h b hb
  obtain ⟨_, rfl⟩ := expand_ok h
  exact dag.rank_lt a b hb

theorem apiExpand_ok {below : List Cid} (h : (apiCheckPin dag).expand c = .ok below) :
    dag.fetchErr c = none ∧ below = dag.links c := by
  simp only [apiCheckPin, Dag.getLinks] at h
  cases hfetch : dag.fetchErr c with
  | some err =>
    rw [hfetch] at h
    cases h
  | none =>
    rw [hfetch] at h
    exact ⟨rfl, (ok.inj h).symm⟩

theorem lowers_apiCheckPin : (apiCheckPin dag).Lowers dag.rank := by
  intro a below h b hb
  obtain ⟨_, rfl⟩ := apiExpand_ok h
  exact dag.rank_lt a b hb

/-! ## Statuses -/

/-- The status of a CID, computed without a memo. -/
def status (dag : Dag Cid) (opts : PinVerifyOpts) (enc : Cid → String) : Cid → PinStatus :=
  (checkPin dag opts enc).valueOf dag.rank

def apiStatus (dag : Dag Cid) : Cid → ApiStatus Cid :=
  (apiCheckPin dag).valueOf dag.rank

/-- **Ok means that everything reachable is good.** -/
theorem status_ok_iff (c : Cid) :
    (status dag opts enc c).ok = true ↔ ∀ x, Reach dag.links c x → dag.good x = true := by
  refine Summary.valueOf_all_iff (dag.good · = true) (·.ok = true) lowers_checkPin ?_
    (fun a below h => expand_ok h) ?_ ?_ c
  · intro a b h
    cases hgood : dag.good a with
    | true =>
      rw [expand_of_good hgood] at h
      cases h
    | false =>
      obtain ⟨err, hbad⟩ := expand_of_bad hgood
      obtain rfl := error.inj (hbad.symm.trans h)
      simp [badStatus]
  · intro a
    rfl
  · intro b c
    cases hc : c.ok <;> simp [checkPin, hc]

theorem apiStatus_ok_iff (c : Cid) :
    (apiStatus dag c).ok = true ↔ ∀ x, Reach dag.links c x → dag.fetchErr x = none := by
  refine Summary.valueOf_all_iff (dag.fetchErr · = none) (·.ok = true) lowers_apiCheckPin ?_
    (fun a below h => apiExpand_ok h) ?_ ?_ c
  · intro a b h
    simp only [apiCheckPin, Dag.getLinks] at h
    cases hfetch : dag.fetchErr a with
    | none =>
      rw [hfetch] at h
      cases h
    | some err =>
      rw [hfetch] at h
      obtain rfl := error.inj h
      simp
  · intro a
    rfl
  · intro b c
    cases hc : c.ok <;> simp [apiCheckPin, hc]

theorem foldl_merge_badNodes (f : Cid → PinStatus) (xs : List Cid) (b : PinStatus) :
    (xs.foldl (fun acc x => (checkPin dag opts enc).merge acc (f x)) b).badNodes =
      b.badNodes ++ xs.flatMap fun x => if (f x).ok then [] else (f x).badNodes := by
  induction xs generalizing b with
  | nil => simp
  | cons x rest ih =>
    rw [foldl_cons, ih, flatMap_cons, ← append_assoc]
    cases hx : (f x).ok <;> simp [checkPin, hx]

theorem status_of_bad (h : dag.good c = false) :
    ∃ err, status dag opts enc c = badStatus opts enc c err := by
  obtain ⟨err, hbad⟩ : ∃ err, (checkPin dag opts enc).expand c =
      .error (badStatus opts enc c err) :=
    expand_of_bad h
  refine ⟨err, ?_⟩
  unfold status
  rw [Summary.valueOf_eq lowers_checkPin, Summary.combine_error hbad]

theorem badNodes_of_good (h : dag.good c = true) :
    (status dag opts enc c).badNodes = (dag.links c).flatMap fun x =>
      if (status dag opts enc x).ok then [] else (status dag opts enc x).badNodes := by
  unfold status
  rw [Summary.valueOf_eq lowers_checkPin, Summary.combine_ok (expand_of_good h),
    foldl_merge_badNodes]
  rfl

theorem not_ok_of_bad {x : Cid} (hreach : Reach dag.goodLinks c x) (hx : dag.good x = false) :
    (status dag opts enc c).ok = false := by
  rw [← Bool.not_eq_true, status_ok_iff]
  intro hall
  have hlinks : Reach dag.links c x := by
    refine hreach.mono ?_
    intro a b hb
    unfold Dag.goodLinks at hb
    split at hb
    · exact hb
    · cases hb
  rw [hall x hlinks] at hx
  cases hx

/-- **What `explain` names**: the bad nodes that are found through good ones. -/
theorem mem_badNodes_iff (hexplain : opts.explain = true) (s : String) (c : Cid) :
    s ∈ (status dag opts enc c).badNodes.map BadNode.cid ↔
      ∃ x, Reach dag.goodLinks c x ∧ dag.good x = false ∧ enc x = s := by
  induction hn : dag.rank c using Nat.strongRecOn generalizing c with
  | ind n ih =>
    cases hgood : dag.good c with
    | false =>
      obtain ⟨err, hstatus⟩ : ∃ err, status dag opts enc c = badStatus opts enc c err :=
        status_of_bad hgood
      rw [hstatus]
      simp only [badStatus, hexplain, if_true, map_cons, map_nil, mem_singleton]
      constructor
      · rintro rfl
        exact ⟨c, Reach.refl c, hgood, rfl⟩
      · rintro ⟨x, hreach, _, rfl⟩
        rcases hreach.cases_head with rfl | ⟨y, hy, _⟩
        · rfl
        · simp [Dag.goodLinks, hgood] at hy
    | true =>
      have hlinks : dag.goodLinks c = dag.links c := by simp [Dag.goodLinks, hgood]
      have hbelow : ∀ x ∈ dag.links c,
          s ∈ (status dag opts enc x).badNodes.map BadNode.cid ↔
            ∃ y, Reach dag.goodLinks x y ∧ dag.good y = false ∧ enc y = s := by
        intro x hx
        have hlt := dag.rank_lt c x hx
        exact ih (dag.rank x) (by omega) x rfl
      rw [badNodes_of_good hgood, map_flatMap, mem_flatMap]
      constructor
      · rintro ⟨x, hx, hs⟩
        split at hs
        · cases hs
        · obtain ⟨y, hxy, hy⟩ := (hbelow x hx).mp hs
          exact ⟨y, Reach.head (hlinks ▸ hx) hxy, hy⟩
      · rintro ⟨y, hcy, hbad, hs⟩
        rcases hcy.cases_head with rfl | ⟨x, hx, hxy⟩
        · rw [hgood] at hbad
          cases hbad
        · rw [hlinks] at hx
          refine ⟨x, hx, ?_⟩
          rw [if_neg (by simp [not_ok_of_bad hxy hbad])]
          exact (hbelow x hx).mpr ⟨y, hxy, hbad, hs⟩

/-! ## The runs -/

section runs

variable [DecidableEq Cid]

/-- The results that `pinVerify` sends, by induction on the pins with the memo
sound throughout. -/
theorem sendResults_eq (pins : List Cid) {visited : Cid → Option PinStatus}
    (h : (checkPin dag opts enc).Sound dag.rank visited) :
    sendResults dag opts enc pins visited =
      (pins.filter fun c => !(status dag opts enc c).ok || opts.includeOk).map fun c =>
        ⟨enc c, status dag opts enc c⟩ := by
  induction pins generalizing visited with
  | nil => rfl
  | cons c rest ih =>
    obtain ⟨hval, hsound⟩ := Summary.visit_spec lowers_checkPin (dag.rank c) (Nat.le_refl _) h
    unfold sendResults
    dsimp only
    rw [hval, ih hsound, filter_cons]
    change (if (!(status dag opts enc c).ok || opts.includeOk) = true then _ else _) = _
    split <;> rfl

theorem apiSendResults_eq (pins : List Cid) {visited : Cid → Option (ApiStatus Cid)}
    (h : (apiCheckPin dag).Sound dag.rank visited) :
    apiSendResults dag pins visited = pins.map (apiStatus dag) := by
  induction pins generalizing visited with
  | nil => rfl
  | cons c rest ih =>
    obtain ⟨hval, hsound⟩ :=
      Summary.visit_spec lowers_apiCheckPin (dag.rank c) (Nat.le_refl _) h
    unfold apiSendResults
    dsimp only
    rw [hval, ih hsound]
    rfl

/-- **Pin verification is exact.**  Whatever the pins and their order, each pin
gets a status that depends on the DAG alone.  It is ok exactly when every CID
reachable from the pin is good, with `explain` it names exactly the bad nodes
found through good ones, and `PinAPI.Verify` agrees on ok if the links of an
invalid CID cannot be fetched. -/
theorem pinVerify_exact (dag : Dag Cid) (opts : PinVerifyOpts) (enc : Cid → String) :
    ∃ status : Cid → PinStatus, ∃ apiStatus : Cid → ApiStatus Cid,
      (∀ pins, pinVerify dag opts enc (.ok pins) =
        .ok ((pins.filter fun c => !(status c).ok || opts.includeOk).map fun c =>
          ⟨enc c, status c⟩)) ∧
      (∀ c, (status c).ok = true ↔
        ∀ x, Reach dag.links c x → dag.validateCid x = none ∧ dag.fetchErr x = none) ∧
      (opts.explain = true → ∀ c s, s ∈ (status c).badNodes.map BadNode.cid ↔
        ∃ x, Reach dag.goodLinks c x ∧ ¬ (dag.validateCid x = none ∧ dag.fetchErr x = none) ∧
          enc x = s) ∧
      (∀ pins, apiVerify dag (.ok pins) = .ok (pins.map apiStatus)) ∧
      ((∀ c, dag.validateCid c ≠ none → dag.fetchErr c ≠ none) →
        ∀ c, (apiStatus c).ok = (status c).ok) := by
  have hgood : ∀ x, dag.good x = true ↔ dag.validateCid x = none ∧ dag.fetchErr x = none := by
    simp [Dag.good]
  refine ⟨status dag opts enc, apiStatus dag, ?_, ?_, ?_, ?_, ?_⟩
  · intro pins
    exact congrArg ok (sendResults_eq pins nofun)
  · intro c
    simp only [status_ok_iff, hgood]
  · intro hexplain c s
    simp only [mem_badNodes_iff hexplain, ← hgood, Bool.not_eq_true]
  · intro pins
    exact congrArg ok (apiSendResults_eq pins nofun)
  · intro hinvalid c
    have hiff : ∀ x, dag.fetchErr x = none ↔ dag.good x = true := by
      intro x
      rw [hgood]
      refine ⟨fun hfetch => ⟨?_, hfetch⟩, And.right⟩
      by_contra hvalid
      exact hinvalid x hvalid hfetch
    rw [Bool.eq_iff_iff, apiStatus_ok_iff, status_ok_iff]
    simp only [hiff]

end runs

/-- The nodes `1` and `2` share the invalid node `3`, the links of `4` cannot be
fetched, and what is below `5` is good. -/
def sampleDag : Dag Nat where
  validateCid c := if c = 3 then some "hash function not allowed" else none
  fetchErr c := if c = 4 then some "not found" else none
  links c := match c with
    | 0 => [1, 2]
    | 1 => [3, 4]
    | 2 => [3]
    | 5 => [6]
    | _ => []
  rank c := 7 - c
  rank_lt := by
    intro a b hb
    dsimp only at hb ⊢
    split at hb <;> simp at hb <;> omega

/-- With one memo for three pins, `5` is ok; `0` names both of its bad nodes, and
`2` names the one that it shares with `0`. -/
theorem pinVerify_exact_shared :
    ∃ status : Nat → PinStatus,
      pinVerify sampleDag ⟨true, true⟩ toString (.ok [0, 5, 2]) =
        .ok [⟨"0", status 0⟩, ⟨"5", status 5⟩, ⟨"2", status 2⟩] ∧
      (status 5).ok = true ∧ (status 0).ok = false ∧
      (∀ s ∈ ["3", "4"], s ∈ (status 0).badNodes.map BadNode.cid) ∧
      "3" ∈ (status 2).badNodes.map BadNode.cid ∧
      "4" ∉ (status 2).badNodes.map BadNode.cid := by
  obtain ⟨status, _, hrun, hok, hexplain, _⟩ := pinVerify_exact sampleDag ⟨true, true⟩ toString
  have hlink : ∀ {a b : Nat}, b ∈ sampleDag.links a → sampleDag.good a = true →
      Reach sampleDag.goodLinks a b := by
    intro a b hb ha
    refine Reach.of_link ?_
    rw [Dag.goodLinks, if_pos ha]
    exact hb
  have h13 : Reach sampleDag.goodLinks 0 3 :=
    (hlink (a := 0) (b := 1) (by decide) rfl).trans (hlink (by decide) rfl)
  have h14 : Reach sampleDag.goodLinks 0 4 :=
    (hlink (a := 0) (b := 1) (by decide) rfl).trans (hlink (by decide) rfl)
  refine ⟨status, ?_, ?_, ?_, ?_, ?_, ?_⟩
  · rw [hrun]
    simp only [Bool.or_true, filter_true, map_cons, map_nil]
    rfl
  · refine (hok 5).mpr fun x hx => ?_
    rcases hx.cases_head with rfl | ⟨y, hy, hyx⟩
    · decide
    · obtain rfl : y = 6 := by simpa [sampleDag] using hy
      rcases hyx.cases_head with rfl | ⟨z, hz, _⟩
      · decide
      · simp [sampleDag] at hz
  · refine Bool.eq_false_iff.mpr fun h => ?_
    have h3 := (hok 0).mp h 3 (Reach.head (show 1 ∈ _ by decide) (Reach.of_link (by decide)))
    exact absurd h3.1 (by decide)
  · simp only [forall_mem_cons, hexplain rfl]
    exact ⟨⟨3, h13, by decide, rfl⟩, ⟨4, h14, by decide, rfl⟩, by simp⟩
  · exact (hexplain rfl 2 "3").mpr ⟨3, hlink (by decide) rfl, by decide, rfl⟩
  · intro h
    obtain ⟨x, hx, hbad, hname⟩ := (hexplain rfl 2 "4").mp h
    rcases hx.cases_head with rfl | ⟨y, hy, hyx⟩
    · exact hbad (by decide)
    · obtain rfl : y = 3 := by simpa [sampleDag, Dag.goodLinks, Dag.good] using hy
      rcases hyx.cases_head with rfl | ⟨z, hz, _⟩
      · exact absurd hname (by decide)
      · simp [sampleDag, Dag.goodLinks, Dag.good] at hz

end PinVerify
