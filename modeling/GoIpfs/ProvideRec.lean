import GoIpfs.LinkReach
import GoIpfs.StepRun
import Mathlib.Data.Finset.Card
import Mathlib.Data.Finset.Lattice.Fold
import Mathlib.Order.Lattice.Nat

/-!
# Providing a DAG

`provideKeysRec` of the core API (`core/coreapi/dht.go`).  A goroutine walks the
DAG below every root and hands each new CID over an unbuffered channel to the
function itself, which provides it.  Errors of the walk come over a second
unbuffered channel.  Nothing tells the function that the goroutine has finished.

The walk is `dag.Walk` without options, which is sequential: `todo` holds the
nodes that the recursion still has to visit, in its order.  The context is never
cancelled.
-/

namespace Provide

open LinkReach StepRun List

variable {Cid : Type}

/-- How link fetches and `Provide` end.  A CID is asked for at most once, so the
outcome depends on the CID only. -/
structure Env (Cid : Type) where
  getLinks : Cid → Except String (List Cid)
  provide : Cid → Option String

def Env.links (env : Env Cid) (c : Cid) : List Cid :=
  match env.getLinks c with
  | .ok targets => targets
  | .error _ => []

/-- Where the goroutine is. -/
inductive Walker (Cid : Type) where
  /-- At the next node of the walk, or the next root. -/
  | next
  /-- The visitor hands a new CID to `provided.New`. -/
  | sending (c : Cid)
  /-- The visit has returned true, and the links are fetched. -/
  | fetching (c : Cid)
  /-- At the send to `errCh`. -/
  | reporting (err : String)
  | finished
  deriving DecidableEq, Repr

inductive Main (Cid : Type) where
  | selecting
  | providing (k : Cid)
  | returned (err : Option String)
  deriving DecidableEq, Repr

structure State (Cid : Type) where
  main : Main Cid
  walker : Walker Cid
  /-- The nodes that the walk of the current root still has to visit. -/
  todo : List Cid
  /-- The roots that are left. -/
  roots : List Cid
  /-- The streaming set. -/
  seen : Finset Cid
  /-- The CIDs with which `Provide` was called. -/
  calls : List Cid
  deriving DecidableEq

def start (roots : List Cid) : State Cid where
  main := .selecting
  walker := .next
  todo := []
  roots := roots
  seen := ∅
  calls := []

inductive Action where
  /-- The goroutine goes on. -/
  | walk
  /-- `provided.New` passes a CID. -/
  | sendNew
  /-- `errCh` passes an error. -/
  | sendErr
  /-- The call of `Provide` returns. -/
  | provide
  deriving DecidableEq, Repr

variable [DecidableEq Cid] (env : Env Cid)

/-- The statements of the goroutine that need no partner. -/
def walkStep (s : State Cid) : Option (State Cid) :=
  match s.walker with
  | .next =>
    match s.todo with
    | c :: rest =>
      if c ∈ s.seen then some { s with todo := rest }
      else some { s with todo := rest, seen := insert c s.seen, walker := .sending c }
    | [] =>
      match s.roots with
      | r :: roots => some { s with todo := [r], roots := roots }
      | [] => some { s with walker := .finished }
  | .fetching c =>
    match env.getLinks c with
    | .ok targets => some { s with todo := targets ++ s.todo, walker := .next }
    | .error err => some { s with walker := .reporting err }
  | .sending _ | .reporting _ | .finished => none

def step (s : State Cid) : Action → Option (State Cid)
  | .walk => walkStep env s
  | .sendNew =>
    match s.walker, s.main with
    | .sending c, .selecting => some { s with main := .providing c, walker := .fetching c }
    | _, _ => none
  | .sendErr =>
    match s.walker, s.main with
    -- the goroutine goes on with the next root
    | .reporting err, .selecting =>
      some { s with main := .returned (some err), walker := .next, todo := [] }
    | _, _ => none
  | .provide =>
    match s.main with
    | .providing k =>
      match env.provide k with
      | none => some { s with main := .selecting, calls := s.calls ++ [k] }
      | some err => some { s with main := .returned (some err), calls := s.calls ++ [k] }
    | .selecting | .returned _ => none

def Stuck (s : State Cid) : Prop := ∀ a, step env s a = none

def Below (roots : List Cid) (c : Cid) : Prop := ∃ r ∈ roots, Reach env.links r c

/-- Every link fetch and every `Provide` below the roots succeeds. -/
def AllSucceed (roots : List Cid) : Prop :=
  ∀ c, Below env roots c → (∃ targets, env.getLinks c = .ok targets) ∧ env.provide c = none

omit [DecidableEq Cid] in
theorem not_allSucceed_iff {env : Env Cid} {roots : List Cid} :
    ¬ AllSucceed env roots ↔
      ∃ c, Below env roots c ∧
        ((∃ err, env.getLinks c = .error err) ∨ env.provide c ≠ none) := by
  unfold AllSucceed
  push Not
  refine exists_congr fun c => and_congr_right fun _ => ?_
  cases env.getLinks c with
  | ok targets | error err => simp

/-! ## What one step can do -/

/-- The steps, one constructor for each way through the code. -/
inductive Transition (s : State Cid) : Action → State Cid → Prop
  | skip {c rest} (hwalker : s.walker = .next) (htodo : s.todo = c :: rest)
      (hseen : c ∈ s.seen) : Transition s .walk { s with todo := rest }
  | visit {c rest} (hwalker : s.walker = .next) (htodo : s.todo = c :: rest)
      (hseen : c ∉ s.seen) :
      Transition s .walk { s with todo := rest, seen := insert c s.seen, walker := .sending c }
  | root {r roots} (hwalker : s.walker = .next) (htodo : s.todo = [])
      (hroots : s.roots = r :: roots) : Transition s .walk { s with todo := [r], roots := roots }
  | finish (hwalker : s.walker = .next) (htodo : s.todo = []) (hroots : s.roots = []) :
      Transition s .walk { s with walker := .finished }
  | fetched {c targets} (hwalker : s.walker = .fetching c)
      (hget : env.getLinks c = .ok targets) :
      Transition s .walk { s with todo := targets ++ s.todo, walker := .next }
  | fetchFailed {c err} (hwalker : s.walker = .fetching c)
      (hget : env.getLinks c = .error err) :
      Transition s .walk { s with walker := .reporting err }
  | sendNew {c} (hwalker : s.walker = .sending c) (hmain : s.main = .selecting) :
      Transition s .sendNew { s with main := .providing c, walker := .fetching c }
  | sendErr {err} (hwalker : s.walker = .reporting err) (hmain : s.main = .selecting) :
      Transition s .sendErr
        { s with main := .returned (some err), walker := .next, todo := [] }
  | provided {k} (hmain : s.main = .providing k) (hprovide : env.provide k = none) :
      Transition s .provide { s with main := .selecting, calls := s.calls ++ [k] }
  | provideFailed {k err} (hmain : s.main = .providing k)
      (hprovide : env.provide k = some err) :
      Transition s .provide { s with main := .returned (some err), calls := s.calls ++ [k] }

variable {env} {s t : State Cid} {a : Action} {roots : List Cid}

theorem transition_of_step (h : step env s a = some t) : Transition env s a t := by
  cases a with
  | walk =>
    simp only [step, walkStep] at h
    split at h
    · rename_i hwalker
      split at h
      · rename_i c rest htodo
        split at h <;> cases h
        · exact .skip hwalker htodo (by assumption)
        · exact .visit hwalker htodo (by assumption)
      · rename_i htodo
        split at h <;> cases h
        · exact .root hwalker htodo (by assumption)
        · exact .finish hwalker htodo (by assumption)
    · rename_i c hwalker
      split at h <;> cases h
      · exact .fetched hwalker (by assumption)
      · exact .fetchFailed hwalker (by assumption)
    all_goals cases h
  | sendNew =>
    simp only [step] at h
    split at h <;> cases h
    exact .sendNew (by assumption) (by assumption)
  | sendErr =>
    simp only [step] at h
    split at h <;> cases h
    exact .sendErr (by assumption) (by assumption)
  | provide =>
    simp only [step] at h
    split at h
    · rename_i k hmain
      split at h <;> cases h
      · exact .provided hmain (by assumption)
      · exact .provideFailed hmain (by assumption)
    all_goals cases h

/-! ## Until the function returns -/

/-- The walk, as long as no error has been received: what it has seen is in work
or has its links fetched. -/
structure Walking (env : Env Cid) (roots : List Cid) (s : State Cid) : Prop where
  below : ∀ c, c ∈ s.todo ∨ c ∈ s.roots ∨ c ∈ s.seen → Below env roots c
  held : ∀ r ∈ roots, r ∈ s.seen ∨ r ∈ s.todo ∨ r ∈ s.roots
  busy : ∀ c, s.walker = .sending c ∨ s.walker = .fetching c → c ∈ s.seen
  explored : (∀ err, s.walker ≠ .reporting err) →
    ∀ c ∈ s.seen, (s.walker = .sending c ∨ s.walker = .fetching c) ∨
      (∃ targets, env.getLinks c = .ok targets) ∧
        ∀ b ∈ env.links c, b ∈ s.seen ∨ b ∈ s.todo
  failed : ∀ err, s.walker = .reporting err → ¬ AllSucceed env roots
  done : s.walker = .finished → s.todo = [] ∧ s.roots = []

/-- The calls of `Provide`, as long as none has failed: each CID that was seen has
been provided once, or is on its way. -/
structure Providing (env : Env Cid) (s : State Cid) : Prop where
  live : ∀ result, s.main ≠ .returned result
  called : ∀ c ∈ s.calls, c ∈ s.seen ∧ env.provide c = none
  provided : ∀ c ∈ s.seen, c ∈ s.calls ∨ s.walker = .sending c ∨ s.main = .providing c
  offered : ∀ c, s.walker = .sending c ∨ s.main = .providing c → c ∈ s.seen ∧ c ∉ s.calls
  apart : ∀ c, s.walker = .sending c → s.main ≠ .providing c
  once : s.calls.Nodup

/-- The function has failed, as it should, or is still at work. -/
def Inv (env : Env Cid) (roots : List Cid) (s : State Cid) : Prop :=
  (∃ err, s.main = .returned (some err)) ∧ ¬ AllSucceed env roots ∨
    Walking env roots s ∧ Providing env s

theorem Walking.moved (h : Walking env roots s) (hwalker : s.walker = .next)
    (hseen : ∀ c ∈ s.seen, c ∈ t.seen)
    (htodo : ∀ c ∈ s.todo, c ∈ t.seen ∨ c ∈ t.todo)
    (hroots : ∀ c ∈ s.roots, c ∈ t.todo ∨ c ∈ t.roots)
    (hbelow : ∀ c, c ∈ t.todo ∨ c ∈ t.roots ∨ c ∈ t.seen →
      c ∈ s.todo ∨ c ∈ s.roots ∨ c ∈ s.seen)
    (hbusy : ∀ c, t.walker = .sending c ∨ t.walker = .fetching c → c ∈ t.seen)
    (hnew : ∀ c ∈ t.seen, c ∉ s.seen → t.walker = .sending c)
    (hnot : ∀ err, t.walker ≠ .reporting err)
    (hdone : t.walker = .finished → t.todo = [] ∧ t.roots = []) : Walking env roots t := by
  refine ⟨fun c hc => h.below c (hbelow c hc), ?_, hbusy, ?_,
    fun err herr => absurd herr (hnot err), hdone⟩
  · intro r hr
    rcases h.held r hr with hr | hr | hr
    · exact .inl (hseen r hr)
    · exact (htodo r hr).imp_right .inl
    · exact .inr (hroots r hr)
  · intro _ c hc
    by_cases hold : c ∈ s.seen
    · refine .inr ?_
      have hdone := (h.explored (by simp [hwalker]) c hold).resolve_left (by simp [hwalker])
      refine ⟨hdone.1, fun b hb => ?_⟩
      rcases hdone.2 b hb with hb | hb
      · exact .inl (hseen b hb)
      · exact htodo b hb
    · exact .inl (.inl (hnew c hc hold))

variable {c : Cid}

theorem walking_fetched {targets : List Cid} (h : Walking env roots s)
    (hwalker : s.walker = .fetching c) (hget : env.getLinks c = .ok targets) :
    Walking env roots { s with todo := targets ++ s.todo, walker := .next } := by
  have hlinks : env.links c = targets := by simp [Env.links, hget]
  have hc : c ∈ s.seen := h.busy c (.inr hwalker)
  refine ⟨?_, ?_, by simp, ?_, by simp, by simp⟩
  · rintro b (hb | hb)
    · rcases mem_append.mp hb with hnew | hold
      · obtain ⟨r, hr, hreach⟩ := h.below c (.inr (.inr hc))
        exact ⟨r, hr, hreach.tail (hlinks ▸ hnew)⟩
      · exact h.below b (.inl hold)
    · exact h.below b (.inr hb)
  · intro r hr
    rcases h.held r hr with hr | hr | hr
    · exact .inl hr
    · exact .inr (.inl (mem_append_right _ hr))
    · exact .inr (.inr hr)
  · intro _ b hb
    refine .inr ?_
    by_cases hbc : b = c
    · subst hbc
      refine ⟨⟨targets, hget⟩, fun x hx => .inr (mem_append_left _ (hlinks ▸ hx))⟩
    · have hother : ¬ (s.walker = .sending b ∨ s.walker = .fetching b) := by
        rw [hwalker]
        simp [Ne.symm hbc]
      obtain ⟨hok, hall⟩ := (h.explored (by simp [hwalker]) b hb).resolve_left hother
      exact ⟨hok, fun x hx => (hall x hx).imp_right (mem_append_right _)⟩

omit [DecidableEq Cid] in
theorem walking_fetchFailed {err : String} (h : Walking env roots s)
    (hwalker : s.walker = .fetching c) (hget : env.getLinks c = .error err) :
    Walking env roots { s with walker := .reporting err } := by
  refine ⟨h.below, h.held, by simp, fun hnot => absurd rfl (hnot err), ?_, by simp⟩
  intro _ _ hall
  have hc : c ∈ s.seen := h.busy c (.inr hwalker)
  obtain ⟨targets, htargets⟩ := (hall c (h.below c (.inr (.inr hc)))).1
  rw [hget] at htargets
  cases htargets

/-- The next node is taken, whether it is new or not. -/
theorem walking_taken {rest : List Cid} {walker : Walker Cid} (h : Walking env roots s)
    (hwalker : s.walker = .next) (htodo : s.todo = c :: rest)
    (hnext : walker = .sending c ∨ walker = .next ∧ c ∈ s.seen) :
    Walking env roots { s with todo := rest, seen := insert c s.seen, walker := walker } := by
  refine h.moved hwalker (fun b hb => Finset.mem_insert_of_mem hb) ?_ (fun b hb => .inr hb)
    ?_ ?_ ?_ ?_ ?_
  · intro b hb
    rw [htodo] at hb
    rcases mem_cons.mp hb with rfl | hb
    · exact .inl (Finset.mem_insert_self _ _)
    · exact .inr hb
  · rintro b (hb | hb | hb)
    · exact .inl (by rw [htodo]; exact mem_cons_of_mem _ hb)
    · exact .inr (.inl hb)
    · rcases Finset.mem_insert.mp hb with rfl | hb
      · exact .inl (by rw [htodo]; exact mem_cons_self)
      · exact .inr (.inr hb)
  · rcases hnext with rfl | ⟨rfl, -⟩ <;> simp
  · intro b hb hnot
    obtain rfl := (Finset.mem_insert.mp hb).resolve_right hnot
    exact hnext.resolve_right fun hold => hnot hold.2
  all_goals rcases hnext with rfl | ⟨rfl, -⟩ <;> simp

/-- **One step of the walk**, before its error is received. -/
theorem walking_step (h : Walking env roots s) (htrans : Transition env s a t)
    (ha : a ≠ .sendErr) : Walking env roots t := by
  cases htrans with
  | skip hwalker htodo hseen =>
    have htaken := walking_taken h hwalker htodo (.inr ⟨rfl, hseen⟩)
    rwa [Finset.insert_eq_of_mem hseen, ← hwalker] at htaken
  | visit hwalker htodo => exact walking_taken h hwalker htodo (.inl rfl)
  | @root r rest hwalker htodo hroots =>
    refine h.moved hwalker (fun b hb => hb) ?_ ?_ ?_ (by simp [hwalker])
      (fun b hb hnot => absurd hb hnot) (by simp [hwalker]) (by simp [hwalker])
    · intro b hb
      simp [htodo] at hb
    · intro b hb
      rw [hroots] at hb
      exact (mem_cons.mp hb).imp_left mem_singleton.mpr
    · rintro b (hb | hb | hb)
      · rw [mem_singleton.mp hb, hroots]
        exact .inr (.inl mem_cons_self)
      · exact .inr (.inl (by rw [hroots]; exact mem_cons_of_mem _ hb))
      · exact .inr (.inr hb)
  | finish hwalker htodo hroots =>
    exact h.moved hwalker (fun b hb => hb) (fun b hb => .inr hb) (fun b hb => .inr hb)
      (fun b hb => hb) (by simp) (fun b hb hnot => absurd hb hnot) (by simp)
      (fun _ => ⟨htodo, hroots⟩)
  | fetched hwalker hget => exact walking_fetched h hwalker hget
  | fetchFailed hwalker hget => exact walking_fetchFailed h hwalker hget
  | @sendNew c hwalker =>
    refine ⟨h.below, h.held, ?_, ?_, by simp, by simp⟩
    · rintro b (hb | hb) <;> cases hb
      exact h.busy c (.inl hwalker)
    · intro _ b hb
      simpa [hwalker] using h.explored (by simp [hwalker]) b hb
  | sendErr => exact absurd rfl ha
  | provided | provideFailed => exact ⟨h.below, h.held, h.busy, h.explored, h.failed, h.done⟩

theorem providing_visit {rest : List Cid} (h : Providing env s) (hwalker : s.walker = .next)
    (hseen : c ∉ s.seen) :
    Providing env { s with todo := rest, seen := insert c s.seen, walker := .sending c } := by
  refine ⟨h.live, ?_, ?_, ?_, ?_, h.once⟩
  · intro b hb
    exact ⟨Finset.mem_insert_of_mem (h.called b hb).1, (h.called b hb).2⟩
  · intro b hb
    rcases Finset.mem_insert.mp hb with rfl | hb
    · exact .inr (.inl rfl)
    · rcases h.provided b hb with hb | hb | hb
      · exact .inl hb
      · exact absurd hb (by simp [hwalker])
      · exact .inr (.inr hb)
  · rintro b (hb | hb)
    · cases hb
      exact ⟨Finset.mem_insert_self _ _, fun hc => hseen (h.called c hc).1⟩
    · obtain ⟨hbs, hbc⟩ := h.offered b (.inr hb)
      exact ⟨Finset.mem_insert_of_mem hbs, hbc⟩
  · intro b hb
    cases hb
    exact fun hm => hseen (h.offered c (.inr hm)).1

omit [DecidableEq Cid] in
theorem providing_provided {k : Cid} (h : Providing env s) (hmain : s.main = .providing k)
    (hprovide : env.provide k = none) :
    Providing env { s with main := .selecting, calls := s.calls ++ [k] } := by
  obtain ⟨hseen, hcalls⟩ := h.offered k (.inr hmain)
  refine ⟨by simp, ?_, ?_, ?_, by simp, ?_⟩
  · intro b hb
    rcases mem_append.mp hb with hb | hb
    · exact h.called b hb
    · rw [mem_singleton.mp hb]
      exact ⟨hseen, hprovide⟩
  · intro b hb
    rcases h.provided b hb with hb | hb | hb
    · exact .inl (mem_append_left _ hb)
    · exact .inr (.inl hb)
    · cases hmain.symm.trans hb
      exact .inl (mem_append_right _ (mem_singleton.mpr rfl))
  · intro b hb
    have hsending : s.walker = .sending b := by simpa using hb
    obtain ⟨hbs, hbc⟩ := h.offered b (.inl hsending)
    refine ⟨hbs, ?_⟩
    rw [mem_append, mem_singleton]
    rintro (hold | rfl)
    · exact hbc hold
    · exact h.apart b hsending hmain
  · simpa using List.Nodup.concat hcalls h.once

omit [DecidableEq Cid] in
theorem Providing.quiet {walker : Walker Cid} {todo : List Cid} (h : Providing env s)
    (hold : ∀ c, s.walker ≠ .sending c) (hnew : ∀ c, walker ≠ .sending c) :
    Providing env { s with walker := walker, todo := todo } := by
  refine ⟨h.live, h.called, ?_, ?_, fun c hc => absurd hc (hnew c), h.once⟩
  · intro b hb
    rcases h.provided b hb with hb | hb | hb
    · exact .inl hb
    · exact absurd hb (hold b)
    · exact .inr (.inr hb)
  · intro b hb
    exact h.offered b (.inr (hb.resolve_left (hnew b)))

/-- **One step of the calls.**  They go on, or the function returns an error. -/
theorem providing_step (h : Providing env s) (htrans : Transition env s a t) :
    Providing env t ∨ ∃ err, t.main = .returned (some err) := by
  cases htrans with
  | skip | root => exact .inl ⟨h.live, h.called, h.provided, h.offered, h.apart, h.once⟩
  | visit hwalker _ hseen => exact .inl (providing_visit h hwalker hseen)
  | finish hwalker | fetched hwalker | fetchFailed hwalker =>
    exact .inl (h.quiet (by simp [hwalker]) (by simp))
  | @sendNew c hwalker hmain =>
    refine .inl ⟨by simp, h.called, ?_, ?_, by simp, h.once⟩
    · intro b hb
      simpa [hwalker, hmain] using h.provided b hb
    · rintro b (hb | hb) <;> cases hb
      exact h.offered c (.inl hwalker)
  | sendErr | provideFailed => exact .inr ⟨_, rfl⟩
  | provided hmain hprovide => exact .inl (providing_provided h hmain hprovide)

theorem inv_step (s : State Cid) (a : Action) (t : State Cid) (h : Inv env roots s)
    (hstep : step env s a = some t) : Inv env roots t := by
  have htrans := transition_of_step hstep
  rcases h with ⟨⟨err, hmain⟩, hfail⟩ | ⟨hwalk, hprov⟩
  · -- a function that has returned makes no more steps
    refine .inl ⟨?_, hfail⟩
    cases htrans with
    | skip | visit | root | finish | fetched | fetchFailed => exact ⟨err, hmain⟩
    | sendNew _ h | sendErr _ h | provided h | provideFailed h => cases hmain.symm.trans h
  cases htrans with
  | sendErr hwalker => exact .inl ⟨⟨_, rfl⟩, hwalk.failed _ hwalker⟩
  | @provideFailed k err hmain hprovide =>
    refine .inl ⟨⟨err, rfl⟩, fun hall => ?_⟩
    have hseen := (hprov.offered k (.inr hmain)).1
    have hok := (hall k (hwalk.below k (.inr (.inr hseen)))).2
    rw [hprovide] at hok
    cases hok
  | sendNew | provided =>
    refine .inr ⟨walking_step hwalk (transition_of_step hstep) (by simp), ?_⟩
    exact (providing_step hprov (transition_of_step hstep)).resolve_right (by simp)
  | skip | visit | root | finish | fetched | fetchFailed =>
    refine .inr ⟨walking_step hwalk (transition_of_step hstep) (by simp), ?_⟩
    exact (providing_step hprov (transition_of_step hstep)).resolve_right
      fun hreturned => hprov.live _ hreturned.choose_spec

omit [DecidableEq Cid] in
theorem inv_start (roots : List Cid) : Inv env roots (start roots) := by
  refine .inr ⟨⟨?_, fun r hr => .inr (.inr hr), by simp [start], by simp [start],
    by simp [start], by simp [start]⟩, by simp [start], by simp [start], by simp [start],
    by simp [start], by simp [start], nodup_nil⟩
  intro c hc
  have hc : c ∈ roots := by simpa [start] using hc
  exact ⟨c, hc, Reach.refl c⟩

/-! ## Where a run ends -/

/-- **A function that cannot go on has returned an error, or waits for ever** for
a goroutine that has finished; then everything has been provided, once. -/
theorem stuck_cases (h : Inv env roots s) (hstuck : Stuck env s) :
    (∃ err, s.main = .returned (some err)) ∧ ¬ AllSucceed env roots ∨
      s.main = .selecting ∧ AllSucceed env roots ∧ s.calls.Nodup ∧
        ∀ c, c ∈ s.calls ↔ Below env roots c := by
  rcases h with hfailed | ⟨hwalk, hprov⟩
  · exact .inl hfailed
  refine .inr ?_
  have hmain : s.main = .selecting := by
    cases hmain : s.main with
    | selecting => rfl
    | providing k =>
      have h := hstuck .provide
      cases hprovide : env.provide k <;> simp [step, hmain, hprovide] at h
    | returned result => exact absurd hmain (hprov.live result)
  have hfinished : s.walker = .finished := by
    have hnone := hstuck .walk
    cases hwalker : s.walker with
    | finished => rfl
    | sending c =>
      have h := hstuck .sendNew
      simp [step, hwalker, hmain] at h
    | reporting err =>
      have h := hstuck .sendErr
      simp [step, hwalker, hmain] at h
    | fetching c => cases hget : env.getLinks c <;> simp [step, walkStep, hwalker, hget] at hnone
    | next =>
      cases htodo : s.todo with
      | nil => cases hroots : s.roots <;> simp [step, walkStep, hwalker, htodo, hroots] at hnone
      | cons c rest =>
        by_cases hseen : c ∈ s.seen <;> simp [step, walkStep, hwalker, htodo, hseen] at hnone
  obtain ⟨htodo, hroots⟩ := hwalk.done hfinished
  have hexplored : ∀ c ∈ s.seen, (∃ targets, env.getLinks c = .ok targets) ∧
      ∀ b ∈ env.links c, b ∈ s.seen := by
    intro c hc
    have h := (hwalk.explored (by simp [hfinished]) c hc).resolve_left (by simp [hfinished])
    exact ⟨h.1, fun b hb => (h.2 b hb).resolve_right (by simp [htodo])⟩
  have hclosed : Closed env.links (↑s.seen : Set Cid) := by
    intro c hc b hb
    simpa using (hexplored c (by simpa using hc)).2 b hb
  have hseen : ∀ c, Below env roots c → c ∈ s.seen := by
    rintro c ⟨r, hr, hreach⟩
    have hroot : r ∈ s.seen := (hwalk.held r hr).resolve_right (by simp [htodo, hroots])
    simpa using hreach.mem_of_closed hclosed (by simpa using hroot)
  have hcalled : ∀ c ∈ s.seen, c ∈ s.calls := fun c hc =>
    (hprov.provided c hc).resolve_right (by simp [hfinished, hmain])
  refine ⟨hmain, ?_, hprov.once, ?_⟩
  · intro c hc
    exact ⟨(hexplored c (hseen c hc)).1, (hprov.called c (hcalled c (hseen c hc))).2⟩
  · intro c
    refine ⟨fun hc => ?_, fun hc => hcalled c (hseen c hc)⟩
    exact hwalk.below c (.inr (.inr (hprov.called c hc).1))

/-! ## Every run ends -/

/-- The nodes that the walk works on lie in a finite part of the DAG. -/
structure Within (nodes : Finset Cid) (s : State Cid) : Prop where
  todo : ∀ c ∈ s.todo, c ∈ nodes
  roots : ∀ c ∈ s.roots, c ∈ nodes
  fetching : ∀ c, s.walker = .sending c ∨ s.walker = .fetching c → c ∈ nodes

/-- The steps that the goroutine still has to make for the node it is at. -/
def Walker.cost (degree : Nat) : Walker Cid → Nat
  | .finished => 0
  | .next => 1
  | .reporting _ => 2
  | .fetching _ => degree + 3
  | .sending _ => degree + 5

def Main.cost : Main Cid → Nat
  | .providing _ => 1
  | .selecting | .returned _ => 0

/-- A bound on the steps of a run. -/
def rank (env : Env Cid) (nodes : Finset Cid) (s : State Cid) : Nat :=
  let degree := nodes.sup fun c => (env.links c).length
  (degree + 5) * (nodes \ s.seen).card + s.todo.length + 2 * s.roots.length +
    s.walker.cost degree + s.main.cost

/-- **Every step lowers the rank.** -/
theorem rank_step {nodes : Finset Cid} (hclosed : ∀ c ∈ nodes, ∀ b ∈ env.links c, b ∈ nodes)
    (s : State Cid) (a : Action) (t : State Cid) (h : Within nodes s)
    (hstep : step env s a = some t) : Within nodes t ∧ rank env nodes t < rank env nodes s := by
  cases transition_of_step hstep with
  | @skip c rest hwalker htodo hseen =>
    refine ⟨⟨fun b hb => h.todo b (by simp [htodo, hb]), h.roots, h.fetching⟩, ?_⟩
    simp only [rank, htodo, length_cons]
    omega
  | @visit c rest hwalker htodo hseen =>
    have hc : c ∈ nodes := h.todo c (by simp [htodo])
    have hcard : (nodes \ insert c s.seen).card + 1 = (nodes \ s.seen).card := by
      rw [Finset.sdiff_insert]
      exact Finset.card_erase_add_one (Finset.mem_sdiff.mpr ⟨hc, hseen⟩)
    refine ⟨⟨fun b hb => h.todo b (by simp [htodo, hb]), h.roots, ?_⟩, ?_⟩
    · rintro b (hb | hb) <;> cases hb
      exact hc
    · simp only [rank, htodo, hwalker, Walker.cost, length_cons, ← hcard, Nat.mul_add]
      omega
  | @root r rest hwalker htodo hroots =>
    refine ⟨⟨?_, fun b hb => h.roots b (by simp [hroots, hb]), h.fetching⟩, ?_⟩
    · intro b hb
      rw [mem_singleton.mp hb]
      exact h.roots r (by simp [hroots])
    · simp only [rank, htodo, hroots, length_cons, length_nil]
      omega
  | finish hwalker | fetchFailed hwalker =>
    refine ⟨⟨h.todo, h.roots, by simp⟩, ?_⟩
    simp only [rank, hwalker, Walker.cost]
    omega
  | @fetched c targets hwalker hget =>
    have hc : c ∈ nodes := h.fetching c (.inr hwalker)
    have hlinks : env.links c = targets := by simp [Env.links, hget]
    have hdegree : targets.length ≤ nodes.sup fun c => (env.links c).length := by
      rw [← hlinks]
      exact Finset.le_sup (f := fun c => (env.links c).length) hc
    refine ⟨⟨?_, h.roots, by simp⟩, ?_⟩
    · intro b hb
      rcases mem_append.mp hb with hnew | hold
      · exact hclosed c hc b (hlinks ▸ hnew)
      · exact h.todo b hold
    · simp only [rank, hwalker, Walker.cost, length_append]
      omega
  | @sendNew c hwalker hmain =>
    refine ⟨⟨h.todo, h.roots, ?_⟩, ?_⟩
    · rintro b (hb | hb) <;> cases hb
      exact h.fetching c (.inl hwalker)
    · simp only [rank, hwalker, hmain, Walker.cost, Main.cost]
      omega
  | sendErr hwalker hmain =>
    refine ⟨⟨by simp, h.roots, by simp⟩, ?_⟩
    simp only [rank, hwalker, hmain, Walker.cost, Main.cost, length_nil]
    omega
  | provided hmain | provideFailed hmain =>
    refine ⟨⟨h.todo, h.roots, h.fetching⟩, ?_⟩
    simp only [rank, hmain, Main.cost]
    omega

/-- What a run of `provideKeysRec` should end with: nil after everything was
provided once, or an error if a call has failed. -/
structure Ends (env : Env Cid) (roots : List Cid) (s : State Cid) : Prop where
  succeeds : AllSucceed env roots →
    s.main = .returned none ∧ s.calls.Nodup ∧ ∀ c, c ∈ s.calls ↔ Below env roots c
  fails : ¬ AllSucceed env roots → ∃ err, s.main = .returned (some err)

/-- **When a recursive provide ends.**  Over a finite DAG, every run that cannot
go on has returned as it should, exactly if some link fetch or some `Provide`
below the roots fails. -/
theorem provideKeysRec_ends_iff (env : Env Cid) (roots : List Cid) (nodes : Finset Cid)
    (hroots : ∀ r ∈ roots, r ∈ nodes)
    (hclosed : ∀ c ∈ nodes, ∀ b ∈ env.links c, b ∈ nodes) :
    (∀ schedule s, run (step env) (start roots) schedule = some s → Stuck env s →
      Ends env roots s) ↔
    ∃ c, Below env roots c ∧ ((∃ err, env.getLinks c = .error err) ∨ env.provide c ≠ none) := by
  rw [← not_allSucceed_iff]
  constructor
  · intro hall hok
    have hwithin : Within nodes (start roots) := ⟨by simp [start], hroots, by simp [start]⟩
    obtain ⟨schedule, s, hrun, hstuck⟩ :=
      exists_run_stuck (Within nodes) (rank env nodes) (rank_step hclosed) hwithin
    have hreturned := ((hall schedule s hrun hstuck).succeeds hok).1
    rcases stuck_cases (run_invariant _ inv_step (inv_start roots) hrun) hstuck with
      ⟨-, hfail⟩ | ⟨hmain, -⟩
    · exact hfail hok
    · exact absurd (hmain.symm.trans hreturned) (by simp)
  · intro hfail schedule s hrun hstuck
    refine ⟨fun hok => absurd hok hfail, fun _ => ?_⟩
    rcases stuck_cases (run_invariant _ inv_step (inv_start roots) hrun) hstuck with
      ⟨hreturned, -⟩ | ⟨-, hok, -⟩
    · exact hreturned
    · exact absurd hok hfail

/-- A single block without links. -/
def leaf : Env Nat where
  getLinks := fun _ => .ok []
  provide := fun _ => none

/-- The block is provided and the goroutine ends; the function waits for ever. -/
theorem provideKeysRec_waits :
    (run (step leaf) (start [7]) [.walk, .walk, .sendNew, .provide, .walk, .walk]).any
      (fun s => decide (s.main = .selecting ∧ s.walker = .finished ∧ s.calls = [7] ∧
        step leaf s .walk = none ∧ step leaf s .sendNew = none ∧ step leaf s .sendErr = none ∧
        step leaf s .provide = none)) = true := by
  decide

/-- The nodes `1` and `2` below `0` share the child `3`. -/
def diamond : Env Nat where
  getLinks c := .ok (match c with
    | 0 => [1, 2]
    | 1 | 2 => [3]
    | _ => [])
  provide := fun _ => none

/-- The shared child cannot be provided: the walk reaches it through `1` and the
function returns the error, while the goroutine waits with `2` for ever. -/
theorem provideKeysRec_ends_failed :
    let env : Env Nat :=
      { diamond with provide := fun c => if c = 3 then some "no peers" else none }
    (∀ schedule s, run (step env) (start [0]) schedule = some s → Stuck env s →
      Ends env [0] s) ∧
    (run (step env) (start [0]) [.walk, .walk, .sendNew, .provide, .walk, .walk, .sendNew, .provide,
      .walk, .walk, .sendNew, .provide, .walk, .walk]).any (fun s =>
        decide (s.main = .returned (some "no peers") ∧ s.calls = [0, 1, 3] ∧
          s.walker = .sending 2)) = true := by
  intro env
  refine ⟨(provideKeysRec_ends_iff env [0] {0, 1, 2, 3} (by decide) (by decide)).mpr ?_, by decide⟩
  have hreach : Reach env.links 0 3 :=
    .head (show 1 ∈ env.links 0 by decide) (.of_link (by decide))
  exact ⟨3, ⟨0, by decide, hreach⟩, .inr (by decide)⟩

end Provide
