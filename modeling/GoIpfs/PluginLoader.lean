import GoIpfs.StepRun
import GoIpfs.CallLoop
import Mathlib.Data.List.Perm.Basic
import Mathlib.Data.List.Nodup

/-!
# The life of plugins

`PluginLoader` of `plugin/loader/loader.go`: a loader goes through its states
once, and calls back into the plugins on the way.  The plugins are kept in a
map, so every loop comes with the order in which it happens to see them; the
errors of the callbacks are arbitrary.  The trace records the callbacks with
their outcomes.

`lifecycle` states what every trace looks like, whichever calls are made on the
loader, and `closed_after_start` and `closed_after_close` that nothing that was
started stays open.
-/

namespace PluginLoader

open StepRun CallLoop List

/-- `loaderState`. -/
inductive LoaderState where
  | loading
  | initializing
  | initialized
  | injecting
  | injected
  | starting
  | started
  | closing
  | closed
  | failed
  deriving DecidableEq, Repr

/-- `loaderState.String`. -/
def LoaderState.string : LoaderState → String
  | .loading => "Loading"
  | .initializing => "Initializing"
  | .initialized => "Initialized"
  | .injecting => "Injecting"
  | .injected => "Injected"
  | .starting => "Starting"
  | .started => "Started"
  | .closing => "Closing"
  | .closed => "Closed"
  | .failed => "Failed"

/-- The interfaces whose plugins are injected. -/
inductive Injection where
  | ipld
  | tracer
  | datastore
  deriving DecidableEq, Repr

/-- The argument of `Start`: a plugin has one method of that name, so it is a
`PluginDaemon` or a `PluginDaemonInternal` or neither. -/
inductive Daemon where
  | coreAPI
  | node
  deriving DecidableEq, Repr

/-- A plugin with the interfaces that it implements. -/
structure Plugin where
  name : String
  version : String
  isIPLD : Bool
  isTracer : Bool
  isDatastore : Bool
  daemon : Option Daemon
  /-- It implements `io.Closer`. -/
  isCloser : Bool
  deriving DecidableEq, Repr

/-- The injections that `Inject` makes for a plugin, in its order. -/
def Plugin.injections (pl : Plugin) : List Injection :=
  (if pl.isIPLD then [.ipld] else []) ++ (if pl.isTracer then [.tracer] else []) ++
    if pl.isDatastore then [.datastore] else []

/-- The methods of a plugin that the loader calls. -/
inductive Callback where
  | init (pl : Plugin)
  | inject (pl : Plugin) (kind : Injection)
  | start (pl : Plugin)
  | close (pl : Plugin)
  deriving DecidableEq, Repr

inductive LoaderError where
  /-- Of `assertState`. -/
  | state (want was : LoaderState)
  /-- A plugin of this name is loaded already. -/
  | duplicated (name loaded version : String)
  /-- Of a callback. -/
  | plugin (text : String)
  /-- Of `NewCoreAPI`. -/
  | coreAPI (text : String)
  | closing (errs : List String)
  deriving DecidableEq, Repr

/-- The texts of the errors. -/
def LoaderError.text : LoaderError → String
  | .state want was => "loader state must be " ++ want.string ++ ", was " ++ was.string
  | .duplicated name loaded version =>
    "plugin: " ++ name ++ ", is duplicated in version: " ++ loaded ++
      ", while trying to load dynamically: " ++ version
  | .plugin text => text
  | .coreAPI text => text
  | .closing errs => "\n".intercalate errs

structure Loader where
  state : LoaderState
  /-- The values of `plugins`, under their names. -/
  plugins : List Plugin
  started : List Plugin
  /-- The plugins that the config disables. -/
  disabled : String → Bool
  /-- The callbacks that have been made, and whether they succeeded. -/
  trace : List (Callback × Bool)

/-- `NewPluginLoader`, before it loads anything. -/
def Loader.new (disabled : String → Bool) : Loader where
  state := .loading
  plugins := []
  started := []
  disabled := disabled
  trace := []

/-- A call returns the loader and its error. -/
abbrev Result := Loader × Option LoaderError

/-- `assertState`. -/
def assertState (state : LoaderState) (loader : Loader) : Option LoaderError :=
  if loader.state ≠ state then some (.state state loader.state) else none

/-- `transition`. -/
def transition (before after : LoaderState) (loader : Loader) : Result :=
  match assertState before loader with
  | some err => (loader, some err)
  | none => ({ loader with state := after }, none)

/-- `Load`. -/
def load (pl : Plugin) (loader : Loader) : Result :=
  match assertState .loading loader with
  | some err => (loader, some err)
  | none =>
    match loader.plugins.find? (·.name = pl.name) with
    | some ppl => (loader, some (.duplicated pl.name ppl.version pl.version))
    | none =>
      if loader.disabled pl.name then (loader, none)
      else ({ loader with plugins := loader.plugins ++ [pl] }, none)

/-- The errors of the callbacks. -/
abbrev Faults := Callback → Option String

/-- The callbacks of one loop, made until one of them fails. -/
def callAll (err : Faults) (callbacks : List Callback) (loader : Loader) :
    Loader × Option String :=
  let r := callUntilError err callbacks
  ({ loader with trace := loader.trace ++ r.1 }, r.2)

/-- A loop that calls back into the plugins, between the states that it sets. -/
def callThrough (before during after : LoaderState) (callbacks : List Callback) (err : Faults)
    (loader : Loader) : Result :=
  match transition before during loader with
  | (loader, some e) => (loader, some e)
  | (loader, none) =>
    match callAll err callbacks loader with
    | (loader, some e) => ({ loader with state := .failed }, some (.plugin e))
    | (loader, none) => transition during after loader

/-- `Initialize`; `order` is the order in which the map is seen. -/
def initializeAll (order : List Plugin) : Faults → Loader → Result :=
  callThrough .loading .initializing .initialized (order.map .init)

/-- The callbacks of `Inject`. -/
def injectCallbacks (order : List Plugin) : List Callback :=
  order.flatMap fun pl => pl.injections.map (.inject pl)

/-- `Inject`. -/
def inject (order : List Plugin) : Faults → Loader → Result :=
  callThrough .initialized .injecting .injected (injectCallbacks order)

/-- `Close`. -/
def close (err : Faults) (loader : Loader) : Result :=
  match loader.state with
  | .closing | .failed | .closed => (loader, none)
  | _ =>
    let closers := loader.started.filter (·.isCloser)
    let errs := closers.filterMap fun pl =>
      (err (.close pl)).map fun e => "error closing plugin " ++ pl.name ++ ": " ++ e
    let loader :=
      { loader with
        started := []
        trace := loader.trace ++
          closers.map fun pl => (Callback.close pl, (err (.close pl)).isNone) }
    if errs ≠ [] then ({ loader with state := .failed }, some (.closing errs))
    else ({ loader with state := .closed }, none)

/-- The plugins whose `Start` has returned nil. -/
def startedBy (calls : List (Callback × Bool)) : List Plugin :=
  calls.filterMap fun
    | (.start pl, true) => some pl
    | _ => none

/-- `Start`; `coreAPI` is the error of `NewCoreAPI`. -/
def start (order : List Plugin) (coreAPI : Option String) (err : Faults) (loader : Loader) :
    Result :=
  match transition .injected .starting loader with
  | (loader, some e) => (loader, some e)
  | (loader, none) =>
    match coreAPI with
    | some e => (loader, some (.coreAPI e))
    | none =>
      let callbacks := (order.filter (·.daemon.isSome)).map Callback.start
      let calls := (callUntilError err callbacks).1
      let loader := { loader with started := loader.started ++ startedBy calls }
      match callAll err callbacks loader with
      | (loader, some e) => ((close err loader).1, some (.plugin e))
      | (loader, none) => transition .starting .started loader

/-- The calls on a loader, with what they meet. -/
inductive Call where
  | load (pl : Plugin)
  | initializeAll (order : List Plugin) (err : Faults)
  | inject (order : List Plugin) (err : Faults)
  | start (order : List Plugin) (coreAPI : Option String) (err : Faults)
  | close (err : Faults)

/-- The order of a loop is one of the plugins that are loaded. -/
def Call.Orders (loader : Loader) : Call → Prop
  | .initializeAll order _ | .inject order _ | .start order _ _ => order.Perm loader.plugins
  | .load _ | .close _ => True

instance (loader : Loader) (c : Call) : Decidable (c.Orders loader) :=
  match c with
  | .initializeAll order _ | .inject order _ | .start order _ _ =>
    inferInstanceAs (Decidable (order.Perm loader.plugins))
  | .load _ | .close _ => isTrue True.intro

/-- What a call returns. -/
def Call.result (loader : Loader) : Call → Result
  | .load pl => PluginLoader.load pl loader
  | .initializeAll order err => PluginLoader.initializeAll order err loader
  | .inject order err => PluginLoader.inject order err loader
  | .start order coreAPI err => PluginLoader.start order coreAPI err loader
  | .close err => PluginLoader.close err loader

/-- A call; `none` if its order is not one of the plugins. -/
def step (loader : Loader) (c : Call) : Option Loader :=
  if c.Orders loader then some (c.result loader).1 else none

/-! ## The shape of a trace -/

/-- Every plugin is initialized, by the calls `I`. -/
def AllInit (plugins : List Plugin) (I : List (Callback × Bool)) : Prop :=
  ∀ pl ∈ plugins, (.init pl, true) ∈ I

/-- Every injection is made, by the calls `J`. -/
def AllInject (plugins : List Plugin) (J : List (Callback × Bool)) : Prop :=
  ∀ pl ∈ plugins, ∀ kind ∈ pl.injections, (.inject pl kind, true) ∈ J

/-- The callbacks of one loop are of its kind, and made once. -/
def LoopOf {α : Type} (kind : α → Callback) (calls : List (Callback × Bool)) : Prop :=
  ∃ l : List α, l.Nodup ∧ calls.map Prod.fst = l.map kind

/-- A trace is made of the callbacks of the four loops. -/
structure Shape (loader : Loader) (I J S C : List (Callback × Bool)) : Prop where
  trace_eq : loader.trace = I ++ J ++ S ++ C
  names : (loader.plugins.map Plugin.name).Nodup
  inits : LoopOf Callback.init I
  injects : LoopOf (fun x : Plugin × Injection => Callback.inject x.1 x.2) J
  starts : LoopOf Callback.start S
  closes : LoopOf Callback.close C
  initFirst : J ≠ [] → AllInit loader.plugins I
  injectFirst : S ≠ [] → AllInject loader.plugins J
  closeAfter : ∀ pl ok, (.close pl, ok) ∈ C → (.start pl, true) ∈ S

/-- What the state says about the callbacks. -/
def Stage (loader : Loader) (I J S C : List (Callback × Bool)) : Prop :=
  match loader.state with
  | .loading => I = [] ∧ J = [] ∧ S = [] ∧ C = [] ∧ loader.started = []
  | .initialized =>
    AllInit loader.plugins I ∧ J = [] ∧ S = [] ∧ C = [] ∧ loader.started = []
  | .injected | .starting =>
    AllInject loader.plugins J ∧ S = [] ∧ C = [] ∧ loader.started = []
  | .started => C = [] ∧ loader.started = startedBy S
  | .closed | .failed =>
    ∀ pl, (.start pl, true) ∈ S → pl.isCloser = true → ∃ ok, (.close pl, ok) ∈ C
  | .initializing | .injecting | .closing => False

/-- The invariant of a loader. -/
def Inv (loader : Loader) : Prop := ∃ I J S C, Shape loader I J S C ∧ Stage loader I J S C

/-- A loop that has not run. -/
theorem loopOf_nil {α : Type} (kind : α → Callback) : LoopOf kind [] := ⟨[], nodup_nil, rfl⟩

/-- A new loader has made no callbacks. -/
theorem inv_new (disabled : String → Bool) : Inv (Loader.new disabled) := by
  refine ⟨[], [], [], [], ?_, rfl, rfl, rfl, rfl, rfl⟩
  exact
    { trace_eq := rfl
      names := nodup_nil
      inits := loopOf_nil _
      injects := loopOf_nil _
      starts := loopOf_nil _
      closes := loopOf_nil _
      initFirst := absurd rfl
      injectFirst := absurd rfl
      closeAfter := nofun }

/-- A loop over distinct elements makes each callback once, also if it is broken off. -/
theorem loopOf_calls {α : Type} (kind : α → Callback) {l : List α} (hl : l.Nodup) (err : Faults) :
    LoopOf kind (callUntilError err (l.map kind)).1 := by
  obtain ⟨rest, hrest⟩ := map_fst_calls (f := err) (l := l.map kind)
  generalize (callUntilError err (l.map kind)).1 = calls at hrest ⊢
  refine ⟨l.take calls.length, hl.sublist (take_sublist _ _), ?_⟩
  rw [map_take, ← hrest]
  simp

/-- A transition from the right state. -/
theorem transition_of_eq {loader : Loader} {before after : LoaderState}
    (h : loader.state = before) :
    transition before after loader = ({ loader with state := after }, none) := by
  simp [transition, assertState, h]

/-- A transition from any other state changes nothing. -/
theorem transition_of_ne {loader : Loader} {before after : LoaderState}
    (h : loader.state ≠ before) :
    transition before after loader = (loader, some (.state before loader.state)) := by
  simp [transition, assertState, h]

variable {loader : Loader} {I J S C : List (Callback × Bool)}

/-! ## The calls keep the shape -/

variable {pl : Plugin}

/-- A plugin is added under a new name. -/
theorem names_nodup_of_not_found {plugins : List Plugin} (hnodup : (plugins.map Plugin.name).Nodup)
    (hnone : plugins.find? (·.name = pl.name) = none) :
    ((plugins ++ [pl]).map Plugin.name).Nodup := by
  rw [map_append, nodup_append]
  refine ⟨hnodup, nodup_singleton _, ?_⟩
  intro a ha b hb
  obtain ⟨q, hq, rfl⟩ := mem_map.mp ha
  rw [map_singleton, mem_singleton] at hb
  have hne := find?_eq_none.mp hnone q hq
  rw [hb]
  simpa using hne

/-- `Load` adds a plugin while nothing has been called. -/
theorem inv_load (h : Inv loader) : Inv (load pl loader).1 := by
  by_cases hstate : loader.state = .loading
  · simp only [load, assertState, hstate, ne_eq, not_true_eq_false, if_false]
    split
    · exact h
    rename_i hnone
    split
    · exact h
    obtain ⟨I, J, S, C, hshape, hstage⟩ := h
    simp only [Stage, hstate] at hstage
    obtain ⟨rfl, rfl, rfl, rfl, hstarted⟩ := hstage
    refine ⟨[], [], [], [], ?_, ?_⟩
    · exact
        { hshape with
          names := names_nodup_of_not_found hshape.names hnone
          initFirst := absurd rfl
          injectFirst := absurd rfl }
    · simp [Stage, hstarted]
  · simp only [load, assertState, ne_eq, hstate, not_false_eq_true, if_true]
    exact h

variable {order : List Plugin}

/-- The loops see each plugin once. -/
theorem Shape.nodup_order (h : Shape loader I J S C) (hperm : order.Perm loader.plugins) :
    order.Nodup :=
  hperm.nodup_iff.mpr (List.Nodup.of_map _ h.names)

variable {err : Faults}

/-- The loader after the callbacks of one loop. -/
def called (err : Faults) (callbacks : List Callback) (state : LoaderState) (loader : Loader) :
    Loader :=
  { loader with
    state := state
    trace := loader.trace ++ (callUntilError err callbacks).1 }

/-- A loop keeps the invariant if its callbacks do, whether one fails or not. -/
theorem inv_callThrough {before during after : LoaderState} {callbacks : List Callback}
    (h : Inv loader)
    (hcalls : loader.state = before → Inv (called err callbacks .failed loader) ∧
      ((callUntilError err callbacks).2 = none → Inv (called err callbacks after loader))) :
    Inv (callThrough before during after callbacks err loader).1 := by
  by_cases hstate : loader.state = before
  · obtain ⟨hfailed, hafter⟩ := hcalls hstate
    simp only [callThrough, transition_of_eq hstate, callAll]
    cases hres : (callUntilError err callbacks).2 with
    | some e => exact hfailed
    | none =>
      simp only [transition_of_eq]
      exact hafter hres
  · simp only [callThrough, transition_of_ne hstate]
    exact h

/-- After `Initialize` every plugin is initialized, or the loader has failed. -/
theorem inv_initializeAll (h : Inv loader) (hperm : order.Perm loader.plugins) :
    Inv (initializeAll order err loader).1 := by
  refine inv_callThrough h fun hstate => ?_
  obtain ⟨I, J, S, C, hshape, hstage⟩ := h
  simp only [Stage, hstate] at hstage
  obtain ⟨rfl, rfl, rfl, rfl, hstarted⟩ := hstage
  have hafter : ∀ state, Shape (called err (order.map .init) state loader)
      (callUntilError err (order.map .init)).1 [] [] [] := fun state =>
    { hshape with
      trace_eq := by simp [called, hshape.trace_eq]
      inits := loopOf_calls Callback.init (hshape.nodup_order hperm) err
      initFirst := absurd rfl
      injectFirst := absurd rfl }
  refine ⟨⟨_, [], [], [], hafter .failed, nofun⟩, fun hres => ?_⟩
  refine ⟨_, [], [], [], hafter .initialized, ?_, rfl, rfl, rfl, hstarted⟩
  intro pl hpl
  rw [calls_of_ok hres]
  simpa using hperm.mem_iff.mpr hpl

/-- The injections as pairs of a plugin and a kind. -/
theorem injectCallbacks_eq (order : List Plugin) :
    injectCallbacks order =
      (order.flatMap fun pl => pl.injections.map (pl, ·)).map fun x => .inject x.1 x.2 := by
  simp [injectCallbacks, map_flatMap, Function.comp_def]

/-- Each kind is injected once. -/
theorem injections_nodup (pl : Plugin) : pl.injections.Nodup := by
  unfold Plugin.injections
  cases pl.isIPLD <;> cases pl.isTracer <;> cases pl.isDatastore <;> decide

/-- No injection is made twice. -/
theorem nodup_injections (h : order.Nodup) :
    (order.flatMap fun pl => pl.injections.map (pl, ·)).Nodup := by
  rw [nodup_flatMap]
  constructor
  · intro pl _
    exact (injections_nodup pl).map (fun a b hab => (Prod.mk.inj hab).2)
  · refine h.imp ?_
    intro a b hab x hxa hxb
    obtain ⟨k, _, rfl⟩ := mem_map.mp hxa
    obtain ⟨k', _, heq⟩ := mem_map.mp hxb
    exact hab (Prod.mk.inj heq).1.symm

/-- `Inject` runs after all plugins are initialized. -/
theorem inv_inject (h : Inv loader) (hperm : order.Perm loader.plugins) :
    Inv (inject order err loader).1 := by
  refine inv_callThrough h fun hstate => ?_
  obtain ⟨I, J, S, C, hshape, hstage⟩ := h
  simp only [Stage, hstate] at hstage
  obtain ⟨hinit, rfl, rfl, rfl, hstarted⟩ := hstage
  have hloop := loopOf_calls (fun x : Plugin × Injection => Callback.inject x.1 x.2)
    (nodup_injections (hshape.nodup_order hperm)) err
  rw [← injectCallbacks_eq] at hloop
  have hafter : ∀ state, Shape (called err (injectCallbacks order) state loader)
      I (callUntilError err (injectCallbacks order)).1 [] [] := fun state =>
    { hshape with
      trace_eq := by simp [called, hshape.trace_eq]
      injects := hloop
      initFirst := fun _ => hinit
      injectFirst := absurd rfl }
  refine ⟨⟨I, _, [], [], hafter .failed, nofun⟩, fun hres => ?_⟩
  refine ⟨I, _, [], [], hafter .injected, ?_, rfl, rfl, hstarted⟩
  intro pl hpl kind hkind
  rw [calls_of_ok hres]
  have hmem : .inject pl kind ∈ injectCallbacks order :=
    mem_flatMap.mpr ⟨pl, hperm.mem_iff.mpr hpl, mem_map.mpr ⟨kind, hkind, rfl⟩⟩
  simpa using hmem

variable {calls : List (Callback × Bool)}

/-- Membership among the started plugins. -/
theorem mem_startedBy : pl ∈ startedBy calls ↔ (.start pl, true) ∈ calls := by
  unfold startedBy
  rw [mem_filterMap]
  constructor
  · rintro ⟨⟨cb, ok⟩, hmem, heq⟩
    split at heq
    · rename_i h
      cases h
      cases heq
      exact hmem
    · cases heq
  · intro hmem
    exact ⟨_, hmem, rfl⟩

/-- The started plugins are some of those that the loop saw. -/
theorem startedBy_sublist {l : List Plugin} (h : S.map Prod.fst = l.map Callback.start) :
    (startedBy S).Sublist l := by
  induction S generalizing l with
  | nil => exact nil_sublist l
  | cons e S ih =>
    obtain ⟨cb, ok⟩ := e
    cases l with
    | nil => cases h
    | cons pl l =>
      obtain ⟨rfl, hrest⟩ := cons.inj h
      cases ok with
      | true => exact (ih hrest).cons_cons pl
      | false => exact (ih hrest).cons pl

/-- No plugin is started twice. -/
theorem nodup_startedBy (h : LoopOf Callback.start S) : (startedBy S).Nodup := by
  obtain ⟨l, hl, hS⟩ := h
  exact hl.sublist (startedBy_sublist hS)

/-- A loader that can be closed. -/
def LoaderState.isOpen : LoaderState → Prop
  | .closing | .failed | .closed => False
  | _ => True

/-- `Close` is done once. -/
theorem close_of_not_open (h : ¬ loader.state.isOpen) : close err loader = (loader, none) := by
  unfold close
  split
  case h_4 =>
    exfalso
    apply h
    unfold LoaderState.isOpen
    split <;> first | exact True.intro | contradiction
  all_goals rfl

/-- The callbacks of `Close`. -/
def closeCalls (err : Faults) (loader : Loader) : List (Callback × Bool) :=
  (loader.started.filter (·.isCloser)).map fun pl => (.close pl, (err (.close pl)).isNone)

/-- `Close` calls every started closer and ends closed or failed. -/
theorem close_of_open (err : Faults) (h : loader.state.isOpen) :
    ∃ state, (state = .closed ∨ state = .failed) ∧
      (close err loader).1 =
        { loader with
          state := state
          started := []
          trace := loader.trace ++ closeCalls err loader } := by
  unfold close
  split
  case h_4 =>
    simp only []
    split
    · exact ⟨.failed, .inr rfl, rfl⟩
    · exact ⟨.closed, .inl rfl, rfl⟩
  all_goals
    rename_i hstate
    rw [hstate] at h
    exact h.elim

/-- Closing a loader whose `started` is what has been started. -/
theorem inv_close_started (hopen : loader.state.isOpen) (hshape : Shape loader I J S [])
    (hstarted : loader.started = startedBy S) : Inv (close err loader).1 := by
  obtain ⟨state, hstate, heq⟩ := close_of_open err hopen
  have hmem : ∀ pl, pl ∈ loader.started.filter (·.isCloser) ↔
      (.start pl, true) ∈ S ∧ pl.isCloser = true := by
    intro pl
    rw [mem_filter, hstarted, mem_startedBy]
  rw [heq]
  refine ⟨I, J, S, closeCalls err loader, ?_, ?_⟩
  · exact
      { hshape with
        trace_eq := by simp [hshape.trace_eq]
        closes := by
          refine ⟨loader.started.filter (·.isCloser), ?_, ?_⟩
          · rw [hstarted]
            exact (nodup_startedBy hshape.starts).filter _
          · simp [closeCalls, Function.comp_def]
        closeAfter := by
          intro pl ok h
          obtain ⟨q, hq, hqe⟩ := mem_map.mp h
          cases hqe
          exact ((hmem pl).mp hq).1 }
  · have hclosed : ∀ pl, (.start pl, true) ∈ S → pl.isCloser = true →
        ∃ ok, (.close pl, ok) ∈ closeCalls err loader := by
      intro pl hpl hcloser
      exact ⟨_, mem_map.mpr ⟨pl, (hmem pl).mpr ⟨hpl, hcloser⟩, rfl⟩⟩
    rcases hstate with rfl | rfl <;> exact hclosed

/-- `Close` keeps the invariant. -/
theorem inv_close (h : Inv loader) : Inv (close err loader).1 := by
  by_cases hopen : loader.state.isOpen
  · obtain ⟨I, J, S, C, hshape, hstage⟩ := h
    unfold Stage at hstage
    split at hstage
    case h_1 | h_2 =>
      obtain ⟨_, rfl, rfl, rfl, hstarted⟩ := hstage
      exact inv_close_started hopen hshape hstarted
    case h_3 | h_4 =>
      obtain ⟨_, rfl, rfl, hstarted⟩ := hstage
      exact inv_close_started hopen hshape hstarted
    case h_5 =>
      obtain ⟨rfl, hstarted⟩ := hstage
      exact inv_close_started hopen hshape hstarted
    all_goals simp_all [LoaderState.isOpen]
  · rwa [close_of_not_open hopen]

/-- After `Close` the loader is closed or failed. -/
theorem close_state (err : Faults) (h : Inv loader) :
    (close err loader).1.state = .closed ∨ (close err loader).1.state = .failed := by
  by_cases hopen : loader.state.isOpen
  · obtain ⟨state, hstate, heq⟩ := close_of_open err hopen
    rw [heq]
    exact hstate
  obtain ⟨I, J, S, C, _, hstage⟩ := h
  rw [close_of_not_open hopen]
  cases hstate : loader.state with
  | closed => exact .inl rfl
  | failed => exact .inr rfl
  | closing =>
    simp only [Stage, hstate] at hstage
  | _ =>
    rw [hstate] at hopen
    exact absurd True.intro hopen

/-- The callbacks of `Start`. -/
def startCalls (order : List Plugin) (err : Faults) : List (Callback × Bool) × Option String :=
  callUntilError err ((order.filter (·.daemon.isSome)).map Callback.start)

/-- The loader after the callbacks of `Start`. -/
def afterStart (order : List Plugin) (err : Faults) (state : LoaderState) (loader : Loader) :
    Loader :=
  { loader with
    state := state
    started := startedBy (startCalls order err).1
    trace := loader.trace ++ (startCalls order err).1 }

variable {coreAPI : Option String}

/-- `Start` on an injected loader. -/
theorem start_injected (hstate : loader.state = .injected) (hstarted : loader.started = []) :
    start order coreAPI err loader =
      match coreAPI, (startCalls order err).2 with
      | some e, _ => ({ loader with state := .starting }, some (.coreAPI e))
      | none, some e => ((close err (afterStart order err .starting loader)).1, some (.plugin e))
      | none, none => (afterStart order err .started loader, none) := by
  cases coreAPI with
  | some e => simp [start, transition_of_eq hstate]
  | none =>
    simp only [start, transition_of_eq hstate, callAll, hstarted, nil_append]
    cases hres : (startCalls order err).2 with
    | some e | none =>
      unfold startCalls at hres
      rw [hres]
      rfl

/-- `Start` runs after all injections. -/
theorem shape_afterStart (err : Faults) (hshape : Shape loader I J [] [])
    (hinject : AllInject loader.plugins J) (hperm : order.Perm loader.plugins)
    (state : LoaderState) :
    Shape (afterStart order err state loader) I J (startCalls order err).1 [] :=
  { hshape with
    trace_eq := by simp [afterStart, hshape.trace_eq]
    starts := loopOf_calls _ ((hshape.nodup_order hperm).filter _) err
    injectFirst := fun _ => hinject
    closeAfter := nofun }

/-- A `Start` that fails because of a plugin closes the loader. -/
theorem inv_start (h : Inv loader) (hperm : order.Perm loader.plugins) :
    Inv (start order coreAPI err loader).1 ∧
      ∀ e, (start order coreAPI err loader).2 = some (.plugin e) →
        (start order coreAPI err loader).1.state = .closed ∨
          (start order coreAPI err loader).1.state = .failed := by
  by_cases hstate : loader.state = .injected
  · obtain ⟨I, J, S, C, hshape, hstage⟩ := h
    simp only [Stage, hstate] at hstage
    obtain ⟨hinject, rfl, rfl, hstarted⟩ := hstage
    have hafter := shape_afterStart err hshape hinject hperm
    rw [start_injected hstate hstarted]
    split
    · exact ⟨⟨I, J, [], [], { hshape with }, hinject, rfl, rfl, hstarted⟩, nofun⟩
    · refine ⟨inv_close_started True.intro (hafter .starting) rfl, fun _ _ => ?_⟩
      have hopen : (afterStart order err .starting loader).state.isOpen := True.intro
      obtain ⟨state, hclosed, heq⟩ := close_of_open err hopen
      simp only [heq]
      exact hclosed
    · exact ⟨⟨I, J, _, [], hafter .started, rfl, rfl⟩, nofun⟩
  · simp only [start, transition_of_ne hstate]
    exact ⟨h, nofun⟩

/-- **Every call keeps the invariant.** -/
theorem inv_step {c : Call} {t : Loader} (h : Inv loader) (hstep : step loader c = some t) :
    Inv t := by
  obtain ⟨horders, rfl⟩ := guard_passed hstep
  cases c with
  | load pl => exact inv_load h
  | initializeAll order err => exact inv_initializeAll h horders
  | inject order err => exact inv_inject h horders
  | start order coreAPI err => exact (inv_start h horders).1
  | close err => exact inv_close h

/-- The invariant holds after every sequence of calls. -/
theorem inv_run {disabled : String → Bool} {calls : List Call}
    (h : run step (.new disabled) calls = some loader) : Inv loader :=
  run_invariant Inv (fun _ _ _ h hstep => inv_step h hstep) (inv_new disabled) h

/-! ## What a trace shows -/

/-- In the trace, `early` comes before everything of kind `late`. -/
def Precedes (trace : List (Callback × Bool)) (early : Callback × Bool)
    (late : Callback → Prop) : Prop :=
  ∀ pre e post, trace = pre ++ e :: post → late e.1 → early ∈ pre

/-- What the second part needs is in the first one. -/
theorem precedes_append {A B : List (Callback × Bool)} {early : Callback × Bool}
    {late : Callback → Prop} (hnone : ∀ e ∈ A, ¬ late e.1)
    (hearly : (∃ e ∈ B, late e.1) → early ∈ A) : Precedes (A ++ B) early late := by
  intro pre e post heq hlate
  rcases append_eq_append_iff.mp heq with ⟨m, hpre, hB⟩ | ⟨m, hA, hrest⟩
  · rw [hpre]
    refine mem_append_left _ (hearly ⟨e, ?_, hlate⟩)
    rw [hB]
    exact mem_append_right _ mem_cons_self
  cases m with
  | nil =>
    rw [nil_append] at hrest
    rw [append_nil] at hA
    rw [← hA]
    exact hearly ⟨e, hrest ▸ mem_cons_self, hlate⟩
  | cons x m =>
    obtain ⟨rfl, _⟩ := cons.inj hrest
    exact absurd hlate (hnone _ (hA ▸ mem_append_right _ mem_cons_self))

/-- The callback is an injection. -/
def Callback.IsInject (cb : Callback) : Prop := ∃ pl kind, cb = .inject pl kind

/-- The callback is a `Start`. -/
def Callback.IsStart (cb : Callback) : Prop := ∃ pl, cb = .start pl

/-- The number of the loop that makes the callback. -/
def Callback.loop : Callback → Nat
  | .init _ => 0
  | .inject _ _ => 1
  | .start _ => 2
  | .close _ => 3

/-- The callbacks of a loop carry its number. -/
theorem LoopOf.loop_of_mem {α : Type} {kind : α → Callback} {n : Nat} (h : LoopOf kind calls)
    (hn : ∀ x, (kind x).loop = n) : ∀ e ∈ calls, e.1.loop = n := by
  intro e he
  obtain ⟨l, _, hl⟩ := h
  have hmem : e.1 ∈ l.map kind := hl ▸ mem_map_of_mem he
  obtain ⟨x, _, hx⟩ := mem_map.mp hmem
  exact hx ▸ hn x

/-- The callbacks of the four parts of a trace. -/
theorem Shape.loops (h : Shape loader I J S C) : (∀ e ∈ I, e.1.loop = 0) ∧
    (∀ e ∈ J, e.1.loop = 1) ∧ (∀ e ∈ S, e.1.loop = 2) ∧ ∀ e ∈ C, e.1.loop = 3 :=
  ⟨h.inits.loop_of_mem fun _ => rfl, h.injects.loop_of_mem fun _ => rfl,
    h.starts.loop_of_mem fun _ => rfl, h.closes.loop_of_mem fun _ => rfl⟩

/-- No callback is made twice: the loops do not repeat theirs, nor share any. -/
theorem Shape.trace_nodup (h : Shape loader I J S C) : (loader.trace.map Prod.fst).Nodup := by
  obtain ⟨inits, hinits, hI⟩ := h.inits
  obtain ⟨injects, hinjects, hJ⟩ := h.injects
  obtain ⟨starts, hstarts, hS⟩ := h.starts
  obtain ⟨closes, hcloses, hC⟩ := h.closes
  have hI' := hinits.map fun _ _ => Callback.init.inj
  have hJ' := hinjects.map fun _ _ h =>
    Prod.ext (Callback.inject.inj h).1 (Callback.inject.inj h).2
  have hS' := hstarts.map fun _ _ => Callback.start.inj
  have hC' := hcloses.map fun _ _ => Callback.close.inj
  rw [h.trace_eq]
  simp only [map_append, hI, hJ, hS, hC]
  refine List.Nodup.append (List.Nodup.append (hI'.append hJ' ?_) hS' ?_) hC' ?_
  all_goals grind [List.Disjoint]

/-- Nothing that was started is left open. -/
def AllClosed (loader : Loader) : Prop :=
  ∀ pl, (.start pl, true) ∈ loader.trace → pl.isCloser = true → ∃ ok, (.close pl, ok) ∈ loader.trace

/-- A `Start` in the trace is in its third part. -/
theorem Shape.mem_starts (h : Shape loader I J S C) {ok : Bool}
    (hmem : (.start pl, ok) ∈ loader.trace) : (.start pl, ok) ∈ S := by
  obtain ⟨hI, hJ, _, hC⟩ := h.loops
  simp only [h.trace_eq, mem_append] at hmem
  rcases hmem with ((hmem | hmem) | hmem) | hmem
  · cases hI _ hmem
  · cases hJ _ hmem
  · exact hmem
  · cases hC _ hmem

/-- A closed or failed loader has nothing open. -/
theorem allClosed_of_state (h : Inv loader)
    (hstate : loader.state = .closed ∨ loader.state = .failed) : AllClosed loader := by
  obtain ⟨I, J, S, C, hshape, hstage⟩ := h
  have hclosed : ∀ pl, (.start pl, true) ∈ S → pl.isCloser = true → ∃ ok, (.close pl, ok) ∈ C := by
    rcases hstate with hstate | hstate <;> simpa only [Stage, hstate] using hstage
  intro pl hmem hcloser
  obtain ⟨ok, hok⟩ := hclosed pl (hshape.mem_starts hmem) hcloser
  refine ⟨ok, ?_⟩
  rw [hshape.trace_eq]
  exact mem_append_right _ hok

/-- After `Close` nothing is open. -/
theorem closed_after_close (h : Inv loader) (err : Faults) : AllClosed (close err loader).1 :=
  allClosed_of_state (inv_close h) (close_state err h)

/-- After a failed `Start` nothing is open. -/
theorem closed_after_start {e : String} (h : Inv loader) (hperm : order.Perm loader.plugins)
    (hres : (start order coreAPI err loader).2 = some (.plugin e)) :
    AllClosed (start order coreAPI err loader).1 := by
  obtain ⟨hinv, hclosed⟩ := inv_start h hperm
  exact allClosed_of_state hinv (hclosed e hres)

/-- **The life of plugins.**  Whatever is called on a loader and whichever
callbacks fail: every `Init` comes before the first injection and every
injection before the first `Start`, and they succeeded; no callback is made
twice; `Close` comes after a `Start` that returned nil; and after a `Start` that
failed because of a plugin, and after `Close`, nothing is left open. -/
theorem lifecycle {disabled : String → Bool} {calls : List Call}
    (hrun : run step (.new disabled) calls = some loader) :
    (∀ pl ∈ loader.plugins, Precedes loader.trace (.init pl, true) Callback.IsInject) ∧
    (∀ pl ∈ loader.plugins, ∀ kind ∈ pl.injections,
      Precedes loader.trace (.inject pl kind, true) Callback.IsStart) ∧
    (loader.trace.map Prod.fst).Nodup ∧
    (∀ pl, Precedes loader.trace (.start pl, true) (· = .close pl)) ∧
    (∀ order coreAPI err e, order.Perm loader.plugins →
      (start order coreAPI err loader).2 = some (.plugin e) →
      AllClosed (start order coreAPI err loader).1) ∧
    ∀ err, AllClosed (close err loader).1 := by
  have hinv := inv_run hrun
  refine ⟨?_, ?_, ?_, ?_, fun _ _ _ _ hperm hres => closed_after_start hinv hperm hres,
    closed_after_close hinv⟩
  all_goals
    obtain ⟨I, J, S, C, hshape, _⟩ := hinv
    obtain ⟨hI, hJ, hS, hC⟩ := hshape.loops
  · intro pl hpl
    rw [hshape.trace_eq, append_assoc, append_assoc]
    refine precedes_append ?_ ?_
    · rintro e he ⟨_, _, heq⟩
      cases heq ▸ hI e he
    rintro ⟨e, he, _, _, heq⟩
    have hmem : e ∈ J := by
      simp only [mem_append] at he
      rcases he with he | he | he
      · exact he
      · cases heq ▸ hS e he
      · cases heq ▸ hC e he
    exact hshape.initFirst (ne_nil_of_mem hmem) pl hpl
  · intro pl hpl kind hkind
    rw [hshape.trace_eq, append_assoc]
    refine precedes_append ?_ ?_
    · rintro e he ⟨_, heq⟩
      rcases mem_append.mp he with he | he
      · cases heq ▸ hI e he
      · cases heq ▸ hJ e he
    rintro ⟨e, he, _, heq⟩
    have hmem : e ∈ S := (mem_append.mp he).resolve_right fun he => by cases heq ▸ hC e he
    exact mem_append_right _ (hshape.injectFirst (ne_nil_of_mem hmem) pl hpl kind hkind)
  · exact hshape.trace_nodup
  · intro pl
    rw [hshape.trace_eq]
    refine precedes_append ?_ ?_
    · intro e he heq
      simp only [mem_append] at he
      rcases he with (he | he) | he
      · cases heq ▸ hI e he
      · cases heq ▸ hJ e he
      · cases heq ▸ hS e he
    · rintro ⟨⟨cb, ok⟩, he, rfl⟩
      exact mem_append_right _ (hshape.closeAfter pl ok he)

/-- A daemon that traces and can be closed. -/
def tracing : Plugin where
  name := "tracing"
  version := "0.1.0"
  isIPLD := false
  isTracer := true
  isDatastore := false
  daemon := some .coreAPI
  isCloser := true

/-- A daemon that does not start. -/
def broken : Plugin :=
  { tracing with name := "broken", isTracer := false, daemon := some .node }

/-- Both are loaded and injected. -/
def injectedCalls : List Call :=
  [.load tracing, .load broken, .load tracing, .initializeAll [broken, tracing] (fun _ => none),
    .inject [tracing, broken] (fun _ => none)]

/-- The second plugin fails to start. -/
def brokenStart : Faults := fun cb => if cb = .start broken then some "no port" else none

/-- The daemon that did start is closed again. -/
theorem lifecycle_broken :
    ∃ loader, run step (.new fun _ => false) injectedCalls = some loader ∧
      (start [tracing, broken] none brokenStart loader).2 = some (.plugin "no port") ∧
      ∃ ok, (.close tracing, ok) ∈ (start [tracing, broken] none brokenStart loader).1.trace := by
  have hany : (run step (.new fun _ => false) injectedCalls).any (fun loader =>
      loader.plugins = [tracing, broken] ∧
        (start [tracing, broken] none brokenStart loader).2 = some (.plugin "no port") ∧
        (.start tracing, true) ∈ (start [tracing, broken] none brokenStart loader).1.trace) =
      true := by
    decide +kernel
  obtain ⟨loader, hrun, h⟩ := exists_run_of_any hany
  obtain ⟨hplugins, hres, hstarted⟩ := of_decide_eq_true h
  refine ⟨loader, hrun, hres, ?_⟩
  have hclosed := (lifecycle hrun).2.2.2.2.1 [tracing, broken] none brokenStart "no port"
    (hplugins ▸ List.Perm.refl _) hres
  exact hclosed tracing hstarted rfl

end PluginLoader
