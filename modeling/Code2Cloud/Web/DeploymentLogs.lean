import Code2Cloud.Api.Logs
import Code2Cloud.Base.Reach

/-!
# The log viewer

`useDeploymentLogs`: what the page shows, the refs that its effects share, and what renders,
effects, answers of the API and timers do with them.
-/

namespace Code2Cloud
namespace Web

open Api (DeploymentId DeploymentStatus)
open Api.Logs (LogEntry LogSource LogsPage Viewer)

namespace UseDeploymentLogs

/-- What the page passes to the hook. -/
structure Props where
  deploymentId : Option DeploymentId
  source : Option LogSource := none
  enabled : Bool := true
  deriving DecidableEq

/-- What `fetchLogs` closes over. -/
def Props.viewer (p : Props) : Option Viewer := p.deploymentId.map fun id => ⟨id, p.source⟩

/-- `!deploymentId || !enabled` is where the first two effects return. -/
def Props.active (p : Props) : Option Viewer := if p.enabled then p.viewer else none

/-- A call of `fetchLogs` that waits for its answer. -/
structure Fetch where
  viewer : Viewer
  after : Option Nat
  /-- Polling ends when it is done. -/
  stops : Bool
  deriving DecidableEq

/-- A render, with the values that its effects close over. -/
structure Render where
  props : Props
  isLive : Bool
  isLoading : Bool
  deriving DecidableEq

end UseDeploymentLogs

open UseDeploymentLogs

structure UseDeploymentLogs where
  logs : List LogEntry := []
  isLive : Bool := false
  status : Option DeploymentStatus := none
  isLoading : Bool := true
  error : Option String := none
  bufferRef : List LogEntry := []
  /-- A timer of `drip` is set. -/
  dripTimerRef : Bool := false
  isDrippingRef : Bool := false
  cursorRef : Option Nat := none
  intervalRef : Bool := false
  /-- The call that has set `isFetchingRef`. -/
  fetching : Option Fetch := none
  lastFetchConfig : Option Viewer := none
  isFirstBatchRef : Bool := true
  /-- A render whose effects have yet to run, and the last one whose effects have. -/
  pending : Option Render := none
  rendered : Option Render := none

namespace UseDeploymentLogs

/-! ## Dripping -/

def drip (h : UseDeploymentLogs) : UseDeploymentLogs :=
  match h.bufferRef with
  | [] => { h with isDrippingRef := false }
  | next :: rest => { h with bufferRef := rest, logs := h.logs ++ [next], dripTimerRef := true }

def startDrip (h : UseDeploymentLogs) : UseDeploymentLogs :=
  if h.isDrippingRef then h else { h with isDrippingRef := true }.drip

/-- Lines are shown at once or, one after the other, every `dripInterval` milliseconds. -/
def enqueueLogs (dripInterval : Nat) (h : UseDeploymentLogs) (incoming : List LogEntry)
    (immediate : Bool) : UseDeploymentLogs :=
  if immediate ∨ dripInterval = 0 then { h with logs := h.logs ++ incoming }
  else { h with bufferRef := h.bufferRef ++ incoming }.startDrip

/-! ## Fetching -/

/-- A call of `fetchLogs` up to its request.  Where it returns at once, what waits for it to end
polling is done at once as well. -/
def fetchLogs (h : UseDeploymentLogs) (viewer : Option Viewer) (stops : Bool) :
    UseDeploymentLogs :=
  match viewer, h.fetching with
  | some viewer, none => { h with fetching := some { viewer, after := h.cursorRef, stops } }
  | _, _ => if stops then { h with intervalRef := false } else h

def settle (h : UseDeploymentLogs) (f : Fetch) : UseDeploymentLogs :=
  { h with
    isLoading := false
    fetching := none
    intervalRef := if f.stops then false else h.intervalRef }

def receive (dripInterval : Nat) (h : UseDeploymentLogs) (page : LogsPage) : UseDeploymentLogs :=
  if page.logs = [] then h
  else
    { enqueueLogs dripInterval h page.logs h.isFirstBatchRef with
      isFirstBatchRef := false
      cursorRef := page.nextCursor }

/-- `fetchLogs` with the API's answer. -/
def respond (dripInterval : Nat) (h : UseDeploymentLogs) (f : Fetch) (page : LogsPage) :
    UseDeploymentLogs :=
  { receive dripInterval h page with
    isLive := page.isLive
    status := some page.status
    error := none }.settle f

/-! ## Effects -/

/-- What the selection effect does for another deployment or source. -/
def reset (h : UseDeploymentLogs) (viewer : Viewer) : UseDeploymentLogs :=
  { h with
    logs := []
    isLoading := true
    error := none
    cursorRef := none
    bufferRef := []
    isFirstBatchRef := true
    isDrippingRef := false
    dripTimerRef := false
    lastFetchConfig := some viewer }

def selectionEffect (h : UseDeploymentLogs) (p : Props) : UseDeploymentLogs :=
  match p.active with
  | none => h
  | some viewer =>
    (if h.lastFetchConfig = some viewer then h else h.reset viewer).fetchLogs (some viewer) false

def intervalEffect (h : UseDeploymentLogs) (p : Props) : UseDeploymentLogs :=
  match p.active with
  | none => h
  | some _ => { h with intervalRef := true }

/-- Where the deployment is not live, one more fetch ends the polling. -/
def stopEffect (h : UseDeploymentLogs) (r : Render) : UseDeploymentLogs :=
  if !r.isLive && !r.isLoading && h.intervalRef then h.fetchLogs r.props.viewer true else h

/-- The first two effects, after the cleanup of the second, where what the page passes has
changed. -/
def propsEffects (h : UseDeploymentLogs) (r : Render) : UseDeploymentLogs :=
  if h.rendered.map (·.props) = some r.props then h
  else ({ h with intervalRef := false }.selectionEffect r.props).intervalEffect r.props

/-- What the third effect depends on. -/
def Render.deps (r : Render) : Bool × Bool × Option Viewer :=
  (r.isLive, r.isLoading, r.props.viewer)

def runEffects (h : UseDeploymentLogs) (r : Render) : UseDeploymentLogs :=
  let h' := h.propsEffects r
  { if h.rendered.map (·.deps) = some r.deps then h' else h'.stopEffect r with
    pending := none
    rendered := some r }

/-! ## Runs -/

inductive Event
  | render (props : Props)
  /-- The effects of the last render run. -/
  | effects
  | respond (page : LogsPage)
  | fail (message : String)
  /-- The interval fires. -/
  | poll
  /-- The timer of `drip` fires. -/
  | drip

def step (dripInterval : Nat) (h : UseDeploymentLogs) : Event → Option UseDeploymentLogs
  | .render props =>
    if h.pending.isNone then
      some { h with pending := some { props, isLive := h.isLive, isLoading := h.isLoading } }
    else none
  | .effects => h.pending.map h.runEffects
  | .respond page => h.fetching.map fun f => h.respond dripInterval f page
  | .fail message => h.fetching.map fun f => { h with error := some message }.settle f
  | .poll =>
    if h.intervalRef then some (h.fetchLogs (h.rendered.bind (·.props.viewer)) false) else none
  | .drip => if h.dripTimerRef then some { h with dripTimerRef := false }.drip else none

/-- The page is open, nothing is on its way and nothing will be. -/
structure Quiet (h : UseDeploymentLogs) : Prop where
  opened : h.rendered.isSome
  fetching : h.fetching = none
  interval : h.intervalRef = false
  buffer : h.bufferRef = []

/-! ## What dripping shows -/

/-- What is shown, now or later. -/
def shown (h : UseDeploymentLogs) : List LogEntry := h.logs ++ h.bufferRef

/-- They differ in what dripping writes only. -/
def Apart (h h' : UseDeploymentLogs) : Prop :=
  h' = { h with
    logs := h'.logs
    bufferRef := h'.bufferRef
    dripTimerRef := h'.dripTimerRef
    isDrippingRef := h'.isDrippingRef }

/-- As long as there are lines to drip, there is a timer. -/
structure Drains (h : UseDeploymentLogs) : Prop where
  dripping : h.bufferRef ≠ [] → h.isDrippingRef = true
  timer : h.isDrippingRef = true → h.dripTimerRef = true

variable {dripInterval : Nat} {h h' : UseDeploymentLogs}

theorem Apart.pending (hapart : h.Apart h') : h'.pending = h.pending := by
  rw [hapart]

theorem Apart.rendered (hapart : h.Apart h') : h'.rendered = h.rendered := by
  rw [hapart]

theorem Apart.intervalRef (hapart : h.Apart h') : h'.intervalRef = h.intervalRef := by
  rw [hapart]

theorem shown_drip (h : UseDeploymentLogs) : h.drip.shown = h.shown := by
  unfold drip shown
  cases h.bufferRef with
  | nil => rfl
  | cons next rest => exact List.append_assoc _ _ _

theorem apart_drip (h : UseDeploymentLogs) : h.Apart h.drip := by
  unfold drip Apart
  cases h.bufferRef <;> rfl

theorem drains_drip (hdripping : h.isDrippingRef = true) : h.drip.Drains := by
  unfold drip
  cases hbuffer : h.bufferRef with
  | nil => exact ⟨fun hne => absurd rfl hne, fun hd => absurd hd Bool.false_ne_true⟩
  | cons next rest => exact ⟨fun _ => hdripping, fun _ => rfl⟩

theorem shown_startDrip (h : UseDeploymentLogs) : h.startDrip.shown = h.shown := by
  unfold startDrip
  split
  · rfl
  · exact shown_drip _

theorem apart_startDrip (h : UseDeploymentLogs) : h.Apart h.startDrip := by
  unfold startDrip
  split
  · rfl
  · exact apart_drip _

theorem drains_startDrip (htimer : h.isDrippingRef = true → h.dripTimerRef = true) :
    h.startDrip.Drains := by
  unfold startDrip
  split
  · rename_i hdripping
    exact ⟨fun _ => hdripping, htimer⟩
  · exact drains_drip rfl

theorem shown_enqueueLogs {immediate : Bool} (incoming : List LogEntry)
    (hnil : immediate = true ∨ dripInterval = 0 → h.bufferRef = []) :
    (enqueueLogs dripInterval h incoming immediate).shown = h.shown ++ incoming := by
  unfold enqueueLogs
  split
  · rename_i hnow
    rw [shown, shown, hnil hnow, List.append_nil, List.append_nil]
  · rw [shown_startDrip]
    exact (List.append_assoc _ _ _).symm

theorem apart_enqueueLogs (dripInterval : Nat) (h : UseDeploymentLogs) (incoming : List LogEntry)
    (immediate : Bool) : h.Apart (enqueueLogs dripInterval h incoming immediate) := by
  unfold enqueueLogs
  split
  · rfl
  · exact apart_startDrip _

theorem drains_enqueueLogs (dripInterval : Nat) (hd : h.Drains) (incoming : List LogEntry)
    (immediate : Bool) :
    (enqueueLogs dripInterval h incoming immediate).Drains := by
  unfold enqueueLogs
  split
  · exact ⟨hd.dripping, hd.timer⟩
  · exact drains_startDrip hd.timer

theorem bufferRef_enqueueLogs (hnil : h.bufferRef = []) (incoming : List LogEntry)
    (immediate : Bool) : (enqueueLogs 0 h incoming immediate).bufferRef = [] := by
  rw [enqueueLogs, if_pos (Or.inr rfl)]
  exact hnil

theorem keeps_receive (dripInterval : Nat) (h : UseDeploymentLogs) (page : LogsPage) :
    (receive dripInterval h page).pending = h.pending ∧
      (receive dripInterval h page).rendered = h.rendered ∧
      (receive dripInterval h page).intervalRef = h.intervalRef := by
  unfold receive
  split
  · exact ⟨rfl, rfl, rfl⟩
  · have hapart := apart_enqueueLogs dripInterval h page.logs h.isFirstBatchRef
    exact ⟨hapart.pending, hapart.rendered, hapart.intervalRef⟩

/-! ## What calls and effects leave alone -/

/-- They differ in the call that is waiting and in the interval only. -/
def Asks (h h' : UseDeploymentLogs) : Prop :=
  h' = { h with fetching := h'.fetching, intervalRef := h'.intervalRef }

theorem asks_fetchLogs (h : UseDeploymentLogs) (viewer : Option Viewer) (stops : Bool) :
    h.Asks (h.fetchLogs viewer stops) := by
  unfold fetchLogs
  split
  · rfl
  · split <;> rfl

/-- After a call a request is on its way: the call's own, or the one that was. -/
theorem fetching_fetchLogs (h : UseDeploymentLogs) (v : Viewer) (stops : Bool) :
    ∃ f, (h.fetchLogs (some v) stops).fetching = some f ∧
      (h.fetching = some f ∨ f = { viewer := v, after := h.cursorRef, stops }) := by
  unfold fetchLogs
  split
  · rename_i hv _
    cases hv
    exact ⟨_, rfl, Or.inr rfl⟩
  · rename_i hwaits
    cases hfetching : h.fetching with
    | none => exact (hwaits v rfl hfetching).elim
    | some f =>
      refine ⟨f, ?_, Or.inl rfl⟩
      split
      · rfl
      · exact hfetching

theorem fetchLogs_of_none (hnone : h.fetching = none) (v : Viewer) (stops : Bool) :
    h.fetchLogs (some v) stops =
      { h with fetching := some { viewer := v, after := h.cursorRef, stops } } := by
  unfold fetchLogs
  split
  · rename_i hv _
    cases hv
    rfl
  · rename_i hwaits
    exact (hwaits v rfl hnone).elim

theorem asks_intervalEffect (h : UseDeploymentLogs) (p : Props) : h.Asks (h.intervalEffect p) := by
  unfold intervalEffect
  split <;> rfl

theorem asks_stopEffect (h : UseDeploymentLogs) (r : Render) : h.Asks (h.stopEffect r) := by
  unfold stopEffect
  split
  · exact asks_fetchLogs h _ _
  · rfl

theorem stopEffect_of_loading {r : Render} (hloading : r.isLoading = true) (h : UseDeploymentLogs) :
    h.stopEffect r = h := by
  rw [stopEffect, hloading, Bool.not_true, Bool.and_false, Bool.false_and,
    if_neg Bool.false_ne_true]

/-- Where the page passes the same as before, only the third effect may run. -/
theorem runEffects_again {r r' : Render} (hrendered : h.rendered = some r)
    (hprops : r.props = r'.props) : h.runEffects r' =
      { if r.deps = r'.deps then h else h.stopEffect r' with
        pending := none
        rendered := some r' } := by
  have hsame : h.propsEffects r' = h := if_pos (by rw [hrendered, Option.map_some, hprops])
  rw [runEffects, hsame, hrendered, Option.map_some]
  simp only [Option.some.injEq]

/-- Once the first answer is there, a deployment that is not live is fetched once more. -/
theorem runEffects_last {r r' : Render} {v : Viewer} (hrendered : h.rendered = some r)
    (hprops : r.props = r'.props) (hviewer : r'.props.viewer = some v)
    (hfirst : r.isLoading = true) (hloaded : r'.isLoading = false) (hdead : r'.isLive = false)
    (hinterval : h.intervalRef = true) : h.runEffects r' =
      { h.fetchLogs (some v) true with
        pending := none
        rendered := some r' } := by
  have hdeps : r.deps ≠ r'.deps := by
    rw [Render.deps, Render.deps, hfirst, hloaded]
    simp
  rw [runEffects_again hrendered hprops, if_neg hdeps, stopEffect, hdead, hloaded, hinterval,
    hviewer]
  rfl

theorem step_effects_last (dripInterval : Nat) {r r' : Render} {v : Viewer}
    (hrendered : h.rendered = some r) (hpending : h.pending = some r') (hprops : r.props = r'.props)
    (hviewer : r'.props.viewer = some v) (hfirst : r.isLoading = true)
    (hloaded : r'.isLoading = false) (hdead : r'.isLive = false) (hinterval : h.intervalRef = true)
    (hfetching : h.fetching = none) : step dripInterval h .effects = some { h with
      fetching := some { viewer := v, after := h.cursorRef, stops := true }
      pending := none
      rendered := some r' } := by
  rw [step, hpending, Option.map_some, runEffects_last hrendered hprops hviewer hfirst hloaded hdead
    hinterval, fetchLogs_of_none hfetching]

theorem Asks.drains (hasks : h.Asks h') (hd : h.Drains) : h'.Drains := by
  rw [hasks]
  exact ⟨hd.dripping, hd.timer⟩

theorem Drains.reset (h : UseDeploymentLogs) (viewer : Viewer) : (h.reset viewer).Drains :=
  ⟨fun hne => absurd rfl hne, fun hd => absurd hd Bool.false_ne_true⟩

theorem drains_selectionEffect (hd : h.Drains) (p : Props) : (h.selectionEffect p).Drains := by
  unfold selectionEffect
  split
  · exact hd
  · refine (asks_fetchLogs _ _ _).drains ?_
    split
    · exact hd
    · exact Drains.reset h _

theorem drains_runEffects (hd : h.Drains) (r : Render) : (h.runEffects r).Drains := by
  have hprops : (h.propsEffects r).Drains := by
    unfold propsEffects
    split
    · exact hd
    · have hcleanup : { h with intervalRef := false }.Drains := ⟨hd.dripping, hd.timer⟩
      exact (asks_intervalEffect _ _).drains (drains_selectionEffect hcleanup r.props)
  have hstop : (if h.rendered.map (·.deps) = some r.deps then h.propsEffects r
      else (h.propsEffects r).stopEffect r).Drains := by
    split
    · exact hprops
    · exact (asks_stopEffect _ r).drains hprops
  exact ⟨hstop.dripping, hstop.timer⟩

theorem drains_respond (hd : h.Drains) (f : Fetch) (page : LogsPage) :
    (h.respond dripInterval f page).Drains := by
  have hreceive : (receive dripInterval h page).Drains := by
    unfold receive
    split
    · exact hd
    · have henqueued := drains_enqueueLogs dripInterval hd page.logs h.isFirstBatchRef
      exact ⟨henqueued.dripping, henqueued.timer⟩
  exact ⟨hreceive.dripping, hreceive.timer⟩

theorem drains_step {e : Event} (hd : h.Drains) (hstep : step dripInterval h e = some h') :
    h'.Drains := by
  cases e with
  | render props =>
    rw [step] at hstep
    split at hstep
    · cases hstep
      exact ⟨hd.dripping, hd.timer⟩
    · cases hstep
  | effects =>
    obtain ⟨r, _, rfl⟩ := Option.map_eq_some_iff.mp hstep
    exact drains_runEffects hd r
  | respond page =>
    obtain ⟨f, _, rfl⟩ := Option.map_eq_some_iff.mp hstep
    exact drains_respond hd f page
  | fail message =>
    obtain ⟨f, _, rfl⟩ := Option.map_eq_some_iff.mp hstep
    exact ⟨hd.dripping, hd.timer⟩
  | poll =>
    rw [step] at hstep
    split at hstep
    · cases hstep
      exact (asks_fetchLogs h _ _).drains hd
    · cases hstep
  | drip =>
    rw [step] at hstep
    split at hstep
    · cases hstep
      unfold drip
      cases hbuffer : h.bufferRef with
      | nil => exact ⟨fun hne => absurd rfl hne, fun hd => absurd hd Bool.false_ne_true⟩
      | cons next rest =>
        exact ⟨fun _ => hd.dripping (by rw [hbuffer]; exact List.cons_ne_nil _ _), fun _ => rfl⟩
    · cases hstep

/-- What is to be dripped is shown in the end, and nothing else changes meanwhile. -/
theorem exists_drained (ok : UseDeploymentLogs → Event → Prop) (hok : ∀ h, ok h .drip)
    (hd : h.Drains) : ∃ h', Reaches (step dripInterval) ok h h' ∧ h.Apart h' ∧
      h'.bufferRef = [] ∧ h'.logs = h.shown := by
  induction hbuffer : h.bufferRef generalizing h with
  | nil => exact ⟨h, .refl, rfl, hbuffer, by rw [shown, hbuffer, List.append_nil]⟩
  | cons next rest ih =>
    have htimer : h.dripTimerRef = true :=
      hd.timer (hd.dripping (by rw [hbuffer]; exact List.cons_ne_nil _ _))
    have hstep : step dripInterval h .drip = some { h with dripTimerRef := false }.drip :=
      if_pos htimer
    have hrest : ({ h with dripTimerRef := false } : UseDeploymentLogs).drip.bufferRef = rest := by
      rw [drip, hbuffer]
    obtain ⟨h', hreaches, hapart, hnil, hlogs⟩ := ih (drains_step hd hstep) hrest
    refine ⟨h', (Reaches.refl.step (hok h) hstep).trans hreaches, ?_, hnil, ?_⟩
    · rw [Apart, hapart, apart_drip { h with dripTimerRef := false }]
    · rw [hlogs, shown_drip]
      rfl

end UseDeploymentLogs
end Web
end Code2Cloud
