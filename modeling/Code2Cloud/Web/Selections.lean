import Code2Cloud.Web.DeploymentLogs

/-!
# Switching deployments

Whose lines the page shows when the selected deployment or source changes while an answer is on
its way.
-/

namespace Code2Cloud
namespace Web
namespace UseDeploymentLogs

open Api (Deployment)
open Api.Logs (LogEntry LogSource LogsPage Viewer Answers getLogs)

/-- The cursors that the API has returned, with the selection that was asked for. -/
abbrev Cursors := List (Viewer × Nat)

def noteCursor (h : UseDeploymentLogs) (e : Event) (_ : UseDeploymentLogs) (returned : Cursors) :
    Cursors :=
  match e, h.fetching with
  | .respond page, some f =>
    (page.nextCursor.map fun cursor => (f.viewer, cursor)).toList ++ returned
  | _, _ => returned

/-- The API answers with lines of the selection it was asked for. -/
def Served (h : UseDeploymentLogs) : Event → Prop
  | .respond page => ∀ f ∈ h.fetching, ∀ x ∈ page.logs, f.viewer.follows x = true
  | _ => True

/-- An answer with lines arrives while the selection it was asked for is still the last one that
was reset for. -/
def Fresh (h : UseDeploymentLogs) : Event → Prop
  | .respond page => page.logs = [] ∨ ∀ f ∈ h.fetching, h.lastFetchConfig = some f.viewer
  | _ => True

instance (h : UseDeploymentLogs) : (e : Event) → Decidable (Served h e ∧ Fresh h e)
  | .respond page =>
    inferInstanceAs (Decidable ((∀ f ∈ h.fetching, ∀ x ∈ page.logs, f.viewer.follows x = true) ∧
      (page.logs = [] ∨ ∀ f ∈ h.fetching, h.lastFetchConfig = some f.viewer)))
  | .render _ | .effects | .fail _ | .poll | .drip => isTrue ⟨trivial, trivial⟩

instance (h : UseDeploymentLogs) : (e : Event) → Decidable (Served h e)
  | .respond page =>
    inferInstanceAs (Decidable (∀ f ∈ h.fetching, ∀ x ∈ page.logs, f.viewer.follows x = true))
  | .render _ | .effects | .fail _ | .poll | .drip => isTrue trivial

/-- The selection for which the effects ran last. -/
def selected (h : UseDeploymentLogs) : Option Viewer := h.rendered.bind (·.props.active)

/-- Nothing of another selection is shown, waits to be shown or is asked for. -/
structure Unmixed (returned : Cursors) (h : UseDeploymentLogs) : Prop where
  logs : ∀ v ∈ h.selected, ∀ x ∈ h.logs, v.follows x = true
  buffer : ∀ v ∈ h.selected, ∀ x ∈ h.bufferRef, v.follows x = true
  cursor : ∀ v ∈ h.selected, ∀ cursor ∈ h.cursorRef, (v, cursor) ∈ returned

/-- The same of the selection that was last reset for, which is the selected one. -/
structure Sound (returned : Cursors) (h : UseDeploymentLogs) : Prop where
  shown : ∀ v ∈ h.lastFetchConfig, ∀ x ∈ h.shown, v.follows x = true
  cursor : ∀ v ∈ h.lastFetchConfig, ∀ cursor ∈ h.cursorRef, (v, cursor) ∈ returned
  selected : ∀ v ∈ h.selected, h.lastFetchConfig = some v

variable {dripInterval : Nat} {returned : Cursors} {h h' : UseDeploymentLogs}

theorem served_getLogs {deployment : Deployment} {limit : Nat} {rows order : List LogEntry}
    (horder : ∀ f ∈ h.fetching, Answers f.viewer f.after rows order) :
    Served h (.respond (getLogs deployment limit order)) := by
  intro f hf x hx
  have hrow := (horder f hf).1.subset (List.mem_of_mem_take hx)
  have hboth := (List.mem_filter.mp hrow).2
  rw [Bool.and_eq_true] at hboth
  exact hboth.1

theorem Sound.unmixed (hs : Sound returned h) : Unmixed returned h := by
  constructor
  · exact fun v hv x hx => hs.shown v (hs.selected v hv) x (List.mem_append_left _ hx)
  · exact fun v hv x hx => hs.shown v (hs.selected v hv) x (List.mem_append_right _ hx)
  · exact fun v hv => hs.cursor v (hs.selected v hv)

/-- What is shown may shrink, and more cursors may have been returned. -/
theorem Sound.of_eq {returned' : Cursors} (hs : Sound returned h)
    (hreturned : returned ⊆ returned') (hshown : h'.shown ⊆ h.shown)
    (hcursor : h'.cursorRef = h.cursorRef) (hlast : h'.lastFetchConfig = h.lastFetchConfig)
    (hrendered : h'.rendered = h.rendered) : Sound returned' h' := by
  refine ⟨?_, ?_, ?_⟩
  · rw [hlast]
    exact fun v hv x hx => hs.shown v hv x (hshown hx)
  · rw [hlast, hcursor]
    exact fun v hv cursor hc => hreturned (hs.cursor v hv cursor hc)
  · unfold UseDeploymentLogs.selected
    rw [hlast, hrendered]
    exact hs.selected

theorem sound_fetchLogs (hs : Sound returned h) (viewer : Option Viewer) (stops : Bool) :
    Sound returned (h.fetchLogs viewer stops) := by
  rw [asks_fetchLogs h viewer stops]
  exact hs.of_eq (List.Subset.refl _) (List.Subset.refl _) rfl rfl rfl

/-! ## Answers -/

theorem shown_enqueueLogs_subset (dripInterval : Nat) (h : UseDeploymentLogs)
    (incoming : List LogEntry) (immediate : Bool) :
    (enqueueLogs dripInterval h incoming immediate).shown ⊆ h.shown ++ incoming := by
  intro x hx
  unfold enqueueLogs at hx
  split at hx
  · simp only [shown, List.mem_append] at hx ⊢
    tauto
  · rw [shown_startDrip] at hx
    simp only [shown, List.mem_append] at hx ⊢
    tauto

/-- A fresh answer adds lines of the selection, and moves the cursor to one returned for it. -/
theorem sound_receive {f : Fetch} {page : LogsPage} (hs : Sound returned h)
    (hfetching : h.fetching = some f) (hserved : Served h (.respond page))
    (hfresh : Fresh h (.respond page)) :
    Sound ((page.nextCursor.map fun cursor => (f.viewer, cursor)).toList ++ returned)
      (receive dripInterval h page) := by
  unfold receive
  split
  · exact hs.of_eq (List.subset_append_right _ _) (List.Subset.refl _) rfl rfl rfl
  · rename_i hlines
    have hlast : h.lastFetchConfig = some f.viewer :=
      (hfresh.resolve_left hlines) f hfetching
    have hapart := apart_enqueueLogs dripInterval h page.logs h.isFirstBatchRef
    have hlast' : (enqueueLogs dripInterval h page.logs h.isFirstBatchRef).lastFetchConfig =
        some f.viewer := by
      rw [hapart]
      exact hlast
    constructor
    · intro v hv x hx
      cases hlast'.symm.trans hv
      rcases List.mem_append.mp (shown_enqueueLogs_subset dripInterval h _ _ hx) with hx | hx
      · exact hs.shown f.viewer hlast x hx
      · exact hserved f hfetching x hx
    · intro v hv cursor hcursor
      cases hlast'.symm.trans hv
      refine List.mem_append_left _ ?_
      rw [Option.mem_toList, Option.map_eq_some_iff]
      exact ⟨cursor, hcursor, rfl⟩
    · intro v hv
      refine hlast'.trans (hlast.symm.trans (hs.selected v ?_))
      rw [UseDeploymentLogs.selected, ← hapart.rendered]
      exact hv

theorem sound_respond {f : Fetch} {page : LogsPage} (hs : Sound returned h)
    (hfetching : h.fetching = some f) (hserved : Served h (.respond page))
    (hfresh : Fresh h (.respond page)) :
    Sound ((page.nextCursor.map fun cursor => (f.viewer, cursor)).toList ++ returned)
      (h.respond dripInterval f page) :=
  (sound_receive hs hfetching hserved hfresh).of_eq (List.Subset.refl _) (List.Subset.refl _)
    rfl rfl rfl

/-! ## Effects -/

/-- The selection effect leaves the lines of the selection it ran for, or none. -/
theorem sound_selectionEffect (hs : Sound returned h) (r : Render) :
    Sound returned { h.selectionEffect r.props with rendered := some r } := by
  unfold selectionEffect
  cases hactive : r.props.active with
  | none =>
    refine ⟨hs.shown, hs.cursor, fun v hv => ?_⟩
    cases hactive.symm.trans hv
  | some viewer =>
    dsimp only
    have hselected : ∀ v ∈ r.props.active, v = viewer := fun v hv => by
      cases hactive.symm.trans hv
      rfl
    have hkeeps := asks_fetchLogs (if h.lastFetchConfig = some viewer then h else h.reset viewer)
      (some viewer) false
    rw [hkeeps]
    split
    · rename_i hsame
      refine ⟨hs.shown, hs.cursor, fun v hv => ?_⟩
      rw [hselected v hv]
      exact hsame
    · refine ⟨fun v _ x hx => absurd hx List.not_mem_nil,
        fun v _ cursor hcursor => absurd hcursor (Option.not_mem_none _), fun v hv => ?_⟩
      rw [hselected v hv]
      rfl

theorem sound_intervalEffect {r : Render} (hs : Sound returned { h with rendered := some r })
    (p : Props) : Sound returned { h.intervalEffect p with rendered := some r } := by
  rw [asks_intervalEffect h p]
  exact hs.of_eq (List.Subset.refl _) (List.Subset.refl _) rfl rfl rfl

theorem sound_stopEffect {r : Render} (hs : Sound returned { h with rendered := some r }) :
    Sound returned { h.stopEffect r with rendered := some r } := by
  rw [asks_stopEffect h r]
  exact hs.of_eq (List.Subset.refl _) (List.Subset.refl _) rfl rfl rfl

theorem sound_propsEffects (hs : Sound returned h) (r : Render) :
    Sound returned { h.propsEffects r with rendered := some r } := by
  unfold propsEffects
  split
  · rename_i hsame
    refine ⟨hs.shown, hs.cursor, fun v hv => hs.selected v ?_⟩
    obtain ⟨r', hr', hprops⟩ := Option.map_eq_some_iff.mp hsame
    rw [Option.mem_def, UseDeploymentLogs.selected, hr', Option.bind_some, hprops]
    exact hv
  · have hcleanup : Sound returned { h with intervalRef := false } :=
      hs.of_eq (List.Subset.refl _) (List.Subset.refl _) rfl rfl rfl
    exact sound_intervalEffect (sound_selectionEffect hcleanup r) r.props

theorem sound_runEffects (hs : Sound returned h) (r : Render) :
    Sound returned (h.runEffects r) := by
  have hprops := sound_propsEffects hs r
  unfold runEffects
  dsimp only
  split
  · exact hprops.of_eq (List.Subset.refl _) (List.Subset.refl _) rfl rfl rfl
  · exact (sound_stopEffect hprops).of_eq (List.Subset.refl _) (List.Subset.refl _) rfl rfl rfl

/-! ## Runs -/

theorem sound_step {e : Event} (hs : Sound returned h) (hserved : Served h e) (hfresh : Fresh h e)
    (hstep : step dripInterval h e = some h') : Sound (noteCursor h e h' returned) h' := by
  have hsame := List.Subset.refl returned
  cases e with
  | render props =>
    rw [step] at hstep
    split at hstep
    · cases hstep
      exact hs.of_eq hsame (List.Subset.refl _) rfl rfl rfl
    · cases hstep
  | effects =>
    obtain ⟨r, _, rfl⟩ := Option.map_eq_some_iff.mp hstep
    exact sound_runEffects hs r
  | respond page =>
    obtain ⟨f, hfetching, rfl⟩ := Option.map_eq_some_iff.mp hstep
    simp only [noteCursor, hfetching]
    exact sound_respond hs hfetching hserved hfresh
  | fail message =>
    obtain ⟨f, _, rfl⟩ := Option.map_eq_some_iff.mp hstep
    exact hs.of_eq hsame (List.Subset.refl _) rfl rfl rfl
  | poll =>
    rw [step] at hstep
    split at hstep
    · cases hstep
      exact sound_fetchLogs hs _ _
    · cases hstep
  | drip =>
    rw [step] at hstep
    split at hstep
    · cases hstep
      have hshown : ({ h with dripTimerRef := false } : UseDeploymentLogs).drip.shown = h.shown :=
        shown_drip _
      have hapart := apart_drip { h with dripTimerRef := false }
      refine hs.of_eq hsame (hshown ▸ List.Subset.refl _) ?_ ?_ ?_
      all_goals rw [hapart]
    · cases hstep

/-- The page with the cursors it was given. -/
abbrev Noted := UseDeploymentLogs × Cursors

/-- As long as no answer with lines comes after another deployment or source was selected, only
lines of the selected ones are shown. -/
theorem unmixed_of_fresh {x : Noted} (hrun : Reaches (stepNoting (step dripInterval) noteCursor)
      (fun x e => Served x.1 e ∧ Fresh x.1 e) ({}, []) x) : Unmixed x.2 x.1 := by
  refine (hrun.invariant (fun x => Sound x.2 x.1) ?_ ?_).unmixed
  · exact ⟨fun v hv => absurd hv (Option.not_mem_none v),
      fun v hv => absurd hv (Option.not_mem_none v),
      fun v hv => absurd hv (Option.not_mem_none v)⟩
  · intro x e y hs hok hstep
    obtain ⟨hnext, hnoted⟩ := stepNoting_eq_some_iff.mp hstep
    rw [hnoted]
    exact sound_step hs hok.1 hok.2 hnext

def liveDeployment (id : Nat) : Deployment where
  id
  status := .building
  commitHash := "7d9e1c2"
  commitMessage := "Add the cart"
  commitAuthor := "ada"
  branch := "main"
  projectId := 1
  initiatorId := some 1
  startedAt := 0

def onePage (id : Nat) : LogsPage :=
  getLogs (liveDeployment id) 200
    [{ id, deploymentId := id, source := .build, timestamp := 1000, message := "Building" }]

/-- Each deployment is answered for before the next one is selected. -/
theorem unmixed_in_turn : ∃ x : Noted, x.1.logs.map (·.deploymentId) = [3] ∧ Unmixed x.2 x.1 := by
  obtain ⟨x, hx, hlogs⟩ := Reaches.exists_of_runEvents (stepNoting (step 60) noteCursor)
    (fun x e => Served x.1 e ∧ Fresh x.1 e) ({}, [])
    [.render { deploymentId := some 2 }, .effects, .respond (onePage 2),
      .render { deploymentId := some 3 }, .effects, .respond (onePage 3)]
    (fun x => x.1.logs.map (·.deploymentId) == [3]) (by decide) (by decide)
  exact ⟨x, beq_iff_eq.mp hlogs, unmixed_of_fresh hx⟩

/-- The answer for the first deployment comes when the second one is selected. -/
theorem not_unmixed :
    ¬∀ (dripInterval : Nat) (x : Noted), Reaches (stepNoting (step dripInterval) noteCursor)
      (fun x e => Served x.1 e) ({}, []) x → Unmixed x.2 x.1 := by
  intro h
  obtain ⟨x, hx, hend⟩ := Reaches.exists_of_runEvents (stepNoting (step 60) noteCursor)
    (fun x e => Served x.1 e) ({}, [])
    [.render { deploymentId := some 2 }, .effects, .render { deploymentId := some 3 }, .effects,
      .respond (onePage 2)]
    (fun x => x.1.selected == some ⟨3, none⟩ && x.1.logs.map (·.deploymentId) == [2])
    (by decide) (by decide)
  rw [Bool.and_eq_true, beq_iff_eq, beq_iff_eq] at hend
  obtain ⟨line, hline, hid⟩ := List.mem_map.mp (hend.2 ▸ List.mem_singleton_self 2)
  have hfollows := (h 60 x hx).logs ⟨3, none⟩ hend.1 line hline
  rw [Viewer.follows, hid] at hfollows
  exact absurd (Bool.and_eq_true_iff.mp hfollows).1 (by decide)

end UseDeploymentLogs
end Web
end Code2Cloud
