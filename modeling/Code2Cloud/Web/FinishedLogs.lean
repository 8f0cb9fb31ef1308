import Code2Cloud.Base.Keyset
import Code2Cloud.Web.DeploymentLogs

/-!
# The logs of a finished deployment

What the page shows in the end of a deployment whose status and rows stay as they are.
-/

namespace Code2Cloud
namespace Web
namespace UseDeploymentLogs

open Api (Deployment)
open Api.Logs (LogEntry LogSource LogsPage Viewer Answers getLogs later)

/-- The page stays with one selection, and the API answers every request. -/
def Stays (deployment : Deployment) (source : Option LogSource) (rows : List LogEntry)
    (h : UseDeploymentLogs) : Event → Prop
  | .render props => props = { deploymentId := some deployment.id, source }
  | .respond page => ∀ f ∈ h.fetching, ∃ order,
      Answers f.viewer f.after rows order ∧ page = getLogs deployment 200 order
  | .fail _ => False
  | .effects | .poll | .drip => True

/-- Every row of the selection is shown once, in the order of time. -/
structure ShowsAll (viewer : Viewer) (rows : List LogEntry) (h : UseDeploymentLogs) : Prop where
  all : h.logs.Perm (rows.filter fun x => viewer.follows x)
  ordered : h.logs.Pairwise fun x y => x.timestamp < y.timestamp

def rowsOf (viewer : Viewer) (rows : List LogEntry) : List LogEntry :=
  (rows.filter fun x => viewer.follows x).insertionSort fun x y => x.timestamp ≤ y.timestamp

variable {viewer : Viewer} {rows order rest : List LogEntry} {deployment : Deployment}
  {source : Option LogSource} {dripInterval : Nat} {h h' : UseDeploymentLogs}

theorem perm_rowsOf (viewer : Viewer) (rows : List LogEntry) :
    (rowsOf viewer rows).Perm (rows.filter fun x => viewer.follows x) :=
  List.perm_insertionSort _ _

/-- What was not read is an answer of the API, and the only one. -/
theorem answers_rest {read : List LogEntry}
    (hsorted : Keyset.Ascending LogEntry.timestamp (rowsOf viewer rows))
    (hread : read ++ rest = rowsOf viewer rows) :
    Answers viewer (Keyset.cursor LogEntry.timestamp read) rows rest := by
  rw [← hread] at hsorted
  refine ⟨?_, (List.pairwise_append.mp hsorted).2.1.imp le_of_lt⟩
  have hfilter := (perm_rowsOf viewer rows).filter
    (Keyset.later LogEntry.timestamp (Keyset.cursor LogEntry.timestamp read))
  rw [← hread, Keyset.filter_later_cursor hsorted, List.filter_filter] at hfilter
  exact hfilter.trans (List.Perm.of_eq (List.filter_congr fun x _ => Bool.and_comm _ _))

theorem eq_of_answers {read : List LogEntry}
    (hsorted : Keyset.Ascending LogEntry.timestamp (rowsOf viewer rows))
    (hread : read ++ rest = rowsOf viewer rows)
    (h : Answers viewer (Keyset.cursor LogEntry.timestamp read) rows order) : order = rest := by
  have hrest := answers_rest hsorted hread
  rw [← hread] at hsorted
  exact Keyset.eq_of_perm (List.pairwise_append.mp hsorted).2.1 (h.1.trans hrest.1.symm) h.2

/-- What is read are the first rows, and the cursor says how many. -/
structure Reading (dripInterval : Nat) (viewer : Viewer) (rows : List LogEntry)
    (h : UseDeploymentLogs) : Prop where
  first : h.shown <+: rowsOf viewer rows
  cursor : h.cursorRef = Keyset.cursor LogEntry.timestamp h.shown
  unread : h.isFirstBatchRef = true → h.shown = []
  instant : dripInterval = 0 → h.bufferRef = []

theorem Reading.of_eq (hr : Reading dripInterval viewer rows h) (hshown : h'.shown = h.shown)
    (hbuffer : h.bufferRef = [] → h'.bufferRef = []) (hcursor : h'.cursorRef = h.cursorRef)
    (hfirst : h'.isFirstBatchRef = h.isFirstBatchRef) : Reading dripInterval viewer rows h' := by
  constructor
  · rw [hshown]
    exact hr.first
  · rw [hshown, hcursor]
    exact hr.cursor
  · rw [hshown, hfirst]
    exact hr.unread
  · exact fun hzero => hbuffer (hr.instant hzero)

theorem reading_receive (deployment : Deployment)
    (hsorted : Keyset.Ascending LogEntry.timestamp (rowsOf viewer rows))
    (hr : Reading dripInterval viewer rows h)
    (horder : Answers viewer h.cursorRef rows order) :
    Reading dripInterval viewer rows (receive dripInterval h (getLogs deployment 200 order)) ∧
      h.shown ++ order = rowsOf viewer rows ∧
      (receive dripInterval h (getLogs deployment 200 order)).shown =
        h.shown ++ order.take 200 := by
  obtain ⟨rest, hrest⟩ := hr.first
  rw [hr.cursor] at horder
  obtain rfl := eq_of_answers hsorted hrest horder
  by_cases hpage : (getLogs deployment 200 order).logs = []
  · rw [receive, if_pos hpage]
    have hnil : order.take 200 = [] := hpage
    exact ⟨hr, hrest, by rw [hnil, List.append_nil]⟩
  · rw [receive, if_neg hpage]
    have hnil : h.isFirstBatchRef = true ∨ dripInterval = 0 → h.bufferRef = [] := by
      rintro (hfirst | hzero)
      · exact (List.append_eq_nil_iff.mp (hr.unread hfirst)).2
      · exact hr.instant hzero
    have hshown := shown_enqueueLogs (order.take 200) hnil
    refine ⟨⟨?_, ?_, fun hfirst => absurd hfirst Bool.false_ne_true, ?_⟩, hrest, hshown⟩
    · refine (congrArg (· <+: rowsOf viewer rows) hshown).mpr ?_
      rw [← hrest]
      exact (List.prefix_append_right_inj _).mpr (List.take_prefix _ _)
    · refine (Keyset.cursor_append h.shown hpage).symm.trans ?_
      exact congrArg (Keyset.cursor LogEntry.timestamp) hshown.symm
    · rintro rfl
      exact bufferRef_enqueueLogs (hr.instant rfl) _ _

theorem Reading.fetchLogs (hr : Reading dripInterval viewer rows h) (v : Option Viewer)
    (stops : Bool) : Reading dripInterval viewer rows (h.fetchLogs v stops) := by
  rw [asks_fetchLogs h v stops]
  exact hr.of_eq rfl id rfl rfl

/-- How far the polling is, as the last effects saw it. -/
structure Polls (n : Nat) (h : UseDeploymentLogs) (r : Render) : Prop where
  waits : h.isLoading = true → h.fetching ≠ none
  going : r.isLoading = true → h.intervalRef = true ∧ ∀ f ∈ h.fetching, f.stops = false
  /-- The last fetch is on its way, or there were two. -/
  ending : r.isLoading = false → h.isLoading = false ∧ (∀ q ∈ h.pending, q.isLoading = false) ∧
    (h.fetching ≠ none ∨ min 400 n ≤ h.shown.length)

/-- What holds in every state of the page. -/
structure Follows (dripInterval : Nat) (p : Props) (viewer : Viewer) (rows : List LogEntry)
    (h : UseDeploymentLogs) : Prop where
  reading : Reading dripInterval viewer rows h
  asked : ∀ f ∈ h.fetching, f.viewer = viewer ∧ f.after = h.cursorRef
  dead : h.isLive = false
  loaded : h.isLoading = false → min 200 (rowsOf viewer rows).length ≤ h.shown.length
  pending : ∀ r ∈ h.pending, r.props = p ∧ r.isLive = false ∧
    (r.isLoading = false → h.isLoading = false)
  closed : h.rendered = none → h.shown = [] ∧ h.fetching = none ∧ h.isLoading = true
  rendered : ∀ r ∈ h.rendered, r.props = p ∧ r.isLive = false ∧
    Polls (rowsOf viewer rows).length h r

variable {p : Props}

theorem follows_render (hf : Follows dripInterval p viewer rows h) :
    Follows dripInterval p viewer rows
      { h with pending := some { props := p, isLive := h.isLive, isLoading := h.isLoading } } := by
  refine ⟨hf.reading.of_eq rfl id rfl rfl, hf.asked, hf.dead, hf.loaded, ?_, hf.closed, ?_⟩
  · rintro r ⟨⟩
    exact ⟨rfl, hf.dead, id⟩
  · intro r hr
    obtain ⟨hprops, hlive, hpolls⟩ := hf.rendered r hr
    refine ⟨hprops, hlive, hpolls.waits, hpolls.going, fun hloading => ?_⟩
    obtain ⟨hloaded, _, hlast⟩ := hpolls.ending hloading
    refine ⟨hloaded, ?_, hlast⟩
    rintro q ⟨⟩
    exact hloaded

theorem follows_poll (hp : p.viewer = some viewer) (hf : Follows dripInterval p viewer rows h) :
    Follows dripInterval p viewer rows
      (h.fetchLogs (h.rendered.bind (·.props.viewer)) false) := by
  cases hrendered : h.rendered with
  | none => exact hf
  | some r =>
    obtain ⟨hprops, hlive, hpolls⟩ := hf.rendered r hrendered
    rw [Option.bind_some, hprops, hp]
    unfold fetchLogs
    split
    · rename_i _ _ v hv hnone
      cases hv
      refine ⟨hf.reading.of_eq rfl id rfl rfl, ?_, hf.dead, hf.loaded, hf.pending, ?_, ?_⟩
      · rintro f ⟨⟩
        exact ⟨rfl, rfl⟩
      · exact fun hclosed => absurd (hrendered.symm.trans hclosed) (Option.some_ne_none r)
      · intro r' hr'
        cases hrendered.symm.trans hr'
        refine ⟨hprops, hlive, fun _ => Option.some_ne_none _, fun hloading => ?_,
          fun hloading => ?_⟩
        · refine ⟨(hpolls.going hloading).1, ?_⟩
          rintro f ⟨⟩
          rfl
        · obtain ⟨hloaded, hpending, _⟩ := hpolls.ending hloading
          exact ⟨hloaded, hpending, Or.inl (Option.some_ne_none _)⟩
    · exact hf

theorem Polls.of_shown {n : Nat} {r : Render} (hpolls : Polls n h r)
    (hfetching : h'.fetching = h.fetching) (hinterval : h'.intervalRef = h.intervalRef)
    (hloading : h'.isLoading = h.isLoading) (hpending : ∀ q ∈ h'.pending, q ∈ h.pending)
    (hshown : h'.shown = h.shown) : Polls n h' r := by
  constructor
  · rw [hloading, hfetching]
    exact hpolls.waits
  · rw [hinterval, hfetching]
    exact hpolls.going
  · intro hr
    obtain ⟨hloaded, hall, hlast⟩ := hpolls.ending hr
    rw [hloading, hfetching, hshown]
    exact ⟨hloaded, fun q hq => hall q (hpending q hq), hlast⟩

theorem follows_drip (hf : Follows dripInterval p viewer rows h) :
    Follows dripInterval p viewer rows { h with dripTimerRef := false }.drip := by
  have hshown : ({ h with dripTimerRef := false } : UseDeploymentLogs).drip.shown = h.shown :=
    shown_drip _
  have hbuffer (hnil : h.bufferRef = []) :
      ({ h with dripTimerRef := false } : UseDeploymentLogs).drip.bufferRef = [] := by
    rw [drip, hnil]
  have hapart := apart_drip { h with dripTimerRef := false }
  constructor
  · exact hf.reading.of_eq hshown hbuffer (congrArg (·.cursorRef) hapart)
      (congrArg (·.isFirstBatchRef) hapart)
  · rw [hapart]
    exact hf.asked
  · rw [hapart]
    exact hf.dead
  · rw [hshown, hapart]
    exact hf.loaded
  · rw [hapart]
    exact hf.pending
  · rw [hshown, hapart]
    exact hf.closed
  · intro r hr
    obtain ⟨hprops, hlive, hpolls⟩ := hf.rendered r (hapart.rendered ▸ hr)
    refine ⟨hprops, hlive, hpolls.of_shown ?_ ?_ ?_ ?_ hshown⟩
    all_goals rw [hapart]
    exact fun q hq => hq

theorem follows_respond (hsorted : Keyset.Ascending LogEntry.timestamp (rowsOf viewer rows))
    (hfinished : deployment.status.inProgress = false) (hf : Follows dripInterval p viewer rows h)
    {f : Fetch} (hfetching : h.fetching = some f) (horder : Answers f.viewer f.after rows order) :
    Follows dripInterval p viewer rows
      (h.respond dripInterval f (getLogs deployment 200 order)) := by
  obtain ⟨hviewer, hafter⟩ := hf.asked f hfetching
  rw [hviewer, hafter] at horder
  obtain ⟨hreading, hrest, hshown⟩ :=
    reading_receive deployment hsorted hf.reading horder
  obtain ⟨hpending, hrendered, hinterval⟩ :=
    keeps_receive dripInterval h (getLogs deployment 200 order)
  have hlength : (h.respond dripInterval f (getLogs deployment 200 order)).shown.length =
      h.shown.length + min 200 order.length := by
    refine (congrArg List.length hshown).trans ?_
    rw [List.length_append, List.length_take]
  have hall : (rowsOf viewer rows).length = h.shown.length + order.length := by
    rw [← hrest, List.length_append]
  refine ⟨hreading.of_eq rfl id rfl rfl, fun f hf => absurd hf (Option.not_mem_none f), hfinished,
    fun _ => ?_, ?_, ?_, ?_⟩
  · omega
  · intro r hr
    obtain ⟨hprops, hlive, _⟩ := hf.pending r (hpending ▸ hr)
    exact ⟨hprops, hlive, fun _ => rfl⟩
  · intro hclosed
    have hnone := (hf.closed (hrendered ▸ hclosed)).2.1
    cases hfetching.symm.trans hnone
  · intro r hr
    obtain ⟨hprops, hlive, hpolls⟩ := hf.rendered r (hrendered ▸ hr)
    refine ⟨hprops, hlive, fun hloading => (Bool.false_ne_true hloading).elim, fun hloading => ?_,
      fun hloading => ?_⟩
    · obtain ⟨hgoing, hstops⟩ := hpolls.going hloading
      refine ⟨?_, fun f hf => absurd hf (Option.not_mem_none f)⟩
      change (if f.stops then false else _) = true
      rw [hstops f hfetching, if_neg Bool.false_ne_true, hinterval, hgoing]
    · obtain ⟨hloaded, hall', _⟩ := hpolls.ending hloading
      have := hf.loaded hloaded
      refine ⟨rfl, fun q hq => hall' q (hpending ▸ hq), Or.inr ?_⟩
      omega

theorem Follows.asked_fetchLogs (hf : Follows dripInterval p viewer rows h) (stops : Bool) :
    ∀ f ∈ (h.fetchLogs (some viewer) stops).fetching,
      f.viewer = viewer ∧ f.after = (h.fetchLogs (some viewer) stops).cursorRef := by
  intro f hmem
  obtain ⟨f', hfetching, hf'⟩ := fetching_fetchLogs h viewer stops
  cases hfetching.symm.trans hmem
  rw [asks_fetchLogs h (some viewer) stops]
  rcases hf' with hf' | rfl
  · exact hf.asked f hf'
  · exact ⟨rfl, rfl⟩

theorem follows_rendered (hreading : Reading dripInterval viewer rows h)
    (hasked : ∀ f ∈ h.fetching, f.viewer = viewer ∧ f.after = h.cursorRef)
    (hdead : h.isLive = false)
    (hloaded : h.isLoading = false → min 200 (rowsOf viewer rows).length ≤ h.shown.length)
    {r : Render} (hprops : r.props = p) (hlive : r.isLive = false)
    (hpolls : Polls (rowsOf viewer rows).length { h with pending := none, rendered := some r } r) :
    Follows dripInterval p viewer rows { h with pending := none, rendered := some r } := by
  refine ⟨hreading.of_eq rfl id rfl rfl, hasked, hdead, hloaded, ?_, ?_, ?_⟩
  · exact fun q hq => absurd hq (Option.not_mem_none q)
  · exact fun hnone => absurd hnone (Option.some_ne_none r)
  · rintro r' ⟨⟩
    exact ⟨hprops, hlive, hpolls⟩

/-- The page opens: it fetches, and sets the interval. -/
theorem follows_open (hp : p.active = some viewer) (hf : Follows dripInterval p viewer rows h)
    (hclosed : h.rendered = none) {r : Render} (hr : r ∈ h.pending) :
    Follows dripInterval p viewer rows (h.runEffects r) := by
  obtain ⟨hprops, hlive, hloading⟩ := hf.pending r hr
  obtain ⟨hshown, hfetching, hload⟩ := hf.closed hclosed
  have hstarts : r.isLoading = true := by
    rw [← Bool.not_eq_false]
    intro hfalse
    rw [hloading hfalse] at hload
    cases hload
  have hopened {b : UseDeploymentLogs} (hreading : Reading dripInterval viewer rows b)
      (hdead : b.isLive = false) (hwaits : b.isLoading = true) (hnone : b.fetching = none) :
      Follows dripInterval p viewer rows
        { b.fetchLogs (some viewer) false with
          intervalRef := true, pending := none, rendered := some r } := by
    rw [fetchLogs_of_none hnone]
    refine follows_rendered (h := { b with
        fetching := some { viewer, after := b.cursorRef, stops := false }
        intervalRef := true }) (hreading.of_eq rfl id rfl rfl) ?_ hdead ?_ hprops hlive
      ⟨fun _ => Option.some_ne_none _, fun _ => ⟨rfl, ?_⟩, ?_⟩
    · rintro f ⟨⟩
      exact ⟨rfl, rfl⟩
    · exact fun hdone => absurd (hwaits.symm.trans hdone) Bool.false_ne_true.symm
    · rintro f ⟨⟩
      rfl
    · exact fun hdone => absurd (hstarts.symm.trans hdone) Bool.false_ne_true.symm
  have hprops' : h.propsEffects r =
      { (if h.lastFetchConfig = some viewer then { h with intervalRef := false }
          else { h with intervalRef := false }.reset viewer).fetchLogs (some viewer) false with
        intervalRef := true } := by
    rw [propsEffects, hclosed, Option.map_none, if_neg (Option.some_ne_none _).symm,
      selectionEffect, intervalEffect, hprops, hp]
  rw [runEffects, hprops', hclosed, Option.map_none, if_neg (Option.some_ne_none _).symm,
    stopEffect_of_loading hstarts]
  split
  · exact hopened (hf.reading.of_eq rfl id rfl rfl) hf.dead hload hfetching
  · exact hopened ⟨List.nil_prefix, rfl, fun _ => rfl, fun _ => rfl⟩ hf.dead rfl hfetching

/-- Effects after the first, of a render that passes the same. -/
theorem follows_again (hp : p.viewer = some viewer) (hf : Follows dripInterval p viewer rows h)
    {r r' : Render} (hrendered : h.rendered = some r) (hr : r' ∈ h.pending) :
    Follows dripInterval p viewer rows (h.runEffects r') := by
  obtain ⟨hprops, hlive, hpolls⟩ := hf.rendered r hrendered
  obtain ⟨hprops', hlive', hloading'⟩ := hf.pending r' hr
  have hsame : r.props = r'.props := hprops.trans hprops'.symm
  have hended (hdone : r.isLoading = false) : r'.isLoading = false :=
    (hpolls.ending hdone).2.1 r' hr
  cases hloading : r'.isLoading with
  | true =>
    -- still the first fetch
    rw [runEffects_again hrendered hsame, stopEffect_of_loading hloading, ite_self]
    refine follows_rendered hf.reading hf.asked hf.dead hf.loaded hprops' hlive'
      ⟨hpolls.waits, ?_, ?_⟩
    · intro _
      refine hpolls.going ?_
      rw [← Bool.not_eq_false]
      intro hdone
      cases hloading.symm.trans (hended hdone)
    · exact fun hdone => absurd (hloading.symm.trans hdone) Bool.false_ne_true.symm
  | false =>
    have hloaded := hloading' hloading
    cases hdone : r.isLoading with
    | false =>
      have hdeps : r.deps = r'.deps := by
        rw [Render.deps, Render.deps, hlive, hlive', hdone, hloading, hsame]
      rw [runEffects_again hrendered hsame, if_pos hdeps]
      refine follows_rendered hf.reading hf.asked hf.dead hf.loaded hprops' hlive'
        ⟨hpolls.waits, ?_, ?_⟩
      · exact fun hl => absurd (hloading.symm.trans hl) Bool.false_ne_true
      · obtain ⟨_, _, hlast⟩ := hpolls.ending hdone
        exact fun _ => ⟨hloaded, fun q hq => absurd hq (Option.not_mem_none q), hlast⟩
    | true =>
      rw [runEffects_last hrendered hsame (hprops' ▸ hp) hdone hloading hlive'
        (hpolls.going hdone).1]
      obtain ⟨f, hfetching, hf'⟩ := fetching_fetchLogs h viewer true
      have hasks := asks_fetchLogs h (some viewer) true
      refine follows_rendered (hf.reading.fetchLogs _ _) (hf.asked_fetchLogs _) ?_ ?_ hprops' hlive'
        ⟨fun _ => ?_, fun hl => absurd (hloading.symm.trans hl) Bool.false_ne_true, fun _ => ?_⟩
      · rw [hasks]
        exact hf.dead
      · rw [hasks]
        exact hf.loaded
      · exact fun hnone => Option.some_ne_none f (hfetching.symm.trans hnone)
      · refine ⟨?_, fun q hq => absurd hq (Option.not_mem_none q),
          Or.inl fun hnone => Option.some_ne_none f (hfetching.symm.trans hnone)⟩
        rw [hasks]
        exact hloaded

theorem follows_start : Follows dripInterval p viewer rows {} := by
  refine ⟨⟨List.nil_prefix, rfl, fun _ => rfl, fun _ => rfl⟩, ?_, rfl, ?_, ?_, ?_, ?_⟩
  · exact fun f hf => absurd hf (Option.not_mem_none f)
  · exact fun hdone => absurd hdone Bool.false_ne_true.symm
  · exact fun r hr => absurd hr (Option.not_mem_none r)
  · exact fun _ => ⟨rfl, rfl, rfl⟩
  · exact fun r hr => absurd hr (Option.not_mem_none r)

theorem follows_step (hsorted : Keyset.Ascending LogEntry.timestamp
      (rowsOf ⟨deployment.id, source⟩ rows))
    (hfinished : deployment.status.inProgress = false)
    (hf : Follows dripInterval { deploymentId := some deployment.id, source }
      ⟨deployment.id, source⟩ rows h) {e : Event} (hok : Stays deployment source rows h e)
    (hstep : step dripInterval h e = some h') :
    Follows dripInterval { deploymentId := some deployment.id, source }
      ⟨deployment.id, source⟩ rows h' := by
  cases e with
  | render props =>
    cases hok
    rw [step] at hstep
    split at hstep
    · cases hstep
      exact follows_render hf
    · cases hstep
  | effects =>
    obtain ⟨r, hr, rfl⟩ := Option.map_eq_some_iff.mp hstep
    cases hrendered : h.rendered with
    | none => exact follows_open rfl hf hrendered hr
    | some last => exact follows_again rfl hf hrendered hr
  | respond page =>
    obtain ⟨f, hfetching, rfl⟩ := Option.map_eq_some_iff.mp hstep
    obtain ⟨order, horder, rfl⟩ := hok f hfetching
    exact follows_respond hsorted hfinished hf hfetching horder
  | fail message => exact hok.elim
  | poll =>
    rw [step] at hstep
    split at hstep
    · cases hstep
      exact follows_poll rfl hf
    · cases hstep
  | drip =>
    rw [step] at hstep
    split at hstep
    · cases hstep
      exact follows_drip hf
    · cases hstep

/-- Where nothing more will come, there were at least two answers. -/
theorem length_of_quiet (hf : Follows dripInterval p viewer rows h) (hquiet : h.Quiet) :
    min 400 (rowsOf viewer rows).length ≤ h.logs.length := by
  obtain ⟨r, hr⟩ := Option.isSome_iff_exists.mp hquiet.opened
  obtain ⟨_, _, hpolls⟩ := hf.rendered r hr
  have hdone : r.isLoading = false := by
    rw [← Bool.not_eq_true]
    intro hloading
    exact absurd (hquiet.interval.symm.trans (hpolls.going hloading).1) Bool.false_ne_true
  obtain ⟨_, _, hlast⟩ := hpolls.ending hdone
  rw [shown, hquiet.buffer, List.append_nil] at hlast
  exact hlast.resolve_left fun hne => hne hquiet.fetching

theorem showsAll_of_quiet (hsorted : Keyset.Ascending LogEntry.timestamp (rowsOf viewer rows))
    (hf : Follows dripInterval p viewer rows h) (hquiet : h.Quiet)
    (hfew : (rows.filter fun x => viewer.follows x).length ≤ 400) : h.ShowsAll viewer rows := by
  have hlength := length_of_quiet hf hquiet
  rw [← (perm_rowsOf viewer rows).length_eq] at hfew
  rw [Nat.min_eq_right hfew] at hlength
  have hfirst := hf.reading.first
  rw [shown, hquiet.buffer, List.append_nil] at hfirst
  have hlogs : h.logs = rowsOf viewer rows := hfirst.eq_of_length_le hlength
  exact ⟨hlogs ▸ perm_rowsOf viewer rows, hlogs ▸ hsorted⟩

/-! ## A run with two fetches -/

theorem follows_of_reaches (hsorted : Keyset.Ascending LogEntry.timestamp
      (rowsOf ⟨deployment.id, source⟩ rows)) (hfinished : deployment.status.inProgress = false)
    (hreaches : Reaches (step dripInterval) (Stays deployment source rows) {} h) :
    Follows dripInterval { deploymentId := some deployment.id, source }
      ⟨deployment.id, source⟩ rows h :=
  hreaches.invariant _ follows_start fun _ _ _ hf hok hstep =>
    follows_step hsorted hfinished hf hok hstep

/-- The API has an answer to what was asked, with two hundred rows or fewer. -/
theorem exists_response (hsorted : Keyset.Ascending LogEntry.timestamp
      (rowsOf ⟨deployment.id, source⟩ rows)) (hfinished : deployment.status.inProgress = false)
    (hreaches : Reaches (step dripInterval) (Stays deployment source rows) {} h) {f : Fetch}
    (hfetching : h.fetching = some f) :
    ∃ h', Reaches (step dripInterval) (Stays deployment source rows) {} h' ∧
      h'.shown.length ≤ h.shown.length + 200 ∧ h'.fetching = none ∧ h'.pending = h.pending ∧
      h'.rendered = h.rendered ∧ h'.isLoading = false ∧ h'.isLive = false ∧
      h'.intervalRef = if f.stops then false else h.intervalRef := by
  have hf := follows_of_reaches hsorted hfinished hreaches
  obtain ⟨hviewer, hafter⟩ := hf.asked f hfetching
  obtain ⟨rest, hrest⟩ := hf.reading.first
  have hanswers : Answers f.viewer f.after rows rest := by
    rw [hviewer, hafter, hf.reading.cursor]
    exact answers_rest hsorted hrest
  have hok : Stays deployment source rows h (.respond (getLogs deployment 200 rest)) := by
    intro f' hf'
    cases hfetching.symm.trans hf'
    exact ⟨rest, hanswers, rfl⟩
  have hstep : step dripInterval h (.respond (getLogs deployment 200 rest)) =
      some (h.respond dripInterval f (getLogs deployment 200 rest)) := by
    rw [step, hfetching, Option.map_some]
  rw [hviewer, hafter] at hanswers
  obtain ⟨_, _, hshown⟩ := reading_receive deployment hsorted hf.reading hanswers
  obtain ⟨hpending, hrendered, hinterval⟩ :=
    keeps_receive dripInterval h (getLogs deployment 200 rest)
  refine ⟨_, hreaches.step hok hstep, ?_, rfl, hpending, hrendered, rfl, hfinished, ?_⟩
  · refine (congrArg List.length hshown).trans_le ?_
    rw [List.length_append, List.length_take]
    omega
  · exact congrArg (if f.stops then false else ·) hinterval

/-- After the first answer the last fetch starts. -/
theorem exists_last_fetch
    (hreaches : Reaches (step dripInterval) (Stays deployment source rows) {} h)
    (hfetching : h.fetching = none) (hpending : h.pending = none) {r : Render}
    (hrendered : h.rendered = some r)
    (hprops : r.props = { deploymentId := some deployment.id, source })
    (hfirst : r.isLoading = true) (hloaded : h.isLoading = false) (hdead : h.isLive = false)
    (hinterval : h.intervalRef = true) :
    ∃ h' f, Reaches (step dripInterval) (Stays deployment source rows) {} h' ∧
      h'.shown = h.shown ∧ h'.rendered.isSome ∧ h'.fetching = some f ∧ f.stops = true := by
  have hrender : step dripInterval h (.render r.props) = some { h with
      pending := some { props := r.props, isLive := h.isLive, isLoading := h.isLoading } } :=
    if_pos (by rw [hpending, Option.isNone_none])
  have hviewer : r.props.viewer = some ⟨deployment.id, source⟩ := by
    rw [hprops]
    rfl
  have hok : Stays deployment source rows h (.render r.props) := hprops
  have heffects := step_effects_last (h := { h with
    pending := some { props := r.props, isLive := h.isLive, isLoading := h.isLoading } })
    dripInterval hrendered rfl rfl hviewer hfirst hloaded hdead hinterval hfetching
  exact ⟨_, _, (hreaches.step hok hrender).step (e := Event.effects) trivial heffects, rfl, rfl,
    rfl, rfl⟩

theorem exists_open (dripInterval : Nat) (deployment : Deployment) (source : Option LogSource)
    (rows : List LogEntry) :
    ∃ h, Reaches (step dripInterval) (Stays deployment source rows) {} h ∧ h.shown = [] ∧
      h.fetching = some ⟨⟨deployment.id, source⟩, none, false⟩ ∧ h.pending = none ∧
      h.rendered = some ⟨{ deploymentId := some deployment.id, source }, false, true⟩ ∧
      h.intervalRef = true := by
  have hrender : Reaches (step dripInterval) (Stays deployment source rows) {}
      { pending := some ⟨{ deploymentId := some deployment.id, source }, false, true⟩ } :=
    Reaches.refl.step (e := Event.render { deploymentId := some deployment.id, source }) rfl rfl
  exact ⟨_, hrender.step (e := Event.effects) trivial rfl, rfl, rfl, rfl, rfl, rfl⟩

/-- Polling can end after four hundred rows. -/
theorem exists_quiet (dripInterval : Nat) (deployment : Deployment) (source : Option LogSource)
    (rows : List LogEntry) (hsorted : Keyset.Ascending LogEntry.timestamp
      (rowsOf ⟨deployment.id, source⟩ rows)) (hfinished : deployment.status.inProgress = false) :
    ∃ h, Reaches (step dripInterval) (Stays deployment source rows) {} h ∧ h.Quiet ∧
      h.logs.length ≤ 400 := by
  obtain ⟨a, ha, hshown, hfetching, hpending, hrendered, hinterval⟩ :=
    exists_open dripInterval deployment source rows
  obtain ⟨b, hb, hb', hidle, hpending', hrendered', hloaded, hdead, hinterval'⟩ :=
    exists_response hsorted hfinished ha hfetching
  obtain ⟨c, f, hc, hc', hopened, hlast, hstops⟩ := exists_last_fetch hb hidle
    (hpending'.trans hpending) (hrendered'.trans hrendered) rfl rfl hloaded hdead
    (hinterval'.trans hinterval)
  obtain ⟨d, hd, hd', hidle', _, hrendered'', _, _, hstopped⟩ :=
    exists_response hsorted hfinished hc hlast
  rw [hstops, if_pos rfl] at hstopped
  have hdrains : d.Drains := hd.invariant Drains ⟨fun hne => absurd rfl hne, id⟩
    fun _ _ _ hdrains _ hstep => drains_step hdrains hstep
  obtain ⟨h, hh, hapart, hnil, hlogs⟩ := exists_drained (Stays deployment source rows)
    (fun _ => trivial) hdrains
  refine ⟨h, hd.trans hh, ⟨?_, ?_, ?_, hnil⟩, ?_⟩
  · rw [hapart.rendered, hrendered'']
    exact hopened
  · rw [hapart]
    exact hidle'
  · rw [hapart.intervalRef]
    exact hstopped
  · rw [hshown, List.length_nil] at hb'
    rw [hc'] at hd'
    rw [hlogs]
    omega

/-- For a finished deployment whose rows have timestamps of their own: whenever nothing more will
come, every row is shown once and in order, if and only if there are at most four hundred. -/
theorem showsAll_iff (dripInterval : Nat) (deployment : Deployment) (source : Option LogSource)
    (rows : List LogEntry) (hfinished : deployment.status.inProgress = false)
    (hdistinct : ((rows.filter fun x => (Viewer.mk deployment.id source).follows x).map
      (·.timestamp)).Nodup) :
    (∀ h, Reaches (step dripInterval) (Stays deployment source rows) {} h → h.Quiet →
      h.ShowsAll ⟨deployment.id, source⟩ rows) ↔
    (rows.filter fun x => (Viewer.mk deployment.id source).follows x).length ≤ 400 := by
  have hsorted : Keyset.Ascending LogEntry.timestamp (rowsOf ⟨deployment.id, source⟩ rows) :=
    Keyset.ascending_insertionSort _ hdistinct
  constructor
  · intro h
    obtain ⟨s, hs, hquiet, hlength⟩ :=
      exists_quiet dripInterval deployment source rows hsorted hfinished
    rw [← (h s hs hquiet).all.length_eq]
    exact hlength
  · intro hfew h hreaches hquiet
    exact showsAll_of_quiet hsorted (follows_of_reaches hsorted hfinished hreaches) hquiet hfew

def failedDeployment : Deployment where
  id := 2
  status := .failed
  commitHash := "7d9e1c2"
  commitMessage := "Add the cart"
  commitAuthor := "ada"
  branch := "main"
  projectId := 1
  initiatorId := some 1
  startedAt := 0

def lines (n : Nat) : List LogEntry :=
  (List.range n).map fun i =>
    { id := i, deploymentId := 2, source := .build, timestamp := 1000 * i, message := "Building" }

theorem filter_lines (n : Nat) :
    (lines n).filter (fun x => (Viewer.mk failedDeployment.id (some .build)).follows x) =
      lines n := by
  refine List.filter_eq_self.mpr fun x hx => ?_
  obtain ⟨i, _, rfl⟩ := List.mem_map.mp hx
  rfl

theorem nodup_lines (n : Nat) :
    (((lines n).filter fun x => (Viewer.mk failedDeployment.id (some .build)).follows x).map
      (·.timestamp)).Nodup := by
  rw [filter_lines, lines, List.map_map]
  exact List.nodup_range.map fun i j hij => Nat.eq_of_mul_eq_mul_left (by decide) hij

theorem showsAll_lines : (lines 400).length = 400 ∧ ∀ h,
    Reaches (step 60) (Stays failedDeployment (some .build) (lines 400)) {} h → h.Quiet →
      h.ShowsAll ⟨failedDeployment.id, some .build⟩ (lines 400) := by
  have hlength : (lines 400).length = 400 := by rw [lines, List.length_map, List.length_range]
  refine ⟨hlength, ?_⟩
  exact (showsAll_iff 60 failedDeployment (some .build) (lines 400) rfl (nodup_lines 400)).mpr
    (by rw [filter_lines, hlength])

/-- The last of 401 lines is never shown. -/
theorem not_showsAll : ¬∀ (dripInterval : Nat) (deployment : Deployment)
    (source : Option LogSource) (rows : List LogEntry), deployment.status.inProgress = false →
    ((rows.filter fun x => (Viewer.mk deployment.id source).follows x).map (·.timestamp)).Nodup →
    ∀ h, Reaches (step dripInterval) (Stays deployment source rows) {} h → h.Quiet →
      h.ShowsAll ⟨deployment.id, source⟩ rows := by
  intro h
  obtain ⟨s, hs, hquiet, hlength⟩ := exists_quiet 60 failedDeployment (some .build)
    (lines 401) (Keyset.ascending_insertionSort _ (nodup_lines 401)) rfl
  have hall := (h 60 failedDeployment (some .build) (lines 401) rfl (nodup_lines 401) s hs
    hquiet).all.length_eq
  rw [filter_lines, lines, List.length_map, List.length_range] at hall
  omega

end UseDeploymentLogs
end Web
end Code2Cloud
