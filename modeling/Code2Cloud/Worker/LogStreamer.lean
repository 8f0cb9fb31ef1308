import Code2Cloud.Api.Schema
import Code2Cloud.Worker.Names
import Mathlib.Data.List.AList

/-!
# The table of log streams

`LogStreamer` as the worker calls it: which deployments are in `activeStreams`, which stream
contexts were cancelled, and for which the pods are followed.
-/

namespace Code2Cloud
namespace Worker

open GoString Api

/-- The context of one `StartStreaming`, in the order of the calls.  The contexts that the callers
pass are taken to live on. -/
abbrev StreamId := Nat

/-- A `streamPodLogs` that was started. -/
structure Goroutine where
  stream : StreamId
  deploymentID : DeploymentId
  appName : GoString
  podName : GoString
  shortName : GoString

structure LogStreamer where
  /-- The cancel functions, by the context they cancel. -/
  activeStreams : AList fun _ : DeploymentId => StreamId
  cancelled : List StreamId
  goroutines : List Goroutine
  /-- The next context. -/
  next : StreamId

namespace LogStreamer

def new : LogStreamer where
  activeStreams := ∅
  cancelled := []
  goroutines := []
  next := 0

/-- `shortPodName`: what follows the last dash. -/
def shortPodName (name : GoString) : GoString :=
  ((name.splitOn dash).getLast?).getD name

def cancel (ls : LogStreamer) (s : StreamId) : LogStreamer :=
  { ls with cancelled := s :: ls.cancelled }

/-- Cancel the entry of a deployment, if there is one, and delete it. -/
def drop (ls : LogStreamer) (deploymentID : DeploymentId) : LogStreamer :=
  match ls.activeStreams.lookup deploymentID with
  | none => ls
  | some s => { ls.cancel s with activeStreams := ls.activeStreams.erase deploymentID }

/-- Under the lock: the entry is replaced before the pods are listed. -/
def register (ls : LogStreamer) (deploymentID : DeploymentId) : LogStreamer :=
  let ls := ls.drop deploymentID
  { ls with activeStreams := ls.activeStreams.insert deploymentID ls.next, next := ls.next + 1 }

/-- `pods` is what the cluster lists, or the text of its error. -/
def startStreaming (ls : LogStreamer) (deploymentID : DeploymentId) (projectName : GoString)
    (pods : Except GoString (List GoString)) : Except GoString Unit × LogStreamer :=
  let name := sanitizeK8sName projectName
  let stream := ls.next
  let ls := ls.register deploymentID
  match pods with
  | .error err => (.error (utf8 "failed to list pods: " ++ err), ls.cancel stream)
  | .ok [] => (.error (utf8 "no pods found for app " ++ name), ls.cancel stream)
  | .ok pods =>
    (.ok (),
      { ls with
        goroutines := ls.goroutines ++ pods.map fun podName =>
          { stream, deploymentID, appName := name, podName, shortName := shortPodName podName } })

def stopStreaming (ls : LogStreamer) (deploymentID : DeploymentId) : LogStreamer :=
  ls.drop deploymentID

def stopAll (ls : LogStreamer) : LogStreamer :=
  { ls with
    activeStreams := ∅
    cancelled := ls.activeStreams.entries.map (·.2) ++ ls.cancelled }

/-- `ActiveStreams()` -/
def activeCount (ls : LogStreamer) : Nat := ls.activeStreams.entries.length

/-- The pods of a stream are followed. -/
def Started (ls : LogStreamer) (s : StreamId) : Prop := ∃ g ∈ ls.goroutines, g.stream = s

/-! ## Calls -/

inductive Call
  | startStreaming (deploymentID : DeploymentId) (projectName : GoString)
    (pods : Except GoString (List GoString))
  | stopStreaming (deploymentID : DeploymentId)
  | stopAll

/-- The deployment whose `StartStreaming` fails: the pods cannot be listed, or there are none. -/
def Call.failed : Call → Option DeploymentId
  | .startStreaming deploymentID _ (.error _) => some deploymentID
  | .startStreaming deploymentID _ (.ok []) => some deploymentID
  | _ => none

/-- A streamer, with the context of each deployment's latest `StartStreaming`. -/
structure Observed where
  streamer : LogStreamer
  latest : DeploymentId → Option StreamId

namespace Observed

def new : Observed where
  streamer := LogStreamer.new
  latest := fun _ => none

def step (x : Observed) : Call → Observed
  | .startStreaming deploymentID projectName pods =>
    { streamer := (x.streamer.startStreaming deploymentID projectName pods).2
      latest := fun id => if id = deploymentID then some x.streamer.next else x.latest id }
  | .stopStreaming deploymentID => { x with streamer := x.streamer.stopStreaming deploymentID }
  | .stopAll => { x with streamer := x.streamer.stopAll }

/-- The latest stream of the deployment is not cancelled, and its pods are followed. -/
def Live (x : Observed) (id : DeploymentId) : Prop :=
  ∃ s, x.latest id = some s ∧ s ∉ x.streamer.cancelled ∧ x.streamer.Started s

/-- What a call leaves behind: an entry for each live stream and for no other, counted right, and
none for a deployment whose stream could not be started. -/
structure Exact (x : Observed) (c : Call) : Prop where
  mem_iff : ∀ id, id ∈ x.streamer.activeStreams ↔ x.Live id
  count : ∃ ids : List DeploymentId,
    ids.Nodup ∧ (∀ id, id ∈ ids ↔ x.Live id) ∧ x.streamer.activeCount = ids.length
  failed : ∀ id ∈ c.failed, id ∉ x.streamer.activeStreams

/-- Every call of the list leaves the table exact. -/
def AlwaysExact : Observed → List Call → Prop
  | _, [] => True
  | x, c :: calls => (x.step c).Exact c ∧ AlwaysExact (x.step c) calls

/-- What holds as long as no `StartStreaming` fails. -/
structure Sound (x : Observed) : Prop where
  entry : ∀ {id s}, x.streamer.activeStreams.lookup id = some s →
    x.latest id = some s ∧ s ∉ x.streamer.cancelled
  latest : ∀ {id s}, x.latest id = some s → x.streamer.Started s ∧
    s < x.streamer.next ∧ (x.streamer.activeStreams.lookup id = some s ∨ s ∈ x.streamer.cancelled)
  cancelled : ∀ s ∈ x.streamer.cancelled, s < x.streamer.next
  injective : ∀ {id id' s}, x.latest id = some s → x.latest id' = some s → id = id'

variable {x : Observed} {c : Call} {id : DeploymentId}

theorem Sound.mem_iff (h : x.Sound) : id ∈ x.streamer.activeStreams ↔ x.Live id := by
  rw [← AList.lookup_isSome, Option.isSome_iff_exists]
  constructor
  · rintro ⟨s, hs⟩
    obtain ⟨hlatest, hlive⟩ := h.entry hs
    exact ⟨s, hlatest, hlive, (h.latest hlatest).1⟩
  · rintro ⟨s, hs, hlive, _⟩
    exact ⟨s, (h.latest hs).2.2.resolve_right hlive⟩

theorem Sound.exact (h : x.Sound) (hc : c.failed = none) : x.Exact c where
  mem_iff _ := h.mem_iff
  count := ⟨x.streamer.activeStreams.keys, x.streamer.activeStreams.keys_nodup,
    fun id => by rw [← AList.mem_keys, h.mem_iff], (List.length_map _).symm⟩
  failed id hid := by
    rw [hc] at hid
    cases hid

theorem sound_new : new.Sound where
  entry h := by cases h
  latest h := by cases h
  cancelled _ h := by cases h
  injective h := by cases h

theorem Sound.drop (h : x.Sound) (id : DeploymentId) :
    ({ x with streamer := x.streamer.drop id } : Observed).Sound ∧
      (x.streamer.drop id).activeStreams.lookup id = none := by
  unfold LogStreamer.drop
  cases hid : x.streamer.activeStreams.lookup id with
  | none => exact ⟨h, hid⟩
  | some s =>
    have hs := (h.entry hid).1
    refine ⟨⟨fun {id' s'} h' => ?_, fun {id' s'} h' => ?_, fun s' h' => ?_, h.injective⟩,
      AList.lookup_erase _ _⟩
    · have hne : id' ≠ id := by
        rintro rfl
        rw [AList.lookup_erase] at h'
        cases h'
      rw [AList.lookup_erase_ne hne] at h'
      obtain ⟨hs', hlive⟩ := h.entry h'
      refine ⟨hs', fun hmem => ?_⟩
      rcases List.mem_cons.mp hmem with rfl | hmem
      · exact hne (h.injective hs' hs)
      · exact hlive hmem
    · obtain ⟨hstarted, hlt, hentry⟩ := h.latest h'
      refine ⟨hstarted, hlt, ?_⟩
      by_cases hne : id' = id
      · subst hne
        rw [hs, Option.some.injEq] at h'
        exact Or.inr (h' ▸ List.mem_cons_self)
      · exact (hentry.imp_left (AList.lookup_erase_ne hne).trans).imp_right
          (List.mem_cons_of_mem s)
    · rcases List.mem_cons.mp h' with rfl | h'
      · exact (h.latest hs).2.1
      · exact h.cancelled s' h'

theorem Sound.add (h : x.Sound) (hid : x.streamer.activeStreams.lookup id = none)
    {goroutines : List Goroutine} (hgoroutines : ∃ g ∈ goroutines, g.stream = x.streamer.next) :
    ({ streamer :=
        { x.streamer with
          activeStreams := x.streamer.activeStreams.insert id x.streamer.next
          goroutines := x.streamer.goroutines ++ goroutines
          next := x.streamer.next + 1 }
       latest := fun id' => if id' = id then some x.streamer.next else x.latest id' } :
      Observed).Sound := by
  have hnew : x.streamer.next ∉ x.streamer.cancelled := fun hmem =>
    Nat.lt_irrefl _ (h.cancelled _ hmem)
  refine ⟨fun {id' s'} h' => ?_, fun {id' s'} h' => ?_, fun s' h' => ?_, fun {i j s'} hi hj => ?_⟩
  · dsimp only at h' ⊢
    by_cases hne : id' = id
    · subst hne
      rw [AList.lookup_insert, Option.some.injEq] at h'
      subst h'
      exact ⟨if_pos rfl, hnew⟩
    · rw [AList.lookup_insert_ne hne] at h'
      rw [if_neg hne]
      exact h.entry h'
  · dsimp only at h' ⊢
    by_cases hne : id' = id
    · subst hne
      rw [if_pos rfl, Option.some.injEq] at h'
      subst h'
      obtain ⟨g, hg, hstream⟩ := hgoroutines
      exact ⟨⟨g, List.mem_append_right _ hg, hstream⟩, Nat.lt_succ_self _,
        Or.inl (AList.lookup_insert _)⟩
    · rw [if_neg hne] at h'
      obtain ⟨⟨g, hg, hstream⟩, hlt, hentry⟩ := h.latest h'
      exact ⟨⟨g, List.mem_append_left _ hg, hstream⟩, Nat.lt_succ_of_lt hlt,
        hentry.imp_left (AList.lookup_insert_ne hne).trans⟩
  · exact Nat.lt_succ_of_lt (h.cancelled s' h')
  · dsimp only at hi hj
    by_cases hi' : i = id <;> by_cases hj' : j = id
    · exact hi'.trans hj'.symm
    · rw [if_pos hi', Option.some.injEq] at hi
      rw [if_neg hj'] at hj
      exact absurd (h.latest hj).2.1 (hi ▸ Nat.lt_irrefl _)
    · rw [if_neg hi'] at hi
      rw [if_pos hj', Option.some.injEq] at hj
      exact absurd (h.latest hi).2.1 (hj ▸ Nat.lt_irrefl _)
    · rw [if_neg hi'] at hi
      rw [if_neg hj'] at hj
      exact h.injective hi hj

theorem Sound.stopAll (h : x.Sound) : (x.step .stopAll).Sound := by
  refine ⟨fun h' => ?_, fun {id' s'} h' => ?_, fun s' h' => ?_, h.injective⟩
  · rw [step, LogStreamer.stopAll, AList.lookup_empty] at h'
    cases h'
  · obtain ⟨hstarted, hlt, hentry⟩ := h.latest h'
    refine ⟨hstarted, hlt, Or.inr ?_⟩
    rcases hentry with hentry | hcancelled
    · have hmem : (⟨id', s'⟩ : Sigma fun _ : DeploymentId => StreamId) ∈
          x.streamer.activeStreams.entries := AList.mem_lookup_iff.mp hentry
      exact List.mem_append_left _ (List.mem_map.mpr ⟨_, hmem, rfl⟩)
    · exact List.mem_append_right _ hcancelled
  · rcases List.mem_append.mp h' with h' | h'
    · obtain ⟨⟨id, s⟩, hmem, rfl⟩ := List.mem_map.mp h'
      exact (h.latest (h.entry (AList.mem_lookup_iff.mpr hmem)).1).2.1
    · exact h.cancelled s' h'

theorem next_drop (ls : LogStreamer) (id : DeploymentId) : (ls.drop id).next = ls.next := by
  rw [LogStreamer.drop]
  split <;> rfl

theorem Sound.step (h : x.Sound) (hc : c.failed = none) : (x.step c).Sound := by
  cases c with
  | stopAll => exact h.stopAll
  | stopStreaming id => exact (h.drop id).1
  | startStreaming id projectName pods =>
    obtain ⟨hdrop, hnone⟩ := h.drop id
    cases pods with
    | error err => cases hc
    | ok pods =>
      cases pods with
      | nil => cases hc
      | cons pod pods =>
        let goroutine (podName : GoString) : Goroutine :=
          { stream := x.streamer.next, deploymentID := id, appName := sanitizeK8sName projectName
            podName, shortName := shortPodName podName }
        have hstarted : ∃ g ∈ (pod :: pods).map goroutine, g.stream = (x.streamer.drop id).next :=
          ⟨_, List.mem_cons_self, (next_drop _ id).symm⟩
        have hadd := hdrop.add hnone hstarted
        simp only [next_drop] at hadd
        simp only [step, LogStreamer.startStreaming, register, next_drop]
        exact hadd

/-- Whatever becomes of it, `StartStreaming` leaves an entry. -/
theorem mem_startStreaming (ls : LogStreamer) (id : DeploymentId) (projectName : GoString)
    (pods : Except GoString (List GoString)) :
    id ∈ (ls.startStreaming id projectName pods).2.activeStreams := by
  have hregister : id ∈ (ls.register id).activeStreams :=
    (AList.mem_insert _).mpr (Or.inl rfl)
  cases pods with
  | error err => exact hregister
  | ok pods => cases pods <;> exact hregister

/-- A `StartStreaming` that fails leaves an entry for a context that it has cancelled. -/
theorem not_exact_of_failed (hc : id ∈ c.failed) : ¬(x.step c).Exact c := by
  intro h
  refine h.failed id hc ?_
  cases c with
  | stopAll | stopStreaming => cases hc
  | startStreaming id' projectName pods =>
    have hid : id' = id := by
      cases pods with
      | error err => exact Option.some.inj hc
      | ok pods =>
        cases pods with
        | nil => exact Option.some.inj hc
        | cons pod pods => cases hc
    exact hid ▸ mem_startStreaming x.streamer id' projectName pods

/-- The table is exact after every call exactly where every `StartStreaming` finds pods: one that
fails cancels its context and leaves the entry. -/
theorem alwaysExact_iff (calls : List Call) :
    AlwaysExact new calls ↔ ∀ c ∈ calls, c.failed = none := by
  suffices h : ∀ x : Observed, x.Sound → (AlwaysExact x calls ↔ ∀ c ∈ calls, c.failed = none) from
    h new sound_new
  induction calls with
  | nil => exact fun x _ => iff_of_true trivial fun c hc => by cases hc
  | cons c calls ih =>
    intro x hx
    rw [AlwaysExact, List.forall_mem_cons]
    cases hc : c.failed with
    | some id => exact iff_of_false (fun h => not_exact_of_failed hc h.1) fun h => by cases h.1
    | none =>
      have hstep := hx.step hc
      rw [ih _ hstep]
      exact and_congr_left' (iff_of_true (hstep.exact hc) rfl)

/-- The pods cannot be listed, and the deployment counts as streaming. -/
theorem not_alwaysExact : ¬∀ calls : List Call, AlwaysExact new calls := by
  intro h
  have hcalls := (alwaysExact_iff _).mp (h [.startStreaming 2 (utf8 "shop") (.error [])])
  exact absurd (hcalls _ List.mem_cons_self) (by decide)

end Observed
end LogStreamer
end Worker
end Code2Cloud
