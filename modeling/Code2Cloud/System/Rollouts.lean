import Code2Cloud.System.Cancel
import Code2Cloud.System.Objects

/-!
# Rollouts

Which deployment the Deployment object of a project was last written for, and how a build comes to
write it.
-/

namespace Code2Cloud
namespace System

open Api Worker

variable {cfg : Config} {w : World} {s s' : State} {e : Event} {p : ProjectId}
  {id : DeploymentId}

def lastApplied (p : ProjectId) (log : List Entry) : Option DeploymentId :=
  log.foldl (fun last x =>
    match x with
    | .applied q id => if q = p then some id else last
    | _ => last) none

/-! ## What was applied last -/

theorem lastApplied_append (log : List Entry) {new : List Entry}
    (h : ∀ id, .applied p id ∉ new) : lastApplied p (log ++ new) = lastApplied p log := by
  induction new generalizing log with
  | nil => rw [List.append_nil]
  | cons x new ih =>
    have hx : lastApplied p (log ++ [x]) = lastApplied p log := by
      rw [lastApplied, List.foldl_append, lastApplied]
      cases x with
      | applied q id =>
        have hq : q ≠ p := fun hq => h id (hq ▸ List.mem_cons_self)
        simp [hq]
      | _ => rfl
    rw [List.append_cons, ih _ fun id hid => h id (List.mem_cons_of_mem x hid), hx]

theorem lastApplied_concat (log : List Entry) (p : ProjectId) (id : DeploymentId) :
    lastApplied p (log ++ [.applied p id]) = some id := by
  simp [lastApplied]

theorem mem_of_lastApplied {log : List Entry} (h : lastApplied p log = some id) :
    .applied p id ∈ log := by
  induction log using List.reverseRecOn with
  | nil => cases h
  | append_singleton log x ih =>
    by_cases hx : ∃ id', x = .applied p id'
    · obtain ⟨id', rfl⟩ := hx
      rw [lastApplied_concat] at h
      cases h
      exact List.mem_append_right _ (List.mem_singleton_self _)
    · rw [lastApplied_append log fun id' hid' => hx ⟨id', (List.mem_singleton.mp hid').symm⟩] at h
      exact List.mem_append_left _ (ih h)

theorem World.mem_recorded_applied {c : Command} (h : .applied p id ∈ w.recorded c) :
    ∃ name d, c = .apply (.deployment name d) ∧ d.projectId = p ∧ d.deploymentId = id := by
  cases c with
  | popBuildJob =>
    rw [recorded] at h
    cases hpop : w.redis.toQueues.waitForJob <;> simp [hpop] at h
  | apply o =>
    cases o with
    | deployment name d =>
      simp only [recorded, List.mem_singleton, Entry.applied.injEq] at h
      exact ⟨name, d, rfl, h.1.symm, h.2.symm⟩
    | _ => exact absurd h List.not_mem_nil
  | publishCancelSignal d => simp [recorded] at h
  | _ => simp [recorded] at h

/-! ## The course of a build -/

def Pc.following : Pc → List Pc
  | checkQueued => [projectPending]
  | projectPending => [markBuilding]
  | markBuilding => [checkSettings]
  | checkSettings => [getSettings]
  | getSettings => [getToken]
  | getToken => [checkClone]
  | checkClone => [clone]
  | clone => [checkBuild]
  | checkBuild => [build]
  | build => [recordImage]
  | recordImage => [checkDeploy]
  | checkDeploy => [markDeploying]
  | markDeploying => [deploy .serviceAccount]
  | deploy stage => stage.next.elim [markReady] fun next => [deploy next]
  | markReady => [projectActive]
  | projectActive => [stopPrevious, startStreaming]
  | stopPrevious => [supersede, startStreaming]
  | supersede => [startStreaming]
  | startStreaming => []

/-- The Deployment object has been written. -/
def Pc.rolled : Pc → Bool
  | deploy .service | deploy .ingress | deploy .wait | markReady | projectActive | stopPrevious
  | supersede | startStreaming => true
  | _ => false

namespace BuildWorker

variable {r : Reply} {b b' : Build} {pc pc' : Pc}

def Follows (pc : Pc) (next : Option BuildWorker) : Prop :=
  ∀ b' pc', next = some (processing b' pc') → pc' ∈ pc.following

theorem follows_processing (b : Build) (h : pc' ∈ pc.following) :
    Follows pc (some (processing b pc')) := by
  rintro _ _ ⟨⟩
  exact h

theorem follows_failing (job : BuildJob) (pc' : FailPc) : Follows pc (some (failing job pc')) := by
  rintro _ _ ⟨⟩

theorem follows_check (w : World) (r : Reply) (b : Build) (h : pc' ∈ pc.following) :
    Follows pc (check w r b pc').next := by
  unfold check
  split
  · rintro _ _ ⟨⟩
  · exact follows_processing b h

theorem follows_process (cfg : Config) (w : World) (r : Reply) (b : Build) (pc : Pc) :
    Follows pc (processStep cfg w r b pc).next := by
  cases pc with
  | checkQueued | checkSettings | checkClone | checkBuild | checkDeploy =>
    exact follows_check w r b (List.mem_singleton_self _)
  | projectPending | recordImage =>
    exact next_request_of (follows_processing b (List.mem_singleton_self _))
      (follows_processing b (List.mem_singleton_self _)) _ _ _ _ _
  | markBuilding =>
    refine next_request_of ?_ (follows_failing _ _) _ _ _ _ _
    split
    · rintro _ _ ⟨⟩
    · exact follows_processing b (List.mem_singleton_self _)
  | getSettings => exact follows_processing _ (List.mem_singleton_self _)
  | getToken | build =>
    exact next_query_of (follows_processing _ (List.mem_singleton_self _))
      (follows_failing _ .markFailed) _
  | clone =>
    refine next_query_of ?_ (follows_failing _ .markFailed) _
    simp only [Turn.pure]
    generalize (if b.job.commitHash.isEmpty = true then r.head else b.job.commitHash) = hash
    split
    · rintro _ _ ⟨⟩
    · exact follows_processing _ (List.mem_singleton_self _)
  | markDeploying | markReady =>
    exact next_request_of (follows_processing b (List.mem_singleton_self _))
      (follows_failing _ .markFailed) _ _ _ _ _
  | deploy stage =>
    rw [processStep]
    split
    · rename_i next _ hnext
      refine next_issue_of (follows_processing b ?_) (follows_failing _ .markFailed) _ _ _ _ _
      rw [Pc.following, hnext]
      exact List.mem_singleton_self _
    · rename_i hnone
      unfold Turn.pure afterDeploy
      split
      · refine follows_processing b ?_
        cases stage with
        | wait => exact List.mem_singleton_self _
        | _ => exact absurd rfl (hnone _ _ rfl)
      · rintro _ _ ⟨⟩
  | projectActive =>
    have hactive : Follows .projectActive (some (afterActive b)) := by
      refine follows_processing b ?_
      split <;> decide
    exact next_request_of hactive hactive _ _ _ _ _
  | stopPrevious =>
    rw [processStep]
    split <;> exact follows_processing b (by decide)
  | supersede =>
    rw [processStep]
    split
    · exact next_request_of (follows_processing b (List.mem_singleton_self _))
        (follows_processing b (List.mem_singleton_self _)) _ _ _ _ _
    · exact follows_processing b (List.mem_singleton_self _)
  | startStreaming => rintro _ _ ⟨⟩

/-- The Deployment object is written by the request that a build passes on its way to the later
stages. -/
theorem applied_process (h : (processStep cfg w r b pc).next = some (processing b' pc'))
    (hrolled : pc'.rolled = true) :
    pc.rolled = true ∨
      w.recorded (processStep cfg w r b pc).command =
        [.applied b.job.projectId b.job.deploymentId] := by
  have hfollowing := follows_process cfg w r b pc b' pc' h
  cases pc with
  | deploy stage =>
    cases stage with
    | deployment =>
      refine Or.inr ?_
      have hturn : ∃ name, processStep cfg w r b (.deploy .deployment) =
          issue w r.outcome (.apply (.deployment name (Client.deployment (deployOptions b))))
            (some (processing b (.deploy .service))) (some (failing b.job .markFailed)) []
            [.finished b.job.deploymentId .failed] := ⟨_, rfl⟩
      obtain ⟨name, hturn⟩ := hturn
      rw [hturn] at h ⊢
      rcases issue_cases w r.outcome
        (.apply (.deployment name (Client.deployment (deployOptions b))))
        (some (processing b (.deploy .service))) (some (failing b.job .markFailed)) []
        [.finished b.job.deploymentId .failed] with ⟨_, ht⟩ | ⟨_, ht⟩ | ht <;> rw [ht] at h ⊢
      · rfl
      · cases h
      · cases h
    | serviceAccount | networkPolicy =>
      rw [List.mem_singleton.mp hfollowing] at hrolled
      cases hrolled
    | _ => exact Or.inl rfl
  | markReady | projectActive | stopPrevious | supersede | startStreaming => exact Or.inl rfl
  | _ =>
    rw [List.mem_singleton.mp hfollowing] at hrolled
    cases hrolled

end BuildWorker

theorem BuildWorker.completed_step {b : BuildWorker} {r : Reply}
    (h : .finished id .completed ∈ (b.step cfg w r).entries) :
    ∃ build, b = .processing build .startStreaming ∧ build.job.deploymentId = id := by
  obtain ⟨build, pc, rfl, _⟩ := BuildWorker.reports_step h
  have hissue {σ : Type} {c : Command} {ok err : σ} {entries errors : List Entry}
      (hentries : .finished id .completed ∉ entries) (herrors : .finished id .completed ∉ errors)
      (h : .finished id .completed ∈ (issue w r.outcome c ok err entries errors).entries) :
      False := by
    rcases issue_cases w r.outcome c ok err entries errors with ⟨_, ht⟩ | ⟨_, ht⟩ | ht <;>
      rw [ht] at h
    · exact hentries h
    · exact herrors h
    · exact herrors h
  have hquery {ok err : Option BuildWorker}
      (h : .finished id .completed ∈ (query r.outcome (.pure ok)
        (.pure err [.finished build.job.deploymentId .failed])).entries) : False := by
    unfold query at h
    split at h <;> simp at h
  rw [BuildWorker.step] at h
  cases pc with
  | checkQueued | checkSettings | checkClone | checkBuild | checkDeploy =>
    rw [processStep, check] at h
    split at h <;> simp at h
  | projectPending | recordImage | projectActive =>
    exact (hissue List.not_mem_nil List.not_mem_nil h).elim
  | markBuilding | markReady => exact (hissue List.not_mem_nil (by simp) h).elim
  | markDeploying => exact (hissue (by simp) (by simp) h).elim
  | getSettings => exact absurd h List.not_mem_nil
  | getToken | clone | build => exact (hquery h).elim
  | deploy stage =>
    rw [processStep] at h
    split at h
    · exact (hissue List.not_mem_nil (by simp) h).elim
    · simp at h
  | stopPrevious =>
    rw [processStep] at h
    split at h <;> exact absurd h List.not_mem_nil
  | supersede =>
    rw [processStep] at h
    split at h
    · exact (hissue List.not_mem_nil List.not_mem_nil h).elim
    · exact absurd h List.not_mem_nil
  | startStreaming =>
    cases List.mem_singleton.mp h
    exact ⟨build, rfl, rfl⟩

namespace State

theorem entries_turn {t : Turn Processes} (ht : s.turn cfg e = some t) :
    ∃ a, a ≠ .command ∧ writtenBy a t.entries = true := by
  cases e with
  | tick | request | restart =>
    cases ht
    exact ⟨.api, by decide, rfl⟩
  | edit edit =>
    rw [turn] at ht
    split at ht <;> cases ht
    exact ⟨.api, by decide, rfl⟩
  | call i r =>
    rw [turn, Option.map_eq_some_iff] at ht
    obtain ⟨c, _, rfl⟩ := ht
    exact ⟨.api, by decide, (foreground_call cfg s.world r c).entries⟩
  | worker r =>
    cases ht
    exact ⟨.worker, by decide, (background_worker cfg s.world r s.procs.worker).entries⟩
  | sweep r =>
    cases ht
    exact ⟨.worker, by decide, (quiet_sweep s.world r s.procs.sweep).background.entries⟩
  | projectCleanup r =>
    cases ht
    exact ⟨.worker, by decide,
      (quiet_projectCleanup s.world r s.procs.projectCleanup).background.entries⟩
  | domainWorker r =>
    cases ht
    exact ⟨.worker, by decide,
      (quiet_domainWorker s.world r s.procs.domainWorker).background.entries⟩

/-- A step leaves what was applied for a project as it is, or is the request of a build that writes
the project's Deployment object. -/
theorem lastApplied_step (p : ProjectId) (h : s.step cfg e = some s') :
    (lastApplied p s'.world.log = lastApplied p s.world.log ∧
      ∀ k, .applied p k ∈ s'.world.log → .applied p k ∈ s.world.log) ∨
    ∃ r b, e = .worker r ∧ s.procs.worker = .processing b (.deploy .deployment) ∧
      b.job.projectId = p ∧ lastApplied p s'.world.log = some b.job.deploymentId ∧
      ∀ k, .applied p k ∈ s'.world.log → .applied p k ∈ s.world.log ∨ k = b.job.deploymentId := by
  obtain ⟨t, ht, _, rfl⟩ := step_eq_some_iff.mp h
  obtain ⟨a, ha, hentries⟩ := entries_turn ht
  have hnone (k : DeploymentId) : .applied p k ∉ t.entries :=
    fun hk => ha (writer_of_mem hentries hk).symm
  rw [after, World.log_turn]
  by_cases happly : ∃ name d, t.command = .apply (.deployment name d) ∧ d.projectId = p
  · obtain ⟨name, d, hc, hproject⟩ := happly
    have htouches := touches_turn ht (by rw [hc]; rfl)
    rw [hc] at htouches
    obtain ⟨r, b, stage, rfl, hworker, hobject, _⟩ := htouches.of_apply
    cases stage with
    | deployment =>
      cases hobject
      have hrecorded : s.world.recorded t.command = [.applied p b.job.deploymentId] := by
        rw [hc, ← hproject]
        rfl
      refine Or.inr ⟨r, b, rfl, hworker, hproject, ?_, fun k hk => ?_⟩
      · rw [hrecorded, ← List.append_assoc, lastApplied_append _ hnone, lastApplied_concat]
      · rw [hrecorded, List.mem_append, List.mem_append, List.mem_singleton] at hk
        rcases hk with hk | hk | hk
        · exact Or.inl hk
        · exact Or.inr (Entry.applied.inj hk).2
        · exact absurd hk (hnone k)
    | _ => cases hobject
  · have hnew (k : DeploymentId) : .applied p k ∉ s.world.recorded t.command ++ t.entries := by
      intro hk
      rcases List.mem_append.mp hk with hk | hk
      · obtain ⟨name, d, hc, hproject, _⟩ := World.mem_recorded_applied hk
        exact happly ⟨name, d, hc, hproject⟩
      · exact hnone k hk
    refine Or.inl ⟨lastApplied_append _ hnew, fun k hk => ?_⟩
    exact (List.mem_append.mp hk).resolve_right (hnew k)

theorem mem_log_step {x : Entry} (h : s.step cfg e = some s') (hx : x ∈ s.world.log) :
    x ∈ s'.world.log := by
  obtain ⟨t, _, _, rfl⟩ := step_eq_some_iff.mp h
  rw [after, World.log_turn]
  exact List.mem_append_left _ hx

/-- What every run keeps of the Deployment objects that builds write. -/
structure Rolled (s : State) : Prop where
  popped : ∀ p id, .applied p id ∈ s.world.log → .popped id ∈ s.world.log
  finished : ∀ id, .finished id .completed ∈ s.world.log → ∃ p, .applied p id ∈ s.world.log
  worker : ∀ b pc, s.procs.worker = .processing b pc → pc.rolled = true →
    .applied b.job.projectId b.job.deploymentId ∈ s.world.log

theorem processing_step {r : Reply} (h : s.step cfg (.worker r) = some s') {b : Build} {pc : Pc}
    (hworker : s'.procs.worker = .processing b pc) :
    (∃ b₀ pc₀, s.procs.worker = .processing b₀ pc₀ ∧ b.job = b₀.job ∧
      (BuildWorker.processStep cfg s.world r b₀ pc₀).next = some (.processing b pc)) ∨
    ∃ job ∈ s.world.redis.buildQueue, s.procs.worker = .idle ∧ b = { job } ∧ pc = .checkQueued := by
  have hworker' : s'.procs.worker = ((s.procs.worker.step cfg s.world r).next).getD .idle := by
    rw [step_worker h]
    exact s.procs.setWorker_worker _
  have hnext : (s.procs.worker.step cfg s.world r).next = some (.processing b pc) := by
    rw [hworker] at hworker'
    cases hn : (s.procs.worker.step cfg s.world r).next with
    | none =>
      rw [hn] at hworker'
      cases hworker'
    | some b' =>
      rw [hn, Option.getD_some] at hworker'
      rw [hworker']
  rcases s.procs.worker.next_step cfg s.world r with hcont | ⟨job, hidle, hpop, _, hqueue, _⟩
  · obtain ⟨b₀, pc₀, hold, _⟩ := BuildWorker.exists_of_continues hcont hnext
    refine Or.inl ⟨b₀, pc₀, hold, ?_, ?_⟩
    · rcases hcont _ hnext with hidle | ⟨hjob, _⟩
      · cases hidle
      · rw [hold] at hjob
        exact Option.some.inj hjob
    · rw [hold] at hnext
      exact hnext
  · rw [hpop] at hnext
    cases hnext
    refine Or.inr ⟨job, ?_, hidle, rfl, rfl⟩
    rw [hqueue]
    exact List.mem_append_right _ (List.mem_singleton_self _)

theorem rolled_worker {r : Reply} (hs : s.Rolled) (h : s.step cfg (.worker r) = some s')
    {b : Build} {pc : Pc} (hworker : s'.procs.worker = .processing b pc)
    (hrolled : pc.rolled = true) : .applied b.job.projectId b.job.deploymentId ∈ s'.world.log := by
  rcases processing_step h hworker with ⟨b₀, pc₀, hold, hjob, hnext⟩ | ⟨_, _, _, _, rfl⟩
  · rw [hjob]
    rcases BuildWorker.applied_process hnext hrolled with hrolled₀ | hrecorded
    · exact mem_log_step h (hs.worker b₀ pc₀ hold hrolled₀)
    · rw [step_worker h, World.log_turn, hold, BuildWorker.step, hrecorded]
      simp
  · cases hrolled

theorem rolled_step (hs : s.Rolled) (hsig : s.Signalled) (h : s.step cfg e = some s') :
    s'.Rolled where
  popped p id hid := by
    rcases lastApplied_step p h with ⟨_, hold⟩ | ⟨r, b, _, hworker, _, _, hnew⟩
    · exact mem_log_step h (hs.popped p id (hold id hid))
    · rcases hnew id hid with hold | rfl
      · exact mem_log_step h (hs.popped p id hold)
      · exact mem_log_step h (hsig.popped b.job (by rw [hworker]; rfl))
  finished id hid := by
    have hold (hid : .finished id .completed ∈ s.world.log) :
        ∃ p, .applied p id ∈ s'.world.log := by
      obtain ⟨p, hp⟩ := hs.finished id hid
      exact ⟨p, mem_log_step h hp⟩
    have hrecorded (c : Command) : .finished id .completed ∉ s.world.recorded c :=
      fun hmem => nomatch writer_of_mem (World.writtenBy_recorded _ _) hmem
    rcases step_cases h with ⟨i, r, before, c, later, rfl, hcalls, hs'⟩ | ⟨r, rfl, hs'⟩ |
      ⟨command, new, hb⟩
    · rw [hs', World.log_turn, List.mem_append, List.mem_append] at hid
      rcases hid with hid | hid | hid
      · exact hold hid
      · exact absurd hid (hrecorded _)
      · exact nomatch writer_of_mem (foreground_call cfg s.world r c).entries hid
    · rw [hs', World.log_turn, List.mem_append, List.mem_append] at hid
      rcases hid with hid | hid | hid
      · exact hold hid
      · exact absurd hid (hrecorded _)
      · obtain ⟨b, hworker, rfl⟩ := BuildWorker.completed_step hid
        exact ⟨_, mem_log_step h (hs.worker b _ hworker rfl)⟩
    · rw [hb.world, World.log_bystander cfg _ hb.bystander] at hid
      exact hold hid
  worker b pc hworker hrolled := by
    rcases step_cases h with ⟨i, r, before, c, later, rfl, hcalls, hs'⟩ | ⟨r, rfl, hs'⟩ |
      ⟨command, new, hb⟩
    · rw [hs'] at hworker
      exact mem_log_step h (hs.worker b pc hworker hrolled)
    · exact rolled_worker hs h hworker hrolled
    · rcases hb.worker with hw | hw
      · exact mem_log_step h (hs.worker b pc (hw ▸ hworker) hrolled)
      · rw [hw] at hworker
        cases hworker

end State
end System
end Code2Cloud
