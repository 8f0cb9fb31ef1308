import Code2Cloud.System.Pushes
import Mathlib.Logic.Relation

/-!
# One push, project by project

`handlePushEvent` on its own, with a failure of any of its calls: what it makes of each
matching project, and whether that depends on the others.
-/

namespace Code2Cloud
namespace System
namespace WebhooksService
namespace Triggers

open Api Worker Push

/-- How the calls made for one project end. -/
structure Outcomes where
  publish : Outcome := .ok
  mark : Outcome := .ok
  config : Outcome := .ok
  insert : Outcome := .ok
  enqueue : Outcome := .ok

def Outcome.took (o : Outcome) : Bool := o == .ok || o == .lost

def answer (a : ProjectId → Outcomes) : Push → Reply
  | .findProjects _ => {}
  | .publish _ l _ _ => { outcome := (a l.project.id).publish }
  | .markCanceled _ l _ _ => { outcome := (a l.project.id).mark }
  | .findSystemConfig _ l _ _ _ => { outcome := (a l.project.id).config }
  | .insert _ l _ _ _ _ => { outcome := (a l.project.id).insert }
  | .enqueue _ job _ => { outcome := (a job.projectId).enqueue }

variable (cfg : Config) (a : ProjectId → Outcomes)

/-- The steps of a push while nothing else happens. -/
inductive Runs : World → Flow Push → World → Flow Push → Prop
  | refl (w : World) (f : Flow Push) : Runs w f w f
  | step {w w' : World} {c : Push} {f : Flow Push} :
    Runs ((w.exec cfg (c.step cfg w (answer a c)).command).record
      (c.step cfg w (answer a c)).entries) (c.step cfg w (answer a c)).next w' f →
    Runs w (.next c) w' f

/-- The ids of rows and jobs are older than the next one, and those of rows are distinct. -/
structure Stored (w : World) : Prop where
  projects : (w.db.projects.map (·.id)).Nodup
  deployments : (w.db.deployments.map (·.id)).Nodup
  deployment_lt : ∀ d ∈ w.db.deployments, d.id < w.db.nextId
  job_lt : ∀ job ∈ w.redis.buildQueue, job.deploymentId < w.db.nextId

/-! ## What a trigger does -/

variable (opts : TriggerOptions)

/-- `triggerDeployment` after the handling of the deployment before. -/
def deploy (o : Outcomes) (l : Loaded) (previous : Option DeploymentId) (w : World) : World :=
  match jobEnvVars cfg.encryption l with
  | none => w
  | some envVars =>
    if o.config = .ok ∧ Outcome.took o.insert then
      let w' := w.exec cfg (.createDeployment (row w opts l
        (ProjectsService.regionOf (w.db.systemConfigOf l.project.userId))))
      if o.insert = .ok ∧ Outcome.took o.enqueue then
        w'.exec cfg (.addBuildJob (job opts l envVars previous w.db.nextId))
      else w'
    else w

/-- `triggerDeployment` where the rows it has read are still there. -/
def trigger (o : Outcomes) (c : Candidate) (w : World) : World :=
  if c.loaded.project.autoDeploy then
    match c.target.2 with
    | none => deploy cfg opts o c.loaded c.previous w
    | some id =>
      if Outcome.took o.publish then
        let w := w.exec cfg (.publishCancelSignal id)
        if o.publish = .ok ∧ Outcome.took o.mark then
          let w := w.exec cfg (.writeStatus id .webhookCancel)
          if o.mark = .ok then deploy cfg opts o c.loaded none (w.record [.acknowledged id])
          else w
        else w
      else w
  else w

def ComesTo (o : Outcomes) (c : Candidate) : Prop :=
  c.loaded.project.autoDeploy = true ∧ (c.target.2 ≠ none → o.publish = .ok ∧ o.mark = .ok) ∧
    jobEnvVars cfg.encryption c.loaded ≠ none ∧ o.config = .ok

def Signals (o : Outcomes) (c : Candidate) : Prop :=
  c.loaded.project.autoDeploy = true ∧ c.target.2 ≠ none ∧ Outcome.took o.publish = true

def Inserts (o : Outcomes) (c : Candidate) : Prop :=
  ComesTo cfg o c ∧ Outcome.took o.insert = true

def Queues (o : Outcomes) (c : Candidate) : Prop :=
  ComesTo cfg o c ∧ o.insert = .ok ∧ Outcome.took o.enqueue = true

/-- No deployment of the project is in flight but the one that the trigger cancels. -/
def Alone (w₀ : World) (c : Candidate) : Prop :=
  ∀ d ∈ w₀.db.deploymentsOf c.loaded.project.id, d.status.inProgress = true →
    c.target.2 = some d.id

/-- The trigger goes through to the push of its job, or fails before its first effect. -/
def Uninterrupted (o : Outcomes) (w₀ : World) (c : Candidate) : Prop :=
  Queues cfg o c ∧ Alone w₀ c ∨ ¬Signals o c ∧ ¬Inserts cfg o c

variable {cfg} {a} {opts} {w w' : World} {c : Candidate} {rest : List Candidate}

/-! ## The steps of a trigger -/

theorem record_nil (w : World) : w.record [] = w := by
  rw [World.record, List.append_nil]

theorem runs_issue {y : Push} {o : Outcome} {command : Command} {ok err : Flow Push}
    {entries : List Entry} {f : Flow Push} (ho : (answer a y).outcome = o)
    (hstep : y.step cfg w (answer a y) = issue w (answer a y).outcome command ok err entries)
    (hadmits : w.admits command = true)
    (hok : o = .ok → Runs cfg a ((w.exec cfg command).record entries) ok w' f)
    (hlost : o = .lost → Runs cfg a (w.exec cfg command) err w' f)
    (hfail : Outcome.took o = false → Runs cfg a w err w' f) : Runs cfg a w (.next y) w' f := by
  refine .step ?_
  rw [hstep, ho]
  unfold issue
  rw [if_pos hadmits]
  cases o with
  | ok => exact hok rfl
  | lost =>
    rw [record_nil]
    exact hlost rfl
  | fail =>
    rw [record_nil]
    exact hfail rfl
  | late =>
    rw [record_nil]
    exact hfail rfl

theorem runs_enqueue {job : BuildJob} {f : Flow Push}
    (h : Runs cfg a (if Outcome.took (a job.projectId).enqueue = true then
      w.exec cfg (.addBuildJob job) else w) (loop cfg.encryption opts rest) w' f) :
    Runs cfg a w (.next (.enqueue opts job rest)) w' f := by
  refine runs_issue rfl rfl rfl (fun hok => ?_) (fun hlost => ?_) (fun hfail => ?_)
  · rw [record_nil]
    rwa [if_pos (by rw [show (a job.projectId).enqueue = .ok from hok]; rfl)] at h
  · rwa [if_pos (by rw [show (a job.projectId).enqueue = .lost from hlost]; rfl)] at h
  · rwa [if_neg (by rw [show Outcome.took (a job.projectId).enqueue = false from hfail]; decide)]
      at h

theorem runs_deploy (l : Loaded) (previous : Option DeploymentId) (f : Flow Push)
    (hproject : (w.db.findProject l.project.id).isSome = true)
    (h : Runs cfg a (deploy cfg opts (a l.project.id) l previous w) (loop cfg.encryption opts rest)
      w' f) :
    Runs cfg a w (match jobEnvVars cfg.encryption l with
      | none => loop cfg.encryption opts rest
      | some envVars => .next (.findSystemConfig opts l envVars previous rest)) w' f := by
  rw [deploy] at h
  cases henv : jobEnvVars cfg.encryption l with
  | none => rwa [henv] at h
  | some envVars =>
    simp only [henv] at h
    have hstep : (Push.findSystemConfig opts l envVars previous rest).step cfg w
        (answer a (.findSystemConfig opts l envVars previous rest)) =
          if (a l.project.id).config = .ok then
            .pure (.next (.insert opts l envVars previous
              (ProjectsService.regionOf (w.db.systemConfigOf l.project.userId)) rest))
          else .pure (loop cfg.encryption opts rest) := rfl
    refine .step ?_
    rw [hstep]
    by_cases hconfig : (a l.project.id).config = .ok
    · simp only [hconfig, true_and] at h
      rw [if_pos hconfig]
      simp only [Turn.pure, World.exec, record_nil]
      refine runs_issue rfl rfl (by simpa [World.admits, row] using hproject) (fun hok => ?_)
        (fun hlost => ?_) (fun hfail => ?_)
      · have hok : (a l.project.id).insert = .ok := hok
        simp only [hok, Outcome.took, true_and] at h
        rw [record_nil]
        exact runs_enqueue h
      · have hlost : (a l.project.id).insert = .lost := hlost
        simpa [hlost, Outcome.took] using h
      · have hfail : Outcome.took (a l.project.id).insert = false := hfail
        simpa [hfail] using h
    · rw [if_neg hconfig]
      simp only [Turn.pure, World.exec, record_nil]
      rwa [if_neg (fun hand => hconfig hand.1)] at h

theorem runs_trigger (f : Flow Push)
    (hproject : (w.db.findProject c.loaded.project.id).isSome = true)
    (hrow : ∀ id ∈ c.target.2, (w.db.findDeployment id).isSome = true)
    (h : Runs cfg a (trigger cfg opts (a c.loaded.project.id) c w) (loop cfg.encryption opts rest)
      w' f) :
    Runs cfg a w (loop cfg.encryption opts (c :: rest)) w' f := by
  rw [trigger] at h
  rw [loop]
  by_cases hauto : c.loaded.project.autoDeploy = true
  · rw [if_pos hauto] at h ⊢
    cases hcurrent : c.current with
    | none =>
      have htarget : c.target.2 = none := by rw [Candidate.target, hcurrent]; rfl
      have hprevious : c.previous = none := by rw [Candidate.previous, hcurrent]; rfl
      rw [htarget, hprevious] at h
      exact runs_deploy _ _ _ hproject h
    | some current =>
      obtain ⟨id, status⟩ := current
      by_cases hprogress : status.inProgress = true
      · have htarget : c.target.2 = some id := by
          rw [Candidate.target, hcurrent]
          exact if_pos hprogress
        have hadmits := hrow id (htarget ▸ rfl)
        rw [htarget] at h
        simp only at h
        simp only [if_pos hprogress]
        refine runs_issue rfl rfl rfl (fun hok => ?_) (fun hlost => ?_) (fun hfail => ?_)
        · have hok : (a c.loaded.project.id).publish = .ok := hok
          have htook : Outcome.took .ok = true := rfl
          simp only [hok, htook, if_true, true_and] at h
          rw [record_nil]
          refine runs_issue rfl rfl hadmits (fun hok' => ?_) (fun hlost' => ?_) (fun hfail' => ?_)
          · have hok' : (a c.loaded.project.id).mark = .ok := hok'
            simp only [hok', htook, if_true] at h
            exact runs_deploy _ _ _ hproject h
          · have hlost' : (a c.loaded.project.id).mark = .lost := hlost'
            simpa [hlost', Outcome.took] using h
          · have hfail' : Outcome.took (a c.loaded.project.id).mark = false := hfail'
            simpa [hfail'] using h
        · have hlost : (a c.loaded.project.id).publish = .lost := hlost
          simpa [hlost, Outcome.took] using h
        · have hfail : Outcome.took (a c.loaded.project.id).publish = false := hfail
          simpa [hfail] using h
      · have htarget : c.target.2 = none := by
          rw [Candidate.target, hcurrent]
          exact if_neg hprogress
        have hprevious : c.previous = if status = .ready then some id else none := by
          rw [Candidate.previous, hcurrent]
          rfl
        rw [htarget, hprevious] at h
        simp only [if_neg hprogress]
        exact runs_deploy _ _ _ hproject h
  · rw [if_neg hauto] at h ⊢
    exact h

def handle (cfg : Config) (a : ProjectId → Outcomes) (opts : TriggerOptions) (cs : List Candidate)
    (w : World) : World :=
  cs.foldl (fun w c => trigger cfg opts (a c.loaded.project.id) c w) w

theorem Runs.unique {f g : Flow Push} {w₁ w₂ : World} (h₁ : Runs cfg a w f w₁ g) (hg : g = .done)
    (h₂ : Runs cfg a w f w₂ .done) : w₁ = w₂ := by
  induction h₁ with
  | refl w f =>
    subst hg
    cases h₂
    rfl
  | step _ ih =>
    cases h₂ with
    | step h₂ => exact ih hg h₂

/-! ## What stays as it was -/

/-- A store at a later point of a push. -/
structure Extends (w₀ w : World) : Prop where
  projects : w.db.projects = w₀.db.projects
  configs : w.db.systemConfigs = w₀.db.systemConfigs
  now : w.now = w₀.now
  nextId_le : w₀.db.nextId ≤ w.db.nextId
  rows : ∀ d₀ ∈ w₀.db.deployments, ∃ d ∈ w.db.deployments, d.id = d₀.id
  old : ∀ d ∈ w.db.deployments, d.id < w₀.db.nextId →
    ∃ d₀ ∈ w₀.db.deployments, d₀.id = d.id ∧ d₀.projectId = d.projectId

def Aims (w₀ : World) (c : Candidate) : Prop :=
  ∀ id ∈ c.target.2, ∃ d₀ ∈ w₀.db.deployments, d₀.id = id ∧ d₀.projectId = c.loaded.project.id

/-- One effect of the trigger of a project. -/
inductive Effect (cfg : Config) (opts : TriggerOptions) (c : Candidate) : World → World → Prop
  | publish (w : World) (id : DeploymentId) : c.target.2 = some id →
    Effect cfg opts c w (w.exec cfg (.publishCancelSignal id))
  | mark (w : World) (id : DeploymentId) : c.target.2 = some id →
    Effect cfg opts c w (w.exec cfg (.writeStatus id .webhookCancel))
  | acknowledge (w : World) (id : DeploymentId) : Effect cfg opts c w (w.record [.acknowledged id])
  | insert (w : World) (region : String) :
    Effect cfg opts c w (w.exec cfg (.createDeployment (row w opts c.loaded region)))
  | enqueue (w : World) (job : BuildJob) : job.projectId = c.loaded.project.id →
    Effect cfg opts c w (w.exec cfg (.addBuildJob job))

theorem effects_deploy (o : Outcomes) (previous : Option DeploymentId) (w : World) :
    Relation.ReflTransGen (Effect cfg opts c) w (deploy cfg opts o c.loaded previous w) := by
  rw [deploy]
  split
  · exact .refl
  · split
    · split
      · exact (Relation.ReflTransGen.single (.insert _ _)).tail (.enqueue _ _ rfl)
      · exact .single (.insert _ _)
    · exact .refl

theorem effects_trigger (cfg : Config) (opts : TriggerOptions) (o : Outcomes) (c : Candidate)
    (w : World) :
    Relation.ReflTransGen (Effect cfg opts c) w (trigger cfg opts o c w) := by
  rw [trigger]
  split
  · split
    · exact effects_deploy o _ w
    · rename_i id htarget
      split
      · have hpublish : Relation.ReflTransGen (Effect cfg opts c) w
            (w.exec cfg (.publishCancelSignal id)) := .single (.publish w id htarget)
        split
        · have hmark := hpublish.tail (.mark _ id htarget)
          split
          · exact (hmark.tail (.acknowledge _ id)).trans (effects_deploy o none _)
          · exact hmark
        · exact hpublish
      · exact .refl
  · exact .refl

variable {w₀ : World}

theorem extends_refl (w : World) : Extends w w :=
  ⟨rfl, rfl, rfl, Nat.le_refl _, fun d hd => ⟨d, hd, rfl⟩, fun d hd _ => ⟨d, hd, rfl, rfl⟩⟩

theorem extends_effect (hw : Extends w₀ w) (h : Effect cfg opts c w w') : Extends w₀ w' := by
  cases h with
  | publish id _ => exact ⟨hw.projects, hw.configs, hw.now, hw.nextId_le, hw.rows, hw.old⟩
  | acknowledge id => exact ⟨hw.projects, hw.configs, hw.now, hw.nextId_le, hw.rows, hw.old⟩
  | enqueue job _ => exact ⟨hw.projects, hw.configs, hw.now, hw.nextId_le, hw.rows, hw.old⟩
  | mark id _ =>
    have hkeeps : ∀ d : Deployment,
        (if d.id = id then StatusWrite.webhookCancel.apply w.now d else d).id = d.id ∧
        (if d.id = id then StatusWrite.webhookCancel.apply w.now d else d).projectId =
          d.projectId := by
      intro d
      split <;> exact ⟨rfl, rfl⟩
    refine ⟨hw.projects, hw.configs, hw.now, hw.nextId_le, fun d₀ hd₀ => ?_, fun d hd hlt => ?_⟩
    · obtain ⟨d, hd, hid⟩ := hw.rows d₀ hd₀
      exact ⟨_, List.mem_map_of_mem hd, (hkeeps d).1.trans hid⟩
    · obtain ⟨d', hd', rfl⟩ := List.mem_map.mp hd
      rw [(hkeeps d').1] at hlt ⊢
      rw [(hkeeps d').2]
      exact hw.old d' hd' hlt
  | insert region =>
    refine ⟨hw.projects, hw.configs, hw.now, Nat.le_succ_of_le hw.nextId_le, fun d₀ hd₀ => ?_,
      fun d hd hlt => ?_⟩
    · obtain ⟨d, hd, hid⟩ := hw.rows d₀ hd₀
      exact ⟨d, List.mem_append_left _ hd, hid⟩
    · rcases List.mem_append.mp hd with hd | hd
      · exact hw.old d hd hlt
      · rw [List.mem_singleton.mp hd] at hlt
        exact absurd hlt (Nat.not_lt.mpr hw.nextId_le)

theorem extends_trigger (o : Outcomes) (hw : Extends w₀ w) :
    Extends w₀ (trigger cfg opts o c w) := by
  have heffects := effects_trigger cfg opts o c w
  generalize trigger cfg opts o c w = w' at heffects ⊢
  induction heffects with
  | refl => exact hw
  | tail _ h ih => exact extends_effect ih h

theorem runs_handle (cs : List Candidate) (hw : Extends w₀ w)
    (hproject : ∀ c ∈ cs, (w₀.db.findProject c.loaded.project.id).isSome = true)
    (haims : ∀ c ∈ cs, Aims w₀ c) :
    Runs cfg a w (loop cfg.encryption opts cs) (handle cfg a opts cs w) .done := by
  induction cs generalizing w with
  | nil => exact .refl _ _
  | cons c cs ih =>
    refine runs_trigger _ ?_ (fun id hid => ?_) ?_
    · have hfound := hproject c List.mem_cons_self
      rw [Database.findProject] at hfound ⊢
      rw [hw.projects]
      exact hfound
    · obtain ⟨d₀, hd₀, hid₀, _⟩ := haims c List.mem_cons_self id hid
      obtain ⟨d, hd, heq⟩ := hw.rows d₀ hd₀
      rw [Database.findDeployment, List.find?_isSome]
      exact ⟨d, hd, beq_iff_eq.mpr (heq.trans hid₀)⟩
    · exact ih (extends_trigger _ hw) (fun c' hc' => hproject c' (List.mem_cons_of_mem c hc'))
        fun c' hc' => haims c' (List.mem_cons_of_mem c hc')

/-! ## What one project is left with -/

/-- What there is of a project: its rows, its waiting jobs, and the cancel signals sent to its
deployments with their keys. -/
structure Seen where
  rows : List Deployment
  jobs : List BuildJob
  signals : List Entry
  keys : DeploymentId → Option Nat

def renamed (n : Nat) (d : Deployment) : Deployment := if d.id < n then d else { d with id := n }

def renamedJob (n : Nat) (job : BuildJob) : BuildJob :=
  if job.deploymentId < n then job else { job with deploymentId := n }

def belongs (w₀ : World) (p : ProjectId) (id : DeploymentId) : Bool :=
  w₀.db.deployments.any fun d => d.id == id && d.projectId == p

def signalOf (w₀ : World) (p : ProjectId) : Entry → Bool
  | .published id _ => belongs w₀ p id
  | _ => false

def own (w₀ : World) (p : ProjectId) (w : World) : Seen :=
  { rows := w.db.deploymentsOf p
    jobs := w.redis.buildQueue.filter fun job => job.projectId == p
    signals := w.log.filter (signalOf w₀ p)
    keys := fun id => if belongs w₀ p id then w.redis.cancelKeys id else none }

/-- The ids of new rows do not matter. -/
def Seen.rename (n : Nat) (v : Seen) : Seen :=
  { v with rows := v.rows.map (renamed n), jobs := v.jobs.map (renamedJob n) }

def seen (w₀ : World) (p : ProjectId) (w : World) : Seen := (own w₀ p w).rename w₀.db.nextId

namespace Seen

variable (cfg : Config) (opts : TriggerOptions) (w₀ : World)

def deploy (o : Outcomes) (l : Loaded) (previous : Option DeploymentId) (v : Seen) : Seen :=
  match jobEnvVars cfg.encryption l with
  | none => v
  | some envVars =>
    if o.config = .ok ∧ Outcome.took o.insert then
      let v' := { v with
        rows := v.rows ++ [row w₀ opts l
          (ProjectsService.regionOf (w₀.db.systemConfigOf l.project.userId))] }
      if o.insert = .ok ∧ Outcome.took o.enqueue then
        { v' with jobs := v'.jobs ++ [job opts l envVars previous w₀.db.nextId] }
      else v'
    else v

def trigger (o : Outcomes) (c : Candidate) (v : Seen) : Seen :=
  if c.loaded.project.autoDeploy then
    match c.target.2 with
    | none => v.deploy cfg opts w₀ o c.loaded c.previous
    | some id =>
      if Outcome.took o.publish then
        let v := { v with
          signals := v.signals ++ [.published id w₀.now]
          keys := fun d => if d = id then some (w₀.now + 300 * 1000) else v.keys d }
        if o.publish = .ok ∧ Outcome.took o.mark then
          let v := { v with
            rows := v.rows.map fun d =>
              if d.id = id then StatusWrite.webhookCancel.apply w₀.now d else d }
          if o.mark = .ok then v.deploy cfg opts w₀ o c.loaded none else v
        else v
      else v
  else v

end Seen

theorem belongs_iff {p : ProjectId} {id : DeploymentId} :
    belongs w₀ p id = true ↔ ∃ d ∈ w₀.db.deployments, d.id = id ∧ d.projectId = p := by
  simp [belongs]

theorem deploymentsOf_map {p : ProjectId} {f : Deployment → Deployment} {db : Database}
    {id : DeploymentId} (hf : ∀ d, (f d).projectId = d.projectId) :
    (db.updateDeployment id f).deploymentsOf p =
      (db.deploymentsOf p).map fun d => if d.id = id then f d else d := by
  rw [Database.deploymentsOf, Database.deploymentsOf, Database.updateDeployment, List.filter_map]
  congr 1
  refine List.filter_congr fun d _ => ?_
  simp only [Function.comp]
  split
  · rw [hf]
  · rfl

/-- What there is of a project is not touched by the triggers of others. -/
theorem own_effect {p : ProjectId} (hs : Stored w₀) (hw : Extends w₀ w) (haims : Aims w₀ c)
    (hne : c.loaded.project.id ≠ p) (h : Effect cfg opts c w w') :
    own w₀ p w' = own w₀ p w := by
  have htarget : ∀ id, c.target.2 = some id → ∀ d ∈ w₀.db.deployments, d.id = id →
      d.projectId ≠ p := by
    intro id hid d hd heq hp
    obtain ⟨d', hd', heq', hp'⟩ := haims id hid
    have hsame : d = d' :=
      List.inj_on_of_nodup_map hs.deployments hd hd' (heq.trans heq'.symm)
    exact hne (hp'.symm.trans (hsame ▸ hp))
  cases h with
  | publish id hid =>
    have hother : belongs w₀ p id = false := by
      rw [← Bool.not_eq_true, belongs_iff]
      rintro ⟨d, hd, heq, hp⟩
      exact htarget id hid d hd heq hp
    have hlog : (w.log ++ [Entry.published id w.now]).filter (signalOf w₀ p) =
        w.log.filter (signalOf w₀ p) := by
      rw [List.filter_append, List.filter_cons_of_neg (by rw [signalOf, hother]; decide),
        List.filter_nil, List.append_nil]
    have hkeys : (own w₀ p (w.exec cfg (.publishCancelSignal id))).keys = (own w₀ p w).keys := by
      funext d
      simp only [own, World.exec, Redis.publishCancelSignal]
      by_cases hd : d = id
      · simp [hd, hother]
      · simp [hd]
    exact Seen.mk.injEq .. |>.mpr ⟨rfl, rfl, hlog, hkeys⟩
  | acknowledge id =>
    have hlog : (w.log ++ [Entry.acknowledged id]).filter (signalOf w₀ p) =
        w.log.filter (signalOf w₀ p) := by
      rw [List.filter_append]
      exact List.append_nil _
    exact Seen.mk.injEq .. |>.mpr ⟨rfl, rfl, hlog, rfl⟩
  | mark id hid =>
    have hrows : (w.exec cfg (.writeStatus id .webhookCancel)).db.deploymentsOf p =
        w.db.deploymentsOf p := by
      refine (deploymentsOf_map fun d => StatusWrite.apply_projectId _ _ _).trans ?_
      conv_rhs => rw [← List.map_id (w.db.deploymentsOf p)]
      refine List.map_congr_left fun d hd => if_neg fun heq => ?_
      obtain ⟨hd, hp⟩ := List.mem_filter.mp hd
      obtain ⟨d', hd', hid', _⟩ := haims id hid
      have hlt : d.id < w₀.db.nextId := by
        rw [heq, ← hid']
        exact hs.deployment_lt d' hd'
      obtain ⟨d₀, hd₀, hid₀, hp₀⟩ := hw.old d hd hlt
      exact htarget id hid d₀ hd₀ (hid₀.trans heq) (hp₀.trans (beq_iff_eq.mp hp))
    rw [own, hrows]
    rfl
  | insert region =>
    have hrows : (w.exec cfg (.createDeployment (row w opts c.loaded region))).db.deploymentsOf p =
        w.db.deploymentsOf p := by
      refine List.filter_append _ _ |>.trans ?_
      rw [List.filter_cons_of_neg (by rw [beq_iff_eq]; exact hne), List.filter_nil,
        List.append_nil]
      rfl
    rw [own, hrows]
    rfl
  | enqueue job hjob =>
    have hjobs : ((w.exec cfg (.addBuildJob job)).redis.buildQueue.filter
        fun job => job.projectId == p) =
          w.redis.buildQueue.filter fun job => job.projectId == p := by
      refine List.filter_append _ _ |>.trans ?_
      rw [List.filter_cons_of_neg (by rw [beq_iff_eq, hjob]; exact hne), List.filter_nil,
        List.append_nil]
    rw [own, hjobs]
    rfl

theorem seen_insert {l : Loaded} (hw : Extends w₀ w) :
    seen w₀ l.project.id (w.exec cfg (.createDeployment (row w opts l
      (ProjectsService.regionOf (w.db.systemConfigOf l.project.userId))))) =
      { seen w₀ l.project.id w with
        rows := (seen w₀ l.project.id w).rows ++ [row w₀ opts l
          (ProjectsService.regionOf (w₀.db.systemConfigOf l.project.userId))] } := by
  have hconfig : w.db.systemConfigOf l.project.userId = w₀.db.systemConfigOf l.project.userId := by
    rw [Database.systemConfigOf, hw.configs, Database.systemConfigOf]
  have hrow : renamed w₀.db.nextId (row w opts l
      (ProjectsService.regionOf (w.db.systemConfigOf l.project.userId))) = row w₀ opts l
        (ProjectsService.regionOf (w₀.db.systemConfigOf l.project.userId)) := by
    have hnew : ¬w.db.nextId < w₀.db.nextId := Nat.not_lt.mpr hw.nextId_le
    simp only [renamed, row, if_neg hnew, hconfig, hw.now]
  have hrows : (w.exec cfg (.createDeployment (row w opts l
      (ProjectsService.regionOf (w.db.systemConfigOf l.project.userId))))).db.deploymentsOf
        l.project.id = w.db.deploymentsOf l.project.id ++ [row w opts l
          (ProjectsService.regionOf (w.db.systemConfigOf l.project.userId))] := by
    refine List.filter_append _ _ |>.trans ?_
    exact congrArg _ (List.filter_cons_of_pos (by exact beq_self_eq_true l.project.id))
  simp only [seen, Seen.rename, own]
  rw [hrows, List.map_append, List.map_singleton, hrow]
  rfl

theorem seen_enqueue {l : Loaded} {envVars : EnvMap} {previous : Option DeploymentId} {id : Nat}
    (hid : w₀.db.nextId ≤ id) :
    seen w₀ l.project.id (w.exec cfg (.addBuildJob (job opts l envVars previous id))) =
      { seen w₀ l.project.id w with
        jobs := (seen w₀ l.project.id w).jobs ++
          [job opts l envVars previous w₀.db.nextId] } := by
  have hjob : renamedJob w₀.db.nextId (job opts l envVars previous id) =
      job opts l envVars previous w₀.db.nextId := by
    have hnew : ¬id < w₀.db.nextId := Nat.not_lt.mpr hid
    simp only [renamedJob, job]
    exact if_neg hnew
  have hjobs : ((w.exec cfg (.addBuildJob (job opts l envVars previous id))).redis.buildQueue.filter
      fun job => job.projectId == l.project.id) =
        (w.redis.buildQueue.filter fun job => job.projectId == l.project.id) ++
          [job opts l envVars previous id] := by
    refine List.filter_append _ _ |>.trans ?_
    exact congrArg _ (List.filter_cons_of_pos (by exact beq_self_eq_true l.project.id))
  simp only [seen, Seen.rename, own]
  rw [hjobs, List.map_append, List.map_singleton, hjob]
  rfl

theorem seen_deploy {o : Outcomes} {l : Loaded} {previous : Option DeploymentId}
    (hw : Extends w₀ w) : seen w₀ l.project.id (deploy cfg opts o l previous w) =
      (seen w₀ l.project.id w).deploy cfg opts w₀ o l previous := by
  rw [deploy, Seen.deploy]
  cases jobEnvVars cfg.encryption l with
  | none => rfl
  | some envVars =>
    simp only
    split
    · split
      · rw [seen_enqueue hw.nextId_le, seen_insert hw]
      · exact seen_insert hw
    · rfl

/-- Triggering a project does the same to what is seen of it at any point of a push. -/
theorem seen_trigger {o : Outcomes} (hs : Stored w₀) (hw : Extends w₀ w) (haims : Aims w₀ c) :
    seen w₀ c.loaded.project.id (trigger cfg opts o c w) =
      (seen w₀ c.loaded.project.id w).trigger cfg opts w₀ o c := by
  rw [trigger, Seen.trigger]
  split
  · cases htarget : c.target.2 with
    | none => exact seen_deploy hw
    | some id =>
      simp only
      obtain ⟨d₀, hd₀, hid₀, hp₀⟩ := haims id htarget
      have hmine : belongs w₀ c.loaded.project.id id = true :=
        belongs_iff.mpr ⟨d₀, hd₀, hid₀, hp₀⟩
      have hlt : id < w₀.db.nextId := hid₀ ▸ hs.deployment_lt d₀ hd₀
      have hpublish : seen w₀ c.loaded.project.id (w.exec cfg (.publishCancelSignal id)) =
          { seen w₀ c.loaded.project.id w with
            signals := (seen w₀ c.loaded.project.id w).signals ++ [.published id w₀.now]
            keys := fun d => if d = id then some (w₀.now + 300 * 1000)
              else (seen w₀ c.loaded.project.id w).keys d } := by
        have hlog : (w.log ++ [Entry.published id w.now]).filter
            (signalOf w₀ c.loaded.project.id) =
              w.log.filter (signalOf w₀ c.loaded.project.id) ++ [.published id w₀.now] := by
          rw [List.filter_append, List.filter_cons_of_pos (by rw [signalOf, hmine]),
            List.filter_nil, hw.now]
        refine Seen.mk.injEq .. |>.mpr ⟨rfl, rfl, hlog, ?_⟩
        funext d
        simp only [seen, Seen.rename, own, World.exec, Redis.publishCancelSignal, hw.now]
        by_cases hd : d = id
        · simp [hd, hmine]
        · simp [hd]
      have hmark : ∀ v : World, v.now = w₀.now →
          seen w₀ c.loaded.project.id (v.exec cfg (.writeStatus id .webhookCancel)) =
            { seen w₀ c.loaded.project.id v with
              rows := (seen w₀ c.loaded.project.id v).rows.map fun d =>
                if d.id = id then StatusWrite.webhookCancel.apply w₀.now d else d } := by
        intro v hv
        have hrows : ((v.exec cfg (.writeStatus id .webhookCancel)).db.deploymentsOf
            c.loaded.project.id).map (renamed w₀.db.nextId) =
              ((v.db.deploymentsOf c.loaded.project.id).map (renamed w₀.db.nextId)).map fun d =>
                if d.id = id then StatusWrite.webhookCancel.apply w₀.now d else d := by
          refine (congrArg _ (deploymentsOf_map fun d =>
            StatusWrite.apply_projectId _ _ _)).trans ?_
          rw [List.map_map, List.map_map]
          refine List.map_congr_left fun d _ => ?_
          simp only [Function.comp, renamed, hv]
          by_cases hd : d.id = id
          · have hd' : d.id < w₀.db.nextId := hd ▸ hlt
            simp [hd, hlt, StatusWrite.apply]
          · by_cases hold : d.id < w₀.db.nextId
            · simp [hd, hold]
            · have hne : w₀.db.nextId ≠ id := Nat.ne_of_gt hlt
              simp [hd, hold, hne]
        exact Seen.mk.injEq .. |>.mpr ⟨hrows, rfl, rfl, rfl⟩
      have hextends : Extends w₀ (w.exec cfg (.publishCancelSignal id)) :=
        extends_effect hw (show Effect cfg opts c w _ from .publish w id htarget)
      split
      · split
        · split
          · have hmark' : Extends w₀ ((w.exec cfg (.publishCancelSignal id)).exec cfg
                (.writeStatus id .webhookCancel)) :=
              extends_effect hextends (show Effect cfg opts c _ _ from .mark _ id htarget)
            have hmarked : Extends w₀ (((w.exec cfg (.publishCancelSignal id)).exec cfg
                (.writeStatus id .webhookCancel)).record [.acknowledged id]) :=
              extends_effect hmark' (show Effect cfg opts c _ _ from .acknowledge _ id)
            have hrecord : ∀ v : World, seen w₀ c.loaded.project.id (v.record [.acknowledged id]) =
                seen w₀ c.loaded.project.id v := by
              intro v
              have hlog : (v.log ++ [Entry.acknowledged id]).filter
                  (signalOf w₀ c.loaded.project.id) =
                    v.log.filter (signalOf w₀ c.loaded.project.id) := by
                rw [List.filter_append]
                exact List.append_nil _
              exact Seen.mk.injEq .. |>.mpr ⟨rfl, rfl, hlog, rfl⟩
            rw [seen_deploy hmarked, hrecord, hmark _ hextends.now, hpublish]
          · rw [hmark _ hextends.now, hpublish]
        · exact hpublish
      · rfl
  · rfl

theorem own_trigger_of_ne {o : Outcomes} {p : ProjectId} (hs : Stored w₀) (hw : Extends w₀ w)
    (haims : Aims w₀ c) (hne : c.loaded.project.id ≠ p) :
    own w₀ p (trigger cfg opts o c w) = own w₀ p w := by
  have heffects := effects_trigger cfg opts o c w
  have hboth : ∀ w', Relation.ReflTransGen (Effect cfg opts c) w w' →
      Extends w₀ w' ∧ own w₀ p w' = own w₀ p w := by
    intro w' h
    induction h with
    | refl => exact ⟨hw, rfl⟩
    | tail _ h ih => exact ⟨extends_effect ih.1 h, (own_effect hs ih.1 haims hne h).trans ih.2⟩
  exact (hboth _ heffects).2

theorem own_handle_of_not_mem {cs : List Candidate} {p : ProjectId} (hs : Stored w₀)
    (hw : Extends w₀ w) (haims : ∀ c ∈ cs, Aims w₀ c)
    (hnot : p ∉ cs.map fun c => c.loaded.project.id) :
    own w₀ p (handle cfg a opts cs w) = own w₀ p w := by
  induction cs generalizing w with
  | nil => rfl
  | cons c cs ih =>
    rw [List.map_cons, List.mem_cons, not_or] at hnot
    refine (ih (extends_trigger _ hw) (fun d hd => haims d (List.mem_cons_of_mem c hd))
      hnot.2).trans ?_
    exact own_trigger_of_ne hs hw (haims c List.mem_cons_self) (Ne.symm hnot.1)

variable (cfg a opts)

/-- Of a project there is what its own trigger leaves, from a point of the push at which it was
still as it had been. -/
theorem own_handle {cs : List Candidate} (hs : Stored w₀) (hw : Extends w₀ w)
    (haims : ∀ c ∈ cs, Aims w₀ c) (hnodup : (cs.map fun c => c.loaded.project.id).Nodup)
    (hc : c ∈ cs) : ∃ v, Extends w₀ v ∧
      own w₀ c.loaded.project.id v = own w₀ c.loaded.project.id w ∧
      own w₀ c.loaded.project.id (handle cfg a opts cs w) =
        own w₀ c.loaded.project.id (trigger cfg opts (a c.loaded.project.id) c v) := by
  induction cs generalizing w with
  | nil => exact absurd hc List.not_mem_nil
  | cons c' cs ih =>
    rw [List.map_cons, List.nodup_cons] at hnodup
    have hrest : ∀ d ∈ cs, Aims w₀ d := fun d hd => haims d (List.mem_cons_of_mem c' hd)
    rcases List.mem_cons.mp hc with rfl | hc
    · exact ⟨w, hw, rfl, own_handle_of_not_mem hs (extends_trigger _ hw) hrest hnodup.1⟩
    · have hne : c'.loaded.project.id ≠ c.loaded.project.id := fun heq =>
        hnodup.1 (heq ▸ List.mem_map_of_mem hc)
      obtain ⟨v, hv, hown, hhandle⟩ := ih (extends_trigger _ hw) hrest hnodup.2 hc
      exact ⟨v, hv, hown.trans (own_trigger_of_ne hs hw (haims c' List.mem_cons_self) hne),
        hhandle⟩

/-- What a push leaves of a project does not depend on the other projects. -/
theorem seen_handle {cs : List Candidate} (hs : Stored w₀)
    (haims : ∀ c ∈ cs, Aims w₀ c) (hnodup : (cs.map fun c => c.loaded.project.id).Nodup)
    (hc : c ∈ cs) :
    seen w₀ c.loaded.project.id (handle cfg a opts cs w₀) =
      (seen w₀ c.loaded.project.id w₀).trigger cfg opts w₀ (a c.loaded.project.id) c := by
  obtain ⟨v, hv, hown, hhandle⟩ := own_handle cfg a opts hs
    (extends_refl w₀) haims hnodup hc
  have hseen : seen w₀ c.loaded.project.id v = seen w₀ c.loaded.project.id w₀ :=
    congrArg (Seen.rename w₀.db.nextId) hown
  rw [← hseen, ← seen_trigger hs hv (haims c hc)]
  exact congrArg (Seen.rename w₀.db.nextId) hhandle

variable {cfg a opts}

/-! ## All or nothing -/

namespace Seen

variable {v : Seen} {o : Outcomes}

theorem jobs_deploy {l : Loaded} {previous : Option DeploymentId}
    (h : jobEnvVars cfg.encryption l = none ∨ o.config ≠ .ok ∨ o.insert ≠ .ok ∨
      Outcome.took o.enqueue = false) :
    (v.deploy cfg opts w₀ o l previous).jobs = v.jobs := by
  rw [Seen.deploy]
  split
  · rfl
  · rename_i envVars henv
    split
    · rename_i hinsert
      split
      · rename_i henqueue
        rcases h with h | h | h | h
        · rw [h] at henv
          cases henv
        · exact absurd hinsert.1 h
        · exact absurd henqueue.1 h
        · rw [henqueue.2] at h
          cases h
      · rfl
    · rfl

theorem jobs_trigger (h : ¬Queues cfg o c) : (v.trigger cfg opts w₀ o c).jobs = v.jobs := by
  have hdeploy : c.loaded.project.autoDeploy = true →
      (c.target.2 ≠ none → o.publish = .ok ∧ o.mark = .ok) →
      jobEnvVars cfg.encryption c.loaded = none ∨ o.config ≠ .ok ∨ o.insert ≠ .ok ∨
        Outcome.took o.enqueue = false := by
    intro hauto htarget
    by_contra hnot
    simp only [not_or, not_not, Bool.not_eq_false] at hnot
    exact h ⟨⟨hauto, htarget, hnot.1, hnot.2.1⟩, hnot.2.2⟩
  rw [Seen.trigger]
  split
  · rename_i hauto
    split
    · rename_i htarget
      exact jobs_deploy (hdeploy hauto fun hsome => absurd htarget hsome)
    · split
      · split
        · rename_i hpublish
          simp only
          split
          · rename_i hmark
            exact jobs_deploy (hdeploy hauto fun _ => ⟨hpublish.1, hmark⟩)
          · rfl
        · rfl
      · rfl
  · rfl

theorem signals_deploy {l : Loaded} {previous : Option DeploymentId} :
    (v.deploy cfg opts w₀ o l previous).signals = v.signals := by
  rw [Seen.deploy]
  split
  · rfl
  · simp only
    split
    · split <;> rfl
    · rfl

theorem signals_trigger {id : DeploymentId} (h : Signals o c) (hid : c.target.2 = some id) :
    (v.trigger cfg opts w₀ o c).signals = v.signals ++ [.published id w₀.now] := by
  obtain ⟨hauto, _, htook⟩ := h
  rw [Seen.trigger, if_pos hauto, hid]
  simp only [if_pos htook]
  split
  · split
    · exact signals_deploy
    · rfl
  · rfl

theorem signals_trigger_of_none (h : c.target.2 = none) :
    (v.trigger cfg opts w₀ o c).signals = v.signals := by
  rw [Seen.trigger]
  split
  · rw [h]
    exact signals_deploy
  · rfl

theorem length_rows_deploy {l : Loaded} {previous : Option DeploymentId}
    (henv : jobEnvVars cfg.encryption l ≠ none) (hconfig : o.config = .ok)
    (hinsert : Outcome.took o.insert = true) :
    (v.deploy cfg opts w₀ o l previous).rows.length = v.rows.length + 1 := by
  rw [Seen.deploy]
  split
  · rename_i hnone
    exact absurd hnone henv
  · rw [if_pos ⟨hconfig, hinsert⟩]
    simp only
    split <;> simp

theorem length_rows_trigger (h : Inserts cfg o c) :
    (v.trigger cfg opts w₀ o c).rows.length = v.rows.length + 1 := by
  obtain ⟨⟨hauto, hcancel, henv, hconfig⟩, hinsert⟩ := h
  rw [Seen.trigger, if_pos hauto]
  cases htarget : c.target.2 with
  | none => exact length_rows_deploy henv hconfig hinsert
  | some id =>
    obtain ⟨hpublish, hmark⟩ := hcancel (by rw [htarget]; exact Option.some_ne_none id)
    simp only [hpublish, hmark]
    refine (length_rows_deploy henv hconfig hinsert).trans ?_
    rw [List.length_map]

theorem rows_deploy {l : Loaded} {previous : Option DeploymentId} {d : Deployment}
    (hd : d ∈ v.rows) : d ∈ (v.deploy cfg opts w₀ o l previous).rows := by
  rw [Seen.deploy]
  split
  · exact hd
  · simp only
    split
    · split <;> exact List.mem_append_left _ hd
    · exact hd

variable (opts) in
theorem canceled_trigger {id : DeploymentId} {d : Deployment} (h : Queues cfg o c)
    (hid : c.target.2 = some id) (hd : d ∈ v.rows) (heq : d.id = id) :
    ∃ d' ∈ (v.trigger cfg opts w₀ o c).rows, d'.id = id ∧ d'.status = .canceled := by
  obtain ⟨⟨hauto, hcancel, _⟩, _⟩ := h
  obtain ⟨hpublish, hmark⟩ := hcancel (by rw [hid]; exact Option.some_ne_none id)
  rw [Seen.trigger, if_pos hauto, hid]
  simp only [hpublish, hmark]
  refine ⟨_, rows_deploy (List.mem_map_of_mem hd), ?_⟩
  rw [if_pos heq]
  exact ⟨heq, rfl⟩

end Seen

theorem queued_deploy {o : Outcomes} {l : Loaded} {previous : Option DeploymentId}
    (henv : jobEnvVars cfg.encryption l ≠ none) (hconfig : o.config = .ok)
    (hinsert : o.insert = .ok)
    (henqueue : Outcome.took o.enqueue = true) :
    ∃ d ∈ (deploy cfg opts o l previous w).db.deploymentsOf l.project.id, d.id = w.db.nextId ∧
      d.status = .queued ∧ ∃ job ∈ (deploy cfg opts o l previous w).redis.buildQueue,
        job.projectId = l.project.id ∧ job.deploymentId = d.id := by
  obtain ⟨envVars, henv⟩ := Option.ne_none_iff_exists'.mp henv
  rw [deploy, henv]
  have htook : Outcome.took o.insert = true := by
    rw [hinsert]
    rfl
  simp only [if_pos (And.intro hconfig htook), if_pos (And.intro hinsert henqueue)]
  refine ⟨row w opts l (ProjectsService.regionOf (w.db.systemConfigOf l.project.userId)), ?_, rfl,
    rfl, job opts l envVars previous w.db.nextId, List.mem_append_right _ List.mem_cons_self, rfl,
    rfl⟩
  exact List.mem_filter.mpr
    ⟨List.mem_append_right _ List.mem_cons_self, by exact beq_self_eq_true l.project.id⟩

variable (opts) in
theorem queued_trigger {o : Outcomes} (h : Queues cfg o c) :
    ∃ d ∈ (trigger cfg opts o c w).db.deploymentsOf c.loaded.project.id, d.id = w.db.nextId ∧
      d.status = .queued ∧ ∃ job ∈ (trigger cfg opts o c w).redis.buildQueue,
        job.projectId = c.loaded.project.id ∧ job.deploymentId = d.id := by
  obtain ⟨⟨hauto, hcancel, henv, hconfig⟩, hinsert, henqueue⟩ := h
  rw [trigger, if_pos hauto]
  cases htarget : c.target.2 with
  | none => exact queued_deploy henv hconfig hinsert henqueue
  | some id =>
    obtain ⟨hpublish, hmark⟩ := hcancel (by rw [htarget]; exact Option.some_ne_none id)
    simp only [hpublish, hmark]
    exact queued_deploy henv hconfig hinsert henqueue

theorem trigger_eq {o : Outcomes} (hsignals : ¬Signals o c) (hinserts : ¬Inserts cfg o c) :
    trigger cfg opts o c w = w := by
  rw [trigger]
  split
  · rename_i hauto
    split
    · rename_i htarget
      rw [deploy]
      split
      · rfl
      · rename_i envVars henv
        refine if_neg fun hinsert => hinserts ⟨⟨hauto, fun hsome => absurd htarget hsome, ?_,
          hinsert.1⟩, hinsert.2⟩
        rw [henv]
        exact Option.some_ne_none envVars
    · rename_i id htarget
      refine if_neg fun htook => hsignals ⟨hauto, ?_, htook⟩
      rw [htarget]
      exact Option.some_ne_none id
  · rfl

structure Seen.Deployed (w₀ : World) (p : ProjectId) (v : Seen) : Prop where
  queued : ∃ d ∈ v.rows, w₀.db.nextId ≤ d.id ∧ d.status = .queued ∧
    ∃ job ∈ v.jobs, job.deploymentId = d.id
  canceled : ∀ d₀ ∈ w₀.db.deploymentsOf p, d₀.status.inProgress = true →
    (∃ entries, v.signals = (own w₀ p w₀).signals ++ entries ∧
      .published d₀.id w₀.now ∈ entries) ∧
    ∃ d ∈ v.rows, d.id = d₀.id ∧ d.status = .canceled

def AllOrNothing (w₀ : World) (p : ProjectId) (w : World) : Prop :=
  (own w₀ p w).Deployed w₀ p ∨ own w₀ p w = own w₀ p w₀

variable {cs : List Candidate}

theorem deployed_handle (hs : Stored w₀) (haims : ∀ c ∈ cs, Aims w₀ c)
    (hnodup : (cs.map fun c => c.loaded.project.id).Nodup) (hc : c ∈ cs)
    (h : Queues cfg (a c.loaded.project.id) c) (halone : Alone w₀ c) :
    (own w₀ c.loaded.project.id (handle cfg a opts cs w₀)).Deployed w₀ c.loaded.project.id := by
  have hseen := seen_handle cfg a opts hs haims hnodup hc
  obtain ⟨v, hv, _, hhandle⟩ := own_handle cfg a opts hs
    (extends_refl w₀) haims hnodup hc
  refine ⟨?_, fun d₀ hd₀ hprogress => ⟨?_, ?_⟩⟩
  · rw [hhandle]
    obtain ⟨d, hd, hid, hstatus, job, hjob, hproject, hdeployment⟩ :=
      queued_trigger opts (w := v) h
    exact ⟨d, hd, hid ▸ hv.nextId_le, hstatus, job,
      List.mem_filter.mpr ⟨hjob, beq_iff_eq.mpr hproject⟩, hdeployment⟩
  · have hid := halone d₀ hd₀ hprogress
    have htarget : c.target.2 ≠ none := by
      rw [hid]
      exact Option.some_ne_none d₀.id
    have hsignals : Signals (a c.loaded.project.id) c :=
      ⟨h.1.1, htarget, by rw [(h.1.2.1 htarget).1]; rfl⟩
    exact ⟨_, (congrArg Seen.signals hseen).trans (Seen.signals_trigger hsignals hid),
      List.mem_cons_self⟩
  · have hlt : d₀.id < w₀.db.nextId := hs.deployment_lt d₀ (List.mem_of_mem_filter hd₀)
    have hrow : d₀ ∈ (seen w₀ c.loaded.project.id w₀).rows := by
      refine List.mem_map.mpr ⟨d₀, hd₀, ?_⟩
      rw [renamed, if_pos hlt]
    obtain ⟨d', hd', hid', hstatus⟩ :=
      Seen.canceled_trigger opts h (halone d₀ hd₀ hprogress) hrow rfl
    rw [← hseen] at hd'
    obtain ⟨d, hd, rfl⟩ := List.mem_map.mp hd'
    refine ⟨d, hd, ?_⟩
    rw [renamed] at hid' hstatus
    split at hid'
    · rename_i hold
      rw [if_pos hold] at hstatus
      exact ⟨hid', hstatus⟩
    · exact absurd hid' (Nat.ne_of_gt hlt)

theorem own_handle_eq (hs : Stored w₀) (haims : ∀ c ∈ cs, Aims w₀ c)
    (hnodup : (cs.map fun c => c.loaded.project.id).Nodup) (hc : c ∈ cs)
    (hsignals : ¬Signals (a c.loaded.project.id) c)
    (hinserts : ¬Inserts cfg (a c.loaded.project.id) c) :
    own w₀ c.loaded.project.id (handle cfg a opts cs w₀) = own w₀ c.loaded.project.id w₀ := by
  obtain ⟨v, _, hown, hhandle⟩ := own_handle cfg a opts hs
    (extends_refl w₀) haims hnodup hc
  rw [hhandle, trigger_eq hsignals hinserts, hown]

/-- A trigger that stops after its first effect leaves its project neither deployed nor as it
was. -/
theorem uninterrupted_of_allOrNothing (hs : Stored w₀) (haims : ∀ c ∈ cs, Aims w₀ c)
    (hnodup : (cs.map fun c => c.loaded.project.id).Nodup) (hc : c ∈ cs)
    (h : AllOrNothing w₀ c.loaded.project.id (handle cfg a opts cs w₀)) :
    Uninterrupted cfg (a c.loaded.project.id) w₀ c := by
  have hseen := seen_handle cfg a opts hs haims hnodup hc
  rcases h with hdeployed | hsame
  · have hqueues : Queues cfg (a c.loaded.project.id) c := by
      by_contra hqueues
      obtain ⟨d, _, hge, _, job, hjob, heq⟩ := hdeployed.queued
      have hjobs : (seen w₀ c.loaded.project.id (handle cfg a opts cs w₀)).jobs =
          (seen w₀ c.loaded.project.id w₀).jobs := by rw [hseen, Seen.jobs_trigger hqueues]
      have hmem : renamedJob w₀.db.nextId job ∈ (seen w₀ c.loaded.project.id w₀).jobs :=
        hjobs ▸ List.mem_map_of_mem hjob
      obtain ⟨job', hjob', heq'⟩ := List.mem_map.mp hmem
      have hlt := hs.job_lt job' (List.mem_of_mem_filter hjob')
      have hid := congrArg BuildJob.deploymentId heq'
      rw [renamedJob, if_pos hlt, renamedJob, if_neg (by rw [heq]; exact Nat.not_lt.mpr hge)] at hid
      exact absurd hlt (by rw [hid]; exact Nat.lt_irrefl _)
    refine Or.inl ⟨hqueues, fun d₀ hd₀ hprogress => ?_⟩
    obtain ⟨⟨entries, hentries, hmem⟩, _⟩ := hdeployed.canceled d₀ hd₀ hprogress
    have hsignals := (congrArg Seen.signals hseen).symm.trans hentries
    cases htarget : c.target.2 with
    | none =>
      rw [Seen.signals_trigger_of_none htarget] at hsignals
      have hnil : entries = [] := List.append_cancel_left
        (hsignals.symm.trans (List.append_nil (own w₀ c.loaded.project.id w₀).signals).symm)
      rw [hnil] at hmem
      cases hmem
    | some id =>
      have htook : Outcome.took (a c.loaded.project.id).publish = true := by
        rw [(hqueues.1.2.1 (by rw [htarget]; exact Option.some_ne_none id)).1]
        rfl
      rw [Seen.signals_trigger ⟨hqueues.1.1, by rw [htarget]; exact Option.some_ne_none id, htook⟩
        htarget] at hsignals
      have hentry : [.published id w₀.now] = entries := List.append_cancel_left hsignals
      rw [← hentry, List.mem_singleton] at hmem
      cases hmem
      rfl
  · have hsame : (seen w₀ c.loaded.project.id w₀).trigger cfg opts w₀ (a c.loaded.project.id) c =
        seen w₀ c.loaded.project.id w₀ :=
      hseen.symm.trans (congrArg (Seen.rename w₀.db.nextId) hsame)
    refine Or.inr ⟨fun hsignals => ?_, fun hinserts => ?_⟩
    · obtain ⟨id, hid⟩ := Option.ne_none_iff_exists'.mp hsignals.2.1
      have hlog := congrArg (fun v => v.signals.length) hsame
      rw [Seen.signals_trigger hsignals hid, List.length_append] at hlog
      exact absurd hlog (Nat.succ_ne_self _)
    · have hrows := congrArg (fun v => v.rows.length) hsame
      rw [Seen.length_rows_trigger hinserts] at hrows
      exact absurd hrows (Nat.succ_ne_self _)

theorem allOrNothing_handle_iff (hs : Stored w₀) (haims : ∀ c ∈ cs, Aims w₀ c)
    (hnodup : (cs.map fun c => c.loaded.project.id).Nodup) (hc : c ∈ cs) :
    AllOrNothing w₀ c.loaded.project.id (handle cfg a opts cs w₀) ↔
      Uninterrupted cfg (a c.loaded.project.id) w₀ c := by
  refine ⟨uninterrupted_of_allOrNothing hs haims hnodup hc, fun h => ?_⟩
  rcases h with ⟨hqueues, halone⟩ | ⟨hsignals, hinserts⟩
  · exact Or.inl (deployed_handle hs haims hnodup hc hqueues halone)
  · exact Or.inr (own_handle_eq hs haims hnodup hc hsignals hinserts)

/-! ## A push -/

/-- `handlePushEvent` once it has read the matching projects. -/
def proceed (cfg : Config) (payload : PushEventPayload) (cs : List Candidate) : Flow Push :=
  if payload.deleted then .done
  else
    match installationOf payload with
    | none => .done
    | some installationId => loop cfg.encryption (optionsOf payload installationId) cs

def ignored (payload : PushEventPayload) : Bool :=
  payload.deleted || (installationOf payload).isNone

variable {payload : PushEventPayload}

theorem runs_findProjects :
    Runs cfg a w₀ (.next (.findProjects payload)) w .done ↔
      Runs cfg a w₀ (proceed cfg payload (candidates w₀.db payload)) w .done := by
  have hstep : (Push.findProjects payload).step cfg w₀ (answer a (.findProjects payload)) =
      .pure (proceed cfg payload (candidates w₀.db payload)) := by
    rw [Push.step, proceed]
    split
    · rfl
    · cases installationOf payload <;> rfl
  constructor
  · intro h
    cases h with
    | step h => simpa only [hstep, Turn.pure, World.exec, record_nil] using h
  · intro h
    refine .step ?_
    simpa only [hstep, Turn.pure, World.exec, record_nil] using h

theorem eq_of_mem_candidates (hc : c ∈ candidates w₀.db payload) :
    ∃ p ∈ w₀.db.projects, c = candidate w₀.db p := by
  obtain ⟨p, hp, _, _, _, rfl⟩ := mem_candidates.mp hc
  exact ⟨p, hp, rfl⟩

theorem aims_candidates (hc : c ∈ candidates w₀.db payload) : Aims w₀ c := by
  obtain ⟨p, _, rfl⟩ := eq_of_mem_candidates hc
  intro id hid
  rw [Candidate.target, candidate] at hid
  obtain ⟨x, hx, hprogress⟩ := Option.bind_eq_some_iff.mp hid
  obtain ⟨d, hd, rfl⟩ := Option.map_eq_some_iff.mp hx
  obtain ⟨hd, hproject⟩ := List.mem_filter.mp (List.mem_of_mem_filter (Database.mem_of_latest hd))
  split at hprogress
  · cases hprogress
    exact ⟨d, hd, rfl, beq_iff_eq.mp hproject⟩
  · cases hprogress

theorem findProject_candidates (hc : c ∈ candidates w₀.db payload) :
    (w₀.db.findProject c.loaded.project.id).isSome = true := by
  obtain ⟨p, hp, rfl⟩ := eq_of_mem_candidates hc
  rw [Database.findProject, List.find?_isSome]
  exact ⟨p, hp, beq_self_eq_true p.id⟩

theorem nodup_candidates (hs : Stored w₀) :
    ((candidates w₀.db payload).map fun c => c.loaded.project.id).Nodup := by
  have hprojects : (((candidates w₀.db payload).map Candidate.target).map Prod.fst).Sublist
      (w₀.db.projects.map (·.id)) := projects_candidates
  rw [List.map_map] at hprojects
  exact hs.projects.sublist hprojects

variable (cfg a) in
theorem runs_proceed (hcs : cs ⊆ candidates w₀.db payload) :
    ∃ w, Runs cfg a w₀ (proceed cfg payload cs) w .done := by
  rw [proceed]
  split
  · exact ⟨w₀, .refl _ _⟩
  · split
    · exact ⟨w₀, .refl _ _⟩
    · exact ⟨_, runs_handle cs (extends_refl w₀) (fun c hc => findProject_candidates (hcs hc))
        fun c hc => aims_candidates (hcs hc)⟩

/-- In every state of the system the identifiers are such. -/
theorem stored_of_state {s : State} (ht : s.Tabled) (hl : s.Listed) (hk : s.Ticketed) :
    Stored s.world where
  projects := hl.nodup
  deployments := by
    rw [List.nodup_iff_count_le_one]
    intro id
    have hone := (ht id).1
    rw [State.rows, rowsOf] at hone
    rw [List.count, List.countP_map]
    exact Nat.le_trans (Nat.le_add_right _ _) hone
  deployment_lt d hd := by
    have hrow : 0 < rowsOf d.id s.world.db.deployments :=
      List.countP_pos_iff.mpr ⟨d, hd, beq_self_eq_true d.id⟩
    refine ht.lt ?_
    rw [State.rows]
    omega
  job_lt job hjob := by
    have hwaits : 0 < s.world.redis.buildQueue.countP
        fun job' => job'.deploymentId == job.deploymentId :=
      List.countP_pos_iff.mpr ⟨job, hjob, beq_self_eq_true _⟩
    refine hk.lt ?_
    rw [State.tickets, World.taken]
    omega

/-- A push comes to its end, and leaves a project deployed or as it was just when the project's
trigger goes through, or fails before its first effect. What it leaves of the project is the same
whatever other projects there are. -/
theorem all_or_nothing_iff (cfg : Config) (a : ProjectId → Outcomes) (payload : PushEventPayload)
    (w₀ : World) (hs : Stored w₀) :
    ∃ w, (∀ w', Runs cfg a w₀ (.next (.findProjects payload)) w' .done ↔ w' = w) ∧
      ∀ c ∈ candidates w₀.db payload,
        (AllOrNothing w₀ c.loaded.project.id w ↔
          ignored payload = true ∨ Uninterrupted cfg (a c.loaded.project.id) w₀ c) ∧
        ∀ cs, cs.Sublist (candidates w₀.db payload) → c ∈ cs →
          ∃ w', Runs cfg a w₀ (proceed cfg payload cs) w' .done ∧
            seen w₀ c.loaded.project.id w' = seen w₀ c.loaded.project.id w := by
  obtain ⟨w, hw⟩ := runs_proceed cfg a
    (List.Subset.refl (candidates w₀.db payload))
  refine ⟨w, fun w' => ⟨fun hw' => (runs_findProjects.mp hw').unique rfl hw, ?_⟩,
    fun c hc => ?_⟩
  · rintro rfl
    exact runs_findProjects.mpr hw
  by_cases hignored : ignored payload = true
  · have hproceed : ∀ cs, proceed cfg payload cs = .done := by
      intro cs
      rw [ignored, Bool.or_eq_true, Option.isNone_iff_eq_none] at hignored
      rw [proceed]
      split
      · rfl
      · rename_i hdeleted
        rw [hignored.resolve_left hdeleted]
    rw [hproceed] at hw
    cases hw
    exact ⟨⟨fun _ => Or.inl hignored, fun _ => Or.inr rfl⟩,
      fun cs _ _ => ⟨w₀, hproceed cs ▸ .refl _ _, rfl⟩⟩
  · obtain ⟨installationId, hinstallation⟩ : ∃ i, installationOf payload = some i := by
      rw [ignored, Bool.or_eq_true, not_or, Option.isNone_iff_eq_none] at hignored
      exact Option.ne_none_iff_exists'.mp hignored.2
    have hproceed : ∀ cs, proceed cfg payload cs =
        loop cfg.encryption (optionsOf payload installationId) cs := by
      intro cs
      rw [ignored, Bool.or_eq_true, not_or] at hignored
      rw [proceed, if_neg hignored.1, hinstallation]
    have hruns : ∀ cs ⊆ candidates w₀.db payload, Runs cfg a w₀ (proceed cfg payload cs)
        (handle cfg a (optionsOf payload installationId) cs w₀) .done := by
      intro cs hcs
      rw [hproceed]
      exact runs_handle cs (extends_refl w₀) (fun c hc => findProject_candidates (hcs hc))
        fun c hc => aims_candidates (hcs hc)
    obtain rfl := hw.unique rfl (hruns _ (List.Subset.refl _))
    refine ⟨?_, fun cs hcs hmem => ⟨_, hruns cs hcs.subset, ?_⟩⟩
    · rw [or_iff_right hignored]
      exact allOrNothing_handle_iff hs (fun c hc => aims_candidates hc) (nodup_candidates hs) hc
    · rw [seen_handle cfg a _ hs (fun c hc => aims_candidates (hcs.subset hc))
        ((nodup_candidates hs).sublist (hcs.map _)) hmem,
        seen_handle cfg a _ hs (fun c hc => aims_candidates hc) (nodup_candidates hs) hc]

def shopWorld : World :=
  { State.initial.world with
    db :=
      { shopDatabase
          [shopProject 1 shopName 1 "https://github.com/ada/shop.git"] with
        nextId := 3
        deployments :=
          [{ id := 2, status := .building, commitHash := "", commitMessage := "first"
             commitAuthor := "ada", branch := "main", startedAt := 0, projectId := 1
             initiatorId := some 1 }] } }

theorem stored_shopWorld : Stored shopWorld where
  projects := by decide
  deployments := by decide
  deployment_lt := by decide
  job_lt := by decide

theorem all_or_nothing_shop :
    ∃ w, (∀ w', Runs Config.clear (fun _ => {}) shopWorld (.next (.findProjects shopPush)) w'
        .done ↔ w' = w) ∧
      ∀ c ∈ candidates shopWorld.db shopPush,
        (AllOrNothing shopWorld c.loaded.project.id w ↔
          ignored shopPush = true ∨ Uninterrupted Config.clear {} shopWorld c) ∧
        ∀ cs, cs.Sublist (candidates shopWorld.db shopPush) → c ∈ cs →
          ∃ w', Runs Config.clear (fun _ => {}) shopWorld (proceed Config.clear shopPush cs) w'
              .done ∧
            seen shopWorld c.loaded.project.id w' = seen shopWorld c.loaded.project.id w :=
  all_or_nothing_iff Config.clear (fun _ => {}) shopPush shopWorld stored_shopWorld

/-- The insert of the row fails after the deployment in flight is cancelled. -/
theorem not_all_or_nothing :
    ¬∀ (cfg : Config) (a : ProjectId → Outcomes) (payload : PushEventPayload) (w₀ w : World),
      Stored w₀ → Runs cfg a w₀ (.next (.findProjects payload)) w .done →
        ∀ c ∈ candidates w₀.db payload, AllOrNothing w₀ c.loaded.project.id w := by
  intro h
  obtain ⟨w, hw⟩ := runs_proceed Config.clear (fun _ => { insert := .fail })
    (List.Subset.refl (candidates shopWorld.db shopPush))
  have hmem : candidate shopWorld.db
      (shopProject 1 ⟨"shop", by decide⟩ 1 "https://github.com/ada/shop.git") ∈
        candidates shopWorld.db shopPush := by
    refine mem_candidates.mpr ⟨_, List.mem_singleton_self _, rfl, rfl, ?_, rfl⟩
    decide
  have hboth := h _ _ _ _ _ stored_shopWorld (runs_findProjects.mpr hw) _ hmem
  have hend : w = handle Config.clear (fun _ => { insert := .fail }) (optionsOf shopPush 7)
      (candidates shopWorld.db shopPush) shopWorld := by
    refine hw.unique rfl (runs_handle _ (extends_refl _) (fun c hc => findProject_candidates hc)
      fun c hc => aims_candidates hc)
  subst hend
  obtain ⟨hqueues, _⟩ | ⟨hsignals, _⟩ := (allOrNothing_handle_iff stored_shopWorld
    (fun c hc => aims_candidates hc) (nodup_candidates stored_shopWorld) hmem).mp hboth
  · cases hqueues.2.1
  · exact hsignals ⟨rfl, Option.some_ne_none 2, rfl⟩

end Triggers
end WebhooksService
end System
end Code2Cloud
