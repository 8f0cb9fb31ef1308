import Code2Cloud.System.Ports
import Code2Cloud.System.Provenance

/-!
# The variables of a pod

What a running container finds in its environment, from the rows of its project to the object
in the cluster.
-/

namespace Code2Cloud

namespace Worker

/-! ## Merged maps -/

theorem EnvMap.mem_of_get_merge {maps : List EnvMap} {key value : String}
    (h : EnvMap.get (EnvMap.merge maps) key = some value) : ∃ m ∈ maps, (key, value) ∈ m := by
  have hlookup : List.lookup key maps.flatten.reverse = some value := by
    have hget := h
    rw [EnvMap.merge, EnvMap.get_foldl_set, Option.or_eq_some_iff] at hget
    rcases hget with hget | ⟨_, hget⟩
    · exact hget
    · cases hget
  obtain ⟨before, after, hsplit, _⟩ := List.lookup_eq_some_iff.mp hlookup
  have hmem : (key, value) ∈ maps.flatten := by
    rw [← List.mem_reverse, hsplit]
    exact List.mem_append_right _ List.mem_cons_self
  simpa using hmem

theorem get_port_frameworkRuntimePortEnv (framework : String) (port : Nat) :
    EnvMap.get (frameworkRuntimePortEnv framework port) "PORT" = some (toString port) := by
  unfold frameworkRuntimePortEnv
  split <;> rfl

theorem get_runtimeEnvVars {env : EnvMap} (henv : (env.map (·.1)).Nodup) (framework key : String) :
    EnvMap.get (runtimeEnvVars env framework) key =
      (EnvMap.get (frameworkRuntimePortEnv framework (resolvePort env)) key).or (env.get key) := by
  rw [runtimeEnvVars, EnvMap.get_set]
  split
  · rename_i hport
    rw [← hport, get_port_frameworkRuntimePortEnv]
    rfl
  · exact EnvMap.get_merge henv System.nodup_frameworkRuntimePortEnv key

/-- A container finds the platform's variables, then the job's own, then the default. -/
theorem get_podEnv {env : EnvMap} (henv : (env.map (·.1)).Nodup) (framework key : String) :
    EnvMap.get (containerEnv (runtimeEnvVars env framework) (resolvePort env)) key =
      (EnvMap.get (frameworkRuntimePortEnv framework (resolvePort env)) key).or
        ((env.get key).or (if key = "NODE_ENV" then some "production" else none)) := by
  have hruntime := get_runtimeEnvVars henv framework
  have hport : (EnvMap.get (runtimeEnvVars env framework) "PORT").isSome = true := by
    rw [hruntime, get_port_frameworkRuntimePortEnv]
    rfl
  rw [← Option.or_assoc, ← hruntime, containerEnv, if_pos hport]
  split
  · rename_i hnode
    split
    · rename_i hkey
      subst hkey
      exact (Option.or_of_isSome hnode).symm
    · rw [Option.or_none]
  · rw [EnvMap.get_append]
    congr 1
    rw [EnvMap.get_cons]
    simp only [eq_comm (b := key)]
    rfl

end Worker

namespace System

open Api Worker

variable {cfg : Config} {x : Run} {job : Api.BuildJob}

/-! ## A job's variables -/

/-- The variable was stored with the project at some time, or came with the request that
created the project; the Python version counts as one. -/
inductive Run.OwnVariable (cfg : Config) (x : Run) (id : ProjectId) (key value : String) : Prop
  | stored {s₀ : State} {v : EnvironmentVariable} (hpast : Visited x s₀)
      (hv : v ∈ s₀.world.db.environmentVariables) (hproject : v.projectId = id) (hkey : v.key = key)
      (hvalue : cfg.encryption.decrypt v.value = .ok value) : OwnVariable cfg x id key value
  | pythonVersion {s₀ : State} {p : Project} (hpast : Visited x s₀)
      (hp : p ∈ s₀.world.db.projects) (hproject : p.id = id)
      (hvalue : (key, value) ∈ pythonVersionEnv p) : OwnVariable cfg x id key value
  | submitted {s₀ : State} {userId : UserId} {dto : CreateProjectDto} {installationId : String}
      {draft : Draft} (hrequested : x.Requested userId dto) (hpast : Visited x s₀)
      (hcall : .createProject (.enqueue draft (ProjectsService.job dto installationId draft)) ∈
        s₀.procs.calls)
      (hproject : draft.project.id = id) (huser : draft.project.userId = userId)
      (hvalue : (key, value) ∈ dto.envVars ∨ (key, value) ∈ pythonVersionEnv draft.project) :
      OwnVariable cfg x id key value

theorem mem_environmentVariablesOf {db : Database} {id : ProjectId} {v : EnvironmentVariable}
    (h : v ∈ db.environmentVariablesOf id) : v ∈ db.environmentVariables ∧ v.projectId = id := by
  obtain ⟨hv, hid⟩ := List.mem_filter.mp h
  exact ⟨hv, beq_iff_eq.mp hid⟩

theorem ownVariable_of_made (h : x.Made cfg job) {key value : String}
    (hget : EnvMap.get job.envVars key = some value) :
    x.OwnVariable cfg job.projectId key value := by
  cases h with
  | @redeploy s₀ p _ _ _ hpast hp hjob =>
    subst hjob
    obtain ⟨m, hm, hmem⟩ := EnvMap.mem_of_get_merge hget
    simp only [List.mem_cons, List.not_mem_nil, or_false] at hm
    rcases hm with rfl | rfl
    · obtain ⟨v, hv, hdecrypted⟩ := List.mem_filterMap.mp (mem_assigned.mp hmem).1
      obtain ⟨hv, hproject⟩ := mem_environmentVariablesOf (List.mem_filter.mp hv).1
      obtain ⟨hkey, hvalue⟩ := decrypted_eq_some_iff.mp hdecrypted
      exact .stored hpast hv hproject hkey.symm hvalue
    · exact .pythonVersion hpast hp rfl hmem
  | @push s₀ p _ envVars _ _ hpast hp henv hjob =>
    subst hjob
    rw [WebhooksService.jobEnvVars] at henv
    cases hvs : EnvironmentVariables.decryptAll cfg.encryption (load s₀.world.db p).envVars with
    | error error => simp [hvs] at henv
    | ok vs =>
      simp only [hvs, Option.some.injEq] at henv
      subst henv
      obtain ⟨m, hm, hmem⟩ := EnvMap.mem_of_get_merge hget
      simp only [List.mem_cons, List.not_mem_nil, or_false] at hm
      rcases hm with rfl | rfl
      · obtain ⟨shown, hshown, heq⟩ := List.mem_map.mp (mem_assigned.mp hmem).1
        rw [Prod.mk.injEq] at heq
        obtain ⟨v, hv, hkey, hvalue⟩ :=
          (EnvironmentVariables.mem_decryptAll hvs).mp ⟨shown, hshown, heq.1, heq.2⟩
        obtain ⟨hv, hproject⟩ := mem_environmentVariablesOf hv
        exact .stored hpast hv hproject hkey hvalue
      · exact .pythonVersion hpast hp rfl hmem
  | create hrequested hpast hcall huser hjob =>
    subst hjob
    obtain ⟨m, hm, hmem⟩ := EnvMap.mem_of_get_merge hget
    simp only [List.mem_cons, List.not_mem_nil, or_false] at hm
    rcases hm with rfl | rfl
    · exact .submitted hrequested hpast hcall rfl huser (Or.inl hmem)
    · exact .submitted hrequested hpast hcall rfl huser (Or.inr hmem)

/-! ## Pods -/

theorem nodup_of_made (h : x.Made cfg job) : (job.envVars.map (·.1)).Nodup := by
  cases h with
  | redeploy _ _ hjob =>
    subst hjob
    exact EnvMap.nodup_merge _
  | @push s₀ p _ envVars _ _ _ _ henv hjob =>
    subst hjob
    rw [WebhooksService.jobEnvVars] at henv
    split at henv
    · cases henv
    · cases henv
      exact EnvMap.nodup_merge _
  | create _ _ _ _ hjob =>
    subst hjob
    exact EnvMap.nodup_merge _

/-- In every state of a run the pods of a Deployment find, in this order, the variables of their
framework, those of one job of their project, and `NODE_ENV`; and the job's variables are the
project's own. -/
theorem pods_find_own_variables
    (h : Reaches (Run.step cfg) (fun _ _ => True) (State.initial, []) x) {name : GoString}
    {o : DeploymentObject} (ho : x.1.world.cluster.deployments name = some o) :
    ∃ job : Api.BuildJob, x.Made cfg job ∧ job.projectId = o.projectId ∧
      job.deploymentId = o.deploymentId ∧ name = sanitizeK8sName (utf8 job.projectName.val) ∧
      (∀ key, o.envVars.get key =
        (EnvMap.get (frameworkRuntimePortEnv job.buildConfig.framework o.port) key).or
          ((EnvMap.get job.envVars key).or
            (if key = "NODE_ENV" then some "production" else none))) ∧
      ∀ key value, EnvMap.get job.envVars key = some value →
        x.OwnVariable cfg o.projectId key value := by
  obtain ⟨b, stage, hmade, hobject⟩ :=
    (Run.rooted_of_reaches h).cluster (.deployment name o) ho (by rintro ⟨⟩)
  cases stage with
  | deployment =>
    cases hobject
    exact ⟨b.job, hmade, rfl, rfl, rfl, get_podEnv (nodup_of_made hmade) _,
      fun key value => ownVariable_of_made hmade⟩
  | _ => cases hobject

def shopWithSecret : List Event :=
  [.edit (.gitAccounts [{ username := "ada", installationId := some "7", userId := 1 }]),
    .request (.createProject 1
      { name := shopName, gitRepoName := "shop", gitRepoOwner := "ada"
        gitBranch := "main", gitCloneUrl := "https://github.com/ada/shop.git"
        envVars := [("API_KEY", "k1")] })] ++
  List.replicate 6 (.call 0 shopReply) ++ shopWorker 30

theorem pods_find_own_variables_shop :
    ∃ (x : Run) (name : GoString) (o : DeploymentObject),
      Reaches (Run.step Config.clear) (fun _ _ => True) (State.initial, []) x ∧
      x.1.world.cluster.deployments name = some o ∧ o.envVars.get "API_KEY" = some "k1" ∧
      x.OwnVariable Config.clear o.projectId "API_KEY" "k1" := by
  obtain ⟨s, hs, hend⟩ := Reaches.exists_of_runEvents (State.step Config.clear)
    (fun _ _ => True) State.initial shopWithSecret
    (fun s => (s.world.cluster.deployments (utf8 "shop")).any
      fun o => o.envVars.get "API_KEY" == some "k1")
    (by decide) (runsUnder_true _ _ _)
  obtain ⟨past, hx⟩ := hs.recorded
  rw [Option.any_eq_true] at hend
  obtain ⟨o, ho, hkey⟩ := hend
  rw [beq_iff_eq] at hkey
  obtain ⟨job, _, _, _, _, hvariables, hown⟩ := pods_find_own_variables hx ho
  have hplatform (framework : String) (port : Nat) :
      EnvMap.get (frameworkRuntimePortEnv framework port) "API_KEY" = none := by
    unfold frameworkRuntimePortEnv
    split <;> rfl
  have hjob : EnvMap.get job.envVars "API_KEY" = some "k1" := by
    rw [hvariables, hplatform] at hkey
    simpa using hkey
  refine ⟨(s, past), utf8 "shop", o, hx, ho, ?_, hown _ _ hjob⟩
  rw [hvariables, hplatform, hjob]
  rfl

end System
end Code2Cloud
