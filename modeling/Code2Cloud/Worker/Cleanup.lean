import Code2Cloud.Worker.Labels

/-!
# The calls of Cleanup

`Client.Cleanup` call by call: the answers of the API server to its five deletions, the error it
makes of them, and what any number of its runs leaves in the cluster.
-/

namespace Code2Cloud
namespace Worker

open GoString

/-! ## The API server -/

inductive ApiError
  | notFound
  | other (message : GoString)
  deriving DecidableEq

/-- How a call fares: it is answered, it fails before it has an effect, or its effect takes place
and the answer is lost. -/
inductive Answer
  | ok
  | fail (message : GoString)
  | lost (message : GoString)
  deriving DecidableEq

structure ApiServer where
  cluster : Cluster
  /-- The deletions it was asked for. -/
  deletions : List (Kind × GoString)

/-- A Deployment that is deleted in the foreground counts as deleted: it goes when its pods have
gone, and nothing takes that back. -/
def ApiServer.delete (s : ApiServer) (kind : Kind) (name : GoString) (answer : Answer) :
    ApiServer × Option ApiError :=
  let deletions := s.deletions ++ [(kind, name)]
  match answer with
  | .ok =>
    if s.cluster.has kind name then
      ({ cluster := s.cluster.delete kind name, deletions }, none)
    else ({ s with deletions }, some .notFound)
  | .fail message => ({ s with deletions }, some (.other message))
  | .lost message =>
    ({ cluster := s.cluster.delete kind name, deletions }, some (.other message))

/-- What the messages of `Cleanup` and of the `Delete` functions call the kind. -/
def Kind.text : Kind → GoString
  | .ingress => utf8 "ingress"
  | .service => utf8 "service"
  | .deployment => utf8 "deployment"
  | .networkPolicy => utf8 "network policy"
  | .serviceAccount => utf8 "service account"

namespace Client

/-! ## The deletions -/

/-- What the `Delete` functions share: that there is no such object is no error. -/
def deleteObject (kind : Kind) (name : GoString) (s : ApiServer) (answer : Answer) :
    ApiServer × Option GoString :=
  match s.delete kind name answer with
  | (s, some (.other message)) =>
    (s, some (utf8 "failed to delete " ++ kind.text ++ utf8 ": " ++ message))
  | (s, _) => (s, none)

def deleteIngress (name : GoString) : ApiServer → Answer → ApiServer × Option GoString :=
  deleteObject .ingress (sanitizeK8sName name)

def deleteService (name : GoString) : ApiServer → Answer → ApiServer × Option GoString :=
  deleteObject .service (sanitizeK8sName name)

def deleteDeployment (name : GoString) : ApiServer → Answer → ApiServer × Option GoString :=
  deleteObject .deployment (sanitizeK8sName name)

def deleteNetworkPolicy (appName : GoString) : ApiServer → Answer → ApiServer × Option GoString :=
  deleteObject .networkPolicy (buildPolicyName (sanitizeK8sName appName))

def deleteServiceAccount (appName : GoString) : ApiServer → Answer → ApiServer × Option GoString :=
  deleteObject .serviceAccount (buildServiceAccountName (sanitizeK8sName appName))

/-- `Client.Cleanup`, with the answers to its calls. -/
def cleanup (opts : CleanupOptions) (answers : Kind → Answer) (s : ApiServer) :
    ApiServer × Option GoString :=
  let name := sanitizeK8sName opts.projectName
  let (s, ingress) := deleteIngress name s (answers .ingress)
  let (s, service) := deleteService name s (answers .service)
  let (s, deployment) := deleteDeployment name s (answers .deployment)
  let (s, networkPolicy) := deleteNetworkPolicy name s (answers .networkPolicy)
  let (s, serviceAccount) := deleteServiceAccount name s (answers .serviceAccount)
  let errs := (ingress.map (utf8 "ingress: " ++ ·)).toList ++
    (service.map (utf8 "service: " ++ ·)).toList ++
    (deployment.map (utf8 "deployment: " ++ ·)).toList ++
    (networkPolicy.map (utf8 "network policy: " ++ ·)).toList ++
    (serviceAccount.map (utf8 "service account: " ++ ·)).toList
  (s, if errs = [] then none else some (utf8 "cleanup errors: " ++ (utf8 "; ").intercalate errs))

end Client

/-! ## Deleting kinds of objects -/

namespace Cluster

theorem ext_same {cl cl' : Cluster} (h : ∀ kind n, Same cl cl' kind n) : cl = cl' := by
  cases cl
  cases cl'
  congr
  · funext n
    exact h .ingress n
  · funext n
    exact h .service n
  · funext n
    exact h .deployment n
  · funext n
    exact h .networkPolicy n
  · funext n
    exact h .serviceAccount n

theorem same_of_absent {cl cl' : Cluster} {kind : Kind} {n : GoString}
    (h : cl.has kind n = false) (h' : cl'.has kind n = false) : Same cl cl' kind n := by
  cases kind <;> simp only [has, Option.isSome_eq_false_iff, Option.isNone_iff_eq_none] at h h' <;>
    exact h.trans h'.symm

theorem has_delete_self (cl : Cluster) (kind : Kind) (n : GoString) :
    (cl.delete kind n).has kind n = false := by
  cases kind <;> simp [delete, has, put_eq]

theorem has_delete_of_absent {cl : Cluster} {kind kind' : Kind} {n n' : GoString}
    (h : cl.has kind' n' = false) : (cl.delete kind n).has kind' n' = false := by
  by_cases hsame : kind = kind' → n ≠ n'
  · exact (same_delete cl hsame).has_eq.trans h
  · simp only [ne_eq, Classical.not_imp, not_not] at hsame
    obtain ⟨rfl, rfl⟩ := hsame
    exact has_delete_self cl kind n

theorem delete_of_absent {cl : Cluster} {kind : Kind} {n : GoString}
    (h : cl.has kind n = false) : cl.delete kind n = cl := by
  refine ext_same fun kind' n' => ?_
  by_cases hsame : kind = kind' → n ≠ n'
  · exact (same_delete cl hsame).symm
  · simp only [ne_eq, Classical.not_imp, not_not] at hsame
    obtain ⟨rfl, rfl⟩ := hsame
    exact same_of_absent (has_delete_self cl kind n) h

/-- The objects of these kinds are deleted, each under the name for its kind. -/
def deleteAll (names : Kind → GoString) (kinds : List Kind) (cl : Cluster) : Cluster :=
  kinds.foldl (fun cl kind => cl.delete kind (names kind)) cl

variable {names : Kind → GoString} {kinds kinds' : List Kind} {cl : Cluster}

theorem same_deleteAll {kind : Kind} {n : GoString} (h : kind ∈ kinds → n ≠ names kind) :
    Same cl (cl.deleteAll names kinds) kind n := by
  induction kinds generalizing cl with
  | nil => exact Same.refl cl kind n
  | cons k kinds ih =>
    have hfirst : Same cl (cl.delete k (names k)) kind n :=
      same_delete cl fun hk => by
        subst hk
        exact (h List.mem_cons_self).symm
    exact hfirst.trans (ih fun hmem => h (List.mem_cons_of_mem k hmem))

theorem has_deleteAll_of_absent {kind : Kind} {n : GoString} (h : cl.has kind n = false) :
    (cl.deleteAll names kinds).has kind n = false := by
  induction kinds generalizing cl with
  | nil => exact h
  | cons k kinds ih => exact ih (has_delete_of_absent h)

variable (names) in
theorem has_deleteAll {kind : Kind} (h : kind ∈ kinds) :
    (cl.deleteAll names kinds).has kind (names kind) = false := by
  induction kinds generalizing cl with
  | nil => cases h
  | cons k kinds ih =>
    rcases List.mem_cons.mp h with rfl | h
    · change ((cl.delete kind (names kind)).deleteAll names kinds).has kind (names kind) = false
      exact has_deleteAll_of_absent (has_delete_self cl kind (names kind))
    · exact ih h

/-- Which kinds are deleted counts, not how often or in which order. -/
theorem deleteAll_congr (h : ∀ kind, kind ∈ kinds ↔ kind ∈ kinds') :
    cl.deleteAll names kinds = cl.deleteAll names kinds' := by
  refine ext_same fun kind n => ?_
  by_cases hdeleted : kind ∈ kinds → n ≠ names kind
  · exact (same_deleteAll hdeleted).symm.trans
      (same_deleteAll fun hmem => hdeleted ((h kind).mpr hmem))
  · simp only [ne_eq, Classical.not_imp, not_not] at hdeleted
    obtain ⟨hmem, rfl⟩ := hdeleted
    exact same_of_absent (has_deleteAll names hmem) (has_deleteAll names ((h kind).mp hmem))

theorem deleteAll_append :
    cl.deleteAll names (kinds ++ kinds') = (cl.deleteAll names kinds).deleteAll names kinds' :=
  List.foldl_append

theorem deleteAll_of_absent (h : ∀ kind, cl.has kind (names kind) = false) :
    cl.deleteAll names kinds = cl := by
  induction kinds with
  | nil => rfl
  | cons k kinds ih =>
    rw [deleteAll, List.foldl_cons, delete_of_absent (h k)]
    exact ih

end Cluster

/-! ## What one run does -/

/-- The deletion takes place. -/
def Answer.deletes : Answer → Bool
  | .ok | .lost _ => true
  | .fail _ => false

/-- What `Cleanup` adds to its error for a call. -/
def Answer.error (kind : Kind) : Answer → Option GoString
  | .ok => none
  | .fail message | .lost message =>
    some (kind.text ++ utf8 ": " ++ (utf8 "failed to delete " ++ kind.text ++ utf8 ": " ++ message))

namespace Client

variable {opts : CleanupOptions} {answers : Kind → Answer} {s : ApiServer}

/-- The kinds whose deletion takes place. -/
def deleted (answers : Kind → Answer) : List Kind :=
  cleanupStages.filter fun kind => (answers kind).deletes

theorem deleteObject_eq (kind : Kind) (name : GoString) (s : ApiServer) (answer : Answer) :
    deleteObject kind name s answer =
      ({ cluster := if answer.deletes then s.cluster.delete kind name else s.cluster
         deletions := s.deletions ++ [(kind, name)] },
        match answer with
        | .ok => none
        | .fail message | .lost message =>
          some (utf8 "failed to delete " ++ kind.text ++ utf8 ": " ++ message)) := by
  cases answer with
  | ok =>
    rw [deleteObject, ApiServer.delete]
    cases hhas : s.cluster.has kind name with
    | true => rfl
    | false =>
      simp only [Bool.false_eq_true, if_false, Answer.deletes, if_true]
      rw [Cluster.delete_of_absent hhas]
  | fail message => rfl
  | lost message => rfl

/-- The error of one deletion, as `Cleanup` lists it. -/
theorem toList_error (kind : Kind) (answer : Answer) {label : GoString}
    (hlabel : label = kind.text ++ utf8 ": ") :
    (Option.map (label ++ ·) (match answer with
      | .ok => none
      | .fail message | .lost message =>
        some (utf8 "failed to delete " ++ kind.text ++ utf8 ": " ++ message))).toList =
      (answer.error kind).toList := by
  subst hlabel
  cases answer <;> rfl

theorem cleanup_eq (opts : CleanupOptions) (answers : Kind → Answer) (s : ApiServer) :
    cleanup opts answers s =
      ({ cluster := s.cluster.deleteAll (fun kind => deleteName kind opts) (deleted answers)
         deletions := s.deletions ++ cleanupStages.map fun kind => (kind, deleteName kind opts) },
        if cleanupStages.filterMap (fun kind => (answers kind).error kind) = [] then none
        else some (utf8 "cleanup errors: " ++ (utf8 "; ").intercalate
          (cleanupStages.filterMap fun kind => (answers kind).error kind))) := by
  have herrors : cleanupStages.filterMap (fun kind => (answers kind).error kind) =
      ((answers .ingress).error .ingress).toList ++ ((answers .service).error .service).toList ++
        ((answers .deployment).error .deployment).toList ++
        ((answers .networkPolicy).error .networkPolicy).toList ++
        ((answers .serviceAccount).error .serviceAccount).toList := by
    rw [List.filterMap_eq_flatMap_toList]
    simp [cleanupStages]
  have hcluster : s.cluster.deleteAll (fun kind => deleteName kind opts) (deleted answers) =
      cleanupStages.foldl (fun cl kind =>
        if (answers kind).deletes then cl.delete kind (deleteName kind opts) else cl) s.cluster :=
    List.foldl_filter
  rw [herrors, hcluster]
  simp only [cleanup, deleteIngress, deleteService, deleteDeployment, deleteNetworkPolicy,
    deleteServiceAccount, deleteObject_eq]
  rw [toList_error .ingress _ (by decide), toList_error .service _ (by decide),
    toList_error .deployment _ (by decide), toList_error .networkPolicy _ (by decide),
    toList_error .serviceAccount _ (by decide)]
  simp only [cleanupStages, List.foldl_cons, List.foldl_nil, List.map_cons, List.map_nil,
    List.append_assoc, List.cons_append, List.nil_append, deleteName, objectName]

/-! ## Any number of runs -/

theorem mem_cleanupStages (kind : Kind) : kind ∈ cleanupStages := by
  cases kind <;> decide

theorem error_eq_none_iff {kind : Kind} {answer : Answer} :
    answer.error kind = none ↔ answer = .ok := by
  cases answer <;> simp [Answer.error]

theorem errors_eq_nil_iff :
    cleanupStages.filterMap (fun kind => (answers kind).error kind) = [] ↔
      ∀ kind, answers kind = .ok := by
  rw [List.filterMap_eq_nil_iff]
  exact ⟨fun h kind => error_eq_none_iff.mp (h kind (mem_cleanupStages kind)),
    fun h kind _ => error_eq_none_iff.mpr (h kind)⟩

theorem isInfix_intercalate {sep e : GoString} {es : List GoString} (h : e ∈ es) :
    e <:+: sep.intercalate es := by
  induction es with
  | nil => cases h
  | cons a es ih =>
    cases es with
    | nil =>
      obtain rfl := List.mem_singleton.mp h
      simp only [List.intercalate_singleton, List.infix_rfl]
    | cons b es =>
      rw [List.intercalate_cons_cons]
      rcases List.mem_cons.mp h with rfl | h
      · exact ⟨[], sep ++ sep.intercalate (b :: es), by rw [List.nil_append, List.append_assoc]⟩
      · exact (ih h).trans (List.suffix_append _ _).isInfix

theorem mem_deleted {kind : Kind} : kind ∈ deleted answers ↔ (answers kind).deletes = true := by
  rw [deleted, List.mem_filter]
  exact and_iff_right (mem_cleanupStages kind)

/-- One run of `Cleanup` tries everything, touches nothing else, reports what failed, and leaves
nothing to do if nothing failed. -/
structure BestEffort (opts : CleanupOptions) (answers : Kind → Answer) (s : ApiServer) : Prop where
  attempts : (cleanup opts answers s).1.deletions =
    s.deletions ++ cleanupStages.map fun kind => (kind, deleteName kind opts)
  frame : ∀ kind n, n ≠ deleteName kind opts →
    s.cluster.Same (cleanup opts answers s).1.cluster kind n
  nil_iff : (cleanup opts answers s).2 = none ↔ ∀ kind, answers kind = .ok
  gone : (cleanup opts answers s).2 = none →
    ∀ kind, (cleanup opts answers s).1.cluster.has kind (deleteName kind opts) = false
  names : ∀ kind message, answers kind = .fail message ∨ answers kind = .lost message →
    ∃ err, (cleanup opts answers s).2 = some err ∧
      kind.text ++ utf8 ": " ++ (utf8 "failed to delete " ++ kind.text ++ utf8 ": " ++ message) <:+:
        err
  again : (cleanup opts answers s).2 = none → ∀ answers',
    (cleanup opts answers' (cleanup opts answers s).1).1.cluster =
      (cleanup opts answers s).1.cluster

theorem eq_ok_of_nil (h : (cleanup opts answers s).2 = none) (kind : Kind) :
    answers kind = .ok := by
  rw [cleanup_eq] at h
  refine errors_eq_nil_iff.mp ?_ kind
  by_contra hne
  rw [if_neg hne] at h
  cases h

theorem gone_of_ok (h : ∀ kind, answers kind = .ok) (kind : Kind) :
    (cleanup opts answers s).1.cluster.has kind (deleteName kind opts) = false := by
  rw [cleanup_eq]
  have hdeleted : kind ∈ deleted answers := by
    rw [mem_deleted, h kind]
    rfl
  exact Cluster.has_deleteAll (fun kind => deleteName kind opts) hdeleted

theorem bestEffort (opts : CleanupOptions) (answers : Kind → Answer) (s : ApiServer) :
    BestEffort opts answers s where
  attempts := by rw [cleanup_eq]
  frame := fun kind n hn => by
    rw [cleanup_eq]
    exact Cluster.same_deleteAll fun _ => hn
  nil_iff := by
    refine ⟨eq_ok_of_nil, fun h => ?_⟩
    rw [cleanup_eq, if_pos (errors_eq_nil_iff.mpr h)]
  gone := fun h => gone_of_ok (eq_ok_of_nil h)
  names := fun kind message h => by
    have herror : (answers kind).error kind = some (kind.text ++ utf8 ": " ++
        (utf8 "failed to delete " ++ kind.text ++ utf8 ": " ++ message)) := by
      rcases h with h | h <;> rw [h, Answer.error]
    have hmem : kind.text ++ utf8 ": " ++
        (utf8 "failed to delete " ++ kind.text ++ utf8 ": " ++ message) ∈
          cleanupStages.filterMap fun kind => (answers kind).error kind :=
      List.mem_filterMap.mpr ⟨kind, mem_cleanupStages kind, herror⟩
    have hne := List.ne_nil_of_mem hmem
    refine ⟨_, by rw [cleanup_eq, if_neg hne], ?_⟩
    exact (isInfix_intercalate hmem).trans (List.suffix_append _ _).isInfix
  again := fun h answers' => by
    rw [cleanup_eq opts answers']
    exact Cluster.deleteAll_of_absent (gone_of_ok (eq_ok_of_nil h))

/-- The runs of `Cleanup`, one after the other. -/
def cleanups (opts : CleanupOptions) (runs : List (Kind → Answer)) (s : ApiServer) : ApiServer :=
  runs.foldl (fun s answers => (cleanup opts answers s).1) s

theorem cluster_cleanups (runs : List (Kind → Answer)) :
    (cleanups opts runs s).cluster =
      s.cluster.deleteAll (fun kind => deleteName kind opts) (runs.flatMap deleted) := by
  induction runs generalizing s with
  | nil => rfl
  | cons answers runs ih =>
    rw [cleanups, List.foldl_cons, ← cleanups, ih, cleanup_eq, List.flatMap_cons,
      Cluster.deleteAll_append]

/-- Every run is a best-effort deletion, and runs in which each kind is deleted at least once end
in the cluster that one run without a failure leaves. -/
theorem cleanup_spec (opts : CleanupOptions) (s : ApiServer) :
    (∀ answers, BestEffort opts answers s) ∧
      ∀ runs : List (Kind → Answer), (∀ kind, ∃ answers ∈ runs, answers kind = .ok) →
        (cleanups opts runs s).cluster = (cleanup opts (fun _ => .ok) s).1.cluster := by
  refine ⟨fun answers => bestEffort opts answers s, fun runs hruns => ?_⟩
  rw [cluster_cleanups, cleanup_eq]
  refine Cluster.deleteAll_congr fun kind => iff_of_true ?_ (mem_deleted.mpr rfl)
  obtain ⟨answers, hmem, hok⟩ := hruns kind
  refine List.mem_flatMap.mpr ⟨answers, hmem, mem_deleted.mpr ?_⟩
  rw [hok]
  rfl

/-- The objects of the project `shop`, but for the service account. -/
def shopServer : ApiServer where
  cluster := [DeployStage.networkPolicy, .deployment, .service, .ingress].foldl
    (fun cl stage => (object [] (bareOptions (utf8 "shop")) stage).elim cl cl.apply) Cluster.empty
  deletions := []

/-- A run in which the deletions of the service and of the policy fail, and a second one. -/
def shopRuns : List (Kind → Answer) :=
  [fun kind => if kind = .service then .fail (utf8 "timeout")
    else if kind = .networkPolicy then .lost (utf8 "EOF") else .ok, fun _ => .ok]

theorem cleanup_spec_shop :
    let opts : CleanupOptions := { deploymentId := none, projectName := utf8 "shop" }
    (∀ answers ∈ shopRuns, BestEffort opts answers shopServer) ∧
      (cleanups opts shopRuns shopServer).cluster =
        (cleanup opts (fun _ => .ok) shopServer).1.cluster := by
  intro opts
  obtain ⟨hbest, hruns⟩ := cleanup_spec opts shopServer
  exact ⟨fun answers _ => hbest answers, hruns shopRuns fun kind =>
    ⟨fun _ => .ok, List.mem_cons_of_mem _ List.mem_cons_self, rfl⟩⟩

end Client
end Worker
end Code2Cloud
