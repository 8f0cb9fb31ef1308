import Code2Cloud.Api.Holdings
import Code2Cloud.System.Titles

/-!
# Estates

A command within the rows of one user: it leaves the rows of every other user, and what it does to
the user's own rows is decided by these.
-/

namespace Code2Cloud
namespace System

open Api

variable {now : Nat} {db : Database} {c : Command} {δ δ' : Deeds} {u v : UserId}

def Command.Within (δ : Deeds) (db : Database) (u : UserId) : Command → Prop
  | .openDraft t | .commitDraft t => t.project.userId = u
  | .rollbackDraft id | .updateProject id _ | .setOnlineStatus id _ | .deleteProject id
  | .replaceEnvironmentVariables id _ => δ.project id = some u
  | .createDeployment d | .createRedeployment d => δ.project d.projectId = some u
  | .createDomain d => δ.project d.projectId = some u
  | .writeStatus id _ => δ.owner (.deployment id) = some u
  | .deleteDomain id | .updateDomainStatus id _ _ => δ.owner (.domain id) = some u
  | .setSystemConfigs configs => ∀ v, v ≠ u →
    (configs.filter fun c => c.userId == v) = db.systemConfigs.filter fun c => c.userId == v
  | .setGitAccounts _ | .shuffleDeployments _ => False
  | _ => True

/-- What one user does leaves the rows of every other as they were. -/
theorem own_change (now : Nat) (h : δ.Covers db) (hl : c.Lawful δ db) (hu : c.Within δ db u)
    (hv : v ≠ u) :
    (c.change now db).own v = db.own v := by
  have hδ : δ ≤ δ.extend (c.change now db) := Deeds.le_extend _ _
  rw [(covers_change now h hl).own_eq, h.own_eq, h.ownBy_mono hδ]
  generalize δ.extend (c.change now db) = δ' at hδ
  have hunseen {id : ProjectId} (hid : δ.project id = some u) : δ'.project id ≠ some v := by
    rw [hδ.1 _ _ hid, ne_eq, Option.some.injEq]
    exact hv.symm
  have hdraft {id : ProjectId} (hid : δ.project id = some u) :
      ∀ t ∈ db.drafts, t.project.id = id → t.project.userId ≠ v := by
    intro t ht hp
    have huser := (h.draft ht).project
    rw [hp, hid, Option.some.injEq] at huser
    exact huser ▸ hv.symm
  have hdomain {id : DomainId} (hid : δ.owner (.domain id) = some u) :
      ∀ d ∈ db.domains, d.id = id → δ'.project d.projectId ≠ some v := by
    rintro d hd rfl
    rw [Deeds.owner, h.domain hd] at hid
    exact hunseen hid
  cases c with
  | openDraft t => exact Database.ownBy_openDraft fun ht => hv (ht.symm.trans hu)
  | commitDraft t =>
    have hid : δ.project t.project.id = some u := hl.project.trans (congrArg some hu)
    exact (Database.ownBy_insertDraft (hunseen hid) hl.whole rfl).trans
      (Database.ownBy_closeDraft (hdraft hid))
  | rollbackDraft id => exact Database.ownBy_closeDraft (hdraft hu)
  | createDeployment d => exact Database.ownBy_createDeployment (hunseen hu) rfl
  | createRedeployment d =>
    refine (Database.ownBy_updateProject (hunseen hu) ?_).trans
      (Database.ownBy_createDeployment (hunseen hu) rfl)
    exact fun _ => rfl
  | writeStatus id s =>
    refine Database.ownBy_updateDeployment ?_ fun d => StatusWrite.apply_projectId now d s
    rintro d hd rfl
    have howner : δ.owner (.deployment d.id) = some u := hu
    rw [Deeds.owner, h.deployment hd] at howner
    exact hunseen howner
  | updateProject id dto => exact Database.ownBy_updateProject (hunseen hu) fun _ => rfl
  | setOnlineStatus id status => exact Database.ownBy_updateProject (hunseen hu) fun _ => rfl
  | deleteProject id => exact Database.ownBy_deleteProject (hunseen hu)
  | createDomain d => exact Database.ownBy_createDomain (hunseen hu) rfl
  | deleteDomain id => exact Database.ownBy_deleteDomain (hdomain hu)
  | updateDomainStatus id status error =>
    exact Database.ownBy_updateDomain (hdomain hu) fun _ => rfl
  | replaceEnvironmentVariables id rows =>
    refine (Database.ownBy_updateProject (hunseen hu) ?_).trans
      (Database.ownBy_replaceEnvironmentVariables (hunseen hu) hl.2)
    exact fun _ => rfl
  | setSystemConfigs configs =>
    simp only [Command.change, Database.ownBy, Database.gitAccountsOf, hu v hv]
  | setGitAccounts | shuffleDeployments => exact hu.elim
  | _ => rfl

/-- What a user does to the user's own rows is decided by these rows. -/
theorem own_change_own (h : δ.Covers db) (hl : c.Lawful δ db) (hu : c.Within δ db u)
    (hc : ∀ configs, c ≠ .setSystemConfigs configs) :
    (c.change now db).own u = { c.change now (db.own u) with nextId := 0 } := by
  have hδ : δ ≤ δ.extend (c.change now db) := Deeds.le_extend _ _
  rw [(covers_change now h hl).own_eq, h.own_eq, h.ownBy_mono hδ]
  generalize δ.extend (c.change now db) = δ' at hδ
  have hseen {id : ProjectId} (hid : δ.project id = some u) :
      (δ'.project id == some u) = true := by
    rw [hδ.1 _ _ hid, beq_self_eq_true]
  have hproject {id : ProjectId} {f : Project → Project} (hf : ∀ p, (f p).id = p.id) :
      ((db.projects.map fun p => if p.id = id then f p else p).filter
          fun p => δ'.project p.id == some u) =
        (db.projects.filter fun p => δ'.project p.id == some u).map
          fun p => if p.id = id then f p else p :=
    Table.filter_update_comm fun p _ => by rw [hf]
  have hdeployment {d : Deployment} (hd : δ.project d.projectId = some u) :
      ((db.deployments ++ [d]).filter fun d => δ'.project d.projectId == some u) =
        (db.deployments.filter fun d => δ'.project d.projectId == some u) ++ [d] :=
    Table.filter_append_seen fun d' hd' => List.mem_singleton.mp hd' ▸ hseen hd
  cases c with
  | openDraft t =>
    simp only [Command.change, Database.openDraft, Database.ownBy, Database.gitAccountsOf]
    rw [Table.filter_append_seen fun t' ht' => ?_]
    rw [List.mem_singleton.mp ht']
    exact beq_iff_eq.mpr hu
  | commitDraft t =>
    have hid : δ.project t.project.id = some u := hl.project.trans (congrArg some hu)
    simp only [Command.change, Database.insertDraft, Database.closeDraft, Database.ownBy,
      Database.gitAccountsOf, Table.filter_drop_comm, hdeployment (hl.whole.deployment ▸ hid)]
    congr 1
    · exact Table.filter_append_seen fun p hp => List.mem_singleton.mp hp ▸ hseen hid
    · exact Table.filter_append_seen fun x hx =>
        (congrArg (fun id => δ'.project id == some u)
          (hl.whole.environmentVariables x hx)).trans (hseen hid)
    · exact Table.filter_append_seen fun d hd => by
        rw [List.mem_singleton.mp hd, hl.whole.domain]
        exact hseen hid
  | rollbackDraft id =>
    simp only [Command.change, Database.closeDraft, Database.ownBy, Database.gitAccountsOf,
      Table.filter_drop_comm]
  | createDeployment d =>
    simp only [Command.change, Database.createDeployment, Database.ownBy, Database.gitAccountsOf,
      hdeployment hu]
  | createRedeployment d =>
    simp only [Command.change, Database.createDeployment, Database.updateProject, Database.ownBy,
      Database.gitAccountsOf, hdeployment hu]
    congr 1
    exact hproject fun _ => rfl
  | writeStatus id s =>
    simp only [Command.change, Database.updateDeployment, Database.ownBy, Database.gitAccountsOf]
    congr 1
    exact Table.filter_update_comm fun d _ => by rw [StatusWrite.apply_projectId]
  | updateProject id dto =>
    simp only [Command.change, Database.updateProject, Database.ownBy, Database.gitAccountsOf]
    congr 1
    exact hproject fun _ => rfl
  | setOnlineStatus id status =>
    simp only [Command.change, Database.updateProject, Database.ownBy, Database.gitAccountsOf]
    congr 1
    exact hproject fun _ => rfl
  | deleteProject id =>
    simp only [Command.change, Database.deleteProject, Database.ownBy, Database.gitAccountsOf,
      Table.filter_drop_comm]
  | createDomain d =>
    simp only [Command.change, Database.createDomain, Database.ownBy, Database.gitAccountsOf]
    rw [Table.filter_append_seen fun d' hd' => List.mem_singleton.mp hd' ▸ hseen hu]
  | deleteDomain id =>
    simp only [Command.change, Database.deleteDomain, Database.ownBy, Database.gitAccountsOf,
      Table.filter_drop_comm]
  | updateDomainStatus id status error =>
    simp only [Command.change, Database.updateDomain, Database.ownBy, Database.gitAccountsOf]
    congr 1
    exact Table.filter_update_comm fun d _ => rfl
  | replaceEnvironmentVariables id rows =>
    simp only [Command.change, Database.replaceEnvironmentVariables, Database.updateProject,
      Database.ownBy, Database.gitAccountsOf]
    congr 1
    · exact hproject fun _ => rfl
    · rw [Table.filter_append_seen fun x hx => hl.2 x hx ▸ hseen hu, Table.filter_drop_comm]
  | setSystemConfigs configs => exact (hc configs rfl).elim
  | setGitAccounts | shuffleDeployments => exact hu.elim
  | _ => rfl

end System
end Code2Cloud
