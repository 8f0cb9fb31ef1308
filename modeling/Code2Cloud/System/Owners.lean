import Code2Cloud.System.Estates
import Code2Cloud.System.Tenants

/-!
# Owners

A call looks a row up under its user before it goes on with the row's identifier.  So all that it
holds between two requests is its user's, and so is what its commands touch.
-/

namespace Code2Cloud
namespace System

open Api

variable {cfg : Config} {w : World} {r : Reply} {δ δ' : Deeds} {u : UserId}

/-! ## What a call holds -/

def Call.OwnedBy (δ : Deeds) (u : UserId) : Call → Prop
  | .createDeployment c =>
    match c with
    | .findProject userId _ => userId = u
    | .findGitAccounts userId l | .findLatest userId l _ | .getLatestCommit userId l _
    | .insert userId l _ _ => userId = u ∧ δ.project l.project.id = some u
    | .enqueue _ => True
  | .cancel c =>
    match c with
    | .find userId _ => userId = u
    | .update id | .publish id => δ.owner (.deployment id) = some u
  | .updateStatus c =>
    match c with
    | .find userId _ _ => userId = u
    | .update id _ => δ.owner (.deployment id) = some u
  | .createProject c =>
    match c with
    | .findExisting userId _ | .findGitAccounts userId _ | .getLatestCommit userId _ _
    | .insert userId _ _ _ => userId = u
    | .enqueue draft _ | .commit draft | .rollback draft =>
      δ.Holds draft ∧ draft.project.userId = u
  | .updateProject c =>
    match c with
    | .findOne _ userId _ => userId = u
    | .update id _ => δ.project id = some u
  | .removeProject c =>
    match c with
    | .findProject _ userId => userId = u
    | .publish cleanup _ | .enqueue cleanup => δ.project cleanup.projectId = some u
    | .delete id => δ.project id = some u
  | .createDomain c =>
    match c with
    | .findProject userId _ _ => userId = u
    | .findExisting projectId _ | .insert projectId _ => δ.project projectId = some u
  | .removeDomain c =>
    match c with
    | .find userId _ => userId = u
    | .delete id => δ.owner (.domain id) = some u
  | .push _ | .late _ => False

theorem Call.OwnedBy.mono {c : Call} (h : c.OwnedBy δ u) (hδ : δ ≤ δ') : c.OwnedBy δ' u := by
  cases c with
  | createDeployment c =>
    cases c with
    | findProject => exact h
    | enqueue => trivial
    | _ => exact h.imp_right (hδ.1 _ _)
  | cancel c | updateStatus c | removeDomain c =>
    cases c with
    | find => exact h
    | _ => exact Deeds.owner_mono hδ h
  | createProject c =>
    cases c with
    | enqueue | commit | rollback => exact h.imp_left fun hholds => hholds.mono hδ
    | _ => exact h
  | updateProject c =>
    cases c with
    | findOne => exact h
    | update => exact hδ.1 _ _ h
  | removeProject c | createDomain c =>
    cases c with
    | findProject => exact h
    | _ => exact hδ.1 _ _ h
  | push | late => exact h

/-! ## A step of a call -/

/-- The command keeps the tables in order and stays within the user's rows, and what the call goes
on with is the user's. -/
structure Careful (δ : Deeds) (u : UserId) (w : World) (t : Turn (Option Call)) : Prop where
  lawful : t.command.Lawful δ w.db
  within : t.command.Within δ w.db u
  next : ∀ c ∈ t.next, c.OwnedBy (δ.extend (t.command.change w.now w.db)) u

theorem ownedBy_none : ∀ c ∈ (none : Option Call), c.OwnedBy δ u :=
  fun _ h => by cases h

theorem careful_pure {next : Option Call} (entries : List Entry) (h : ∀ c ∈ next, c.OwnedBy δ u) :
    Careful δ u w (.pure next entries) where
  lawful := trivial
  within := trivial
  next c hc := (h c hc).mono (Deeds.le_extend _ _)

theorem careful_query (o : Outcome) {ok err : Option Call} (hok : ∀ c ∈ ok, c.OwnedBy δ u)
    (herr : ∀ c ∈ err, c.OwnedBy δ u) : Careful δ u w (query o (.pure ok) (.pure err)) := by
  unfold query
  split
  · exact careful_pure [] hok
  · exact careful_pure [] herr

theorem careful_issue {c : Command} (o : Outcome) {ok err : Option Call}
    (entries errors : List Entry)
    (hc : w.admits c = true → c.Lawful δ w.db ∧ c.Within δ w.db u)
    (hok : ∀ c ∈ ok, c.OwnedBy δ u) (herr : ∀ c ∈ err, c.OwnedBy δ u) :
    Careful δ u w (issue w o c ok err entries errors) := by
  rcases issue_cases w o c ok err entries errors with ⟨ha, h⟩ | ⟨ha, h⟩ | h <;> rw [h]
  · exact ⟨(hc ha).1, (hc ha).2, fun c hmem => (hok c hmem).mono (Deeds.le_extend _ _)⟩
  · exact ⟨(hc ha).1, (hc ha).2, fun c hmem => (herr c hmem).mono (Deeds.le_extend _ _)⟩
  · exact ⟨trivial, trivial, fun c hmem => (herr c hmem).mono (Deeds.le_extend _ _)⟩

theorem hasProject_of_find {db : Database} {id : ProjectId}
    (h : (db.findProject id).isSome = true) :
    db.HasProject id := by
  obtain ⟨p, hp⟩ := Option.isSome_iff_exists.mp h
  exact ⟨p, List.mem_of_find?_eq_some hp, by simpa using List.find?_some hp⟩

/-- The transaction of a new project is drawn from the counter. -/
theorem lawful_draft (e : EncryptionService) (deployDomain hash : String) (ivs : Nat → Iv)
    (now : Nat) (db : Database) (userId : UserId) (dto : CreateProjectDto) (commit : CommitData) :
    (Command.openDraft (ProjectsService.draft e deployDomain hash ivs now db userId dto
      commit)).Lawful δ db := by
  refine ⟨⟨fun x hx => ?_, rfl, rfl⟩, rfl, rfl, rfl⟩
  obtain ⟨v, hv, hproject⟩ := EnvironmentVariables.projectId_of_mem_encryptAll e hx
  rw [hproject]
  obtain ⟨kv, _, rfl⟩ := List.mem_map.mp hv
  rfl

namespace Call

variable (hcovers : δ.Covers w.db)
include hcovers

theorem careful_createDeployment {c : DeploymentsService.Create}
    (h : (Call.createDeployment c).OwnedBy δ u) :
    Careful δ u w ((Call.createDeployment c).step cfg w r) := by
  cases c with
  | findProject userId projectId =>
    simp only [step, DeploymentsService.Create.step, Turn.map_query, Turn.map_pure]
    refine careful_query _ ?_ ownedBy_none
    cases hp : w.db.findOwnedProject projectId userId with
    | none => exact ownedBy_none
    | some p =>
      obtain ⟨hid, huser, hproject⟩ := hcovers.of_findOwnedProject hp
      rintro _ ⟨⟩
      exact ⟨h, by rw [load, hid, hproject, show userId = u from h]⟩
  | findGitAccounts userId l =>
    simp only [step, DeploymentsService.Create.step, Turn.map_query, Turn.map_pure]
    refine careful_query _ ?_ ownedBy_none
    split
    · exact ownedBy_none
    · rintro _ ⟨⟩
      exact h
  | findLatest userId l accounts =>
    simp only [step, DeploymentsService.Create.step, Turn.map_query, Turn.map_pure]
    refine careful_query _ ?_ ownedBy_none
    split
    · exact ownedBy_none
    · split
      · exact ownedBy_none
      · rintro _ ⟨⟩
        exact h
  | getLatestCommit userId l installationId =>
    refine careful_pure [] ?_
    rintro _ ⟨⟩
    exact h
  | insert userId l installationId commit =>
    simp only [step, DeploymentsService.Create.step, Turn.map_issue]
    refine careful_issue _ _ _ (fun ha => ⟨⟨rfl, hasProject_of_find ha⟩, h.2⟩) ?_ ownedBy_none
    rintro _ ⟨⟩
    trivial
  | enqueue job =>
    simp only [step, DeploymentsService.Create.step, Turn.map_issue]
    exact careful_issue _ _ _ (fun _ => ⟨trivial, trivial⟩) ownedBy_none ownedBy_none

theorem careful_cancel {c : DeploymentsService.Cancel} (h : (Call.cancel c).OwnedBy δ u) :
    Careful δ u w ((Call.cancel c).step cfg w r) := by
  cases c with
  | find userId id =>
    simp only [step, DeploymentsService.Cancel.step, Turn.map_query, Turn.map_pure]
    refine careful_query _ ?_ ownedBy_none
    cases hd : w.db.findOwnedDeployment id userId with
    | none => exact ownedBy_none
    | some d =>
      obtain ⟨_, hdeployment, hproject⟩ := hcovers.of_findOwnedDeployment hd
      dsimp only
      split
      · rintro _ ⟨⟩
        exact Option.bind_eq_some_iff.mpr ⟨_, hdeployment, by rw [hproject, show userId = u from h]⟩
      · exact ownedBy_none
  | update id =>
    simp only [step, DeploymentsService.Cancel.step, Turn.map_issue]
    refine careful_issue _ _ _ (fun _ => ⟨trivial, h⟩) ?_ ownedBy_none
    rintro _ ⟨⟩
    exact h
  | publish id =>
    simp only [step, DeploymentsService.Cancel.step, Turn.map_issue]
    exact careful_issue _ _ _ (fun _ => ⟨trivial, trivial⟩) ownedBy_none ownedBy_none

theorem careful_updateStatus {c : DeploymentsService.UpdateStatus}
    (h : (Call.updateStatus c).OwnedBy δ u) :
    Careful δ u w ((Call.updateStatus c).step cfg w r) := by
  cases c with
  | find userId id status =>
    simp only [step, DeploymentsService.UpdateStatus.step, Turn.map_query, Turn.map_pure]
    refine careful_query _ ?_ ownedBy_none
    cases hd : w.db.findOwnedDeployment id userId with
    | none => exact ownedBy_none
    | some d =>
      obtain ⟨_, hdeployment, hproject⟩ := hcovers.of_findOwnedDeployment hd
      rintro _ ⟨⟩
      exact Option.bind_eq_some_iff.mpr ⟨_, hdeployment, by rw [hproject, show userId = u from h]⟩
  | update id status =>
    simp only [step, DeploymentsService.UpdateStatus.step, Turn.map_issue]
    exact careful_issue _ _ _ (fun _ => ⟨trivial, h⟩) ownedBy_none ownedBy_none

theorem careful_createProject {c : ProjectsService.Create}
    (h : (Call.createProject c).OwnedBy δ u) :
    Careful δ u w ((Call.createProject c).step cfg w r) := by
  cases c with
  | findExisting userId dto =>
    simp only [step, ProjectsService.Create.step, Turn.map_query, Turn.map_pure]
    refine careful_query _ ?_ ownedBy_none
    split
    · exact ownedBy_none
    · rintro _ ⟨⟩
      exact h
  | findGitAccounts userId dto =>
    simp only [step, ProjectsService.Create.step, Turn.map_query, Turn.map_pure]
    refine careful_query _ ?_ ownedBy_none
    split
    · exact ownedBy_none
    · split
      · exact ownedBy_none
      · rintro _ ⟨⟩
        exact h
  | getLatestCommit userId dto installationId =>
    refine careful_pure [] ?_
    rintro _ ⟨⟩
    exact h
  | insert userId dto installationId commit =>
    simp only [step, ProjectsService.Create.step]
    split
    · have hlawful := lawful_draft (δ := δ) cfg.encryption cfg.deployDomain r.hash r.ivs w.now w.db
        userId dto commit
      refine ⟨hlawful, h, ?_⟩
      rintro _ ⟨⟩
      refine ⟨(covers_change w.now hcovers hlawful).draft ?_, h⟩
      exact List.mem_append_right _ (List.mem_singleton_self _)
    · exact careful_pure [] ownedBy_none
  | enqueue draft job =>
    simp only [step, ProjectsService.Create.step, Turn.map_issue]
    refine careful_issue _ _ _ (fun _ => ⟨trivial, trivial⟩) ?_ ?_
    · rintro _ ⟨⟩
      exact h
    · rintro _ ⟨⟩
      exact h
  | commit draft =>
    have hid : δ.project draft.project.id = some u := h.1.project.trans (congrArg some h.2)
    simp only [step, ProjectsService.Create.step]
    cases r.outcome with
    | ok | lost => exact ⟨h.1, h.2, ownedBy_none⟩
    | fail | late => exact ⟨trivial, hid, ownedBy_none⟩
  | rollback draft => exact ⟨trivial, h.1.project.trans (congrArg some h.2), ownedBy_none⟩

theorem careful_updateProject {c : ProjectsService.Update}
    (h : (Call.updateProject c).OwnedBy δ u) :
    Careful δ u w ((Call.updateProject c).step cfg w r) := by
  cases c with
  | findOne id userId dto =>
    simp only [step, ProjectsService.Update.step, Turn.map_query, Turn.map_pure]
    refine careful_query _ ?_ ownedBy_none
    cases hp : w.db.findOwnedProject id userId with
    | none => exact ownedBy_none
    | some p =>
      rintro _ ⟨⟩
      exact (hcovers.of_findOwnedProject hp).2.2.trans (congrArg some h)
  | update id dto =>
    simp only [step, ProjectsService.Update.step, Turn.map_issue]
    exact careful_issue _ _ _ (fun _ => ⟨trivial, h⟩) ownedBy_none ownedBy_none

omit hcovers in
theorem ownedBy_afterPublish {cleanup : ProjectCleanupJob}
    (h : δ.project cleanup.projectId = some u) :
    (Call.removeProject (ProjectsService.Remove.afterPublish cleanup)).OwnedBy δ u := by
  unfold ProjectsService.Remove.afterPublish
  split <;> exact h

theorem careful_removeProject {c : ProjectsService.Remove}
    (h : (Call.removeProject c).OwnedBy δ u) :
    Careful δ u w ((Call.removeProject c).step cfg w r) := by
  cases c with
  | findProject id userId =>
    simp only [step, ProjectsService.Remove.step, Turn.map_query, Turn.map_pure]
    refine careful_query _ ?_ ownedBy_none
    cases hp : w.db.findOwnedProject id userId with
    | none => exact ownedBy_none
    | some p =>
      obtain ⟨hid, _, hproject⟩ := hcovers.of_findOwnedProject hp
      have hp : δ.project p.id = some u := by rw [hid, hproject, show userId = u from h]
      dsimp only
      split
      · rintro _ ⟨⟩
        exact ownedBy_afterPublish hp
      · rintro _ ⟨⟩
        exact hp
  | publish cleanup ids =>
    cases ids with
    | nil =>
      refine careful_pure [] ?_
      rintro _ ⟨⟩
      exact ownedBy_afterPublish h
    | cons id ids =>
      simp only [step, ProjectsService.Remove.step, Turn.map_issue]
      refine careful_issue _ _ _ (fun _ => ⟨trivial, trivial⟩) ?_ ownedBy_none
      rintro _ ⟨⟩
      split
      · exact ownedBy_afterPublish h
      · exact h
  | enqueue cleanup =>
    simp only [step, ProjectsService.Remove.step, Turn.map_issue]
    refine careful_issue _ _ _ (fun _ => ⟨trivial, trivial⟩) ?_ ?_
    · rintro _ ⟨⟩
      exact h
    · rintro _ ⟨⟩
      exact h
  | delete id =>
    simp only [step, ProjectsService.Remove.step, Turn.map_issue]
    exact careful_issue _ _ _ (fun _ => ⟨trivial, h⟩) ownedBy_none ownedBy_none

theorem careful_createDomain {c : DomainsService.Create} (h : (Call.createDomain c).OwnedBy δ u) :
    Careful δ u w ((Call.createDomain c).step cfg w r) := by
  cases c with
  | findProject userId projectId domainName =>
    simp only [step, DomainsService.Create.step, Turn.map_query, Turn.map_pure]
    refine careful_query _ ?_ ownedBy_none
    cases hp : w.db.findOwnedProject projectId userId with
    | none => exact ownedBy_none
    | some p =>
      rintro _ ⟨⟩
      exact (hcovers.of_findOwnedProject hp).2.2.trans (congrArg some h)
  | findExisting projectId domainName =>
    simp only [step, DomainsService.Create.step, Turn.map_query, Turn.map_pure]
    refine careful_query _ ?_ ownedBy_none
    split
    · exact ownedBy_none
    · rintro _ ⟨⟩
      exact h
  | insert projectId domainName =>
    simp only [step, DomainsService.Create.step, Turn.map_issue]
    refine careful_issue _ _ _ (fun ha => ⟨⟨rfl, hasProject_of_find ?_⟩, h⟩) ownedBy_none
      ownedBy_none
    rw [World.admits, Bool.and_eq_true] at ha
    exact ha.1

theorem careful_removeDomain {c : DomainsService.Remove} (h : (Call.removeDomain c).OwnedBy δ u) :
    Careful δ u w ((Call.removeDomain c).step cfg w r) := by
  cases c with
  | find userId id =>
    simp only [step, DomainsService.Remove.step, Turn.map_query, Turn.map_pure]
    refine careful_query _ ?_ ownedBy_none
    cases hd : w.db.findOwnedDomain id userId with
    | none => exact ownedBy_none
    | some d =>
      obtain ⟨_, hdomain, hproject⟩ := hcovers.of_findOwnedDomain hd
      rintro _ ⟨⟩
      exact Option.bind_eq_some_iff.mpr ⟨_, hdomain, by rw [hproject, show userId = u from h]⟩
  | delete id =>
    simp only [step, DomainsService.Remove.step, Turn.map_issue]
    exact careful_issue _ _ _ (fun _ => ⟨trivial, h⟩) ownedBy_none ownedBy_none

theorem careful_step (cfg : Config) (r : Reply) {c : Call} (h : c.OwnedBy δ u) :
    Careful δ u w (c.step cfg w r) := by
  cases c with
  | createDeployment c => exact careful_createDeployment hcovers h
  | cancel c => exact careful_cancel hcovers h
  | updateStatus c => exact careful_updateStatus hcovers h
  | createProject c => exact careful_createProject hcovers h
  | updateProject c => exact careful_updateProject hcovers h
  | removeProject c => exact careful_removeProject hcovers h
  | createDomain c => exact careful_createDomain hcovers h
  | removeDomain c => exact careful_removeDomain hcovers h
  | push | late => exact h.elim

end Call
end System
end Code2Cloud
