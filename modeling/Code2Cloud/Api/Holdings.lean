import Code2Cloud.Api.Discreet
import Mathlib.Data.List.Find

/-!
# Holdings

What a change of the tables does to the rows of one user: nothing where the row that is changed is
of another user.
-/

namespace Code2Cloud
namespace Api

variable {db db' : Database} {δ δ' : Deeds} {u v : UserId}

theorem Deeds.Covers.hasProject (h : δ.Covers db) {id : ProjectId} (hid : db.HasProject id) :
    ∃ w, δ.project id = some w := by
  obtain ⟨p, hp, rfl⟩ := hid
  exact ⟨p.userId, h.project hp⟩

/-- Of rows that are there, later deeds say what earlier ones do. -/
theorem Deeds.Covers.ownBy_mono (h : δ.Covers db) (hδ : δ ≤ δ') :
    db.ownBy δ v = db.ownBy δ' v := by
  have hsame {id : ProjectId} (hid : db.HasProject id) : δ.project id = δ'.project id := by
    obtain ⟨w, hw⟩ := h.hasProject hid
    rw [hw, hδ.1 _ _ hw]
  rw [Database.ownBy, Database.ownBy]
  congr 1
  · exact List.filter_congr fun p hp => by rw [hsame ⟨p, hp, rfl⟩]
  · exact List.filter_congr fun x hx => by rw [hsame (h.linked.environmentVariables x hx)]
  · exact List.filter_congr fun d hd => by rw [hsame (h.linked.deployments d hd)]
  · exact List.filter_congr fun d hd => by rw [hsame (h.linked.domains d hd)]

/-! ## Rows of another user -/

namespace Database

section

variable {id : ProjectId} (hid : δ.project id ≠ some v)
include hid

theorem ownBy_updateProject {f : Project → Project} (hf : ∀ p, (f p).id = p.id) :
    (db.updateProject id f).ownBy δ v = db.ownBy δ v := by
  rw [ownBy, ownBy, updateProject]
  congr 1
  refine Table.filter_update_unseen fun p _ hp => ?_
  rw [hf, hp, beq_eq_false_iff_ne.mpr hid]
  exact ⟨rfl, rfl⟩

theorem ownBy_createDeployment {d : Deployment} (hd : d.projectId = id) :
    (db.createDeployment d).ownBy δ v = db.ownBy δ v := by
  rw [ownBy, ownBy, createDeployment]
  congr 1
  exact Table.filter_append_unseen fun d' hd' => by
    rw [List.mem_singleton.mp hd', hd, beq_eq_false_iff_ne.mpr hid]

theorem ownBy_createDomain {d : Domain} (hd : d.projectId = id) :
    (db.createDomain d).ownBy δ v = db.ownBy δ v := by
  rw [ownBy, ownBy, createDomain]
  congr 1
  exact Table.filter_append_unseen fun d' hd' => by
    rw [List.mem_singleton.mp hd', hd, beq_eq_false_iff_ne.mpr hid]

theorem ownBy_deleteProject : (db.deleteProject id).ownBy δ v = db.ownBy δ v := by
  rw [ownBy, ownBy, deleteProject]
  congr 1
  · exact Table.filter_drop_unseen fun p _ hp => by rw [hp, beq_eq_false_iff_ne.mpr hid]
  · exact Table.filter_drop_unseen fun x _ hx => by rw [hx, beq_eq_false_iff_ne.mpr hid]
  · exact Table.filter_drop_unseen fun d _ hd => by rw [hd, beq_eq_false_iff_ne.mpr hid]
  · exact Table.filter_drop_unseen fun d _ hd => by rw [hd, beq_eq_false_iff_ne.mpr hid]

theorem ownBy_replaceEnvironmentVariables {rows : List EnvironmentVariable}
    (hrows : ∀ x ∈ rows, x.projectId = id) :
    (db.replaceEnvironmentVariables id rows).ownBy δ v = db.ownBy δ v := by
  rw [ownBy, ownBy, replaceEnvironmentVariables]
  congr 1
  rw [Table.filter_append_unseen fun x hx => by rw [hrows x hx, beq_eq_false_iff_ne.mpr hid]]
  exact Table.filter_drop_unseen fun x _ hx => by rw [hx, beq_eq_false_iff_ne.mpr hid]

theorem ownBy_insertDraft {t : Draft} (ht : t.Whole) (hproject : t.project.id = id) :
    (db.insertDraft t).ownBy δ v = db.ownBy δ v := by
  subst hproject
  rw [ownBy, ownBy, insertDraft]
  congr 1
  · exact Table.filter_append_unseen fun p hp => by
      rw [List.mem_singleton.mp hp, beq_eq_false_iff_ne.mpr hid]
  · exact Table.filter_append_unseen fun x hx => by
      rw [ht.environmentVariables x hx, beq_eq_false_iff_ne.mpr hid]
  · exact Table.filter_append_unseen fun d hd => by
      rw [List.mem_singleton.mp hd, ht.deployment, beq_eq_false_iff_ne.mpr hid]
  · exact Table.filter_append_unseen fun d hd => by
      rw [List.mem_singleton.mp hd, ht.domain, beq_eq_false_iff_ne.mpr hid]

end

theorem ownBy_updateDeployment {id : DeploymentId} {f : Deployment → Deployment}
    (hid : ∀ d ∈ db.deployments, d.id = id → δ.project d.projectId ≠ some v)
    (hf : ∀ d, (f d).projectId = d.projectId) :
    (db.updateDeployment id f).ownBy δ v = db.ownBy δ v := by
  rw [ownBy, ownBy, updateDeployment]
  congr 1
  refine Table.filter_update_unseen fun d hd hdid => ?_
  rw [hf, beq_eq_false_iff_ne.mpr (hid d hd hdid)]
  exact ⟨rfl, rfl⟩

theorem ownBy_updateDomain {id : DomainId} {f : Domain → Domain}
    (hid : ∀ d ∈ db.domains, d.id = id → δ.project d.projectId ≠ some v)
    (hf : ∀ d, (f d).projectId = d.projectId) :
    (db.updateDomain id f).ownBy δ v = db.ownBy δ v := by
  rw [ownBy, ownBy, updateDomain]
  congr 1
  refine Table.filter_update_unseen fun d hd hdid => ?_
  rw [hf, beq_eq_false_iff_ne.mpr (hid d hd hdid)]
  exact ⟨rfl, rfl⟩

theorem ownBy_deleteDomain {id : DomainId}
    (hid : ∀ d ∈ db.domains, d.id = id → δ.project d.projectId ≠ some v) :
    (db.deleteDomain id).ownBy δ v = db.ownBy δ v := by
  rw [ownBy, ownBy, deleteDomain]
  congr 1
  exact Table.filter_drop_unseen fun d hd hdid => beq_eq_false_iff_ne.mpr (hid d hd hdid)

theorem ownBy_openDraft {t : Draft} (ht : t.project.userId ≠ v) :
    (db.openDraft t).ownBy δ v = db.ownBy δ v := by
  rw [ownBy, ownBy, openDraft]
  congr 1
  exact Table.filter_append_unseen fun t' ht' => by
    rw [List.mem_singleton.mp ht', beq_eq_false_iff_ne.mpr ht]

theorem ownBy_closeDraft {id : ProjectId}
    (hid : ∀ t ∈ db.drafts, t.project.id = id → t.project.userId ≠ v) :
    (db.closeDraft id).ownBy δ v = db.ownBy δ v := by
  rw [ownBy, ownBy, closeDraft]
  congr 1
  exact Table.filter_drop_unseen fun t ht htid => beq_eq_false_iff_ne.mpr (hid t ht htid)

end Database

/-! ## Rows of the user -/

theorem Deeds.Covers.findDeployment_of_owner (h : δ.Covers db) {id : DeploymentId}
    (hid : δ.owner (.deployment id) = some u) :
    (db.own u).findDeployment id = db.findDeployment id := by
  rw [h.own_eq]
  refine (Table.find?_filter_eq _ _).trans (List.find?_congr fun d hd => ?_)
  by_cases hdid : d.id = id
  · rw [← hdid, owner, h.deployment hd, Option.bind_some] at hid
    simp [hid]
  · simp [hdid]

theorem Deeds.Covers.findDomain_of_owner (h : δ.Covers db) {id : DomainId}
    (hid : δ.owner (.domain id) = some u) : (db.own u).findDomain id = db.findDomain id := by
  rw [h.own_eq]
  refine (Table.find?_filter_eq _ _).trans (List.find?_congr fun d hd => ?_)
  by_cases hdid : d.id = id
  · rw [← hdid, owner, h.domain hd, Option.bind_some] at hid
    simp [hid]
  · simp [hdid]

theorem Deeds.Covers.domainsOf_own (h : δ.Covers db) {id : ProjectId}
    (hid : δ.project id = some u) : (db.own u).domainsOf id = db.domainsOf id := by
  rw [Database.domainsOf, Database.domainsOf, h.domains_own hid]

/-! ## A row after an update -/

theorem Database.findDeployment_updateDeployment {db : Database} {id : DeploymentId}
    {f : Deployment → Deployment} (hf : ∀ d, (f d).id = d.id) :
    (db.updateDeployment id f).findDeployment id = (db.findDeployment id).map f := by
  rw [findDeployment, findDeployment, updateDeployment, List.find?_map]
  have hkey : ((fun d : Deployment => d.id == id) ∘ fun d => if d.id = id then f d else d) =
      fun d => d.id == id := by
    funext d
    rw [Function.comp_apply]
    split
    · rw [hf]
    · rfl
  rw [hkey]
  cases hfound : db.deployments.find? fun d => d.id == id with
  | none => rfl
  | some d => rw [Option.map_some, Option.map_some, if_pos (by simpa using List.find?_some hfound)]

theorem Database.findProject_updateProject {db : Database} {id : ProjectId}
    {f : Project → Project} (hf : ∀ p, (f p).id = p.id) :
    (db.updateProject id f).findProject id = (db.findProject id).map f := by
  rw [findProject, findProject, updateProject, List.find?_map]
  have hkey : ((fun p : Project => p.id == id) ∘ fun p => if p.id = id then f p else p) =
      fun p => p.id == id := by
    funext p
    rw [Function.comp_apply]
    split
    · rw [hf]
    · rfl
  rw [hkey]
  cases hfound : db.projects.find? fun p => p.id == id with
  | none => rfl
  | some p => rw [Option.map_some, Option.map_some, if_pos (by simpa using List.find?_some hfound)]

theorem SettingsService.filter_upsert (e : EncryptionService) (iv : Iv) (u : UserId)
    (dto : UpdateSettingsDto) (configs : List SystemConfig) :
    (upsert e iv u dto configs).filter (fun c => c.userId == u) =
      upsert e iv u dto (configs.filter fun c => c.userId == u) := by
  have hany : (configs.filter fun c => c.userId == u).any (fun c => c.userId == u) =
      configs.any fun c => c.userId == u := by
    rw [List.any_filter]
    simp only [Bool.and_self]
  rw [upsert, upsert, hany]
  split
  · refine Table.filter_map_comm fun c _ => ?_
    split
    · rw [update_userId]
    · rfl
  · have hnew : ([create e iv u dto].filter fun c => c.userId == u) = [create e iv u dto] :=
      List.filter_eq_self.mpr fun c hc => by
        rw [List.mem_singleton.mp hc]
        exact beq_self_eq_true u
    rw [List.filter_append, hnew]

end Api
end Code2Cloud
