import Code2Cloud.System.Custody

/-!
# Secrecy

What a user's calls learn of other users' rows: whether a name is taken.  Two worlds that differ
in more than that, but not in the user's own rows, are the same to them.
-/

namespace Code2Cloud
namespace Api
namespace Database

variable (db : Database) (u : UserId)

/-- The name of another user's project. -/
def projectTaken (name : ProjectName) : Prop := ∃ p ∈ db.projects, p.name = name ∧ p.userId ≠ u

/-- The name of a domain of another user's project. -/
def domainTaken (name : String) : Prop :=
  ∃ d ∈ db.domains, d.name = name ∧ db.findOwnedProject d.projectId u = none

/-- The names in another user's open transaction. -/
def projectHeld (name : ProjectName) : Prop :=
  ∃ t ∈ db.drafts, t.project.name = name ∧ t.project.userId ≠ u

def domainHeld (name : String) : Prop :=
  ∃ t ∈ db.drafts, t.domain.name = name ∧ t.project.userId ≠ u

end Database
end Api

namespace System

open Api Worker
open Logs (LogEntry)

/-- A user tells two states apart by the user's own rows, and of others' by taken names only; the
identifier that is drawn next is drawn for all users. -/
structure SameFor (u : UserId) (w₁ w₂ : World) : Prop where
  own : w₁.db.own u = w₂.db.own u
  now : w₁.now = w₂.now
  nextId : w₁.db.nextId = w₂.db.nextId
  projectTaken : ∀ name, w₁.db.projectTaken u name ↔ w₂.db.projectTaken u name
  domainTaken : ∀ name, w₁.db.domainTaken u name ↔ w₂.db.domainTaken u name
  projectHeld : ∀ name, w₁.db.projectHeld u name ↔ w₂.db.projectHeld u name
  domainHeld : ∀ name, w₁.db.domainHeld u name ↔ w₂.db.domainHeld u name

variable {cfg : Config} {w₁ w₂ : World} {logs₁ logs₂ : List LogEntry} {r : Reply}
  {δ₁ δ₂ : Deeds} {u : UserId}

namespace SameFor

theorem symm (h : SameFor u w₁ w₂) : SameFor u w₂ w₁ where
  own := h.own.symm
  now := h.now.symm
  nextId := h.nextId.symm
  projectTaken name := (h.projectTaken name).symm
  domainTaken name := (h.domainTaken name).symm
  projectHeld name := (h.projectHeld name).symm
  domainHeld name := (h.domainHeld name).symm

variable (h : SameFor u w₁ w₂)
include h

/-! ## Queries -/

theorem findOwnedProject (id : ProjectId) :
    w₁.db.findOwnedProject id u = w₂.db.findOwnedProject id u := by
  rw [← Database.findOwnedProject_own, h.own, Database.findOwnedProject_own]

theorem findOwnedDeployment (id : DeploymentId) :
    w₁.db.findOwnedDeployment id u = w₂.db.findOwnedDeployment id u := by
  rw [← Database.findOwnedDeployment_own, h.own, Database.findOwnedDeployment_own]

theorem findOwnedDomain (id : DomainId) :
    w₁.db.findOwnedDomain id u = w₂.db.findOwnedDomain id u := by
  rw [← Database.findOwnedDomain_own, h.own, Database.findOwnedDomain_own]

theorem gitAccountsOf : w₁.db.gitAccountsOf u = w₂.db.gitAccountsOf u := by
  rw [← Database.gitAccountsOf_own, h.own, Database.gitAccountsOf_own]

theorem systemConfigOf : w₁.db.systemConfigOf u = w₂.db.systemConfigOf u := by
  rw [← Database.systemConfigOf_own, h.own, Database.systemConfigOf_own]

section

variable (h₁ : δ₁.Covers w₁.db) (h₂ : δ₂.Covers w₂.db)
include h₁ h₂

section

variable {id : ProjectId} (hid₁ : δ₁.project id = some u) (hid₂ : δ₂.project id = some u)
include hid₁ hid₂

theorem findProject : w₁.db.findProject id = w₂.db.findProject id := by
  rw [← h₁.findProject_own hid₁, h.own, h₂.findProject_own hid₂]

theorem deploymentsOf : w₁.db.deploymentsOf id = w₂.db.deploymentsOf id := by
  rw [← h₁.deploymentsOf_own hid₁, h.own, h₂.deploymentsOf_own hid₂]

theorem environmentVariablesOf :
    w₁.db.environmentVariablesOf id = w₂.db.environmentVariablesOf id := by
  rw [← h₁.environmentVariablesOf_own hid₁, h.own, h₂.environmentVariablesOf_own hid₂]

theorem domainsOf : w₁.db.domainsOf id = w₂.db.domainsOf id := by
  rw [← h₁.domainsOf_own hid₁, h.own, h₂.domainsOf_own hid₂]

end

theorem findDeployment {id : DeploymentId} (hid₁ : δ₁.owner (.deployment id) = some u)
    (hid₂ : δ₂.owner (.deployment id) = some u) :
    w₁.db.findDeployment id = w₂.db.findDeployment id := by
  rw [← h₁.findDeployment_of_owner hid₁, h.own, h₂.findDeployment_of_owner hid₂]

theorem findDomain {id : DomainId} (hid₁ : δ₁.owner (.domain id) = some u)
    (hid₂ : δ₂.owner (.domain id) = some u) : w₁.db.findDomain id = w₂.db.findDomain id := by
  rw [← h₁.findDomain_of_owner hid₁, h.own, h₂.findDomain_of_owner hid₂]

end

/-! ## Names -/

/-- A name of which the own rows and the taken names say that it is free is free. -/
theorem free_of_free (name : ProjectName) {P : Project → Bool}
    (hP : ∀ p ∈ w₁.db.projects, p.userId ≠ u → P p = true)
    (hfree : ∀ p ∈ w₁.db.projects, p.name = name → P p = false) :
    ∀ p ∈ w₂.db.projects, p.name = name → P p = false := by
  intro p hp hname
  by_cases huser : p.userId = u
  · have hmem : p ∈ (w₂.db.own u).projects := List.mem_filter.mpr ⟨hp, beq_iff_eq.mpr huser⟩
    rw [← h.own] at hmem
    exact hfree p (List.mem_filter.mp hmem).1 hname
  · obtain ⟨q, hq, hqname, hquser⟩ := (h.projectTaken name).mpr ⟨p, hp, hname, huser⟩
    have hfalse := hfree q hq hqname
    rw [hP q hq hquser] at hfalse
    cases hfalse

theorem domainFree_of_free {name : String} (hfree : ∀ d ∈ w₁.db.domains, d.name ≠ name) :
    ∀ d ∈ w₂.db.domains, d.name ≠ name := by
  intro d hd hname
  cases howned : w₂.db.findOwnedProject d.projectId u with
  | some p =>
    have hmem : d ∈ (w₂.db.own u).domains :=
      List.mem_filter.mpr ⟨hd, by rw [howned]; rfl⟩
    rw [← h.own] at hmem
    exact hfree d (List.mem_filter.mp hmem).1 hname
  | none =>
    obtain ⟨e, he, hename, _⟩ := (h.domainTaken name).mpr ⟨d, hd, hname, howned⟩
    exact hfree e he hename

theorem projects_free_iff (name : ProjectName) :
    (∀ p ∈ w₁.db.projects, p.name ≠ name) ↔ ∀ p ∈ w₂.db.projects, p.name ≠ name := by
  have hone {w w' : World} (h : SameFor u w w') (hfree : ∀ p ∈ w.db.projects, p.name ≠ name) :
      ∀ p ∈ w'.db.projects, p.name ≠ name := by
    intro p hp hname
    have := h.free_of_free name (P := fun _ => true) (fun _ _ _ => rfl)
      (fun q hq hqname => absurd hqname (hfree q hq)) p hp hname
    cases this
  exact ⟨hone h, hone h.symm⟩

theorem domains_free_iff (name : String) :
    (∀ d ∈ w₁.db.domains, d.name ≠ name) ↔ ∀ d ∈ w₂.db.domains, d.name ≠ name :=
  ⟨h.domainFree_of_free, h.symm.domainFree_of_free⟩

theorem holds_iff {P : Draft → Prop}
    (hheld : (∃ t ∈ w₁.db.drafts, P t ∧ t.project.userId ≠ u) ↔
      ∃ t ∈ w₂.db.drafts, P t ∧ t.project.userId ≠ u) :
    (∃ t ∈ w₁.db.drafts, P t) ↔ ∃ t ∈ w₂.db.drafts, P t := by
  have hone {w w' : World} (h : SameFor u w w')
      (hheld : (∃ t ∈ w.db.drafts, P t ∧ t.project.userId ≠ u) →
        ∃ t ∈ w'.db.drafts, P t ∧ t.project.userId ≠ u) :
      (∃ t ∈ w.db.drafts, P t) → ∃ t ∈ w'.db.drafts, P t := by
    rintro ⟨t, ht, hP⟩
    by_cases huser : t.project.userId = u
    · have hmem : t ∈ (w.db.own u).drafts := List.mem_filter.mpr ⟨ht, beq_iff_eq.mpr huser⟩
      rw [h.own] at hmem
      exact ⟨t, (List.mem_filter.mp hmem).1, hP⟩
    · obtain ⟨t', ht', hP', _⟩ := hheld ⟨t, ht, hP, huser⟩
      exact ⟨t', ht', hP'⟩
  exact ⟨hone h hheld.mp, hone h.symm hheld.mpr⟩

theorem blocks (c : Command) : w₁.blocks c = w₂.blocks c := by
  have hproject (name : ProjectName) :
      w₁.db.holdsProjectName name = w₂.db.holdsProjectName name := by
    rw [Bool.eq_iff_iff, Database.holdsProjectName, Database.holdsProjectName, List.any_eq_true,
      List.any_eq_true]
    simp only [beq_iff_eq]
    exact h.holds_iff (h.projectHeld name)
  have hdomain (name : String) : w₁.db.holdsDomainName name = w₂.db.holdsDomainName name := by
    rw [Bool.eq_iff_iff, Database.holdsDomainName, Database.holdsDomainName, List.any_eq_true,
      List.any_eq_true]
    simp only [beq_iff_eq]
    exact h.holds_iff (h.domainHeld name)
  cases c with
  | openDraft draft => rw [World.blocks, World.blocks, hproject, hdomain]
  | updateProject id dto =>
    rw [World.blocks, World.blocks]
    cases dto.name with
    | none => rfl
    | some name => exact hproject name
  | createDomain d => exact hdomain d.name
  | _ => rfl

/-! ## Commands -/

theorem admitsDraft (draft : Draft) : w₁.db.admitsDraft draft = w₂.db.admitsDraft draft := by
  have hprojects := h.projects_free_iff draft.project.name
  have hdomains := h.domains_free_iff draft.domain.name
  rw [Bool.eq_iff_iff]
  simp only [Database.admitsDraft, Bool.and_eq_true, List.all_eq_true, bne_iff_ne, hprojects,
    hdomains]

variable (h₁ : δ₁.Covers w₁.db) (h₂ : δ₂.Covers w₂.db)
include h₁ h₂

theorem rename_iff {id : ProjectId} (hid₁ : δ₁.project id = some u)
    (hid₂ : δ₂.project id = some u) (name : ProjectName) :
    (w₁.db.projects.all fun p => p.name != name || p.id == id) =
      w₂.db.projects.all fun p => p.name != name || p.id == id := by
  have hone {δ : Deeds} {w w' : World} (h : SameFor u w w') (hcovers : δ.Covers w.db)
      (hid : δ.project id = some u)
      (hall : (w.db.projects.all fun p => p.name != name || p.id == id) = true) :
      (w'.db.projects.all fun p => p.name != name || p.id == id) = true := by
    rw [List.all_eq_true] at hall ⊢
    have hfree := h.free_of_free name (P := fun p => p.id != id)
      (fun p hp huser => ?_) fun p hp hname => ?_
    · intro p hp
      by_cases hname : p.name = name
      · have hp := hfree p hp hname
        simpa [hname] using hp
      · simp [hname]
    · have howner := hcovers.project hp
      rw [bne_iff_ne]
      rintro rfl
      rw [hid, Option.some.injEq] at howner
      exact huser howner.symm
    · simpa [hname] using hall p hp
  rw [Bool.eq_iff_iff]
  exact ⟨hone h h₁ hid₁, hone h.symm h₂ hid₂⟩

/-- A store admits what a user's call issues by what the user may know. -/
theorem admits {c : Command} (hforeground : c.foreground = true) (hc₁ : c.Within δ₁ w₁.db u)
    (hc₂ : c.Within δ₂ w₂.db u) : w₁.admits c = w₂.admits c := by
  cases c with
  | openDraft draft => exact h.admitsDraft draft
  | createDeployment d | createRedeployment d | setOnlineStatus id status | deleteProject id =>
    rw [World.admits, World.admits, h.findProject h₁ h₂ hc₁ hc₂]
  | writeStatus id s => rw [World.admits, World.admits, h.findDeployment h₁ h₂ hc₁ hc₂]
  | updateProject id dto =>
    rw [World.admits, World.admits, h.findProject h₁ h₂ hc₁ hc₂]
    congr 1
    cases dto.name with
    | none => rfl
    | some name => exact h.rename_iff h₁ h₂ hc₁ hc₂ name
  | createDomain d =>
    have hdomains := h.domains_free_iff d.name
    rw [World.admits, World.admits, h.findProject h₁ h₂ hc₁ hc₂]
    congr 1
    rw [Bool.eq_iff_iff]
    simp only [List.all_eq_true, bne_iff_ne, hdomains]
  | deleteDomain id | updateDomainStatus id status error =>
    rw [World.admits, World.admits, h.findDomain h₁ h₂ hc₁ hc₂]
  | _ =>
    first
    | rfl
    | cases hforeground

omit h h₁ h₂ in
theorem issue_same {σ : Type} {c : Command} (hc : w₁.admits c = w₂.admits c) (o : Outcome)
    (ok err : σ) (entries errors : List Entry) :
    issue w₁ o c ok err entries errors = issue w₂ o c ok err entries errors := by
  unfold issue
  rw [hc]

end SameFor

namespace SameFor

variable (h : SameFor u w₁ w₂) (h₁ : δ₁.Covers w₁.db) (h₂ : δ₂.Covers w₂.db)
include h h₁ h₂

/-! ## Calls -/

theorem load {p : Project} (hp₁ : δ₁.project p.id = some u) (hp₂ : δ₂.project p.id = some u) :
    System.load w₁.db p = System.load w₂.db p := by
  rw [System.load, System.load, h.environmentVariablesOf h₁ h₂ hp₁ hp₂, h.domainsOf h₁ h₂ hp₁ hp₂]

theorem step_createDeployment {c : DeploymentsService.Create}
    (hc₁ : (Call.createDeployment c).OwnedBy δ₁ u) (hc₂ : (Call.createDeployment c).OwnedBy δ₂ u) :
    c.step cfg w₁ r = c.step cfg w₂ r := by
  cases c with
  | findProject userId projectId =>
    obtain rfl : userId = u := hc₁
    simp only [DeploymentsService.Create.step, h.findOwnedProject projectId]
    cases hp : w₂.db.findOwnedProject projectId userId with
    | none => rfl
    | some p =>
      have hp₁ := h₁.of_findOwnedProject ((h.findOwnedProject projectId).trans hp)
      have hp₂ := h₂.of_findOwnedProject hp
      simp only [h.load h₁ h₂ (p := p) (hp₁.1 ▸ hp₁.2.2) (hp₂.1 ▸ hp₂.2.2)]
  | findGitAccounts userId l =>
    obtain rfl : userId = u := hc₁.1
    simp only [DeploymentsService.Create.step, h.gitAccountsOf]
  | findLatest userId l accounts =>
    simp only [DeploymentsService.Create.step, h.deploymentsOf h₁ h₂ hc₁.2 hc₂.2]
  | getLatestCommit userId l installationId => rfl
  | insert userId l installationId commit =>
    obtain rfl : userId = u := hc₁.1
    have hrow : DeploymentsService.row w₁ userId l commit =
        DeploymentsService.row w₂ userId l commit := by
      rw [DeploymentsService.row, DeploymentsService.row, h.nextId, h.now, h.systemConfigOf]
    simp only [DeploymentsService.Create.step, hrow]
    refine issue_same ?_ _ _ _ _ _
    exact h.admits h₁ h₂ rfl hc₁.2 hc₂.2
  | enqueue job => exact issue_same rfl _ _ _ _ _

theorem step_cancel {c : DeploymentsService.Cancel} (hc₁ : (Call.cancel c).OwnedBy δ₁ u)
    (hc₂ : (Call.cancel c).OwnedBy δ₂ u) : c.step w₁ r = c.step w₂ r := by
  cases c with
  | find userId id =>
    obtain rfl : userId = u := hc₁
    simp only [DeploymentsService.Cancel.step, h.findOwnedDeployment id]
  | update id =>
    refine issue_same ?_ _ _ _ _ _
    exact h.admits h₁ h₂ rfl hc₁ hc₂
  | publish id => exact issue_same rfl _ _ _ _ _

theorem step_updateStatus {c : DeploymentsService.UpdateStatus}
    (hc₁ : (Call.updateStatus c).OwnedBy δ₁ u) (hc₂ : (Call.updateStatus c).OwnedBy δ₂ u) :
    c.step w₁ r = c.step w₂ r := by
  cases c with
  | find userId id status =>
    obtain rfl : userId = u := hc₁
    simp only [DeploymentsService.UpdateStatus.step, h.findOwnedDeployment id]
  | update id status =>
    refine issue_same ?_ _ _ _ _ _
    exact h.admits h₁ h₂ rfl hc₁ hc₂

omit h₁ h₂ in
theorem step_createProject {c : ProjectsService.Create}
    (hc₁ : (Call.createProject c).OwnedBy δ₁ u) : c.step cfg w₁ r = c.step cfg w₂ r := by
  cases c with
  | findExisting userId dto =>
    have htaken : (w₁.db.projects.any fun p => p.name == dto.name) =
        w₂.db.projects.any fun p => p.name == dto.name := by
      have hfree := h.projects_free_iff dto.name
      rw [Bool.eq_iff_iff, List.any_eq_true, List.any_eq_true]
      simp only [beq_iff_eq]
      simpa using not_congr hfree
    simp only [ProjectsService.Create.step, htaken]
  | findGitAccounts userId dto =>
    obtain rfl : userId = u := hc₁
    simp only [ProjectsService.Create.step, h.gitAccountsOf]
  | insert userId dto installationId commit =>
    obtain rfl : userId = u := hc₁
    have hdraft :
        ProjectsService.draft cfg.encryption cfg.deployDomain r.hash r.ivs w₁.now w₁.db userId dto
            commit =
          ProjectsService.draft cfg.encryption cfg.deployDomain r.hash r.ivs w₂.now w₂.db userId dto
            commit := by
      simp only [ProjectsService.draft, h.nextId, h.now, h.systemConfigOf]
    have hadmits (draft : Draft) : w₁.admits (.openDraft draft) = w₂.admits (.openDraft draft) :=
      h.admitsDraft draft
    simp only [ProjectsService.Create.step]
    rw [hdraft, hadmits]
  | enqueue draft job => exact issue_same rfl _ _ _ _ _
  | getLatestCommit | commit | rollback => rfl

theorem step_updateProject {c : ProjectsService.Update}
    (hc₁ : (Call.updateProject c).OwnedBy δ₁ u) (hc₂ : (Call.updateProject c).OwnedBy δ₂ u) :
    c.step w₁ r = c.step w₂ r := by
  cases c with
  | findOne id userId dto =>
    obtain rfl : userId = u := hc₁
    simp only [ProjectsService.Update.step, h.findOwnedProject id]
  | update id dto =>
    refine issue_same ?_ _ _ _ _ _
    exact h.admits h₁ h₂ rfl hc₁ hc₂

theorem step_removeProject {c : ProjectsService.Remove}
    (hc₁ : (Call.removeProject c).OwnedBy δ₁ u) (hc₂ : (Call.removeProject c).OwnedBy δ₂ u) :
    c.step w₁ r = c.step w₂ r := by
  cases c with
  | findProject id userId =>
    obtain rfl : userId = u := hc₁
    simp only [ProjectsService.Remove.step, h.findOwnedProject id]
    cases hp : w₂.db.findOwnedProject id userId with
    | none => rfl
    | some p =>
      have hp₁ := h₁.of_findOwnedProject ((h.findOwnedProject id).trans hp)
      have hp₂ := h₂.of_findOwnedProject hp
      have hid₁ : δ₁.project p.id = some userId := hp₁.1 ▸ hp₁.2.2
      have hid₂ : δ₂.project p.id = some userId := hp₂.1 ▸ hp₂.2.2
      simp only [h.deploymentsOf h₁ h₂ hid₁ hid₂]
  | publish cleanup ids =>
    cases ids with
    | nil => rfl
    | cons id ids => exact issue_same rfl _ _ _ _ _
  | enqueue cleanup => exact issue_same rfl _ _ _ _ _
  | delete id =>
    refine issue_same ?_ _ _ _ _ _
    exact h.admits h₁ h₂ rfl hc₁ hc₂

theorem step_createDomain {c : DomainsService.Create}
    (hc₁ : (Call.createDomain c).OwnedBy δ₁ u) (hc₂ : (Call.createDomain c).OwnedBy δ₂ u) :
    c.step w₁ r = c.step w₂ r := by
  cases c with
  | findProject userId projectId domainName =>
    obtain rfl : userId = u := hc₁
    simp only [DomainsService.Create.step, h.findOwnedProject projectId]
  | findExisting projectId domainName =>
    have htaken : (w₁.db.domains.any fun d => d.name == domainName.val) =
        w₂.db.domains.any fun d => d.name == domainName.val := by
      have hfree := h.domains_free_iff domainName.val
      rw [Bool.eq_iff_iff, List.any_eq_true, List.any_eq_true]
      simp only [beq_iff_eq]
      simpa using not_congr hfree
    simp only [DomainsService.Create.step, htaken]
  | insert projectId domainName =>
    simp only [DomainsService.Create.step, h.nextId, h.now]
    refine issue_same ?_ _ _ _ _ _
    exact h.admits h₁ h₂ rfl hc₁ hc₂

theorem step_removeDomain {c : DomainsService.Remove} (hc₁ : (Call.removeDomain c).OwnedBy δ₁ u)
    (hc₂ : (Call.removeDomain c).OwnedBy δ₂ u) : c.step w₁ r = c.step w₂ r := by
  cases c with
  | find userId id =>
    obtain rfl : userId = u := hc₁
    simp only [DomainsService.Remove.step, h.findOwnedDomain id]
  | delete id =>
    refine issue_same ?_ _ _ _ _ _
    exact h.admits h₁ h₂ rfl hc₁ hc₂

theorem step_call (cfg : Config) (r : Reply) {c : Call} (hc₁ : c.OwnedBy δ₁ u)
    (hc₂ : c.OwnedBy δ₂ u) :
    c.step cfg w₁ r = c.step cfg w₂ r ∧ c.failure cfg w₁ r = c.failure cfg w₂ r := by
  cases c with
  | createDeployment c =>
    simp only [Call.step, Call.failure, h.step_createDeployment h₁ h₂ hc₁ hc₂, and_self]
  | cancel c => simp only [Call.step, Call.failure, h.step_cancel h₁ h₂ hc₁ hc₂, and_self]
  | updateStatus c =>
    simp only [Call.step, Call.failure, h.step_updateStatus h₁ h₂ hc₁ hc₂, and_self]
  | createProject c => simp only [Call.step, Call.failure, h.step_createProject hc₁, and_self]
  | updateProject c =>
    simp only [Call.step, Call.failure, h.step_updateProject h₁ h₂ hc₁ hc₂, and_self]
  | removeProject c =>
    simp only [Call.step, Call.failure, h.step_removeProject h₁ h₂ hc₁ hc₂, and_self]
  | createDomain c =>
    simp only [Call.step, Call.failure, h.step_createDomain h₁ h₂ hc₁ hc₂, and_self]
  | removeDomain c =>
    simp only [Call.step, Call.failure, h.step_removeDomain h₁ h₂ hc₁ hc₂, and_self]
  | push | late => exact hc₁.elim

theorem returned (cfg : Config) {c : Command} (hc₁ : c.Within δ₁ w₁.db u)
    (hc₂ : c.Within δ₂ w₂.db u) :
    c.returned cfg w₁ = c.returned cfg w₂ := by
  cases c with
  | writeStatus id s =>
    simp only [Command.returned, World.db_exec, Command.change]
    rw [Database.findDeployment_updateDeployment fun d => StatusWrite.apply_id w₁.now d s,
      Database.findDeployment_updateDeployment fun d => StatusWrite.apply_id w₂.now d s,
      h.findDeployment h₁ h₂ hc₁ hc₂, h.now]
  | updateProject id dto =>
    simp only [Command.returned, World.db_exec, Command.change]
    have hid (now : Nat) (p : Project) : (applyUpdate now dto p).id = p.id := rfl
    rw [Database.findProject_updateProject (hid w₁.now),
      Database.findProject_updateProject (hid w₂.now), h.findProject h₁ h₂ hc₁ hc₂, h.now]
  | deleteProject id =>
    simp only [Command.returned, h.findProject h₁ h₂ hc₁ hc₂]
  | deleteDomain id => simp only [Command.returned, h.findDomain h₁ h₂ hc₁ hc₂]
  | _ => rfl

theorem move_call (cfg : Config) (r : Reply) {c : Call} (value : Option Result)
    (hc₁ : c.OwnedBy δ₁ u) (hc₂ : c.OwnedBy δ₂ u) :
    c.move cfg w₁ r u value = c.move cfg w₂ r u value := by
  obtain ⟨hstep, hfailure⟩ := h.step_call h₁ h₂ cfg r hc₁ hc₂
  have ht₁ := Call.careful_step h₁ cfg r hc₁
  have ht₂ := Call.careful_step h₂ cfg r hc₂
  rw [hstep] at ht₁
  have hreturned := h.returned h₁ h₂ cfg ht₁.within ht₂.within
  simp only [Call.move, hstep, hfailure, hreturned]

end SameFor
end System
end Code2Cloud
