import Code2Cloud.Api.Discretion
import Code2Cloud.System.Turns

/-!
# Titles

What a command does to the tables, and to whom the rows belong before and after.
-/

namespace Code2Cloud
namespace System

open Api

/-! ## The tables -/

variable {now : Nat} {db : Database} {c : Command} {δ δ' : Deeds} {u v : UserId}

theorem mem_drafts_change {t : Draft} (h : t ∈ (c.change now db).drafts) :
    t ∈ db.drafts ∨ c = .openDraft t := by
  cases c with
  | openDraft draft =>
    rcases List.mem_append.mp h with h | h
    · exact Or.inl h
    · exact Or.inr (List.mem_singleton.mp h ▸ rfl)
  | commitDraft draft | rollbackDraft id => exact Or.inl (List.mem_filter.mp h).1
  | _ => exact Or.inl h

theorem mem_projects_change {p' : Project} (h : p' ∈ (c.change now db).projects) :
    (∃ p ∈ db.projects, p.id = p'.id ∧ p.userId = p'.userId) ∨
      ∃ t, c = .commitDraft t ∧ p' = t.project := by
  have hmap {id : ProjectId} {f : Project → Project}
      (h : p' ∈ db.projects.map fun p => if p.id = id then f p else p)
      (hf : ∀ p, (f p).id = p.id ∧ (f p).userId = p.userId) :
      ∃ p ∈ db.projects, p.id = p'.id ∧ p.userId = p'.userId := by
    obtain ⟨p, hp, rfl⟩ := List.mem_map.mp h
    refine ⟨p, hp, ?_⟩
    split
    · exact ⟨(hf p).1.symm, (hf p).2.symm⟩
    · exact ⟨rfl, rfl⟩
  cases c with
  | commitDraft t =>
    rcases List.mem_append.mp h with h | h
    · exact Or.inl ⟨p', h, rfl, rfl⟩
    · exact Or.inr ⟨t, rfl, List.mem_singleton.mp h⟩
  | updateProject | setOnlineStatus | createRedeployment | replaceEnvironmentVariables =>
    exact Or.inl (hmap h fun _ => ⟨rfl, rfl⟩)
  | deleteProject id => exact Or.inl ⟨p', (List.mem_filter.mp h).1, rfl, rfl⟩
  | _ => exact Or.inl ⟨p', h, rfl, rfl⟩

def Command.mints : Command → Option Deployment
  | .createDeployment d | .createRedeployment d => some d
  | _ => none

theorem mem_deployments_change (hshuffle : ∀ rows, c = .shuffleDeployments rows →
      rows.Perm db.deployments) {d' : Deployment} (h : d' ∈ (c.change now db).deployments) :
    (∃ d ∈ db.deployments, d.id = d'.id ∧ d.projectId = d'.projectId) ∨ d' ∈ c.mints ∨
      ∃ t, c = .commitDraft t ∧ d' = t.deployment := by
  cases c with
  | createDeployment d | createRedeployment d =>
    rcases List.mem_append.mp h with h | h
    · exact Or.inl ⟨d', h, rfl, rfl⟩
    · exact Or.inr (Or.inl (List.mem_singleton.mp h ▸ rfl))
  | commitDraft t =>
    rcases List.mem_append.mp h with h | h
    · exact Or.inl ⟨d', h, rfl, rfl⟩
    · exact Or.inr (Or.inr ⟨t, rfl, List.mem_singleton.mp h⟩)
  | writeStatus id st =>
    obtain ⟨d, hd, rfl⟩ := List.mem_map.mp h
    refine Or.inl ⟨d, hd, ?_⟩
    split <;> simp
  | deleteProject id => exact Or.inl ⟨d', (List.mem_filter.mp h).1, rfl, rfl⟩
  | shuffleDeployments rows => exact Or.inl ⟨d', (hshuffle rows rfl).mem_iff.mp h, rfl, rfl⟩
  | _ => exact Or.inl ⟨d', h, rfl, rfl⟩

theorem mem_domains_change {d' : Domain} (h : d' ∈ (c.change now db).domains) :
    (∃ d ∈ db.domains, d.id = d'.id ∧ d.projectId = d'.projectId) ∨ c = .createDomain d' ∨
      ∃ t, c = .commitDraft t ∧ d' = t.domain := by
  cases c with
  | createDomain d =>
    rcases List.mem_append.mp h with h | h
    · exact Or.inl ⟨d', h, rfl, rfl⟩
    · exact Or.inr (Or.inl (List.mem_singleton.mp h ▸ rfl))
  | commitDraft t =>
    rcases List.mem_append.mp h with h | h
    · exact Or.inl ⟨d', h, rfl, rfl⟩
    · exact Or.inr (Or.inr ⟨t, rfl, List.mem_singleton.mp h⟩)
  | updateDomainStatus id status error =>
    obtain ⟨d, hd, rfl⟩ := List.mem_map.mp h
    refine Or.inl ⟨d, hd, ?_⟩
    split <;> exact ⟨rfl, rfl⟩
  | deleteProject id | deleteDomain id =>
    exact Or.inl ⟨d', (List.mem_filter.mp h).1, rfl, rfl⟩
  | _ => exact Or.inl ⟨d', h, rfl, rfl⟩

theorem mem_environmentVariables_change {x : EnvironmentVariable}
    (h : x ∈ (c.change now db).environmentVariables) :
    x ∈ db.environmentVariables ∨
      (∃ id rows, c = .replaceEnvironmentVariables id rows ∧ x ∈ rows) ∨
      ∃ t, c = .commitDraft t ∧ x ∈ t.environmentVariables := by
  cases c with
  | commitDraft t =>
    rcases List.mem_append.mp h with h | h
    · exact Or.inl h
    · exact Or.inr (Or.inr ⟨t, rfl, h⟩)
  | replaceEnvironmentVariables id rows =>
    rcases List.mem_append.mp h with h | h
    · exact Or.inl (List.mem_filter.mp h).1
    · exact Or.inr (Or.inl ⟨id, rows, rfl, h⟩)
  | deleteProject id => exact Or.inl (List.mem_filter.mp h).1
  | _ => exact Or.inl h

theorem hasProject_change {id : ProjectId} (h : db.HasProject id) (hc : c ≠ .deleteProject id) :
    (c.change now db).HasProject id := by
  obtain ⟨p, hp, rfl⟩ := h
  have hmap {id : ProjectId} {f : Project → Project} (hf : ∀ p, (f p).id = p.id) :
      ∃ q ∈ db.projects.map fun p => if p.id = id then f p else p, q.id = p.id := by
    refine ⟨_, List.mem_map_of_mem hp, ?_⟩
    split
    · exact hf p
    · rfl
  cases c with
  | commitDraft t => exact ⟨p, List.mem_append_left _ hp, rfl⟩
  | updateProject | setOnlineStatus | createRedeployment | replaceEnvironmentVariables =>
    exact hmap fun _ => rfl
  | deleteProject id =>
    refine ⟨p, List.mem_filter.mpr ⟨hp, ?_⟩, rfl⟩
    rw [bne_iff_ne]
    rintro rfl
    exact hc rfl
  | _ => exact ⟨p, hp, rfl⟩

/-! ## Deeds -/

namespace Command

/-- A command that keeps the tables in order: new rows have identifiers from the counter and refer
to rows, and what is committed was entered before. -/
def Lawful (δ : Deeds) (db : Database) : Command → Prop
  | .openDraft t =>
    t.Whole ∧ t.project.id = db.nextId ∧ t.deployment.id = db.nextId + 1 ∧
      t.domain.id = db.nextId + 2
  | .commitDraft t => δ.Holds t
  | .createDeployment d | .createRedeployment d => d.id = db.nextId ∧ db.HasProject d.projectId
  | .createDomain d => d.id = db.nextId ∧ db.HasProject d.projectId
  | .replaceEnvironmentVariables id rows => db.HasProject id ∧ ∀ x ∈ rows, x.projectId = id
  | .shuffleDeployments rows => rows.Perm db.deployments
  | _ => True

def opened : Command → Option Draft
  | .openDraft t => some t
  | _ => none

def mintsDomain : Command → Option Domain
  | .createDomain d => some d
  | _ => none

end Command

theorem nextId_le_change : db.nextId ≤ (c.change now db).nextId := by
  cases c with
  | openDraft draft => exact Nat.le_add_right _ 3
  | createDeployment d | createRedeployment d | createDomain d => exact Nat.le_succ _
  | _ => exact Nat.le_refl _

theorem lists_projects_change (h : δ.Covers db) (hc : c.Lawful δ db) :
    ((δ.extend (c.change now db)).project.Lists (·.id) (·.userId) (c.change now db).everyProject) ∧
      (δ.extend (c.change now db)).project.Below (c.change now db).nextId := by
  refine h.projectsBelow.lists_note (c.opened.map (·.project)) nextId_le_change
    (fun p hp => ?_) fun p hp => ?_
  · rcases List.mem_append.mp hp with hp | hp
    · rcases mem_projects_change hp with ⟨q, hq, hid, huser⟩ | ⟨t, rfl, rfl⟩
      · rw [← hid, ← huser]
        exact Or.inl (h.project hq)
      · exact Or.inl hc.project
    · obtain ⟨t, ht, rfl⟩ := List.mem_map.mp hp
      rcases mem_drafts_change ht with ht | rfl
      · exact Or.inl (h.draft ht).project
      · exact Or.inr rfl
  · cases c with
    | openDraft t =>
      cases hp
      obtain ⟨_, hproject, _, _⟩ := hc
      rw [hproject]
      exact ⟨Nat.le_refl _, Nat.lt_add_of_pos_right (by decide)⟩
    | _ => cases hp

theorem lists_deployments_change (h : δ.Covers db) (hc : c.Lawful δ db) :
    ((δ.extend (c.change now db)).deployment.Lists (·.id) (·.projectId)
        (c.change now db).everyDeployment) ∧
      (δ.extend (c.change now db)).deployment.Below (c.change now db).nextId := by
  refine h.deploymentsBelow.lists_note (c.mints <|> c.opened.map (·.deployment))
    nextId_le_change (fun d hd => ?_) fun d hd => ?_
  · have hshuffle : ∀ rows, c = .shuffleDeployments rows → rows.Perm db.deployments := by
      rintro rows rfl
      exact hc
    rcases List.mem_append.mp hd with hd | hd
    · rcases mem_deployments_change hshuffle hd with ⟨q, hq, hid, hproject⟩ | hnew | ⟨t, rfl, rfl⟩
      · rw [← hid, ← hproject]
        exact Or.inl (h.deployment hq)
      · rw [Option.mem_def.mp hnew]
        exact Or.inr rfl
      · exact Or.inl hc.deployment
    · obtain ⟨t, ht, rfl⟩ := List.mem_map.mp hd
      rcases mem_drafts_change ht with ht | rfl
      · exact Or.inl (h.draft ht).deployment
      · exact Or.inr rfl
  · cases c with
    | openDraft t =>
      cases hd
      obtain ⟨_, _, hdeployment, _⟩ := hc
      rw [hdeployment]
      exact ⟨Nat.le_succ _, Nat.add_lt_add_left (by decide) _⟩
    | createDeployment d | createRedeployment d =>
      cases hd
      rw [hc.1]
      exact ⟨Nat.le_refl _, Nat.lt_succ_self _⟩
    | _ => cases hd

theorem lists_domains_change (h : δ.Covers db) (hc : c.Lawful δ db) :
    ((δ.extend (c.change now db)).domain.Lists (·.id) (·.projectId)
        (c.change now db).everyDomain) ∧
      (δ.extend (c.change now db)).domain.Below (c.change now db).nextId := by
  refine h.domainsBelow.lists_note (c.mintsDomain <|> c.opened.map (·.domain))
    nextId_le_change (fun d hd => ?_) fun d hd => ?_
  · rcases List.mem_append.mp hd with hd | hd
    · rcases mem_domains_change hd with ⟨q, hq, hid, hproject⟩ | rfl | ⟨t, rfl, rfl⟩
      · rw [← hid, ← hproject]
        exact Or.inl (h.domain hq)
      · exact Or.inr rfl
      · exact Or.inl hc.domain
    · obtain ⟨t, ht, rfl⟩ := List.mem_map.mp hd
      rcases mem_drafts_change ht with ht | rfl
      · exact Or.inl (h.draft ht).domain
      · exact Or.inr rfl
  · cases c with
    | openDraft t =>
      cases hd
      obtain ⟨_, _, _, hdomain⟩ := hc
      rw [hdomain]
      exact ⟨Nat.le_add_right _ _, Nat.add_lt_add_left (by decide) _⟩
    | createDomain d =>
      cases hd
      rw [hc.1]
      exact ⟨Nat.le_refl _, Nat.lt_succ_self _⟩
    | _ => cases hd

theorem hasProject_of_kept {id : ProjectId} (hlinked : db.HasProject id)
    (hkept : ∀ id', c = .deleteProject id' → id ≠ id') : (c.change now db).HasProject id :=
  hasProject_change hlinked fun hc => hkept id hc rfl

theorem linked_change (h : δ.Covers db) (hc : c.Lawful δ db) : (c.change now db).Linked where
  environmentVariables x hx := by
    rcases mem_environmentVariables_change hx with hold | ⟨id, rows, rfl, hrow⟩ | ⟨t, rfl, hrow⟩
    · refine hasProject_of_kept (h.linked.environmentVariables x hold) ?_
      rintro id rfl
      simpa using (List.mem_filter.mp hx).2
    · rw [hc.2 x hrow]
      exact hasProject_change hc.1 (by rintro ⟨⟩)
    · rw [hc.whole.environmentVariables x hrow]
      exact ⟨t.project, List.mem_append_right _ (List.mem_singleton_self _), rfl⟩
  deployments d hd := by
    have hshuffle : ∀ rows, c = .shuffleDeployments rows → rows.Perm db.deployments := by
      rintro rows rfl
      exact hc
    rcases mem_deployments_change hshuffle hd with ⟨q, hq, _, hproject⟩ | hnew | ⟨t, rfl, rfl⟩
    · rw [← hproject]
      refine hasProject_of_kept (h.linked.deployments q hq) ?_
      rintro id rfl
      rw [hproject]
      simpa using (List.mem_filter.mp hd).2
    · cases c with
      | createDeployment d' | createRedeployment d' =>
        cases hnew
        exact hasProject_change hc.2 (by rintro ⟨⟩)
      | _ => cases hnew
    · rw [hc.whole.deployment]
      exact ⟨t.project, List.mem_append_right _ (List.mem_singleton_self _), rfl⟩
  domains d hd := by
    rcases mem_domains_change hd with ⟨q, hq, _, hproject⟩ | rfl | ⟨t, rfl, rfl⟩
    · rw [← hproject]
      refine hasProject_of_kept (h.linked.domains q hq) ?_
      rintro id rfl
      rw [hproject]
      simpa using (List.mem_filter.mp hd).2
    · exact hasProject_change hc.2 (by rintro ⟨⟩)
    · rw [hc.whole.domain]
      exact ⟨t.project, List.mem_append_right _ (List.mem_singleton_self _), rfl⟩

/-- The ledger stays right: a lawful command leaves rows that are as the deeds say, once the new
ones are entered. -/
theorem covers_change (now : Nat) (h : δ.Covers db) (hc : c.Lawful δ db) :
    (δ.extend (c.change now db)).Covers (c.change now db) where
  projects := (lists_projects_change h hc).1
  deployments := (lists_deployments_change h hc).1
  domains := (lists_domains_change h hc).1
  projectsBelow := (lists_projects_change h hc).2
  deploymentsBelow := (lists_deployments_change h hc).2
  domainsBelow := (lists_domains_change h hc).2
  drafts t ht := by
    rcases mem_drafts_change ht with ht | rfl
    · exact h.drafts t ht
    · exact hc.1
  linked := linked_change h hc

end System
end Code2Cloud
