import Code2Cloud.System.Views

/-!
# Isolation of tenants

Users call methods, the worker and the webhooks change rows in between, and every run keeps the
users apart.
-/

namespace Code2Cloud

namespace Api

/-- What the keys of the tables and their references to each other promise of a database in which no
transaction is open. -/
structure Database.Consistent (db : Database) : Prop where
  projects : (db.projects.map (·.id)).Nodup
  deployments : (db.deployments.map (·.id)).Nodup
  domains : (db.domains.map (·.id)).Nodup
  linked : db.Linked
  fresh : (∀ p ∈ db.projects, p.id < db.nextId) ∧ (∀ d ∈ db.deployments, d.id < db.nextId) ∧
    ∀ d ∈ db.domains, d.id < db.nextId
  drafts : db.drafts = []

theorem Database.Consistent.covers {db : Database} (h : db.Consistent) :
    (Deeds.ofDatabase db).Covers db := by
  have hprojects : db.everyProject = db.projects := by
    rw [everyProject, h.drafts, List.map_nil, List.append_nil]
  have hdeployments : db.everyDeployment = db.deployments := by
    rw [everyDeployment, h.drafts, List.map_nil, List.append_nil]
  have hdomains : db.everyDomain = db.domains := by
    rw [everyDomain, h.drafts, List.map_nil, List.append_nil]
  obtain ⟨hp, hpb⟩ := Register.lists_note_of_nodup (fun p : Project => p.userId) h.projects
    h.fresh.1
  obtain ⟨hd, hdb⟩ := Register.lists_note_of_nodup (fun d : Deployment => d.projectId)
    h.deployments h.fresh.2.1
  obtain ⟨hm, hmb⟩ := Register.lists_note_of_nodup (fun d : Domain => d.projectId) h.domains
    h.fresh.2.2
  rw [← hprojects] at hp hpb
  rw [← hdeployments] at hd hdb
  rw [← hdomains] at hm hmb
  exact
    { projects := hp
      deployments := hd
      domains := hm
      projectsBelow := hpb
      deploymentsBelow := hdb
      domainsBelow := hmb
      drafts := fun t ht => by
        rw [h.drafts] at ht
        cases ht
      linked := h.linked }

end Api

namespace System

open Api Worker
open Logs (LogEntry)

variable {cfg : Config} {collation : String → String → Bool} {zone : AnalyticsService.Zone}
  {δ δ' δ₁ δ₂ : Deeds} {u v : UserId} {x x' x₁ x₂ : Tenants}

namespace Tenants

/-! ## Isolation -/

structure Start (x : Tenants) : Prop where
  consistent : x.world.db.Consistent
  logs : x.LogsLinked
  sessions : x.sessions = []
  answers : x.answers = []

theorem Start.kept (h : x.Start) : x.Kept (Deeds.ofDatabase x.world.db) where
  covers := h.consistent.covers
  sessions s hs := by
    rw [h.sessions] at hs
    cases hs
  answers a ha := by
    rw [h.answers] at ha
    cases ha

theorem kept_of_reaches {start : Tenants} (hstart : start.Start)
    (h : Reaches (stepNoting (step cfg collation zone) Deeds.note) (fun _ _ => True)
      (start, Deeds.ofDatabase start.world.db) (x, δ)) : x.Kept δ ∧ x.LogsLinked := by
  refine h.invariant (fun y => y.1.Kept y.2 ∧ y.1.LogsLinked) ⟨hstart.kept, hstart.logs⟩ ?_
  rintro ⟨y, δ⟩ e ⟨y', δ'⟩ ⟨hkept, hlogs⟩ _ hstep
  obtain ⟨hstep, hnote⟩ := stepNoting_eq_some_iff.mp hstep
  have hkept' := kept_step hkept hstep
  exact ⟨(show δ' = δ.extend y'.world.db from hnote) ▸ hkept', logsLinked_step hlogs hstep⟩

/-- A state in which users are apart, beside any other one. -/
structure Isolated (cfg : Config) (collation : String → String → Bool)
    (zone : AnalyticsService.Zone) (δ : Deeds) (x other : Tenants) : Prop where
  /-- The deeds tell whose the rows are that are there. -/
  titles : δ.Covers x.world.db
  /-- What a user does leaves the rows of every other user. -/
  spares : ∀ (e : Event) (x' : Tenants) (u v : UserId), x.step cfg collation zone e = some x' →
    x.actor e = some u → v ≠ u → x'.rows v = x.rows v
  /-- What a user was answered are rows of that user. -/
  returns : ∀ answer ∈ x.answers, answer.2.OwnedBy δ answer.1
  /-- A user learns of others' rows which names are taken, and nothing else. -/
  reveals : ∀ (i j : Nat) (s : Session) (r : Reply), x.sessions[i]? = some s →
    other.sessions[j]? = some s → Alike s.user x other → SameStep cfg s r i j x other

/-- Users are apart whatever they call, in any order of their requests and with whatever the worker
and the webhooks do in between. -/
theorem isolated_of_reaches {start₁ start₂ : Tenants} (hstart₁ : start₁.Start)
    (hstart₂ : start₂.Start)
    (h₁ : Reaches (stepNoting (step cfg collation zone) Deeds.note) (fun _ _ => True)
      (start₁, Deeds.ofDatabase start₁.world.db) (x₁, δ₁))
    (h₂ : Reaches (stepNoting (step cfg collation zone) Deeds.note) (fun _ _ => True)
      (start₂, Deeds.ofDatabase start₂.world.db) (x₂, δ₂)) :
    Isolated cfg collation zone δ₁ x₁ x₂ := by
  obtain ⟨hkept₁, hlogs₁⟩ := kept_of_reaches hstart₁ h₁
  obtain ⟨hkept₂, hlogs₂⟩ := kept_of_reaches hstart₂ h₂
  exact
    { titles := hkept₁.covers
      spares := fun _ _ _ _ hstep => rows_step hkept₁ hstep
      returns := hkept₁.answers
      reveals := fun _ _ _ r hs₁ hs₂ halike =>
        sameStep_of_alike hkept₁ hkept₂ hlogs₁ hlogs₂ hs₁ hs₂ halike r }

theorem acceptsProjectName_blog : acceptsProjectName "blog" = true := by decide

def neighbours : Tenants where
  world :=
    { State.initial.world with
      db :=
        { Database.empty with
          projects :=
            [{ id := 1, name := shopName, gitRepoOwner := "ada", gitRepoName := "shop"
               gitBranch := "main", gitCloneUrl := "https://github.com/ada/shop.git"
               updatedAt := 0, userId := 1 },
             { id := 2, name := ⟨"blog", acceptsProjectName_blog⟩, gitRepoOwner := "eve"
               gitRepoName := "blog", gitBranch := "main"
               gitCloneUrl := "https://github.com/eve/blog.git", updatedAt := 0, userId := 2 }]
          nextId := 3 } }
  logs := []
  sessions := []
  answers := []

theorem start_neighbours : neighbours.Start where
  consistent :=
    { projects := by decide
      deployments := List.nodup_nil
      domains := List.nodup_nil
      linked := ⟨fun _ h => (by cases h), fun _ h => (by cases h), fun _ h => (by cases h)⟩
      fresh := ⟨by decide, fun _ h => (by cases h), fun _ h => (by cases h)⟩
      drafts := rfl }
  logs _ h := by cases h
  sessions := rfl
  answers := rfl

/-- User 1 cannot remove the project of user 2, who lists it. -/
theorem isolated_neighbours : ∃ (x : Tenants) (δ : Deeds), x.answers.map (·.1) = [1, 2] ∧
    Isolated Config.clear (fun _ _ => true) .utc δ x x := by
  obtain ⟨⟨x, δ⟩, hreach, hanswers⟩ := Reaches.exists_of_runEvents
    (stepNoting (step Config.clear (fun _ _ => true) .utc) Deeds.note) (fun _ _ => True)
    (neighbours, Deeds.ofDatabase neighbours.world.db)
    [.call 1 (.removeProject 2), .call 2 .findProjects, .go 0 {}, .go 0 {}, .go 0 {}]
    (fun y => y.1.answers.map (·.1) == [1, 2]) (by decide) (runsUnder_true _ _ _)
  exact ⟨x, δ, eq_of_beq hanswers,
    isolated_of_reaches start_neighbours start_neighbours hreach hreach⟩

end Tenants
end System
end Code2Cloud
