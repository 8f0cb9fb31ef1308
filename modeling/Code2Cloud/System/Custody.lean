import Code2Cloud.System.Owners

/-!
# Custody

Between two requests a session holds rows of its user only, and so it returns such rows and changes
no others, whatever other sessions and the rest of the system do in between.
-/

namespace Code2Cloud
namespace System

open Api Worker
open Logs (LogEntry)

variable {cfg : Config} {collation : String → String → Bool} {w : World} {logs : List LogEntry}
  {zone : AnalyticsService.Zone} {r : Reply} {δ δ' : Deeds} {u v : UserId}

/-! ## Returned rows -/

theorem owns_returned {c : Command} (h : δ.Covers w.db) (hl : c.Lawful δ w.db)
    (hu : c.Within δ w.db u) :
    ∀ a ∈ c.returned cfg w, (δ.extend (c.change w.now w.db)).Owns u a.keys := by
  have hδ : δ ≤ δ.extend (c.change w.now w.db) := Deeds.le_extend _ _
  have hcovers := covers_change w.now h hl
  intro a ha
  cases c with
  | createRedeployment d =>
    cases ha
    exact hcovers.owns_deployment (List.mem_append_right _ (List.mem_singleton_self _))
      (hδ.1 _ _ hu)
  | writeStatus id s =>
    obtain ⟨d, hd, rfl⟩ := Option.map_eq_some_iff.mp ha
    rw [World.db_exec] at hd
    have hmem := List.mem_of_find?_eq_some hd
    have hid : d.id = id := by simpa using List.find?_some hd
    have howner := Deeds.owner_mono hδ hu
    rw [← hid] at hcovers hmem howner ⊢
    rw [Deeds.owner, hcovers.deployment hmem] at howner
    exact hcovers.owns_deployment hmem howner
  | updateProject id dto =>
    obtain ⟨p, hp, rfl⟩ := Option.map_eq_some_iff.mp ha
    rw [World.db_exec] at hp
    have hid : p.id = id := by simpa using List.find?_some hp
    exact hcovers.owns_project (List.mem_of_find?_eq_some hp) (hid ▸ hδ.1 _ _ hu)
  | deleteProject id =>
    obtain ⟨p, hp, rfl⟩ := Option.map_eq_some_iff.mp ha
    have hid : p.id = id := by simpa using List.find?_some hp
    have howns : δ.Owns u p.keys := h.owns_project (List.mem_of_find?_eq_some hp) (hid ▸ hu)
    exact howns.mono hδ
  | createDomain d =>
    cases ha
    exact hcovers.owns_domain (List.mem_append_right _ (List.mem_singleton_self _)) (hδ.1 _ _ hu)
  | deleteDomain id =>
    obtain ⟨d, hd, rfl⟩ := Option.map_eq_some_iff.mp ha
    have hid : d.id = id := by simpa using List.find?_some hd
    have howner : δ.owner (.domain id) = some u := hu
    rw [← hid, Deeds.owner, h.domain (List.mem_of_find?_eq_some hd)] at howner
    exact (h.owns_domain (List.mem_of_find?_eq_some hd) howner).mono hδ
  | _ => cases ha

/-! ## A step of a session -/

/-- What a method goes on with, and what it has to return, is its user's. -/
def Running.OwnedBy (δ : Deeds) (u : UserId) : Running → Prop
  | .call c value => c.OwnedBy δ u ∧ ∀ a ∈ value, δ.Owns u a.keys
  | .method m => (discretion u).Keeps δ m

theorem Running.OwnedBy.mono {running : Running} (h : running.OwnedBy δ u) (hδ : δ ≤ δ') :
    running.OwnedBy δ' u := by
  cases running with
  | call c value => exact ⟨h.1.mono hδ, fun a ha => (h.2 a ha).mono hδ⟩
  | method m => exact Policy.Keeps.mono h hδ

def Answer.OwnedBy (δ : Deeds) (u : UserId) (answer : Answer) : Prop :=
  ∀ a, answer = .ok (some a) → δ.Owns u a.keys

theorem Answer.OwnedBy.mono {answer : Answer} (h : answer.OwnedBy δ u) (hδ : δ ≤ δ') :
    answer.OwnedBy δ' u :=
  fun a ha => (h a ha).mono hδ

theorem Answer.ownedBy_error (e : HttpException) : Answer.OwnedBy δ u (.error e) :=
  fun _ ha => by cases ha

structure Move.Careful (δ : Deeds) (u : UserId) (w : World) (m : Move) : Prop where
  lawful : m.command.Lawful δ w.db
  within : m.command.Within δ w.db u
  running : ∀ running, m.next = .inl running →
    running.OwnedBy (δ.extend (m.command.change w.now w.db)) u
  answer : ∀ answer, m.next = .inr answer →
    answer.OwnedBy (δ.extend (m.command.change w.now w.db)) u

theorem careful_move (h : δ.Covers w.db) {c : Call} {value : Option Result} (hc : c.OwnedBy δ u)
    (hvalue : ∀ a ∈ value, δ.Owns u a.keys) : (c.move cfg w r u value).Careful δ u w := by
  have ht := Call.careful_step h cfg r hc
  have hδ : δ ≤ δ.extend ((c.step cfg w r).command.change w.now w.db) := Deeds.le_extend _ _
  have hreturned : ∀ a ∈ (c.step cfg w r).command.returned cfg w <|> value,
      (δ.extend ((c.step cfg w r).command.change w.now w.db)).Owns u a.keys := by
    intro a ha
    cases hret : (c.step cfg w r).command.returned cfg w with
    | none =>
      rw [hret] at ha
      exact (hvalue a ha).mono hδ
    | some b =>
      rw [hret] at ha
      cases ha
      exact owns_returned h ht.lawful ht.within a hret
  refine ⟨ht.lawful, ht.within, fun running hnext => ?_, fun answer hnext => ?_⟩
  · simp only [Call.move] at hnext ⊢
    cases hstep : (c.step cfg w r).next with
    | some c' =>
      rw [hstep] at hnext
      cases hnext
      exact ⟨ht.next c' hstep, hreturned⟩
    | none =>
      rw [hstep] at hnext
      dsimp only at hnext
      split at hnext
      · cases hnext
      · split at hnext
        · cases hnext
          exact Methods.ProjectsService.keeps_findOne
        · cases hnext
  · simp only [Call.move] at hnext ⊢
    cases hstep : (c.step cfg w r).next with
    | some c' =>
      rw [hstep] at hnext
      cases hnext
    | none =>
      rw [hstep] at hnext
      dsimp only at hnext
      split at hnext
      · cases hnext
        exact Answer.ownedBy_error _
      · split at hnext
        · cases hnext
        · cases hnext
          rintro a hvalue
          exact hreturned a (Except.ok.inj hvalue)

theorem good_storeOf (h : δ.Covers w.db) : (storeOf w logs).Good δ :=
  ⟨h, fun _ hx => (List.mem_filter.mp hx).2⟩

theorem lawful_write {c : Write} {command : Command} (hc : (discretion u).allows δ c)
    (h : Write.command cfg w.db r c = some command) :
    command.Lawful δ w.db ∧ command.Within δ w.db u := by
  cases c with
  | saveAll projectId items =>
    obtain ⟨⟨hproject, _⟩, hcommand⟩ := Option.ite_none_right_eq_some.mp h
    cases hcommand
    refine ⟨⟨hasProject_of_find hproject, fun x hx => ?_⟩, hc⟩
    obtain ⟨x', hx', hid⟩ := EnvironmentVariables.projectId_of_mem_encryptAll _ hx
    obtain ⟨item, _, rfl⟩ := List.mem_map.mp hx'
    exact hid
  | upsert userId dto =>
    cases h
    refine ⟨trivial, fun v hv => ?_⟩
    have huser : userId = u := hc
    rw [← huser] at hv
    exact SettingsService.upsert_other hv dto _

theorem careful_moveMethod (h : δ.Covers w.db) {m : Method} (hm : (discretion u).Keeps δ m) :
    (moveMethod cfg w logs r m).Careful δ u w := by
  have hδ (db : Database) : δ ≤ δ.extend db := Deeds.le_extend _ _
  have hfails {e : HttpException} : (Move.mk .skip [] (.inr (.error e))).Careful δ u w := by
    refine ⟨trivial, trivial, fun _ hnext => (by cases hnext), fun _ hnext => ?_⟩
    cases hnext
    exact Answer.ownedBy_error _
  cases m with
  | pure a =>
    refine ⟨trivial, trivial, fun _ hnext => (by cases hnext), fun _ hnext => ?_⟩
    cases hnext
    rintro _ ⟨⟩
    exact Deeds.Owns.mono hm (hδ _)
  | throw e => exact hfails
  | query next =>
    rw [moveMethod]
    split
    · refine ⟨trivial, trivial, fun _ hnext => ?_, fun _ hnext => (by cases hnext)⟩
      cases hnext
      exact (hm.2 δ _ (le_refl δ) (good_storeOf h)).mono (hδ _)
    · exact hfails
  | write c next =>
    rw [moveMethod]
    cases hcommand : Write.command cfg w.db r c with
    | none => exact hfails
    | some command =>
      obtain ⟨hl, hu⟩ := lawful_write hm.1 hcommand
      dsimp only
      cases r.outcome with
      | ok =>
        refine ⟨hl, hu, fun _ hnext => ?_, fun _ hnext => (by cases hnext)⟩
        cases hnext
        refine hm.2.2 _ _ (hδ _) (good_storeOf ?_)
        rw [World.db_exec]
        exact covers_change w.now h hl
      | lost =>
        refine ⟨hl, hu, fun _ hnext => (by cases hnext), fun _ hnext => ?_⟩
        cases hnext
        exact Answer.ownedBy_error _
      | fail | late => exact hfails

theorem Session.careful_move (cfg : Config) (logs : List LogEntry) (r : Reply) (h : δ.Covers w.db)
    {s : Session} (hs : s.running.OwnedBy δ s.user) : (s.move cfg w logs r).Careful δ s.user w := by
  unfold Session.move
  cases hrunning : s.running with
  | call c value =>
    rw [hrunning] at hs
    exact System.careful_move h hs.1 hs.2
  | method m =>
    rw [hrunning] at hs
    exact careful_moveMethod h hs

open Methods in
/-- A method holds nothing when it is called. -/
theorem Operation.ownedBy_start (now : Nat) (op : Operation) :
    (op.start cfg collation zone now u).OwnedBy δ u := by
  cases op with
  | createDeployment | updateStatus | cancel | createProject | updateProject | removeProject
  | createDomain | removeDomain => exact ⟨rfl, fun _ ha => by cases ha⟩
  | findDeployments => exact DeploymentsService.keeps_findAll
  | findDeploymentsByProject projectId => exact DeploymentsService.keeps_findAllByProject
  | findDeployment id => exact DeploymentsService.keeps_findOne
  | getLogs id options => exact DeploymentsService.keeps_getLogs
  | findProjects => exact ProjectsService.keeps_findAll
  | findProject id => exact ProjectsService.keeps_findOne
  | findDomains projectId => exact DomainsService.keeps_findAll
  | findEnvVars projectId => exact EnvVarsService.keeps_findAll
  | saveEnvVars projectId items => exact EnvVarsService.keeps_saveAll
  | getConfig => exact SettingsService.keeps_getConfig
  | updateConfig dto => exact SettingsService.keeps_updateConfig
  | getOverview => exact AnalyticsService.keeps_getOverview
  | getProjectAnalytics projectId => exact AnalyticsService.keeps_getProjectAnalytics

/-! ## Runs -/

structure Tenants.Kept (x : Tenants) (δ : Deeds) : Prop where
  covers : δ.Covers x.world.db
  sessions : ∀ s ∈ x.sessions, s.running.OwnedBy δ s.user
  answers : ∀ a ∈ x.answers, a.2.OwnedBy δ a.1

def Deeds.note (_ : Tenants) (_ : Tenants.Event) (x : Tenants) (δ : Deeds) : Deeds :=
  δ.extend x.world.db

theorem lawful_ofSystem {c : Command} (hc : c.ofSystem w = true) (ha : w.admits c = true) :
    c.Lawful δ w.db := by
  cases c with
  | createDeployment d => exact ⟨eq_of_beq hc, hasProject_of_find ha⟩
  | shuffleDeployments rows =>
    have hperm : rows.Perm w.db.deployments := of_decide_eq_true ha
    exact hperm
  | openDraft | commitDraft | createRedeployment | createDomain | replaceEnvironmentVariables =>
    cases hc
  | _ => trivial

namespace Tenants

variable {x x' : Tenants}

@[simp] theorem db_after (i : Nat) (user : UserId) (m : Move) :
    (x.after cfg i user m).world.db = m.command.change x.world.now x.world.db := by
  unfold after
  cases m.next <;> exact World.db_exec cfg x.world m.command

theorem kept_change (h : x.Kept δ) {c : Command} (hl : c.Lawful δ x.world.db)
    (hdb : x'.world.db = c.change x.world.now x.world.db)
    (hsessions : ∀ s ∈ x'.sessions, s ∈ x.sessions ∨
      s.running.OwnedBy (δ.extend (c.change x.world.now x.world.db)) s.user)
    (hanswers : ∀ a ∈ x'.answers, a ∈ x.answers ∨
      a.2.OwnedBy (δ.extend (c.change x.world.now x.world.db)) a.1) :
    x'.Kept (δ.extend x'.world.db) := by
  have hδ : δ ≤ δ.extend (c.change x.world.now x.world.db) := Deeds.le_extend _ _
  rw [← hdb] at hδ hsessions hanswers
  refine ⟨?_, fun s hs => ?_, fun a ha => ?_⟩
  · rw [hdb]
    exact covers_change x.world.now h.covers hl
  · rcases hsessions s hs with hs | hs
    · exact (h.sessions s hs).mono hδ
    · exact hs
  · rcases hanswers a ha with ha | ha
    · exact (h.answers a ha).mono hδ
    · exact ha

theorem kept_step (h : x.Kept δ) {e : Event} (hstep : x.step cfg collation zone e = some x') :
    x'.Kept (δ.extend x'.world.db) := by
  cases e with
  | call user op =>
    cases hstep
    refine kept_change (c := .skip) h trivial rfl (fun s hs => ?_) fun a ha => Or.inl ha
    rcases List.mem_append.mp hs with hs | hs
    · exact Or.inl hs
    · rw [List.mem_singleton.mp hs]
      exact Or.inr (op.ownedBy_start _)
  | go i r =>
    rw [step] at hstep
    cases hs : x.sessions[i]? with
    | none =>
      rw [hs] at hstep
      cases hstep
    | some s =>
      rw [hs] at hstep
      dsimp only at hstep
      split at hstep
      · cases hstep
      · cases hstep
        have hm := Session.careful_move cfg x.logs r h.covers
          (h.sessions s (List.mem_of_getElem? hs))
        refine kept_change h hm.lawful (db_after i s.user _) (fun s' hs' => ?_) fun a ha => ?_
        · unfold after at hs'
          split at hs'
          · rename_i running hnext
            rcases List.mem_or_eq_of_mem_set hs' with hs' | rfl
            · exact Or.inl hs'
            · exact Or.inr (hm.running running hnext)
          · exact Or.inl (List.mem_of_mem_eraseIdx hs')
        · unfold after at ha
          split at ha
          · exact Or.inl ha
          · rename_i answer hnext
            rcases List.mem_append.mp ha with ha | ha
            · exact Or.inl ha
            · rw [List.mem_singleton.mp ha]
              exact Or.inr (hm.answer answer hnext)
  | system c =>
    rw [step] at hstep
    split at hstep
    · rename_i hc
      cases hstep
      rw [Bool.and_eq_true] at hc
      exact kept_change h (lawful_ofSystem hc.1 hc.2) (World.db_exec cfg x.world c)
        (fun s hs => Or.inl hs) fun a ha => Or.inl ha
    · cases hstep
  | log line =>
    rw [step] at hstep
    split at hstep
    · cases hstep
      exact kept_change (c := .skip) h trivial rfl (fun s hs => Or.inl hs) fun a ha => Or.inl ha
    · cases hstep

end Tenants

/-! ## Other users' rows -/

theorem filter_keptLogs (db : Database) :
    ((keptLogs db logs).filter fun x => ((db.own v).findDeployment x.deploymentId).isSome) =
      logs.filter fun x => ((db.own v).findDeployment x.deploymentId).isSome := by
  simp only [keptLogs, List.filter_filter, Database.findDeployment_own]
  refine List.filter_congr fun x _ => ?_
  cases howned : db.findOwnedDeployment x.deploymentId v with
  | none => rfl
  | some d =>
    have hfound := List.find?_some howned
    rw [Bool.and_eq_true] at hfound
    have hdeployment : (db.findDeployment x.deploymentId).isSome = true := by
      rw [Database.findDeployment, List.find?_isSome]
      exact ⟨d, List.mem_of_find?_eq_some howned, hfound.1⟩
    rw [hdeployment]
    rfl

theorem logs_own : ((storeOf w logs).own v).logs =
    logs.filter fun x => ((w.db.own v).findDeployment x.deploymentId).isSome := by
  rw [← filter_keptLogs w.db]
  simp only [Database.findDeployment_own]
  rfl

def Tenants.rows (x : Tenants) (v : UserId) : Database × List LogEntry :=
  (((storeOf x.world x.logs).own v).db, ((storeOf x.world x.logs).own v).logs)

namespace Tenants

variable {x x' : Tenants}

theorem logs_after (i : Nat) (user : UserId) (m : Move) :
    (x.after cfg i user m).logs = keptLogs (x.after cfg i user m).world.db x.logs := by
  unfold after
  cases m.next <;> rfl

theorem rows_after {i : Nat} {m : Move} (h : x.Kept δ) (hm : m.Careful δ u x.world) (hv : v ≠ u) :
    (x.after cfg i u m).rows v = x.rows v := by
  have hown := own_change x.world.now h.covers hm.lawful hm.within hv
  have hdb : (x.after cfg i u m).world.db.own v = x.world.db.own v := by rw [db_after, hown]
  refine Prod.ext hdb ?_
  simp only [rows, logs_own]
  rw [logs_after, filter_keptLogs, hdb]

/-- The user whose method an event is a step of. -/
def actor (x : Tenants) : Event → Option UserId
  | .call user _ => some user
  | .go i _ => x.sessions[i]?.map (·.user)
  | .system _ | .log _ => none

/-- What one user does leaves the rows of every other. -/
theorem rows_step (h : x.Kept δ) {e : Event} (hstep : x.step cfg collation zone e = some x')
    (hu : x.actor e = some u) (hv : v ≠ u) : x'.rows v = x.rows v := by
  cases e with
  | call user op =>
    cases hstep
    rfl
  | go i r =>
    obtain ⟨s, hs, rfl⟩ := Option.map_eq_some_iff.mp hu
    rw [step, hs] at hstep
    dsimp only at hstep
    split at hstep
    · cases hstep
    · cases hstep
      have hm := Session.careful_move cfg x.logs r h.covers
        (h.sessions s (List.mem_of_getElem? hs))
      exact rows_after h hm hv
  | system | log => cases hu

end Tenants

end System
end Code2Cloud
