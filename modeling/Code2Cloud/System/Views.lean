import Code2Cloud.Base.Reach
import Code2Cloud.System.Secrecy

/-!
# Views

The methods that are no calls read the part of the store that is their user's.  With what is known
of calls: a step of a session is the same in two states that look the same to its user.
-/

namespace Code2Cloud
namespace System

open Api Worker
open Logs (LogEntry)

variable {cfg : Config} {collation : String → String → Bool} {w w₁ w₂ : World}
  {logs logs₁ logs₂ : List LogEntry} {r : Reply} {δ δ₁ δ₂ : Deeds} {u : UserId}

/-! ## The other methods -/

def replaced (now : Nat) (id : ProjectId) (rows : List EnvironmentVariable) (own : Database) :
    Database :=
  (own.replaceEnvironmentVariables id rows).updateProject id
    fun p => { p with configChanged := true, updatedAt := now }

theorem own_replaced {db : Database} (now : Nat) {id : ProjectId}
    {rows : List EnvironmentVariable} (h : δ.Covers db) (hid : δ.project id = some u)
    (hl : (Command.replaceEnvironmentVariables id rows).Lawful δ db) :
    (replaced now id rows db).own u = replaced now id rows (db.own u) := by
  have hcovers := covers_change now h hl
  have hδ : δ ≤ δ.extend (replaced now id rows db) := Deeds.le_extend _ _
  have hown : (replaced now id rows db).own u =
      (replaced now id rows db).ownBy (δ.extend (replaced now id rows db)) u := hcovers.own_eq
  rw [hown, h.own_eq, h.ownBy_mono hδ]
  generalize δ.extend (replaced now id rows db) = δ' at hδ
  have hrows : (rows.filter fun x => δ'.project x.projectId == some u) = rows :=
    List.filter_eq_self.mpr fun x hx => by rw [hl.2 x hx, hδ.1 _ _ hid, beq_self_eq_true]
  simp only [replaced, Database.replaceEnvironmentVariables, Database.updateProject, Database.ownBy,
    Database.gitAccountsOf]
  congr 1
  · refine Table.filter_map_comm fun p _ => ?_
    split <;> rfl
  · rw [List.filter_append, hrows, List.filter_filter, List.filter_filter]
    simp only [Bool.and_comm]

theorem own_upserted (e : EncryptionService) (iv : Iv) (dto : UpdateSettingsDto) (db : Database) :
    ({ db with systemConfigs := SettingsService.upsert e iv u dto db.systemConfigs }).own u =
      { db.own u with
        systemConfigs := SettingsService.upsert e iv u dto (db.own u).systemConfigs } := by
  rw [Database.own, Database.own, ← SettingsService.filter_upsert]
  rfl

theorem store_ext {s₁ s₂ : Store} (hdb : s₁.db = s₂.db) (hlogs : s₁.logs = s₂.logs)
    (hnow : s₁.now = s₂.now) : s₁ = s₂ := by
  cases s₁
  cases s₂
  cases hdb
  cases hlogs
  cases hnow
  rfl

namespace SameFor

variable (h : SameFor u w₁ w₂) (h₁ : δ₁.Covers w₁.db) (h₂ : δ₂.Covers w₂.db)
include h h₁ h₂

omit h₁ h₂ in
/-- The user's part of the store once the tables have changed, but for the deployments. -/
theorem own_storeOf {db₁ db₂ : Database} (hown : db₁.own u = db₂.own u)
    (hdeployments : (db₁.own u).deployments = (w₁.db.own u).deployments)
    (hlogs : ((storeOf w₁ logs₁).own u).logs = ((storeOf w₂ logs₂).own u).logs) :
    (storeOf { w₁ with db := db₁ } logs₁).own u = (storeOf { w₂ with db := db₂ } logs₂).own u := by
  refine store_ext hown ?_ h.now
  have hlogs₁ : ((storeOf { w₁ with db := db₁ } logs₁).own u).logs =
      ((storeOf w₁ logs₁).own u).logs := by
    simp only [logs_own, Database.findDeployment, hdeployments]
  have hlogs₂ : ((storeOf { w₂ with db := db₂ } logs₂).own u).logs =
      ((storeOf w₂ logs₂).own u).logs := by
    simp only [logs_own, Database.findDeployment, ← hown, hdeployments, h.own]
  rw [hlogs₁, hlogs₂, hlogs]

/-- A write that the policy allows is done in both states or refused in both, and the user's part
of the store is the same after it. -/
theorem write (cfg : Config) (r : Reply) {c : Write} (hc₁ : (discretion u).allows δ₁ c)
    (hc₂ : (discretion u).allows δ₂ c)
    (hlogs : ((storeOf w₁ logs₁).own u).logs = ((storeOf w₂ logs₂).own u).logs) :
    Write.command cfg w₁.db r c = none ∧ Write.command cfg w₂.db r c = none ∨
      ∃ c₁ c₂, Write.command cfg w₁.db r c = some c₁ ∧ Write.command cfg w₂.db r c = some c₂ ∧
        (storeOf (w₁.exec cfg c₁) logs₁).own u = (storeOf (w₂.exec cfg c₂) logs₂).own u := by
  cases c with
  | saveAll projectId items =>
    have hfind := h.findProject h₁ h₂ hc₁ hc₂
    by_cases hok : (w₂.db.findProject projectId).isSome ∧ (items.map (·.key)).Nodup
    · right
      have hcommand₂ : Write.command cfg w₂.db r (.saveAll projectId items) =
          some (.replaceEnvironmentVariables projectId (EnvironmentVariables.encryptAll
            cfg.encryption r.ivs (items.map (EnvironmentVariables.plain projectId)))) := if_pos hok
      have hcommand₁ := hcommand₂
      rw [Write.command, ← hfind, ← Write.command] at hcommand₁
      refine ⟨_, _, hcommand₁, hcommand₂, ?_⟩
      have hl₁ := (lawful_write hc₁ hcommand₁).1
      have hl₂ := (lawful_write hc₂ hcommand₂).1
      have hown₁ := own_replaced w₁.now h₁ hc₁ hl₁
      have hown₂ := own_replaced w₂.now h₂ hc₂ hl₂
      have hsame (rows : List EnvironmentVariable) :
          replaced w₁.now projectId rows (w₁.db.own u) =
            replaced w₂.now projectId rows (w₂.db.own u) := by
        rw [h.own, h.now]
      have hdeployments := congrArg Database.deployments hown₁
      exact h.own_storeOf ((hown₁.trans (hsame _)).trans hown₂.symm) hdeployments hlogs
    · left
      have hcommand₂ : Write.command cfg w₂.db r (.saveAll projectId items) = none := if_neg hok
      have hcommand₁ := hcommand₂
      rw [Write.command, ← hfind, ← Write.command] at hcommand₁
      exact ⟨hcommand₁, hcommand₂⟩
  | upsert userId dto =>
    obtain rfl : userId = u := hc₁
    refine Or.inr ⟨_, _, rfl, rfl, h.own_storeOf ?_ ?_ hlogs⟩
    · rw [own_upserted, own_upserted, h.own]
    · rw [own_upserted]

theorem move_method {m : Method} (hm₁ : (discretion u).Keeps δ₁ m)
    (hm₂ : (discretion u).Keeps δ₂ m)
    (hlogs : ((storeOf w₁ logs₁).own u).logs = ((storeOf w₂ logs₂).own u).logs) :
    (moveMethod cfg w₁ logs₁ r m).next = (moveMethod cfg w₂ logs₂ r m).next := by
  cases m with
  | pure | throw => rfl
  | query next =>
    have hnext : next (storeOf w₁ logs₁) = next (storeOf w₂ logs₂) :=
      hm₁.1.eq hm₂.1 (good_storeOf h₁) (good_storeOf h₂) (store_ext h.own hlogs h.now)
    simp only [moveMethod, hnext]
  | write c next =>
    rcases h.write h₁ h₂ cfg r hm₁.1 hm₂.1 hlogs with ⟨hc₁, hc₂⟩ |
      ⟨c₁, c₂, hc₁, hc₂, hown⟩
    · simp only [moveMethod, hc₁, hc₂]
    · have hcovers₁ := covers_change w₁.now h₁ (lawful_write hm₁.1 hc₁).1
      have hcovers₂ := covers_change w₂.now h₂ (lawful_write hm₂.1 hc₂).1
      rw [← World.db_exec cfg] at hcovers₁ hcovers₂
      have hnext : next (storeOf (w₁.exec cfg c₁) logs₁) = next (storeOf (w₂.exec cfg c₂) logs₂) :=
        (hm₁.2.1.mono (Deeds.le_extend _ _)).eq (hm₂.2.1.mono (Deeds.le_extend _ _))
          (good_storeOf hcovers₁) (good_storeOf hcovers₂) hown
      simp only [moveMethod, hc₁, hc₂]
      cases r.outcome with
      | ok => simp only [hnext]
      | _ => rfl

theorem move (cfg : Config) (r : Reply) {s : Session} (hu : s.user = u)
    (hs₁ : s.running.OwnedBy δ₁ u) (hs₂ : s.running.OwnedBy δ₂ u)
    (hlogs : ((storeOf w₁ logs₁).own u).logs = ((storeOf w₂ logs₂).own u).logs) :
    (s.move cfg w₁ logs₁ r).next = (s.move cfg w₂ logs₂ r).next ∧
      w₁.blocks (s.move cfg w₁ logs₁ r).command = w₂.blocks (s.move cfg w₂ logs₂ r).command := by
  subst hu
  unfold Session.move
  cases hrunning : s.running with
  | call c value =>
    rw [hrunning] at hs₁ hs₂
    have hmove := h.move_call h₁ h₂ cfg r value hs₁.1 hs₂.1
    refine ⟨congrArg Move.next hmove, ?_⟩
    dsimp only
    rw [hmove]
    exact h.blocks _
  | method m =>
    rw [hrunning] at hs₁ hs₂
    refine ⟨h.move_method h₁ h₂ hs₁ hs₂ hlogs, ?_⟩
    have hfree (w : World) (logs : List LogEntry) :
        w.blocks (moveMethod cfg w logs r m).command = false := by
      cases m with
      | pure | throw | query => rfl
      | write c next =>
        rw [moveMethod]
        cases hc : Write.command cfg w.db r c with
        | none => rfl
        | some command =>
          have hblocks : w.blocks command = false := by
            cases c with
            | saveAll projectId items =>
              cases (Option.ite_none_right_eq_some.mp hc).2
              rfl
            | upsert userId dto =>
              cases hc
              rfl
          cases r.outcome with
          | ok | lost => exact hblocks
          | _ => rfl
    rw [hfree, hfree]

end SameFor

section

variable {collation : String → String → Bool} {zone : AnalyticsService.Zone} {v : UserId}
  {x x' x₁ x₂ : Tenants}

/-! ## The user's own rows after a step -/

/-- A lawful command on the user's rows does the same to them in both states. -/
theorem SameFor.own_change {w₁ w₂ : World} (h : SameFor u w₁ w₂) (h₁ : δ₁.Covers w₁.db)
    (h₂ : δ₂.Covers w₂.db) {c : Command} (hl₁ : c.Lawful δ₁ w₁.db) (hl₂ : c.Lawful δ₂ w₂.db)
    (hc₁ : c.Within δ₁ w₁.db u) (hc₂ : c.Within δ₂ w₂.db u) :
    (c.change w₁.now w₁.db).own u = (c.change w₂.now w₂.db).own u := by
  by_cases hconfigs : ∃ configs, c = .setSystemConfigs configs
  · obtain ⟨configs, rfl⟩ := hconfigs
    have hown (db : Database) : (Command.change w₁.now db (.setSystemConfigs configs)).own u =
        { db.own u with systemConfigs := configs.filter fun c => c.userId == u } := rfl
    have hnow (db : Database) : Command.change w₂.now db (.setSystemConfigs configs) =
        Command.change w₁.now db (.setSystemConfigs configs) := rfl
    rw [hnow, hown, hown, h.own]
  · have hother : ∀ configs, c ≠ .setSystemConfigs configs := fun configs hc =>
      hconfigs ⟨configs, hc⟩
    rw [own_change_own h₁ hl₁ hc₁ hother, own_change_own h₂ hl₂ hc₂ hother, h.own, h.now]

theorem SameFor.own_method {w₁ w₂ : World} {logs₁ logs₂ : List LogEntry} {r : Reply} {m : Method}
    (h : SameFor u w₁ w₂) (h₁ : δ₁.Covers w₁.db) (h₂ : δ₂.Covers w₂.db)
    (hm₁ : (discretion u).Keeps δ₁ m) (hm₂ : (discretion u).Keeps δ₂ m)
    (hlogs : ((storeOf w₁ logs₁).own u).logs = ((storeOf w₂ logs₂).own u).logs) :
    ((moveMethod cfg w₁ logs₁ r m).command.change w₁.now w₁.db).own u =
      ((moveMethod cfg w₂ logs₂ r m).command.change w₂.now w₂.db).own u := by
  cases m with
  | pure | throw | query => exact h.own
  | write c next =>
    rcases h.write h₁ h₂ cfg r hm₁.1 hm₂.1 hlogs with ⟨hc₁, hc₂⟩ |
      ⟨c₁, c₂, hc₁, hc₂, hown⟩
    · simp only [moveMethod, hc₁, hc₂]
      exact h.own
    · have hdb : (w₁.exec cfg c₁).db.own u = (w₂.exec cfg c₂).db.own u := congrArg Store.db hown
      rw [World.db_exec, World.db_exec] at hdb
      simp only [moveMethod, hc₁, hc₂]
      cases r.outcome with
      | ok | lost => exact hdb
      | fail | late => exact h.own

/-- A line of a deployment that is the user's after a step was the user's before it. -/
theorem isSome_findDeployment_own {now : Nat} {db : Database} {c : Command} (h : δ.Covers db)
    (hl : c.Lawful δ db) {id : DeploymentId} (hid : (db.findDeployment id).isSome = true)
    (hown : (((c.change now db).own u).findDeployment id).isSome = true) :
    ((db.own u).findDeployment id).isSome = true := by
  have hδ : δ ≤ δ.extend (c.change now db) := Deeds.le_extend _ _
  have hcovers := covers_change now h hl
  rw [hcovers.own_eq, Database.findDeployment, List.find?_isSome] at hown
  rw [Database.findDeployment, List.find?_isSome] at hid
  rw [h.own_eq, Database.findDeployment, List.find?_isSome]
  obtain ⟨d', hd', hkey'⟩ := hown
  obtain ⟨hd', howner⟩ := List.mem_filter.mp hd'
  obtain ⟨d, hd, hkey⟩ := hid
  rw [beq_iff_eq] at hkey hkey' howner
  refine ⟨d, List.mem_filter.mpr ⟨hd, ?_⟩, beq_iff_eq.mpr hkey⟩
  have hproject : d.projectId = d'.projectId := by
    have hold := hδ.2.1 _ _ (h.deployment hd)
    rw [hkey, ← hkey', hcovers.deployment hd', Option.some.injEq] at hold
    exact hold.symm
  obtain ⟨w, hw⟩ := h.hasProject (h.linked.deployments d hd)
  have hsame := hδ.1 _ _ hw
  rw [hproject, howner, Option.some.injEq] at hsame
  rw [hw, hsame, beq_self_eq_true]

namespace Tenants

def LogsLinked (x : Tenants) : Prop :=
  ∀ line ∈ x.logs, (x.world.db.findDeployment line.deploymentId).isSome = true

theorem logsLinked_step (h : x.LogsLinked) {e : Event}
    (hstep : x.step cfg collation zone e = some x') : x'.LogsLinked := by
  cases e with
  | call user op =>
    cases hstep
    exact h
  | go i r =>
    rw [step] at hstep
    split at hstep
    · cases hstep
    · dsimp only at hstep
      split at hstep
      · cases hstep
      · cases hstep
        intro line hline
        rw [logs_after] at hline
        exact (List.mem_filter.mp hline).2
  | system c =>
    rw [step] at hstep
    split at hstep
    · cases hstep
      exact fun line hline => (List.mem_filter.mp hline).2
    · cases hstep
  | log line =>
    rw [step] at hstep
    split at hstep
    · rename_i hline
      cases hstep
      intro line' hline'
      rcases List.mem_append.mp hline' with hline' | hline'
      · exact h line' hline'
      · rw [List.mem_singleton.mp hline']
        exact hline
    · cases hstep

/-- The log rows of a user after a step are those before it, without the ones of rows that are
gone. -/
theorem logRows_after {i : Nat} {m : Move} (h : x.Kept δ) (hlogs : x.LogsLinked)
    (hl : m.command.Lawful δ x.world.db) :
    ((x.after cfg i u m).rows u).2 = (x.rows u).2.filter fun line =>
      (((m.command.change x.world.now x.world.db).own u).findDeployment
        line.deploymentId).isSome := by
  have hrows (y : Tenants) : (y.rows u).2 =
      y.logs.filter fun line => ((y.world.db.own u).findDeployment line.deploymentId).isSome :=
    logs_own
  rw [hrows, hrows, logs_after, filter_keptLogs, db_after, List.filter_filter]
  refine List.filter_congr fun line hline => ?_
  rw [Bool.eq_iff_iff, Bool.and_eq_true]
  exact ⟨fun hown => ⟨hown, isSome_findDeployment_own h.covers hl (hlogs line hline) hown⟩,
    fun hboth => hboth.1⟩

/-! ## What a user learns -/

/-- A user sees two states alike by the user's own rows, and of others' by taken names only. -/
structure Alike (u : UserId) (x₁ x₂ : Tenants) : Prop where
  worlds : SameFor u x₁.world x₂.world
  logs : (x₁.rows u).2 = (x₂.rows u).2

/-- A session goes the same way in two states: it waits in both or in none, it goes on alike or
answers the same, and it leaves the user the same rows. -/
structure SameStep (cfg : Config) (s : Session) (r : Reply) (i j : Nat) (x₁ x₂ : Tenants) :
    Prop where
  waits : x₁.world.blocks (s.move cfg x₁.world x₁.logs r).command =
    x₂.world.blocks (s.move cfg x₂.world x₂.logs r).command
  next : (s.move cfg x₁.world x₁.logs r).next = (s.move cfg x₂.world x₂.logs r).next
  rows : (x₁.after cfg i s.user (s.move cfg x₁.world x₁.logs r)).rows s.user =
    (x₂.after cfg j s.user (s.move cfg x₂.world x₂.logs r)).rows s.user

theorem sameStep_of_alike {s : Session} {i j : Nat} (h₁ : x₁.Kept δ₁) (h₂ : x₂.Kept δ₂)
    (hlogs₁ : x₁.LogsLinked) (hlogs₂ : x₂.LogsLinked) (hs₁ : x₁.sessions[i]? = some s)
    (hs₂ : x₂.sessions[j]? = some s) (h : Alike s.user x₁ x₂) (r : Reply) :
    SameStep cfg s r i j x₁ x₂ := by
  have hown₁ := h₁.sessions s (List.mem_of_getElem? hs₁)
  have hown₂ := h₂.sessions s (List.mem_of_getElem? hs₂)
  have hm₁ := Session.careful_move cfg x₁.logs r h₁.covers hown₁
  have hm₂ := Session.careful_move cfg x₂.logs r h₂.covers hown₂
  obtain ⟨hnext, hwaits⟩ :=
    h.worlds.move h₁.covers h₂.covers cfg r rfl hown₁ hown₂ h.logs
  have hdb : ((s.move cfg x₁.world x₁.logs r).command.change x₁.world.now x₁.world.db).own s.user =
      ((s.move cfg x₂.world x₂.logs r).command.change x₂.world.now x₂.world.db).own s.user := by
    unfold Session.move at hm₁ hm₂ ⊢
    cases hrunning : s.running with
    | call c value =>
      rw [hrunning] at hown₁ hown₂ hm₁ hm₂
      dsimp only at hm₁ hm₂ ⊢
      have hmove := h.worlds.move_call h₁.covers h₂.covers cfg r value hown₁.1 hown₂.1
      rw [hmove] at hm₁ ⊢
      exact h.worlds.own_change h₁.covers h₂.covers hm₁.lawful hm₂.lawful hm₁.within hm₂.within
    | method m =>
      rw [hrunning] at hown₁ hown₂
      exact h.worlds.own_method h₁.covers h₂.covers hown₁ hown₂ h.logs
  refine ⟨hwaits, hnext, Prod.ext ?_ ?_⟩
  · change (x₁.after cfg i s.user _).world.db.own s.user =
      (x₂.after cfg j s.user _).world.db.own s.user
    rw [db_after, db_after, hdb]
  · rw [logRows_after h₁ hlogs₁ hm₁.lawful, logRows_after h₂ hlogs₂ hm₂.lawful, hdb, h.logs]

end Tenants
end

end System
end Code2Cloud
