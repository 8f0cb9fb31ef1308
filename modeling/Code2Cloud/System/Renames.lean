import Code2Cloud.System.Failure
import Code2Cloud.System.Keys
import Code2Cloud.System.Teardown

/-!
# Renamed projects

A rollout goes by the name in its job, and a cleanup by the name in the project's row.
`ProjectsService.update` changes the row and nothing else.
-/

namespace Code2Cloud
namespace System

open Api Worker GoString

variable {cfg : Config} {w : World} {s s' : State} {e : Event} {x : DeploymentId × ProjectName}

/-! ## Names -/

/-- The objects that were rolled out under a name bear the project's current name, and a cleanup
that goes by the current name deletes them. -/
def SameObjects (name current : ProjectName) : Prop :=
  ∀ kind, Client.objectName kind (utf8 name.val) = Client.objectName kind (utf8 current.val) ∧
    ∀ id, Client.deleteName kind { deploymentId := id, projectName := utf8 current.val } =
      Client.objectName kind (utf8 name.val)

/-- The names are the same to the worker, which can sanitise them twice. -/
def SameName (name current : ProjectName) : Prop :=
  sanitizeK8sName (utf8 name.val) = sanitizeK8sName (utf8 current.val) ∧
    (sanitizeK8sName (utf8 current.val)).length ≤ 63

instance (name current : ProjectName) : Decidable (SameName name current) :=
  inferInstanceAs (Decidable (_ ∧ _))

theorem sameObjects_iff {name current : ProjectName} :
    SameObjects name current ↔ SameName name current := by
  constructor
  · intro h
    obtain ⟨hname, hdelete⟩ := h .deployment
    refine ⟨hname, sanitizeK8sName_twice_iff.mp ?_⟩
    exact (hdelete none).trans hname
  · rintro ⟨hname, hlength⟩ kind
    have htwice := sanitizeK8sName_sanitizeK8sName hlength
    have hobject : ∀ a b, sanitizeK8sName a = sanitizeK8sName b →
        Client.objectName kind a = Client.objectName kind b := by
      intro a b h
      cases kind <;> simp only [Client.objectName, h]
    exact ⟨hobject _ _ hname, fun _ => hobject _ _ (htwice.trans hname.symm)⟩

/-- The deployment was rolled out under names that are the same as this one. -/
def World.RolledOutAs (w : World) (id : DeploymentId) (current : ProjectName) : Prop :=
  ∀ x ∈ rolledOut w.log, x.1 = id → SameName x.2 current

instance (w : World) (id : DeploymentId) (current : ProjectName) :
    Decidable (w.RolledOutAs id current) :=
  inferInstanceAs (Decidable (∀ x ∈ rolledOut w.log, x.1 = id → SameName x.2 current))

/-- The objects of every READY deployment bear the name of its project, and a cleanup under that
name deletes them. -/
def State.Named (s : State) : Prop :=
  ∀ d ∈ s.world.db.deployments, d.status = .ready → ∀ p ∈ s.world.db.projects,
    p.id = d.projectId → ∀ x ∈ rolledOut s.world.log, x.1 = d.id → SameObjects x.2 p.name

/-- A project is renamed only to a name under which its READY deployments were rolled out, and a
deployment is marked READY, or one that is READY rolled out, only under its project's name. -/
def KeepsNames (cfg : Config) (s : State) (e : Event) : Prop :=
  ∀ t ∈ s.turn cfg e,
    (∀ p ∈ s.world.db.projects, ∀ name ∈ t.command.renames p.id, ∀ d ∈ s.world.db.deployments,
      d.projectId = p.id → d.status = .ready → s.world.RolledOutAs d.id name) ∧
    (∀ id ∈ t.command.readied, ∀ d ∈ s.world.db.deployments, d.id = id →
      ∀ p ∈ s.world.db.projects, p.id = d.projectId → s.world.RolledOutAs d.id p.name) ∧
    ∀ x ∈ rolledOut t.entries, ∀ d ∈ s.world.db.deployments, d.id = x.1 → d.status = .ready →
      ∀ p ∈ s.world.db.projects, p.id = d.projectId → SameName x.2 p.name

instance (cfg : Config) (s : State) (e : Event) : Decidable (KeepsNames cfg s e) :=
  have (t : Turn Processes) (p : Project) : Decidable (∀ name ∈ t.command.renames p.id,
      ∀ d ∈ s.world.db.deployments, d.projectId = p.id → d.status = .ready →
        s.world.RolledOutAs d.id name) := Option.decidableForallMem _
  have (t : Turn Processes) : Decidable (∀ id ∈ t.command.readied,
      ∀ d ∈ s.world.db.deployments, d.id = id → ∀ p ∈ s.world.db.projects, p.id = d.projectId →
        s.world.RolledOutAs d.id p.name) := Option.decidableForallMem _
  Option.decidableForallMem _

theorem renames_eq_some {c : Command} {id : ProjectId} {name : ProjectName}
    (h : c.renames id = some name) : ∃ dto, c = .updateProject id dto ∧ dto.name = some name := by
  cases c with
  | updateProject id' dto =>
    rw [Command.renames] at h
    split at h
    · rename_i hid
      exact ⟨dto, by rw [hid], h⟩
    · cases h
  | _ => cases h

/-! ## Rollouts that are reported -/

theorem BuildWorker.deployed_step {b : BuildWorker} {r : Reply}
    (h : x ∈ rolledOut (b.step cfg w r).entries) : (b.step cfg w r).command = .skip := by
  rw [mem_rolledOut] at h
  obtain ⟨build, pc, rfl, hreports⟩ := BuildWorker.reports_step h
  rcases hreports with ⟨hx, _⟩ | ⟨_, stage, rfl⟩ | ⟨result, hx⟩
  · cases hx
  · rcases stage_cases cfg build stage with rfl | ⟨o, next, ho, hnext, _⟩
    · rfl
    · have hturn : step cfg w r (.processing build (.deploy stage)) = _ :=
        processStep_deploy ho hnext
      rw [hturn] at h
      rcases issue_cases w r.outcome (.apply o) (some (processing build (.deploy next)))
        (some (failing build.job .markFailed)) [] [.finished build.job.deploymentId .failed] with
        ⟨_, ht⟩ | ⟨_, ht⟩ | ht <;> rw [ht] at h
      · cases h
      · cases List.mem_singleton.mp h
      · cases List.mem_singleton.mp h
  · cases hx

namespace State

theorem deployed_turn {t : Turn Processes} (ht : s.turn cfg e = some t)
    (hx : x ∈ rolledOut t.entries) : t.command = .skip := by
  have hnone {a : Writer} {entries : List Entry} (h : writtenBy a entries = true)
      (ha : a ≠ .worker) (hx : x ∈ rolledOut entries) : t.command = .skip :=
    absurd (writer_of_mem h (mem_rolledOut.mp hx)).symm ha
  cases e with
  | tick | request | restart =>
    cases ht
    cases hx
  | edit edit =>
    rw [turn] at ht
    split at ht <;> cases ht
    cases hx
  | call i r =>
    rw [turn, Option.map_eq_some_iff] at ht
    obtain ⟨c, _, rfl⟩ := ht
    exact hnone (foreground_call cfg s.world r c).entries (by decide) hx
  | worker r =>
    cases ht
    exact BuildWorker.deployed_step hx
  | sweep r =>
    cases ht
    have hquiet := (quiet_sweep s.world r s.procs.sweep).entries
    exact absurd hx (by rw [Turn.map, hquiet]; exact List.not_mem_nil)
  | projectCleanup r =>
    cases ht
    have hquiet := (quiet_projectCleanup s.world r s.procs.projectCleanup).entries
    exact absurd hx (by rw [Turn.map, hquiet]; exact List.not_mem_nil)
  | domainWorker r =>
    cases ht
    have hquiet := (quiet_domainWorker s.world r s.procs.domainWorker).entries
    exact absurd hx (by rw [Turn.map, hquiet]; exact List.not_mem_nil)

theorem rolledOut_after (cfg : Config) (s : State) (t : Turn Processes) :
    rolledOut (s.after cfg t).world.log = rolledOut s.world.log ++ rolledOut t.entries := by
  rw [after, World.record_log, World.log_exec, rolledOut_append, rolledOut_append,
    rolledOut_recorded, List.append_nil]

/-! ## Steps -/

/-- A step after which the names are right kept them. -/
theorem keepsNames_of_named {t : Turn Processes} (ht : s.turn cfg e = some t)
    (h : (s.after cfg t).Named) : KeepsNames cfg s e := by
  have hold {x : DeploymentId × ProjectName} (hx : x ∈ rolledOut s.world.log) :
      x ∈ rolledOut (s.after cfg t).world.log := by
    rw [rolledOut_after]
    exact List.mem_append_left _ hx
  intro t' ht'
  cases ht.symm.trans ht'
  refine ⟨?_, ?_, ?_⟩
  · intro p hp name hname d hd hproject hready x hx hid
    obtain ⟨dto, hc, hdto⟩ := renames_eq_some hname
    have hrow : applyUpdate s.world.now dto p ∈ (s.after cfg t).world.db.projects := by
      rw [after, hc]
      exact List.mem_map.mpr ⟨p, hp, if_pos rfl⟩
    have hd' : d ∈ (s.after cfg t).world.db.deployments := by
      rw [after, hc]
      exact hd
    have hsame := h d hd' hready _ hrow hproject.symm x (hold hx) hid
    have hcurrent : (applyUpdate s.world.now dto p).name = name := by
      rw [applyUpdate, hdto]
      rfl
    exact sameObjects_iff.mp (hcurrent ▸ hsame)
  · intro id hid d hd hdid p hp hproject x hx hxid
    obtain ⟨st, hc, hst⟩ := readied_eq_some_iff.mp hid
    have hd' : st.apply s.world.now d ∈ (s.after cfg t).world.db.deployments := by
      rw [after, hc]
      exact List.mem_map.mpr ⟨d, hd, if_pos hdid⟩
    have hp' : p ∈ (s.after cfg t).world.db.projects := by
      rw [after, hc]
      exact hp
    refine sameObjects_iff.mp (h _ hd' ?_ p hp' ?_ x (hold hx) ?_)
    · rw [StatusWrite.apply_status, hst]
    · rw [StatusWrite.apply_projectId, hproject]
    · rw [StatusWrite.apply_id, hxid]
  · intro x hx d hd hid hready p hp hproject
    have hc := deployed_turn ht hx
    have hx' : x ∈ rolledOut (s.after cfg t).world.log := by
      rw [rolledOut_after]
      exact List.mem_append_right _ hx
    have hdb : (s.after cfg t).world.db = s.world.db := by
      rw [after, hc]
      rfl
    exact sameObjects_iff.mp (h d (hdb ▸ hd) hready p (hdb ▸ hp) hproject x hx' hid.symm)

/-- A step that keeps the names leaves them right. -/
theorem named_of_keepsNames (hr : s.Referenced) (hl : s.Listed) (hs : s.Named)
    (hok : KeepsNames cfg s e) (h : s.step cfg e = some s') : s'.Named := by
  intro d' hd' hready p' hp' hproject x hx hid
  obtain ⟨d, hd, hdid, hdproject, hbefore⟩ := ready_step h hd' hready
  obtain ⟨t, ht, _, rfl⟩ := step_eq_some_iff.mp h
  obtain ⟨hrename, hreadied, hrolled⟩ := hok t ht
  rw [← hdid] at hid
  rcases World.mem_projects_exec hp' with hnew | ⟨p, hp, hafter⟩
  · obtain ⟨draft, hc, rfl⟩ : ∃ draft, t.command = .commitDraft draft ∧ p' = draft.project :=
      mem_projects.mp hnew
    exact absurd (hdproject.trans hproject.symm) (hr.projectId_ne hl ht hc hd)
  · have hpproject : p.id = d.projectId := hafter.id.symm.trans (hproject.trans hdproject.symm)
    have hsame (hname : t.command.renames p.id = none) : p'.name = p.name := by
      rw [hafter.name, hname]
      rfl
    rw [rolledOut_after] at hx
    rcases List.mem_append.mp hx with hx | hx
    · rcases hbefore with hready | ⟨_, t', ht', hid'⟩
      · cases hname : t.command.renames p.id with
        | none => exact hsame hname ▸ hs d hd hready p hp hpproject x hx hid
        | some name =>
          rw [hafter.name, hname]
          exact sameObjects_iff.mpr
            (hrename p hp name hname d hd hpproject.symm hready x hx hid)
      · cases ht.symm.trans ht'
        obtain ⟨st, hc, _⟩ := readied_eq_some_iff.mp hid'
        rw [hsame (by rw [hc]; rfl)]
        exact sameObjects_iff.mpr (hreadied d.id hid' d hd rfl p hp hpproject x hx hid)
    · have hc := deployed_turn ht hx
      rcases hbefore with hready | ⟨_, t', ht', hid'⟩
      · rw [hsame (by rw [hc]; rfl)]
        exact sameObjects_iff.mpr (hrolled x hx d hd hid.symm hready p hp hpproject)
      · cases ht.symm.trans ht'
        rw [hc] at hid'
        cases hid'

end State

/-- In a run the objects of every READY deployment bear its project's name throughout, and a cleanup
under that name deletes them, exactly if every step keeps the names. -/
theorem names_kept_iff {es : List Event}
    (hrun : runEvents (State.step cfg) State.initial es = some s) :
    (∀ earlier t, earlier <+: es → runEvents (State.step cfg) State.initial earlier = some t →
      t.Named) ↔ RunsUnder (State.step cfg) (KeepsNames cfg) State.initial es := by
  refine (runsUnder_iff_throughout (KeepsNames cfg) (fun s => s.Referenced ∧ s.Listed) State.Named
    ?_ ?_ hrun ⟨State.referenced_initial, ?_⟩ ?_).symm
  · rintro s e s' ⟨hr, hl⟩ h
    exact ⟨State.referenced_step hr h, State.listed_step hl h⟩
  · rintro s e s' ⟨hr, hl⟩ hs h
    refine ⟨fun hs' => ?_, fun hok => State.named_of_keepsNames hr hl hs hok h⟩
    obtain ⟨t, ht, _, rfl⟩ := State.step_eq_some_iff.mp h
    exact State.keepsNames_of_named ht hs'
  · exact fun id => ⟨Nat.zero_le 1, fun _ => rfl⟩
  · exact fun d hd => absurd hd List.not_mem_nil

/-! ## A shop that is renamed -/

/-- The shop is renamed before it is rolled out for the first time, and keeps its label. -/
theorem names_kept_shop : ∃ s, Reaches (State.step Config.clear) (fun _ _ => True) State.initial s ∧
    s.Named ∧ s.world.isReady 2 = true ∧ (2, ⟨"shop", by decide⟩) ∈ rolledOut s.world.log ∧
      s.world.db.projects.map (·.name) = [⟨"Shop", by decide⟩] := by
  have hes : (runEvents (State.step Config.clear) State.initial
      (shopCreated ++ shopRequest (.updateProject 1 1 { name := some ⟨"Shop", by decide⟩ }) 2 ++
        shopWorker 23)).any (fun s : State => s.world.isReady 2 &&
          (rolledOut s.world.log).contains (2, ⟨"shop", by decide⟩) &&
          decide (s.world.db.projects.map (·.name) = [⟨"Shop", by decide⟩])) = true := by
    decide
  obtain ⟨s, hrun, hend⟩ := Option.any_eq_true _ _ |>.mp hes
  simp only [Bool.and_eq_true, decide_eq_true_eq, List.contains_iff_mem] at hend
  obtain ⟨⟨hready, hrolled⟩, hname⟩ := hend
  exact ⟨s, Reaches.of_runEvents hrun (runsUnder_true _ _ _),
    (names_kept_iff hrun).mpr (by decide) _ s List.prefix_rfl hrun, hready, hrolled, hname⟩

/-- The live shop becomes a store: its objects keep their names. -/
theorem not_names_kept :
    ¬∀ (cfg : Config) (s : State),
      Reaches (State.step cfg) (fun _ e => e.succeeds = true) State.initial s → s.Named := by
  intro h
  obtain ⟨s, hs, hend⟩ := Reaches.exists_of_runEvents (State.step Config.clear)
    (fun _ e => e.succeeds = true) State.initial
    (shopCreated ++ shopWorker 23 ++
      shopRequest (.updateProject 1 1 { name := some ⟨"store", by decide⟩ }) 2)
    (fun s => s.world.db.deployments.any fun d => decide (d.status = .ready) &&
      s.world.db.projects.any fun p => decide (p.id = d.projectId) &&
        decide (p.name = ⟨"store", by decide⟩) &&
        (rolledOut s.world.log).contains (d.id, ⟨"shop", by decide⟩))
    (by decide) (by decide)
  obtain ⟨d, hd, hend⟩ := List.any_eq_true.mp hend
  rw [Bool.and_eq_true, decide_eq_true_eq, List.any_eq_true] at hend
  obtain ⟨hready, p, hp, hend⟩ := hend
  simp only [Bool.and_eq_true, decide_eq_true_eq, List.contains_iff_mem] at hend
  obtain ⟨⟨hproject, hname⟩, hrolled⟩ := hend
  have hsame := h Config.clear s hs d hd hready p hp hproject _ hrolled rfl .deployment
  rw [hname] at hsame
  have hne : Client.objectName .deployment (utf8 "shop") ≠
      Client.objectName .deployment (utf8 "store") := by decide
  exact hne hsame.1

end System
end Code2Cloud
