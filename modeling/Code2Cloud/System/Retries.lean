import Code2Cloud.System.Keys
import Code2Cloud.System.Titles

/-!
# Retries

The domain worker polls the domains whose status is PENDING.  A domain whose route could not be
configured is reported with another status, so that no later cycle finds it.
-/

namespace Code2Cloud
namespace System

open Api Worker

variable {cfg : Config} {w : World} {s s' : State} {e : Event} {l : List DomainId}

/-! ## The ledger and the property -/

def noteActive (_ : State) (_ : Event) (s' : State) (l : List DomainId) : List DomainId :=
  l ++ (s'.world.db.domains.filter fun d => d.status == .active).map (·.id)

/-- A command that sets a domain to a status which is neither PENDING nor ACTIVE, although it has
never been ACTIVE. -/
def Command.abandons (l : List DomainId) : Command → Bool
  | .updateDomainStatus id status _ =>
    status != .pending && status != .active && !l.contains id
  | _ => false

/-- The step abandons no domain: what the worker reports of a route that it could not configure
does not get through. -/
def KeepsPolling (cfg : Config) (x : State × List DomainId) (e : Event) : Prop :=
  (x.1.turn cfg e).all (fun t => !t.command.abandons x.2) = true

instance (cfg : Config) (x : State × List DomainId) (e : Event) :
    Decidable (KeepsPolling cfg x e) := inferInstanceAs (Decidable (_ = _))

/-- The next cycle gets every domain that has never been ACTIVE. -/
def Polled (x : State × List DomainId) : Prop :=
  ∀ d ∈ x.1.world.db.domains, d.id ∉ x.2 → ∃ p ∈ pendingDomains x.1.world.db, p.id = d.id

/-- A domain that has never been ACTIVE is PENDING. -/
def Pending (x : State × List DomainId) : Prop :=
  ∀ d ∈ x.1.world.db.domains, d.id ∉ x.2 → d.status = .pending

/-! ## The rows of domains -/

theorem World.mem_domains_exec {c : Command} {d' : Domain}
    (h : d' ∈ (w.exec cfg c).db.domains) : d' ∈ w.db.domains ∨
      (∃ d ∈ w.db.domains, ∃ status error, c = .updateDomainStatus d.id status error ∧
        d' = applyDomainStatus status error d) ∨
      c = .createDomain d' ∨ ∃ draft, c = .commitDraft draft ∧ d' = draft.domain := by
  rw [World.db_exec] at h
  cases c with
  | createDomain d =>
    rcases List.mem_append.mp h with h | h
    · exact Or.inl h
    · exact Or.inr (Or.inr (Or.inl (List.mem_singleton.mp h ▸ rfl)))
  | commitDraft draft =>
    rcases List.mem_append.mp h with h | h
    · exact Or.inl h
    · exact Or.inr (Or.inr (Or.inr ⟨draft, rfl, List.mem_singleton.mp h⟩))
  | updateDomainStatus id status error =>
    obtain ⟨d, hd, rfl⟩ := List.mem_map.mp h
    split
    · rename_i hid
      exact Or.inr (Or.inl ⟨d, hd, status, error, by rw [hid], rfl⟩)
    · exact Or.inl hd
  | deleteProject id | deleteDomain id => exact Or.inl (List.mem_filter.mp h).1
  | _ => exact Or.inl h

theorem World.hasProject_of_domain {c : Command} {d : Domain}
    (hd : d ∈ (w.exec cfg c).db.domains) (h : w.hasProject d.projectId = true) :
    (w.exec cfg c).hasProject d.projectId = true := by
  refine hasProject_exec_of_ne ?_ h
  rintro rfl
  have hkept := (List.mem_filter.mp hd).2
  simp at hkept

/-- A pending domain whose project has a row is polled. -/
theorem exists_pendingDomain {db : Database} {d : Domain} (hd : d ∈ db.domains)
    (hstatus : d.status = .pending) (hproject : (db.projects.any fun q => q.id == d.projectId)) :
    ∃ p ∈ pendingDomains db, p.id = d.id := by
  rw [List.any_eq_true, ← List.find?_isSome, Option.isSome_iff_exists] at hproject
  obtain ⟨q, hq⟩ := hproject
  refine ⟨{ id := d.id, domain := utf8 d.name, projectName := q.name }, ?_, rfl⟩
  refine List.mem_filterMap.mpr ⟨d, ?_, by rw [Database.findProject, hq]; rfl⟩
  rw [List.mem_insertionSort, List.mem_filter]
  exact ⟨hd, by rw [hstatus]; rfl⟩

theorem status_of_pendingDomain {db : Database} {p : PendingDomain} (hp : p ∈ pendingDomains db) :
    ∃ d ∈ db.domains, d.id = p.id ∧ d.status = .pending := by
  obtain ⟨d, hd, hp⟩ := List.mem_filterMap.mp hp
  rw [List.mem_insertionSort, List.mem_filter] at hd
  obtain ⟨q, _, rfl⟩ := Option.map_eq_some_iff.mp hp
  exact ⟨d, hd.1, rfl, eq_of_beq hd.2⟩

theorem status_updateDomain {id : DomainId} {status : DomainDnsStatus} {error : Option String}
    {d : Domain}
    (hd : d ∈ (w.exec cfg (.updateDomainStatus id status error)).db.domains) (hid : d.id = id) :
    d.status = status := by
  obtain ⟨d₀, _, rfl⟩ := List.mem_map.mp hd
  split at hid
  · rename_i h
    rw [if_pos h]
    rfl
  · exact absurd hid (by assumption)

namespace State

theorem status_of_createDomain {t : Turn Processes} (ht : s.turn cfg e = some t) {d : Domain}
    (hc : t.command = .createDomain d) : d.status = .pending := by
  rcases command_turn ht with ⟨i, r, c, rfl, -, hcommand⟩ | ⟨r, rfl, hcommand⟩ | hb
  · have hissued := issuedBy_step cfg s.world r c
    rw [← hcommand, hc] at hissued
    obtain ⟨projectId, domainName, rfl⟩ := hissued
    rfl
  · have hbackground := (background_worker cfg s.world r s.procs.worker).command
    rw [← hcommand, hc] at hbackground
    cases hbackground
  · rw [hc] at hb
    cases hb

/-! ## Domains and their projects -/

/-- Every domain is of a project with a row, and comes into the table with one and as PENDING. -/
structure Homed (s : State) : Prop where
  domains : ∀ d ∈ s.world.db.domains, s.world.hasProject d.projectId = true
  drafts : ∀ c ∈ s.procs.calls, ∀ draft, c.draft = some draft →
    draft.domain.projectId = draft.project.id ∧ draft.domain.status = .pending

theorem homed_initial : initial.Homed where
  domains _ hd := absurd hd List.not_mem_nil
  drafts _ hc := absurd hc List.not_mem_nil

theorem homed_step (hs : s.Homed) (h : s.step cfg e = some s') : s'.Homed where
  domains d' hd' := by
    obtain ⟨t, ht, _, rfl⟩ := step_eq_some_iff.mp h
    rw [after, World.record_db] at hd'
    have hstored (h : (s.world.db.findProject d'.projectId).isSome = true) :
        s.world.hasProject d'.projectId = true := by
      rw [Database.findProject, List.find?_isSome] at h
      exact List.any_eq_true.mpr h
    rcases World.mem_domains_exec hd' with hd | ⟨d, hd, status, error, hc, rfl⟩ | hc |
      ⟨draft, hc, rfl⟩
    · exact World.hasProject_of_domain hd' (hs.domains d' hd)
    · exact World.hasProject_of_domain hd' (hs.domains d hd)
    · have hadmits := admits_turn ht
      rw [hc] at hadmits
      exact World.hasProject_of_domain hd' (hstored (Bool.and_eq_true _ _ ▸ hadmits).1)
    · obtain ⟨c, hmem, hdraft⟩ := holder_of_commit ht hc
      change (s.world.exec cfg t.command).hasProject draft.domain.projectId = true
      rw [(hs.drafts c hmem draft hdraft).1, hc]
      refine List.any_eq_true.mpr ⟨draft.project, ?_, beq_self_eq_true _⟩
      exact List.mem_append_right _ (List.mem_singleton_self _)
  drafts c' hc' draft hdraft := by
    rcases draft_step_cases h hc' hdraft with ⟨c, hc, hheld⟩ | hnew
    · exact hs.drafts c hc draft hheld
    · obtain ⟨hash, ivs, userId, dto, commit, rfl⟩ := hnew
      exact ⟨rfl, rfl⟩

end State

/-! ## Runs -/

theorem polled_of_pending {x : State × List DomainId} (h : x.1.Homed) (hx : Pending x) :
    Polled x := fun d hd hid => exists_pendingDomain hd (hx d hd hid) (h.domains d hd)

/-- A step that abandons no domain leaves those that have never been ACTIVE pending. -/
theorem Pending.step (hs : s.Homed) (hp : Pending (s, l)) (hok : KeepsPolling cfg (s, l) e)
    (h : s.step cfg e = some s') : Pending (s', noteActive s e s' l) := by
  obtain ⟨t, ht, _, rfl⟩ := State.step_eq_some_iff.mp h
  intro d' hd' hid
  rw [noteActive, List.mem_append, not_or] at hid
  obtain ⟨hl, hactive⟩ := hid
  have hmem := hd'
  dsimp only at hd'
  rw [State.after, World.record_db] at hd'
  rcases World.mem_domains_exec hd' with hd | ⟨d, hd, status, error, hc, rfl⟩ | hc |
    ⟨draft, hc, rfl⟩
  · exact hp d' hd hl
  · -- the new status is PENDING: one that is ACTIVE would be in the ledger
    rw [KeepsPolling, ht, Option.all_some, hc, Command.abandons] at hok
    by_contra hne
    have hne' : status ≠ .active := by
      rintro rfl
      exact hactive (List.mem_map.mpr ⟨_, List.mem_filter.mpr ⟨hmem, rfl⟩, rfl⟩)
    have hpending : status ≠ .pending := hne
    simp [hpending, hne'] at hok
    exact hl hok
  · exact State.status_of_createDomain ht hc
  · obtain ⟨c, hcall, hdraft⟩ := State.holder_of_commit ht hc
    exact (hs.drafts c hcall draft hdraft).2

/-- A domain that a step abandons is not polled. -/
theorem keepsPolling_of_polled (h : s.step cfg e = some s')
    (hp : Polled (s', noteActive s e s' l)) : KeepsPolling cfg (s, l) e := by
  obtain ⟨t, ht, _, rfl⟩ := State.step_eq_some_iff.mp h
  rw [KeepsPolling, ht, Option.all_some, Bool.not_eq_true']
  by_contra habandons
  rw [Bool.not_eq_false] at habandons
  have hadmits := State.admits_turn ht
  cases hc : t.command with
  | updateDomainStatus id status error =>
    simp only [hc, Command.abandons, Bool.and_eq_true, bne_iff_ne, Bool.not_eq_true',
      ← Bool.not_eq_true, List.contains_iff_mem] at habandons
    obtain ⟨⟨hpending, hactive⟩, hl⟩ := habandons
    have hstatus : ∀ d ∈ (s.after cfg t).world.db.domains, d.id = id → d.status = status := by
      rw [State.after, World.record_db, hc]
      exact fun d hd hid => status_updateDomain hd hid
    rw [hc, World.admits, Database.findDomain, List.find?_isSome] at hadmits
    obtain ⟨d, hd, hid⟩ := hadmits
    rw [beq_iff_eq] at hid
    subst hid
    have hmem : applyDomainStatus status error d ∈ (s.after cfg t).world.db.domains := by
      rw [State.after, World.record_db, hc]
      exact List.mem_map.mpr ⟨d, hd, if_pos rfl⟩
    have hnever : d.id ∉ noteActive s e (s.after cfg t) l := by
      rw [noteActive, List.mem_append, not_or]
      refine ⟨hl, fun hnoted => ?_⟩
      obtain ⟨d', hd', hid'⟩ := List.mem_map.mp hnoted
      rw [List.mem_filter, beq_iff_eq] at hd'
      exact hactive ((hstatus d' hd'.1 hid').symm.trans hd'.2)
    obtain ⟨p, hpolled, hpid⟩ := hp _ hmem hnever
    obtain ⟨d', hd', hid', hpending'⟩ := status_of_pendingDomain hpolled
    exact hpending ((hstatus d' hd' (hid'.trans hpid)).symm.trans hpending')
  | _ =>
    rw [hc] at habandons
    cases habandons

/-- Over a run every cycle gets all the domains that have never been ACTIVE if and only if no step
abandons one. -/
theorem polled_iff {x : State × List DomainId} {es : List Event}
    (hrun : runEvents (stepNoting (State.step cfg) noteActive) (State.initial, []) es = some x) :
    (∀ earlier y, earlier <+: es →
      runEvents (stepNoting (State.step cfg) noteActive) (State.initial, []) earlier = some y →
        Polled y) ↔
    RunsUnder (stepNoting (State.step cfg) noteActive) (KeepsPolling cfg) (State.initial, [])
      es := by
  refine (runsUnder_iff_shown (KeepsPolling cfg) (fun x => x.1.Homed) Pending Polled ?_
    (fun _ => polled_of_pending) ?_ ?_ hrun State.homed_initial ?_).symm
  · rintro x e y hx hstep
    exact State.homed_step hx (stepNoting_eq_some_iff.mp hstep).1
  · rintro x e ⟨s', l'⟩ hs hp hok hstep
    obtain ⟨h, hl⟩ := stepNoting_eq_some_iff.mp hstep
    obtain rfl : l' = noteActive x.1 e s' x.2 := hl
    exact hp.step hs hok h
  · rintro x e ⟨s', l'⟩ _ _ hstep hp
    obtain ⟨h, hl⟩ := stepNoting_eq_some_iff.mp hstep
    obtain rfl : l' = noteActive x.1 e s' x.2 := hl
    exact keepsPolling_of_polled h hp
  · exact fun d hd => absurd hd List.not_mem_nil

/-! ## A shop and its domains -/

theorem acceptsDomainName_shop : acceptsDomainName "www.shop.com" = true := by decide

def domainAdded : List Event :=
  shopRequest (.createDomain 1 1 ⟨"www.shop.com", acceptsDomainName_shop⟩) 3

def notFound : List Event :=
  [.domainWorker { shopReply with verified := false }, .domainWorker shopReply]

/-- A cycle that finds no records of the generated address and those of the domain that was added,
for which the worker takes a number of steps. -/
def domainCycle (steps : Nat) : List Event :=
  .domainWorker shopReply :: notFound ++ List.replicate steps (.domainWorker shopReply)

def shopVerified : List Event :=
  shopCreated ++ shopWorker 23 ++ domainAdded ++ .domainWorker shopReply :: notFound ++ notFound ++
    domainCycle 4

theorem polled_shop : ∃ x,
    runEvents (stepNoting (State.step Config.clear) noteActive) (State.initial, []) shopVerified =
      some x ∧ x.2 = [4] ∧ Polled x := by
  have hrun : (runEvents (stepNoting (State.step Config.clear) noteActive) (State.initial, [])
      shopVerified).any (fun x => x.2 == [4]) = true := by decide
  obtain ⟨x, hx, hnoted⟩ := (Option.any_eq_true _ _).mp hrun
  exact ⟨x, hx, eq_of_beq hnoted,
    (polled_iff hx).mpr (by decide) _ x (List.prefix_refl _) hx⟩

/-- The domain is added before the first deploy has made the ingress: it is reported with ERROR, and
no later cycle finds it. -/
theorem not_polled : ¬∀ (cfg : Config) (es : List Event) (x : State × List DomainId),
    runEvents (stepNoting (State.step cfg) noteActive) (State.initial, []) es = some x →
      Polled x := by
  intro h
  have hrun : (runEvents (stepNoting (State.step Config.clear) noteActive) (State.initial, [])
      (shopCreated ++ domainAdded ++ domainCycle 3)).any (fun x =>
        x.1.world.db.domains.any fun d => !x.2.contains d.id &&
          (pendingDomains x.1.world.db).all fun p => p.id != d.id) = true := by decide
  obtain ⟨x, hx, hend⟩ := (Option.any_eq_true _ _).mp hrun
  obtain ⟨d, hd, hleft⟩ := List.any_eq_true.mp hend
  rw [Bool.and_eq_true, Bool.not_eq_true', ← Bool.not_eq_true, List.contains_iff_mem,
    List.all_eq_true] at hleft
  obtain ⟨p, hp, hid⟩ := h Config.clear _ x hx d hd hleft.1
  exact absurd hid (bne_iff_ne.mp (hleft.2 p hp))

end System
end Code2Cloud
