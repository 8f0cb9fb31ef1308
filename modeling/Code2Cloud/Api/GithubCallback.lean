import Code2Cloud.Api.Auth
import Code2Cloud.Api.Schema

/-!
# The GitHub callback

What GitHub answers while a code is exchanged, which e-mail address and which installation
are taken from the answers, and what a callback stores.
-/

namespace Code2Cloud
namespace Api

/-! ## GitHub's answers -/

structure GitHubUserEmail where
  email : String
  primary : Bool
  verified : Bool

structure GitHubUserProfile where
  id : Nat
  login : String
  email : Option String
  name : Option String
  avatarUrl : String

structure GitHubInstallationsResponse where
  totalCount : Nat
  installations : List Nat

/-- What GitHub answers for the token of a code; a list that is not answered is absent. -/
structure GitHubAnswers where
  userProfile : GitHubUserProfile
  emails : Option (List GitHubUserEmail)
  installations : Option GitHubInstallationsResponse

/-- A text that is there and not empty. -/
def truthy (s : Option String) : Option String := s.filter fun text => !text.isEmpty

theorem truthy_eq_some_iff {s : Option String} {text : String} :
    truthy s = some text ↔ s = some text ∧ text ≠ "" := by
  simp [truthy, Option.filter_eq_some_iff]

namespace GitHubAnswers

variable (g : GitHubAnswers)

def githubId : String := toString g.userProfile.id

def reported : List String :=
  match g.installations with
  | some res => res.installations.map toString
  | none => []

/-- GitHub vouches for the address: the profile shows it, or the list marks it as verified. -/
def Verified (email : String) : Prop :=
  g.userProfile.email = some email ∨
    ∃ emails, g.emails = some emails ∧ ∃ e ∈ emails, e.email = email ∧ e.verified = true

end GitHubAnswers

namespace GithubAppService

structure Exchange where
  userProfile : GitHubUserProfile
  installationId : Option String

/-- The primary address if it is verified, otherwise the first one that is listed. -/
def privateEmail (emails : List GitHubUserEmail) : Option String :=
  truthy ((emails.find? fun e => e.primary && e.verified).map (·.email)) <|>
    truthy (emails.head?.map (·.email))

theorem privateEmail_eq_some_iff {emails : List GitHubUserEmail} {email : String} :
    privateEmail emails = some email ↔
      truthy ((emails.find? fun e => e.primary && e.verified).map (·.email)) = some email ∨
        truthy ((emails.find? fun e => e.primary && e.verified).map (·.email)) = none ∧
          truthy (emails.head?.map (·.email)) = some email := by
  rw [privateEmail]
  cases truthy ((emails.find? fun e => e.primary && e.verified).map (·.email)) with
  | none => simp
  | some primary => simp

def discover (installations : Option GitHubInstallationsResponse) : Option String :=
  match installations with
  | some res => if 0 < res.totalCount then res.installations.head?.map toString else none
  | none => none

def exchangeCodeForUser (g : GitHubAnswers) : Exchange :=
  let email := match truthy g.userProfile.email, g.emails with
    | none, some emails => privateEmail emails
    | _, _ => g.userProfile.email
  { userProfile := { g.userProfile with email }, installationId := discover g.installations }

end GithubAppService

namespace AuthService

open GithubAppService

variable {H : Type}

/-! ## The callback -/

/-- The store with the installation of each GitHub account; an account that is not stored has
none. -/
structure Directory (H : Type) where
  store : Store H
  installationId : String → Option String

/-- A callback as it arrives: its query, the user of its session, and GitHub's answers unless the
exchange of the code fails. -/
structure Callback where
  r : Draw
  code : Option String
  installationId : Option String
  currentUserId : Option Uuid
  answers : Option GitHubAnswers

namespace Directory

/-- The upsert creates the account with the installation that is given, if one is, and updates
it only in that case. -/
def processGithubCallback (cfg : Config H) (r : Draw) (d : Directory H)
    (payload : CompleteGithubPayload) (installationId : Option String)
    (currentUserId : Option Uuid) : Except AuthException (Directory H × Tokens) :=
  match AuthService.processGithubCallback cfg r d.store payload currentUserId with
  | .error e => .error e
  | .ok (store, tokens) =>
    .ok ({ store
           installationId := fun githubId =>
             if githubId = payload.githubId then truthy installationId <|> d.installationId githubId
             else d.installationId githubId }, tokens)

/-- `GitController.verifyInstallation` -/
def verifyInstallation (d : Directory H) (userId : Uuid) (installationId : String) :
    Except HttpException Unit :=
  if installationId.isEmpty then .error (.badRequest "installationId is required")
  else if d.store.gitAccounts.any fun a =>
      a.2 == userId && d.installationId a.1 == some installationId then .ok ()
  else .error (.badRequest "GitHub account not found or access denied")

end Directory

/-- `installationId || discoveredId` -/
def finalInstallationId (installationId : Option String) (x : Exchange) : Option String :=
  truthy installationId <|> x.installationId

def payloadOf (profile : GitHubUserProfile) : CompleteGithubPayload :=
  { githubId := toString profile.id
    username := profile.login
    email := profile.email
    name := profile.name
    avatarUrl := some profile.avatarUrl }

/-- `AuthController.githubCallback`; without a result the user is sent back with an error. -/
def githubCallback (cfg : Config H) (d : Directory H) (c : Callback) :
    Option (Directory H × Tokens) :=
  match truthy c.code, c.answers with
  | some _, some g =>
    let x := exchangeCodeForUser g
    match d.processGithubCallback cfg c.r (payloadOf x.userProfile)
        (finalInstallationId c.installationId x) c.currentUserId with
    | .ok result => some result
    | .error _ => none
  | _, _ => none

/-! ## Logins by e-mail -/

def linkedUser (s : Store H) (githubId : String) : Option (User H) :=
  (s.gitAccounts.find? fun a => a.1 == githubId).bind fun a => s.findById a.2

/-- A callback without a session signs in as a user that was found by the e-mail address. -/
structure SignsInByEmail (cfg : Config H) (d : Directory H) (c : Callback) (g : GitHubAnswers)
    (email : String) (u : User H) : Prop where
  answers : c.answers = some g
  session : c.currentUserId = none
  address : truthy (exchangeCodeForUser g).userProfile.email = some email
  unlinked : linkedUser d.store g.githubId = none
  found : d.store.findByEmail email = some u
  tokens : ∃ d', githubCallback cfg d c = some (d', getTokens cfg c.r.now u) ∧
    (g.githubId, u.id) ∈ d'.store.gitAccounts

/-- The address that is taken in the end was vouched for, or leads to nobody. -/
def SoundEmail (s : Store H) (g : GitHubAnswers) : Prop :=
  (truthy g.userProfile.email).isSome ∨ (linkedUser s g.githubId).isSome ∨
    ∀ emails, g.emails = some emails →
      (truthy ((emails.find? fun e => e.primary && e.verified).map (·.email))).isSome ∨
        ∀ email, truthy (emails.head?.map (·.email)) = some email →
          (∃ e ∈ emails, e.email = email ∧ e.verified = true) ∨ s.findByEmail email = none

variable {cfg : Config H} {d : Directory H} {c : Callback} {g : GitHubAnswers}

/-- A callback whose address finds a user signs in as that user. -/
theorem signsInByEmail (hcode : (truthy c.code).isSome = true) (hanswers : c.answers = some g)
    (hsession : c.currentUserId = none) {email : String} {u : User H}
    (hemail : truthy (exchangeCodeForUser g).userProfile.email = some email)
    (hunlinked : linkedUser d.store g.githubId = none)
    (hfound : d.store.findByEmail email = some u) : SignsInByEmail cfg d c g email u := by
  obtain ⟨code, hcode⟩ := Option.isSome_iff_exists.mp hcode
  have hlinked : ((d.store.gitAccounts.find? fun a =>
      a.1 == (payloadOf (exchangeCodeForUser g).userProfile).githubId).bind
        fun a => d.store.findById a.2) = none := hunlinked
  have hfilter : ((payloadOf (exchangeCodeForUser g).userProfile).email.filter
      fun email => !email.isEmpty) = some email := hemail
  let avatar := (payloadOf (exchangeCodeForUser g).userProfile).avatarUrl.filter
    fun url => !url.isEmpty
  let stored := (d.store.update u.id fun u =>
    { u with avatar := avatar <|> u.avatar }).upsertGitAccount g.githubId u.id
  have hprocess : AuthService.processGithubCallback cfg c.r d.store
      (payloadOf (exchangeCodeForUser g).userProfile) none =
        .ok (issueTokens cfg c.r stored u) := by
    have hlookup : (none <|> d.store.findByEmail email) = some u := hfound
    simp only [AuthService.processGithubCallback, hfilter, hlinked, hlookup]
    rfl
  have hcallback : ∃ ids, githubCallback cfg d c =
      some (⟨(issueTokens cfg c.r stored u).1, ids⟩, getTokens cfg c.r.now u) := by
    simp only [githubCallback, hcode, hanswers, Directory.processGithubCallback, hsession, hprocess]
    exact ⟨_, rfl⟩
  obtain ⟨ids, hcallback⟩ := hcallback
  exact ⟨hanswers, hsession, hemail, hunlinked, hfound, _, hcallback,
    List.mem_append_right _ (List.mem_singleton_self _)⟩

theorem email_of_public (h : (truthy g.userProfile.email).isSome = true) :
    (exchangeCodeForUser g).userProfile.email = g.userProfile.email := by
  obtain ⟨email, hemail⟩ := Option.isSome_iff_exists.mp h
  rw [exchangeCodeForUser, hemail]

theorem email_of_private (h : truthy g.userProfile.email = none) (email : String) :
    truthy (exchangeCodeForUser g).userProfile.email = some email ↔
      ∃ emails, g.emails = some emails ∧ privateEmail emails = some email := by
  rw [exchangeCodeForUser, h]
  cases g.emails with
  | none => simp [h]
  | some emails =>
    simp only [Option.some.injEq, exists_eq_left']
    rw [truthy_eq_some_iff]
    refine ⟨And.left, fun hemail => ⟨hemail, ?_⟩⟩
    rcases privateEmail_eq_some_iff.mp hemail with hprimary | ⟨_, hfirst⟩
    · exact (truthy_eq_some_iff.mp hprimary).2
    · exact (truthy_eq_some_iff.mp hfirst).2

/-- A primary address is taken only if it is verified. -/
theorem verified_of_primary {emails : List GitHubUserEmail} (hemails : g.emails = some emails)
    {email : String}
    (h : truthy ((emails.find? fun e => e.primary && e.verified).map (·.email)) = some email) :
    g.Verified email := by
  obtain ⟨e, he, rfl⟩ := Option.map_eq_some_iff.mp (truthy_eq_some_iff.mp h).1
  have hverified := List.find?_some he
  rw [Bool.and_eq_true] at hverified
  exact Or.inr ⟨emails, hemails, e, List.mem_of_find?_eq_some he, rfl, hverified.2⟩

/-- A callback without a session signs in as a user that is found by e-mail only through an
address that GitHub vouches for, exactly when the address is public, the account is linked, a
primary address is verified, or the first one that is listed is marked or leads to nobody. -/
theorem login_by_verified_email_iff (cfg : Config H) (d : Directory H) (c : Callback)
    (g : GitHubAnswers) (hcode : (truthy c.code).isSome = true) (hanswers : c.answers = some g)
    (hsession : c.currentUserId = none) :
    (∀ email u, SignsInByEmail cfg d c g email u → g.Verified email) ↔ SoundEmail d.store g := by
  constructor
  · intro h
    by_cases hpublic : (truthy g.userProfile.email).isSome = true
    · exact Or.inl hpublic
    by_cases hlinked : (linkedUser d.store g.githubId).isSome = true
    · exact Or.inr (Or.inl hlinked)
    refine Or.inr (Or.inr fun emails hemails => ?_)
    by_cases hprimary :
        (truthy ((emails.find? fun e => e.primary && e.verified).map (·.email))).isSome = true
    · exact Or.inl hprimary
    refine Or.inr fun email hfirst => ?_
    rw [Option.not_isSome_iff_eq_none] at hpublic hlinked hprimary
    cases hfound : d.store.findByEmail email with
    | none => exact Or.inr rfl
    | some u =>
      have hemail : privateEmail emails = some email := by
        rw [privateEmail, hprimary]
        exact hfirst
      have hused := (email_of_private hpublic email).mpr ⟨emails, hemails, hemail⟩
      rcases h email u (signsInByEmail hcode hanswers hsession hused hlinked hfound) with
        hshown | ⟨emails', hemails', hmarked⟩
      · rw [truthy_eq_some_iff.mpr ⟨hshown, (truthy_eq_some_iff.mp hfirst).2⟩] at hpublic
        cases hpublic
      · rw [hemails] at hemails'
        cases hemails'
        exact Or.inl hmarked
  · intro hsound email u hlogin
    rcases hpublic : truthy g.userProfile.email with _ | shown
    · obtain ⟨emails, hemails, hemail⟩ := (email_of_private hpublic email).mp hlogin.address
      rcases hsound with hshown | hlinked | hlisted
      · rw [hpublic] at hshown
        cases hshown
      · rw [hlogin.unlinked] at hlinked
        cases hlinked
      · rcases privateEmail_eq_some_iff.mp hemail with hprimary | ⟨hnone, hfirst⟩
        · exact verified_of_primary hemails hprimary
        · rcases hlisted emails hemails with hprimary | hmarked
          · rw [hnone] at hprimary
            cases hprimary
          · rcases hmarked email hfirst with hmarked | hnobody
            · exact Or.inr ⟨emails, hemails, hmarked⟩
            · rw [hlogin.found] at hnobody
              cases hnobody
    · have haddress := hlogin.address
      rw [email_of_public (by rw [hpublic]; rfl)] at haddress
      exact Or.inl (truthy_eq_some_iff.mp haddress).1

def adaDirectory : Directory Bytes where
  store :=
    { users := [{ id := ada, email := "ada@example.net", name := some "Ada" }]
      gitAccounts := []
      issued := [] }
  installationId _ := none

def listing (verified : Bool) : GitHubAnswers where
  userProfile := { id := 7, login := "eve", email := none, name := none, avatarUrl := "" }
  emails := some [{ email := "ada@example.net", primary := true, verified }]
  installations := none

def eveCallback (g : GitHubAnswers) (installationId : Option String) : Callback where
  r := adaDraw 0
  code := some "code"
  installationId
  currentUserId := none
  answers := some g

theorem signsIn_listing (verified : Bool) :
    ∃ u, SignsInByEmail Config.clear adaDirectory (eveCallback (listing verified) none)
      (listing verified) "ada@example.net" u := by
  refine ⟨_, signsInByEmail rfl rfl rfl ?_ rfl rfl⟩
  cases verified <;> decide

theorem login_by_verified_email_ada :
    ∃ u, SignsInByEmail Config.clear adaDirectory (eveCallback (listing true) none) (listing true)
      "ada@example.net" u ∧ (listing true).Verified "ada@example.net" := by
  obtain ⟨u, hu⟩ := signsIn_listing true
  refine ⟨u, hu, (login_by_verified_email_iff Config.clear adaDirectory
    (eveCallback (listing true) none) (listing true) rfl rfl rfl).mpr ?_ _ u hu⟩
  refine Or.inr (Or.inr fun emails hemails => Or.inl ?_)
  cases hemails
  decide

/-- Without a verified primary address the first one is taken, whether or not it is verified. -/
theorem not_login_by_verified_email :
    ¬∀ (H : Type) (cfg : Config H) (d : Directory H) (c : Callback) (g : GitHubAnswers)
      (email : String) (u : User H), SignsInByEmail cfg d c g email u → g.Verified email := by
  intro h
  obtain ⟨u, hu⟩ := signsIn_listing false
  rcases h Bytes Config.clear _ _ _ _ u hu with hshown | ⟨emails, hemails, e, he, _, hverified⟩
  · cases hshown
  · cases hemails
    rw [List.mem_singleton.mp he] at hverified
    cases hverified

/-! ## Stored installations -/

def Callback.upserted (c : Callback) : Option String :=
  c.answers.bind fun g => truthy (finalInstallationId c.installationId (exchangeCodeForUser g))

def Callback.Reports (c : Callback) (id : String) : Prop :=
  ∃ g, c.answers = some g ∧ id ∈ g.reported

def Callback.Trusted (c : Callback) : Prop :=
  ∀ id, truthy c.installationId = some id → c.Reports id

namespace Directory

inductive Event
  | callback (c : Callback)
  | request (q : Request)

def initial : Directory H where
  store := Store.empty
  installationId _ := none

def step (cfg : Config H) (d : Directory H) : Event → Option (Directory H)
  | .callback c =>
    match githubCallback cfg d c with
    | some (d', _) => some d'
    | none => some d
  | .request (.github _ _ _) => none
  | .request q => (AuthService.step cfg d.store q).map fun store => { d with store }

def Event.reports (githubId : String) : Event → List String
  | .callback c =>
    match c.answers with
    | some g => if g.githubId = githubId then g.reported else []
    | none => []
  | .request _ => []

def note (_ : Directory H) (e : Event) (_ : Directory H) (reported : String → List String) :
    String → List String :=
  fun githubId => e.reports githubId ++ reported githubId

def Event.Trusted : Event → Prop
  | .callback c => c.Trusted
  | .request _ => True

end Directory

/-- An installation that is taken from GitHub's answer is one that it reports. -/
theorem reported_of_discover {g : GitHubAnswers} {id : String}
    (h : discover g.installations = some id) : id ∈ g.reported := by
  unfold discover at h
  unfold GitHubAnswers.reported
  cases hres : g.installations with
  | none => simp [hres] at h
  | some res =>
    simp only [hres] at h ⊢
    split at h
    · obtain ⟨installation, hhead, rfl⟩ := Option.map_eq_some_iff.mp h
      exact List.mem_map_of_mem (List.mem_of_head? hhead)
    · cases h

theorem upserted_eq {c : Callback} {g : GitHubAnswers} (h : c.answers = some g) :
    c.upserted = truthy (truthy c.installationId <|> discover g.installations) := by
  rw [Callback.upserted, h]
  rfl

/-- What a callback sets was reported if and only if the installation in its query was. -/
theorem upserted_reported_iff {c : Callback} {g : GitHubAnswers} (h : c.answers = some g) :
    (∀ id, c.upserted = some id → c.Reports id) ↔ c.Trusted := by
  rw [upserted_eq h, Callback.Trusted]
  cases hquery : truthy c.installationId with
  | none =>
    refine iff_of_true (fun id hid => ?_) nofun
    exact ⟨g, h, reported_of_discover (truthy_eq_some_iff.mp hid).1⟩
  | some id =>
    have htruthy : truthy (some id <|> discover g.installations) = some id :=
      truthy_eq_some_iff.mpr ⟨rfl, (truthy_eq_some_iff.mp hquery).2⟩
    rw [htruthy]

namespace Directory

variable {x y : Directory H × (String → List String)}

def Attributed (x : Directory H × (String → List String)) : Prop :=
  ∀ githubId id, x.1.installationId githubId = some id → id ∈ x.2 githubId

/-- A callback that goes through sets the installation of its account and no other. -/
theorem installationId_githubCallback {c : Callback} {d d' : Directory H} {tokens : Tokens}
    (h : githubCallback cfg d c = some (d', tokens)) :
    ∃ g, c.answers = some g ∧ ∀ githubId, d'.installationId githubId =
      if githubId = g.githubId then c.upserted <|> d.installationId githubId
      else d.installationId githubId := by
  unfold githubCallback at h
  split at h
  · rename_i g _ hanswers
    refine ⟨g, hanswers, fun githubId => ?_⟩
    unfold processGithubCallback at h
    cases hprocess : AuthService.processGithubCallback cfg c.r d.store
        (payloadOf (exchangeCodeForUser g).userProfile) c.currentUserId with
    | error e => simp [hprocess] at h
    | ok result =>
      simp only [hprocess, Option.some.injEq, Prod.mk.injEq] at h
      obtain ⟨rfl, _⟩ := h
      rw [Callback.upserted, hanswers]
      rfl
  · cases h

theorem mem_reports {c : Callback} {g : GitHubAnswers} (hanswers : c.answers = some g) {id : String}
    (h : c.Reports id) : id ∈ (Event.callback c).reports g.githubId := by
  obtain ⟨g', hanswers', hid⟩ := h
  rw [hanswers] at hanswers'
  cases hanswers'
  simp only [Event.reports, hanswers, if_true]
  exact hid

theorem attributed_step {e : Event} (hx : Attributed x) (he : e.Trusted)
    (h : stepNoting (step cfg) note x e = some y) : Attributed y := by
  obtain ⟨hstep, hnote⟩ := stepNoting_eq_some_iff.mp h
  intro githubId id hid
  rw [hnote]
  have hold (hsame : y.1.installationId githubId = x.1.installationId githubId) :
      id ∈ note x.1 e y.1 x.2 githubId :=
    List.mem_append_right _ (hx githubId id (hsame.symm.trans hid))
  cases e with
  | request q =>
    refine hold ?_
    cases q with
    | github => cases hstep
    | _ => rw [← Option.some.inj hstep]
  | callback c =>
    cases hcallback : githubCallback cfg x.1 c with
    | none =>
      simp only [step, hcallback, Option.some.injEq] at hstep
      exact hold (by rw [hstep])
    | some result =>
      simp only [step, hcallback, Option.some.injEq] at hstep
      obtain ⟨g, hanswers, hstored⟩ := installationId_githubCallback hcallback
      rw [hstep] at hstored
      by_cases haccount : githubId = g.githubId
      · subst haccount
        rw [hstored, if_pos rfl] at hid
        cases hupserted : c.upserted with
        | none =>
          refine hold ?_
          rw [hstored, if_pos rfl, hupserted]
          rfl
        | some id' =>
          rw [hupserted] at hid
          cases hid
          exact List.mem_append_left _ (mem_reports hanswers
            ((upserted_reported_iff hanswers).mpr he _ hupserted))
      · refine hold ?_
        rw [hstored, if_neg haccount]

theorem exists_account_of_verify {d : Directory H} {userId : Uuid} {id : String}
    (h : d.verifyInstallation userId id = .ok ()) :
    ∃ githubId, (githubId, userId) ∈ d.store.gitAccounts ∧ d.installationId githubId = some id := by
  rw [verifyInstallation] at h
  split at h
  · cases h
  · split at h
    · rename_i hany
      obtain ⟨a, ha, hmatch⟩ := List.any_eq_true.mp hany
      rw [Bool.and_eq_true, beq_iff_eq, beq_iff_eq] at hmatch
      obtain ⟨rfl, hstored⟩ := hmatch
      exact ⟨a.1, ha, hstored⟩
    · cases h

end Directory

/-- As long as the installation in a callback's query is one that GitHub reports for the callback's
token, access to an installation is granted only to a user of an account that GitHub attributed it
to; a callback that goes through sets only reported installations exactly when that holds of it. -/
theorem stored_installation_reported (cfg : Config H) (x : Directory H × (String → List String))
    (h : Reaches (stepNoting (Directory.step cfg) Directory.note) (fun _ e => e.Trusted)
      (Directory.initial, fun _ => []) x) :
    (∀ userId id, x.1.verifyInstallation userId id = .ok () →
        ∃ githubId, (githubId, userId) ∈ x.1.store.gitAccounts ∧ id ∈ x.2 githubId) ∧
      ∀ c result, githubCallback cfg x.1 c = some result →
        ((∀ id, c.upserted = some id → c.Reports id) ↔ c.Trusted) := by
  have hx : Directory.Attributed x := h.invariant Directory.Attributed
    (fun _ _ hid => absurd hid nofun) fun _ _ _ hs he hstep => Directory.attributed_step hs he hstep
  constructor
  · intro userId id hverify
    obtain ⟨githubId, hmem, hstored⟩ := Directory.exists_account_of_verify hverify
    exact ⟨githubId, hmem, hx githubId id hstored⟩
  · intro c result hcallback
    obtain ⟨g, hanswers, _⟩ := Directory.installationId_githubCallback hcallback
    exact upserted_reported_iff hanswers

/-- What GitHub reports to Eve about installations. -/
def eveAnswers (installations : List Nat) : GitHubAnswers where
  userProfile :=
    { id := 7, login := "eve", email := some "eve@example.net", name := none, avatarUrl := "" }
  emails := none
  installations := some { totalCount := installations.length, installations }

/-- The installation that GitHub reports to Eve is stored, and she is granted access to it. -/
theorem stored_installation_eve :
    ∃ x : Directory Bytes × (String → List String), x.1.verifyInstallation ada "42" = .ok () ∧
      ∃ githubId, (githubId, ada) ∈ x.1.store.gitAccounts ∧ "42" ∈ x.2 githubId := by
  let c := eveCallback (eveAnswers [42]) none
  have htrusted : c.Trusted := fun id hid => by cases hid
  obtain ⟨x, hx, hend⟩ := Reaches.exists_of_runEvents
    (stepNoting (Directory.step Config.clear) Directory.note) (fun _ e => e.Trusted)
    (Directory.initial, fun _ => []) [.callback c]
    (fun x => match x.1.verifyInstallation ada "42" with
      | .ok () => true
      | .error _ => false) (by decide) ⟨htrusted, by split <;> trivial⟩
  split at hend
  · rename_i hverify
    exact ⟨x, hverify, (stored_installation_reported Config.clear x hx).1 ada "42" hverify⟩
  · cases hend

/-- Eve names an installation that GitHub does not attribute to her, and is granted access to it. -/
theorem not_stored_installation_reported :
    ¬∀ (H : Type) (cfg : Config H) (d d' : Directory H) (c : Callback) (tokens : Tokens)
      (id : String), githubCallback cfg d c = some (d', tokens) → c.upserted = some id →
        c.Reports id := by
  intro h
  obtain ⟨g, hg, hid⟩ := h Bytes Config.clear Directory.initial _
    (eveCallback (eveAnswers []) (some "42")) _ "42" rfl (by decide)
  cases hg
  exact absurd hid (by decide)

end AuthService
end Api
end Code2Cloud
