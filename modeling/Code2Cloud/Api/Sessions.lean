import Code2Cloud.Api.Auth

/-!
# Sign-ins and sign-outs in flight

The requests of `AuthService` one awaited database call at a time, so that a sign-out can
fall between two calls of another request of the same user.
-/

namespace Code2Cloud
namespace Api
namespace AuthService

variable {H : Type}

/-! ## Requests in flight -/

/-- Whether new tokens answer a sign-in or a refresh. -/
inductive Issuer
  | login
  | refresh
  deriving DecidableEq

/-- A request before its next database call, holding what it has read so far. -/
inductive Call (H : Type)
  | signUp (r : Draw) (dto : SignUpDto)
  | signIn (r : Draw) (dto : SignInDto)
  | oauth (r : Draw) (profile : OAuthUser)
  /-- `gitAccount.upsert` of a user who is logged in. -/
  | link (r : Draw) (payload : CompleteGithubPayload) (userId : Uuid)
  | findLinked (r : Draw) (userId : Uuid)
  /-- `gitAccount.findFirst` of a user who is not. -/
  | findGitAccount (r : Draw) (payload : CompleteGithubPayload)
  | findByEmail (r : Draw) (payload : CompleteGithubPayload) (email : String)
  | create (r : Draw) (user : User H) (githubId : Option String)
  | updateOAuth (r : Draw) (user : User H) (profile : OAuthUser)
  | updateGithub (r : Draw) (user : User H) (payload : CompleteGithubPayload)
  | upsertGitAccount (r : Draw) (githubId : String) (user : User H)
  | logout (userId : Uuid)
  | refresh (r : Draw) (userId : Uuid) (rt : Bytes)
  | updateRefreshTokenHash (issuer : Issuer) (userId : Uuid) (rt : Bytes) (hash : H)

def Request.call : Request → Call H
  | signUp r dto => .signUp r dto
  | signIn r dto => .signIn r dto
  | oauth r profile => .oauth r profile
  | github r payload (some id) => .link r payload id
  | github r payload none => .findGitAccount r payload
  | logout userId => .logout userId
  | refresh r userId rt => .refresh r userId rt

variable (cfg : Config H)

/-- `getTokens` and the hash of the refresh token, which await no database. -/
def issue (issuer : Issuer) (r : Draw) (u : User H) : Call H :=
  let tokens := getTokens cfg r.now u
  .updateRefreshTokenHash issuer u.id tokens.refreshToken
    (cfg.bcrypt.hash tokens.refreshToken r.salt)

/-- After the user is created: a GitHub login stores its account as well. -/
def afterCreate (r : Draw) (user : User H) : Option String → Call H
  | none => issue cfg .login r user
  | some githubId => .upsertGitAccount r githubId user

def Call.step (s : Store H) : Call H → Store H × Option (Call H)
  | .signUp r dto =>
    if (s.findByEmail dto.email).isSome then (s, none)
    else
      (s, some (.create r
        { id := r.id, email := dto.email, name := dto.name
          password := some (cfg.bcrypt.hash (utf8 dto.password) r.passwordSalt) } none))
  | .signIn r dto =>
    match s.findByEmail dto.email with
    | none => (s, none)
    | some u =>
      if u.password.any (cfg.bcrypt.compare (utf8 dto.password)) then
        (s, some (issue cfg .login r u))
      else (s, none)
  | .oauth r profile =>
    match s.findByEmail profile.email with
    | none =>
      (s, some (.create r
        { id := r.id, email := profile.email, name := some profile.name
          avatar := profile.picture } none))
    | some u => (s, some (.updateOAuth r u profile))
  | .link r payload userId =>
    -- the account's row refers to the user's
    if (s.findById userId).isSome then
      (s.upsertGitAccount payload.githubId userId, some (.findLinked r userId))
    else (s, none)
  | .findLinked r userId =>
    match s.findById userId with
    | none => (s, none)
    | some u => (s, some (issue cfg .login r u))
  | .findGitAccount r payload =>
    match payload.email.filter fun email => !email.isEmpty with
    | none => (s, none)
    | some email =>
      let linked := (s.gitAccounts.find? fun a => a.1 == payload.githubId).bind
        fun a => s.findById a.2
      match linked with
      | some u => (s, some (.updateGithub r u payload))
      | none => (s, some (.findByEmail r payload email))
  | .findByEmail r payload email =>
    match s.findByEmail email with
    | some u => (s, some (.updateGithub r u payload))
    | none =>
      (s, some (.create r
        { id := r.id, email, name := some (orElse payload.name payload.username)
          avatar := payload.avatarUrl } (some payload.githubId)))
  | .create r user githubId =>
    match s.create user with
    | .error _ => (s, none)
    | .ok created => (created, some (afterCreate cfg r user githubId))
  | .updateOAuth r u profile =>
    (s.update u.id fun u => { u with avatar := profile.picture },
      some (issue cfg .login r { u with avatar := profile.picture }))
  | .updateGithub r u payload =>
    let avatar := payload.avatarUrl.filter fun url => !url.isEmpty
    (s.update u.id fun u => { u with avatar := avatar <|> u.avatar },
      some (.upsertGitAccount r payload.githubId u))
  | .upsertGitAccount r githubId u =>
    (s.upsertGitAccount githubId u.id, some (issue cfg .login r u))
  | .logout userId => (AuthService.logout s userId, none)
  | .refresh r userId rt =>
    match s.findById userId with
    | none => (s, none)
    | some u =>
      match u.hashedRefreshToken with
      | none => (s, none)
      | some hash =>
        if cfg.bcrypt.compare rt hash then (s, some (issue cfg .refresh r u)) else (s, none)
  | .updateRefreshTokenHash _ userId rt hash =>
    let updated := s.update userId fun u => { u with hashedRefreshToken := some hash }
    ({ updated with issued := s.issued ++ [(userId, rt)] }, none)

/-! ## One request at a time -/

/-- The rest of a request with no other in between; it makes at most five calls. -/
def Call.alone (s : Store H) (c : Call H) : Nat → Store H
  | 0 => s
  | n + 1 =>
    match c.step cfg s with
    | (s', none) => s'
    | (s', some c') => c'.alone s' n

variable {cfg}

theorem alone_create (s : Store H) (r : Draw) (u : User H) (githubId : Option String) (n : Nat) :
    (Call.create r u githubId).alone cfg s (n + 3) = kept s (register cfg r s u githubId) := by
  rw [Call.alone, Call.step, register]
  cases s.create u with
  | error => rfl
  | ok created => cases githubId <;> rfl

theorem alone_github (s : Store H) (r : Draw) (payload : CompleteGithubPayload)
    (currentUserId : Option Uuid) :
    ((Request.github r payload currentUserId).call : Call H).alone cfg s 5 =
      kept s (processGithubCallback cfg r s payload currentUserId) := by
  cases currentUserId with
  | some id =>
    rw [Request.call, Call.alone, Call.step, processGithubCallback]
    cases hfind : s.findById id with
    | none => rfl
    | some u =>
      have hupserted : (s.upsertGitAccount payload.githubId id).findById id = some u := hfind
      simp only [Option.isSome_some, if_true]
      rw [Call.alone, Call.step, hupserted]
      rfl
  | none =>
    rw [Request.call, Call.alone, Call.step, processGithubCallback]
    cases payload.email.filter fun email => !email.isEmpty with
    | none => rfl
    | some email =>
      dsimp only
      cases (s.gitAccounts.find? fun a => a.1 == payload.githubId).bind
        fun a => s.findById a.2 with
      | some u => rfl
      | none =>
        have hlookup : (none <|> s.findByEmail email) = s.findByEmail email := Option.none_or
        rw [hlookup]
        change (Call.findByEmail r payload email).alone cfg s 4 = _
        rw [Call.alone, Call.step]
        cases s.findByEmail email with
        | none => exact alone_create s r _ _ 0
        | some u => rfl

/-- A request that no other disturbs does what the service's method does. -/
theorem alone_eq_step (s : Store H) (q : Request) :
    some ((q.call : Call H).alone cfg s 5) = step cfg s q := by
  cases q with
  | signUp r dto =>
    rw [Request.call, Call.alone, Call.step, step, AuthService.signUp]
    by_cases htaken : (s.findByEmail dto.email).isSome = true
    · rw [if_pos htaken, if_pos htaken]
      rfl
    · rw [if_neg htaken, if_neg htaken]
      exact congrArg some (alone_create s r _ none 1)
  | signIn r dto =>
    rw [Request.call, Call.alone, Call.step, step, AuthService.signIn]
    cases s.findByEmail dto.email with
    | none => rfl
    | some u =>
      dsimp only
      by_cases hvalid : u.password.any (cfg.bcrypt.compare (utf8 dto.password)) = true
      · rw [if_pos hvalid, if_pos hvalid]
        rfl
      · rw [if_neg hvalid, if_neg hvalid]
        rfl
  | oauth r profile =>
    rw [Request.call, Call.alone, Call.step, step, validateOAuthLogin]
    cases s.findByEmail profile.email with
    | none => exact congrArg some (alone_create s r _ none 1)
    | some u => rfl
  | github r payload id => exact congrArg some (alone_github s r payload id)
  | logout userId => rfl
  | refresh r userId rt =>
    rw [Request.call, Call.alone, Call.step, step, refreshTokens]
    cases s.findById userId with
    | none => rfl
    | some u =>
      dsimp only
      cases u.hashedRefreshToken with
      | none => rfl
      | some hash =>
        dsimp only
        by_cases hmatches : cfg.bcrypt.compare rt hash = true
        · rw [if_pos hmatches, if_pos hmatches]
          rfl
        · rw [if_neg hmatches, if_neg hmatches]
          rfl

/-! ## Requests in any order -/

structure Sessions (H : Type) where
  store : Store H
  calls : List (Call H)

namespace Sessions

inductive Event
  | request (q : Request)
  /-- The request at a position makes its next database call. -/
  | call (i : Nat)

def setCall (calls : List (Call H)) (i : Nat) : Option (Call H) → List (Call H)
  | some c => calls.set i c
  | none => calls.eraseIdx i

variable (cfg)

def step (s : Sessions H) : Event → Option (Sessions H)
  | .request q => some { s with calls := s.calls ++ [q.call] }
  | .call i =>
    (s.calls[i]?).map fun c =>
      { store := (c.step cfg s.store).1
        calls := setCall s.calls i (c.step cfg s.store).2 }

def initial : Sessions H where
  store := Store.empty
  calls := []

structure SignedOut (u : Uuid) (s : Store H) : Prop where
  known : ∃ v ∈ s.users, v.id = u
  hash : ∀ v ∈ s.users, v.id = u → v.hashedRefreshToken = none

def LogsIn (u : Uuid) (s : Sessions H) : Event → Prop
  | .request _ => False
  | .call i => ∃ rt hash, s.calls[i]? = some (.updateRefreshTokenHash .login u rt hash)

/-- No refresh of the user has read the old hash and not stored the new one. -/
def Settled (u : Uuid) (s : Sessions H) : Prop :=
  ∀ rt hash, .updateRefreshTokenHash .refresh u rt hash ∉ s.calls

variable {cfg} {u : Uuid} {s s' : Sessions H}

/-! ## While signed out -/

theorem refreshTokens_of_signedOut {store : Store H} (h : SignedOut u store) (r : Draw)
    (rt : Bytes) : refreshTokens cfg r store u rt = .error (.forbidden "Access Denied") := by
  rw [refreshTokens]
  cases hfind : store.findById u with
  | none => rfl
  | some v =>
    have hid : v.id = u := by
      have hbeq := List.find?_some hfind
      exact beq_iff_eq.mp hbeq
    simp only [h.hash v (List.mem_of_find?_eq_some hfind) hid]

theorem signedOut_update {store : Store H} (h : SignedOut u store) (id : Uuid) {f : User H → User H}
    (hid : ∀ v, (f v).id = v.id)
    (hhash : id = u → ∀ v, v.hashedRefreshToken = none → (f v).hashedRefreshToken = none) :
    SignedOut u (store.update id f) where
  known := by
    obtain ⟨v, hv, hvu⟩ := h.known
    refine ⟨_, List.mem_map_of_mem hv, ?_⟩
    split
    · rw [hid, hvu]
    · exact hvu
  hash v' hv' hu := by
    obtain ⟨v, hv, rfl⟩ := List.mem_map.mp hv'
    split at hu
    · rename_i hvid
      rw [hid] at hu
      rw [if_pos hvid]
      exact hhash (hvid.symm.trans hu) v (h.hash v hv hu)
    · rename_i hvid
      rw [if_neg hvid]
      exact h.hash v hv hu

theorem signedOut_create {store store' : Store H} (h : SignedOut u store) {v : User H}
    (hcreate : store.create v = .ok store') : SignedOut u store' := by
  unfold Store.create at hcreate
  split at hcreate
  · rename_i hnew
    cases hcreate
    obtain ⟨v₀, hv₀, hv₀u⟩ := h.known
    refine ⟨⟨v₀, List.mem_append_left _ hv₀, hv₀u⟩, fun v' hv' hu => ?_⟩
    rcases List.mem_append.mp hv' with hv' | hv'
    · exact h.hash v' hv' hu
    · have hne := List.all_eq_true.mp hnew v₀ hv₀
      rw [List.mem_singleton.mp hv'] at hu
      simp [hv₀u, hu] at hne
  · cases hcreate

theorem signedOut_call {store : Store H} (h : SignedOut u store) {c : Call H}
    (hc : ∀ issuer rt hash, c ≠ .updateRefreshTokenHash issuer u rt hash) :
    SignedOut u (c.step cfg store).1 := by
  cases c with
  | signUp | signIn | oauth | findLinked | findByEmail | refresh =>
    rw [Call.step]
    repeat' split
    all_goals exact h
  | findGitAccount r payload =>
    rw [Call.step]
    split
    · exact h
    · dsimp only
      split <;> exact h
  | link r payload userId =>
    rw [Call.step]
    split
    · exact ⟨h.known, h.hash⟩
    · exact h
  | create r user githubId =>
    rw [Call.step]
    cases hcreate : store.create user with
    | error => exact h
    | ok created => exact signedOut_create h hcreate
  | updateOAuth r v profile => exact signedOut_update h v.id (fun _ => rfl) fun _ _ hv => hv
  | updateGithub r v payload => exact signedOut_update h v.id (fun _ => rfl) fun _ _ hv => hv
  | upsertGitAccount r githubId v => exact ⟨h.known, h.hash⟩
  | logout userId => exact signedOut_update h userId (fun _ => rfl) fun _ _ _ => rfl
  | updateRefreshTokenHash issuer userId rt hash =>
    have hne : userId ≠ u := by
      rintro rfl
      exact hc issuer rt hash rfl
    have hupdated := signedOut_update h userId
      (f := fun v => { v with hashedRefreshToken := some hash }) (fun _ => rfl)
      fun heq => absurd heq hne
    exact ⟨hupdated.known, hupdated.hash⟩

/-- What follows a call in a store where the user is signed out is not the end of a refresh of
the user. -/
theorem next_call {store : Store H} (h : SignedOut u store) (c : Call H) (rt : Bytes) (hash : H) :
    (c.step cfg store).2 ≠ some (.updateRefreshTokenHash .refresh u rt hash) := by
  cases c with
  | refresh r userId rt' =>
    rw [Call.step]
    cases hfind : store.findById userId with
    | none => nofun
    | some v =>
      dsimp only
      cases hhash : v.hashedRefreshToken with
      | none => nofun
      | some stored =>
        dsimp only
        split
        · intro hnext
          have hid : v.id = u := by
            rw [issue, Option.some.injEq, Call.updateRefreshTokenHash.injEq] at hnext
            exact hnext.2.1
          rw [h.hash v (List.mem_of_find?_eq_some hfind) hid] at hhash
          cases hhash
        · nofun
  | create r user githubId =>
    rw [Call.step]
    cases store.create user with
    | error => nofun
    | ok created => cases githubId <;> nofun
  | findGitAccount r payload =>
    rw [Call.step]
    split
    · nofun
    · dsimp only
      split <;> nofun
  | _ =>
    rw [Call.step]
    repeat' split
    all_goals nofun

/-! ## Signing out -/

/-- Nothing is left of a refresh of the user, who is signed out. -/
structure Quiet (u : Uuid) (s : Sessions H) : Prop where
  signedOut : SignedOut u s.store
  settled : Settled u s

theorem mem_setCall {calls : List (Call H)} {i : Nat} {next : Option (Call H)} {c : Call H}
    (h : c ∈ setCall calls i next) : c ∈ calls ∨ next = some c := by
  cases next with
  | none => exact Or.inl (List.mem_of_mem_eraseIdx h)
  | some c' =>
    rcases List.mem_or_eq_of_mem_set h with h | rfl
    · exact Or.inl h
    · exact Or.inr rfl

theorem quiet_step {e : Event} (hs : s.Quiet u) (he : ¬s.LogsIn u e) (h : s.step cfg e = some s') :
    s'.Quiet u := by
  cases e with
  | request q =>
    cases h
    refine ⟨hs.signedOut, fun rt hash hmem => ?_⟩
    rcases List.mem_append.mp hmem with hmem | hmem
    · exact hs.settled rt hash hmem
    · cases q with
      | github r payload id => cases id <;> cases List.mem_singleton.mp hmem
      | _ => cases List.mem_singleton.mp hmem
  | call i =>
    rw [step, Option.map_eq_some_iff] at h
    obtain ⟨c, hc, rfl⟩ := h
    have hmem := List.mem_of_getElem? hc
    refine ⟨signedOut_call hs.signedOut fun issuer rt hash heq => ?_, fun rt hash hnext => ?_⟩
    · subst heq
      cases issuer with
      | login => exact he ⟨rt, hash, hc⟩
      | refresh => exact hs.settled rt hash hmem
    · rcases mem_setCall hnext with hold | hnext
      · exact hs.settled rt hash hold
      · exact next_call hs.signedOut c rt hash hnext

theorem quiet_of_reaches (hs : s.Quiet u)
    (h : Reaches (step cfg) (fun s e => ¬LogsIn u s e) s s') : s'.Quiet u :=
  h.invariant (Quiet u) hs fun _ _ _ hs he hstep => quiet_step hs he hstep

theorem signedOut_logout {store : Store H} (hu : ∃ v ∈ store.users, v.id = u) :
    SignedOut u (AuthService.logout store u) where
  known := by
    obtain ⟨v, hv, hvu⟩ := hu
    refine ⟨_, List.mem_map_of_mem hv, ?_⟩
    rw [if_pos hvu, hvu]
  hash v' hv' hid := by
    obtain ⟨v, hv, rfl⟩ := List.mem_map.mp hv'
    split at hid
    · rename_i hvu
      rw [if_pos hvu]
    · rename_i hvu
      exact absurd hid hvu

/-- A refresh that has read the old hash stores its new one, whoever signed out in between. -/
theorem signsIn_of_unsettled (hu : ∃ v ∈ s.store.users, v.id = u) {i : Nat} {rt : Bytes} {hash : H}
    (hcall : s.calls[i]? = some (.updateRefreshTokenHash .refresh u rt hash)) :
    ∃ s', s.step cfg (.call i) = some s' ∧ ¬s.LogsIn u (.call i) ∧
      ∃ v ∈ s'.store.users, v.id = u ∧ v.hashedRefreshToken ≠ none := by
  obtain ⟨v, hv, rfl⟩ := hu
  refine ⟨_, by rw [step, hcall]; rfl, ?_, _, List.mem_map_of_mem hv, ?_, ?_⟩
  · rintro ⟨rt', hash', hlogin⟩
    rw [hcall] at hlogin
    cases hlogin
  · rw [if_pos rfl]
  · rw [if_pos rfl]
    nofun

end Sessions

open Sessions

/-- Once a user has signed out, every refresh of the user is rejected until a sign-in, in every
order in which the requests make their database calls, exactly when no refresh of the user had read
the hash and not yet stored its new one. -/
theorem logout_final_iff (cfg : Config H) (s s' : Sessions H) (i : Nat) (u : Uuid)
    (hu : ∃ v ∈ s.store.users, v.id = u) (hcall : s.calls[i]? = some (.logout u))
    (h : s.step cfg (.call i) = some s') :
    (∀ s'', Reaches (Sessions.step cfg) (fun s e => ¬LogsIn u s e) s' s'' →
        SignedOut u s''.store ∧ ∀ r rt,
          refreshTokens cfg r s''.store u rt = .error (.forbidden "Access Denied")) ↔
      Settled u s := by
  rw [Sessions.step, hcall, Option.map_some, Option.some.injEq] at h
  subst h
  constructor
  · intro hfinal rt hash hmem
    obtain ⟨j, hj⟩ := List.mem_iff_getElem?.mp hmem
    have hne : j ≠ i := by
      rintro rfl
      rw [hcall] at hj
      cases hj
    obtain ⟨k, hk⟩ := List.mem_iff_getElem?.mp (List.mem_eraseIdx_iff_getElem?.mpr ⟨j, hne, hj⟩)
    obtain ⟨s'', hstep, hlogin, v, hv, hid, hhash⟩ := signsIn_of_unsettled
      (s := { store := AuthService.logout s.store u, calls := s.calls.eraseIdx i })
      (signedOut_logout hu).known hk
    exact hhash ((hfinal s'' (Reaches.refl.step hlogin hstep)).1.hash v hv hid)
  · intro hsettled s'' hreach
    have hquiet : Quiet u { store := AuthService.logout s.store u, calls := s.calls.eraseIdx i } :=
      ⟨signedOut_logout hu, fun rt hash hmem => hsettled rt hash (List.mem_of_mem_eraseIdx hmem)⟩
    have hend := quiet_of_reaches hquiet hreach
    exact ⟨hend.signedOut, refreshTokens_of_signedOut hend.signedOut⟩

/-! ## A refresh that overtakes -/

def adaLeaves : List Event :=
  [.request (.signUp (adaDraw 0)
      { email := "ada@example.net", password := "correct horse", name := "Ada" }),
    .call 0, .call 0, .call 0, .request (.refresh (adaDraw 60) ada (adaToken 0)),
    .request (.logout ada)]

/-- She is signed in, and her refresh and her sign-out are under way. -/
def adaRefreshing (s : Sessions Bytes) : Bool :=
  match s.calls with
  | [.refresh _ _ _, .logout u] =>
    u == ada && s.store.users.any fun v => v.id == ada && v.hashedRefreshToken.isSome
  | _ => false

theorem logout_final_ada :
    ∃ s s' : Sessions Bytes, s.step Config.clear (.call 1) = some s' ∧
      ¬SignedOut ada s.store ∧
      ∀ s'', Reaches (Sessions.step Config.clear) (fun s e => ¬LogsIn ada s e) s' s'' →
        SignedOut ada s''.store := by
  obtain ⟨s, -, hend⟩ := Reaches.exists_of_runEvents (Sessions.step Config.clear)
    (fun _ _ => True) Sessions.initial adaLeaves
    adaRefreshing (by decide +kernel) (runsUnder_true _ _ _)
  unfold adaRefreshing at hend
  split at hend
  · rename_i r userId rt u hcalls
    rw [Bool.and_eq_true, beq_iff_eq] at hend
    obtain ⟨rfl, hada⟩ := hend
    obtain ⟨v, hv, hsignedIn⟩ := List.any_eq_true.mp hada
    rw [Bool.and_eq_true, beq_iff_eq] at hsignedIn
    have hcall : s.calls[1]? = some (.logout ada) := by rw [hcalls]; rfl
    obtain ⟨s', hstep⟩ : ∃ s', s.step Config.clear (.call 1) = some s' := by
      rw [Sessions.step, hcall]
      exact ⟨_, rfl⟩
    have hsettled : Settled ada s := by
      intro rt hash hmem
      rw [hcalls] at hmem
      simp at hmem
    refine ⟨s, s', hstep, fun hsigned => ?_, fun s'' hreach => ?_⟩
    · rw [hsigned.hash v hv hsignedIn.1] at hsignedIn
      cases hsignedIn.2
    · exact ((logout_final_iff Config.clear s s' 1 ada ⟨v, hv, hsignedIn.1⟩ hcall hstep).mpr
        hsettled s'' hreach).1
  · cases hend

/-- Her refresh has drawn its token and only has to store it; her sign-out is under way. -/
def adaRefreshed (s : Sessions Bytes) : Bool :=
  match s.calls with
  | [.updateRefreshTokenHash .refresh u _ _, .logout u'] =>
    u == ada && u' == ada && s.store.users.any fun v => v.id == ada
  | _ => false

/-- The refresh has read the hash when she signs out, and then stores the new one. -/
theorem not_logout_final :
    ¬∀ (H : Type) (cfg : Config H) (s s' s'' : Sessions H) (i : Nat) (u : Uuid),
      Reaches (Sessions.step cfg) (fun _ _ => True) Sessions.initial s →
        s.calls[i]? = some (.logout u) → s.step cfg (.call i) = some s' →
        Reaches (Sessions.step cfg) (fun s e => ¬LogsIn u s e) s' s'' →
        ∀ v ∈ s''.store.users, v.id = u → v.hashedRefreshToken = none := by
  intro h
  obtain ⟨s, hs, hend⟩ := Reaches.exists_of_runEvents (Sessions.step Config.clear)
    (fun _ _ => True) Sessions.initial (adaLeaves ++ [.call 0])
    adaRefreshed (by decide +kernel) (runsUnder_true _ _ _)
  unfold adaRefreshed at hend
  split at hend
  · rename_i u rt hash u' hcalls
    simp only [Bool.and_eq_true, beq_iff_eq] at hend
    obtain ⟨⟨rfl, rfl⟩, hada⟩ := hend
    obtain ⟨v, hv, hid⟩ := List.any_eq_true.mp hada
    have hcall : s.calls[1]? = some (.logout ada) := by rw [hcalls]; rfl
    let s' : Sessions Bytes := { store := logout s.store ada, calls := s.calls.eraseIdx 1 }
    have hstep : s.step Config.clear (.call 1) = some s' := by
      rw [Sessions.step, hcall]
      rfl
    have hleft : s'.calls[0]? = some (.updateRefreshTokenHash .refresh ada rt hash) := by
      simp only [s', hcalls]
      rfl
    obtain ⟨s'', hstep', hlogin, v', hv', hid', hhash⟩ := signsIn_of_unsettled
      (signedOut_logout ⟨v, hv, beq_iff_eq.mp hid⟩).known hleft
    exact hhash (h Bytes Config.clear s s' s'' 1 ada hs hcall hstep
      (Reaches.refl.step hlogin hstep') v' hv' hid')
  · cases hend

end AuthService
end Api
end Code2Cloud
