import Code2Cloud.Api.Sessions

/-!
# Accounts and their passwords

Who can sign in with a password, over every order in which the requests of `AuthService` make
their database calls.  The table has one user for an e-mail address.
-/

namespace Code2Cloud
namespace Api
namespace AuthService

variable {H : Type}

/-! ## Runs -/

/-- The sessions, with the requests received so far. -/
structure Accounts (H : Type) where
  sessions : Sessions H
  requests : List Request

namespace Accounts

/-- The index on e-mail addresses refuses the user that a call is about to insert. -/
def taken (s : Store H) : Call H → Bool
  | .create _ u _ => (s.findByEmail u.email).isSome
  | _ => false

variable (cfg : Config H)

/-- A call, or its end when its insertion is refused. -/
def perform (s : Store H) (c : Call H) : Store H × Option (Call H) :=
  if taken s c then (s, none) else c.step cfg s

def step (x : Accounts H) : Sessions.Event → Option (Accounts H)
  | .request q =>
    some { sessions := { x.sessions with calls := x.sessions.calls ++ [q.call] }
           requests := x.requests ++ [q] }
  | .call i =>
    (x.sessions.calls[i]?).map fun c =>
      let performed := perform cfg x.sessions.store c
      { x with sessions :=
          { store := performed.1, calls := Sessions.setCall x.sessions.calls i performed.2 } }

def initial : Accounts H where
  sessions := Sessions.initial
  requests := []

/-- What a password is checked against. -/
structure Credentials (H : Type) where
  id : Uuid
  email : String
  password : Option H

def credentials (s : Store H) : List (Credentials H) :=
  s.users.map fun u => { id := u.id, email := u.email, password := u.password }

/-- The hash is that of a password with which the address was signed up. -/
def SignedUp (requests : List Request) (email : String) (hash : H) : Prop :=
  ∃ r dto, .signUp r dto ∈ requests ∧ dto.email = email ∧
    hash = cfg.bcrypt.hash (utf8 dto.password) r.passwordSalt

/-- A call inserts only the password of a sign-up. -/
def Sound (requests : List Request) : Call H → Prop
  | .signUp r dto => .signUp r dto ∈ requests
  | .create _ u _ => ∀ hash, u.password = some hash → SignedUp cfg requests u.email hash
  | _ => True

/-- One user for each address, and one address for each user; each password was signed up. -/
structure Registered (x : Accounts H) : Prop where
  emails : ((credentials x.sessions.store).map (·.email)).Nodup
  ids : ((credentials x.sessions.store).map (·.id)).Nodup
  passwords : ∀ c ∈ credentials x.sessions.store, ∀ hash, c.password = some hash →
    SignedUp cfg x.requests c.email hash
  calls : ∀ c ∈ x.sessions.calls, Sound cfg x.requests c

variable {cfg} {x y : Accounts H} {s : Store H}

theorem SignedUp.later {requests later : List Request} {email : String} {hash : H}
    (h : SignedUp cfg requests email hash) : SignedUp cfg (requests ++ later) email hash := by
  obtain ⟨r, dto, hmem, hrest⟩ := h
  exact ⟨r, dto, List.mem_append_left _ hmem, hrest⟩

theorem Sound.later {requests later : List Request} {c : Call H} (h : Sound cfg requests c) :
    Sound cfg (requests ++ later) c := by
  cases c with
  | signUp r dto => exact List.mem_append_left _ h
  | create r u githubId => exact fun hash hpassword => (h hash hpassword).later
  | _ => trivial

/-! ## One call -/

theorem credentials_update (s : Store H) (id : Uuid) {f : User H → User H}
    (hf : ∀ u, (f u).id = u.id ∧ (f u).email = u.email ∧ (f u).password = u.password) :
    credentials (s.update id f) = credentials s := by
  rw [credentials, Store.update, List.map_map]
  refine List.map_congr_left fun u _ => ?_
  obtain ⟨hid, hemail, hpassword⟩ := hf u
  rw [Function.comp_apply]
  split
  · rw [hid, hemail, hpassword]
  · rfl

/-- A call adds one user or leaves everyone's credentials as they are. -/
theorem credentials_step (cfg : Config H) (s : Store H) (c : Call H) :
    (∃ r u githubId, c = .create r u githubId ∧ (s.users.all fun v => v.id != u.id) = true ∧
      credentials (c.step cfg s).1 =
        credentials s ++ [{ id := u.id, email := u.email, password := u.password }]) ∨
    credentials (c.step cfg s).1 = credentials s := by
  cases c with
  | create r u githubId =>
    rw [Call.step, Store.create]
    by_cases hnew : (s.users.all fun v => v.id != u.id) = true
    · rw [if_pos hnew]
      exact Or.inl ⟨r, u, githubId, rfl, hnew, List.map_append⟩
    · rw [if_neg hnew]
      exact Or.inr rfl
  | updateOAuth r u profile => exact Or.inr (credentials_update s u.id fun _ => ⟨rfl, rfl, rfl⟩)
  | updateGithub r u payload => exact Or.inr (credentials_update s u.id fun _ => ⟨rfl, rfl, rfl⟩)
  | logout userId => exact Or.inr (credentials_update s userId fun _ => ⟨rfl, rfl, rfl⟩)
  | updateRefreshTokenHash issuer userId rt hash =>
    exact Or.inr (credentials_update s userId fun _ => ⟨rfl, rfl, rfl⟩)
  | findGitAccount r payload =>
    right
    rw [Call.step]
    split
    · rfl
    · dsimp only
      split <;> rfl
  | signUp | signIn | oauth | link | findLinked | findByEmail | upsertGitAccount | refresh =>
    right
    rw [Call.step]
    repeat' split
    all_goals rfl

theorem sound_step {requests : List Request} {c c' : Call H} (hc : Sound cfg requests c)
    (h : (c.step cfg s).2 = some c') : Sound cfg requests c' := by
  cases c with
  | signUp r dto =>
    rw [Call.step] at h
    split at h
    · cases h
    · cases h
      rintro hash hpassword
      cases hpassword
      exact ⟨r, dto, hc, rfl, rfl⟩
  | create r u githubId =>
    rw [Call.step] at h
    split at h
    · cases h
    · cases h
      cases githubId <;> trivial
  | oauth r profile =>
    rw [Call.step] at h
    split at h
    · cases h
      intro hash hpassword
      cases hpassword
    · cases h
      trivial
  | findByEmail r payload email =>
    rw [Call.step] at h
    split at h
    · cases h
      trivial
    · cases h
      intro hash hpassword
      cases hpassword
  | findGitAccount r payload =>
    rw [Call.step] at h
    split at h
    · cases h
    · dsimp only at h
      split at h <;> cases h <;> trivial
  | updateOAuth | updateGithub | upsertGitAccount =>
    cases h
    trivial
  | logout | updateRefreshTokenHash => cases h
  | signIn | link | findLinked | refresh =>
    rw [Call.step] at h
    repeat' split at h
    all_goals
      cases h
    all_goals trivial

/-! ## Every call -/

theorem find_credentials (s : Store H) (email : String) :
    (credentials s).find? (fun c => c.email == email) =
      (s.findByEmail email).map
        fun u => { id := u.id, email := u.email, password := u.password } := by
  rw [credentials, Store.findByEmail, List.find?_map]
  rfl

/-- A user whose insertion is accepted has an address and an identifier of its own. -/
theorem registered_create {r : Draw} {u : User H} {githubId : Option String}
    (hx : x.Registered cfg) (hu : Sound cfg x.requests (.create r u githubId))
    (hfree : taken x.sessions.store (.create r u githubId) = false)
    (hnew : (x.sessions.store.users.all fun v => v.id != u.id) = true) :
    let cs := credentials x.sessions.store ++
      [{ id := u.id, email := u.email, password := u.password }]
    (cs.map (·.email)).Nodup ∧ (cs.map (·.id)).Nodup ∧
      ∀ c ∈ cs, ∀ hash, c.password = some hash → SignedUp cfg x.requests c.email hash := by
  have hemail : ∀ c ∈ credentials x.sessions.store, c.email ≠ u.email := by
    have hnone : (credentials x.sessions.store).find? (fun c => c.email == u.email) = none := by
      rw [find_credentials, Option.not_isSome_iff_eq_none.mp (Bool.eq_false_iff.mp hfree)]
      rfl
    intro c hc heq
    exact List.find?_eq_none.mp hnone c hc (beq_iff_eq.mpr heq)
  have hid : ∀ c ∈ credentials x.sessions.store, c.id ≠ u.id := by
    intro c hc
    obtain ⟨v, hv, rfl⟩ := List.mem_map.mp hc
    exact bne_iff_ne.mp (List.all_eq_true.mp hnew v hv)
  refine ⟨?_, ?_, fun c hc hash hpassword => ?_⟩
  · rw [List.map_append, List.map_singleton, List.nodup_append]
    refine ⟨hx.emails, List.nodup_cons.mpr ⟨List.not_mem_nil, List.nodup_nil⟩,
      fun email hold email' hnew' => ?_⟩
    obtain ⟨c, hc, rfl⟩ := List.mem_map.mp hold
    rw [List.mem_singleton.mp hnew']
    exact hemail c hc
  · rw [List.map_append, List.map_singleton, List.nodup_append]
    refine ⟨hx.ids, List.nodup_cons.mpr ⟨List.not_mem_nil, List.nodup_nil⟩,
      fun id hold id' hnew' => ?_⟩
    obtain ⟨c, hc, rfl⟩ := List.mem_map.mp hold
    rw [List.mem_singleton.mp hnew']
    exact hid c hc
  · rcases List.mem_append.mp hc with hc | hc
    · exact hx.passwords c hc hash hpassword
    · rw [List.mem_singleton] at hc
      subst hc
      exact hu hash hpassword

/-- A step keeps the accounts registered, and nobody's credentials change. -/
theorem registered_step {e : Sessions.Event} (hx : x.Registered cfg) (h : x.step cfg e = some y) :
    y.Registered cfg ∧ credentials x.sessions.store <+: credentials y.sessions.store := by
  cases e with
  | request q =>
    cases h
    refine ⟨⟨hx.emails, hx.ids, fun c hc hash hpassword =>
      (hx.passwords c hc hash hpassword).later, fun c hc => ?_⟩, List.prefix_rfl⟩
    rcases List.mem_append.mp hc with hc | hc
    · exact (hx.calls c hc).later
    · rw [List.mem_singleton] at hc
      subst hc
      cases q with
      | signUp r dto => exact List.mem_append_right _ (List.mem_singleton_self _)
      | github r payload id => cases id <;> trivial
      | _ => trivial
  | call i =>
    rw [step, Option.map_eq_some_iff] at h
    obtain ⟨c, hc, rfl⟩ := h
    have hmem := List.mem_of_getElem? hc
    have hcalls (next : Option (Call H)) (hnext : ∀ c', next = some c' → Sound cfg x.requests c') :
        ∀ c' ∈ Sessions.setCall x.sessions.calls i next, Sound cfg x.requests c' := by
      intro c' hc'
      rcases Sessions.mem_setCall hc' with hold | hnew
      · exact hx.calls c' hold
      · exact hnext c' hnew
    cases htaken : taken x.sessions.store c with
    | true =>
      simp only [perform, htaken, if_true]
      exact ⟨⟨hx.emails, hx.ids, hx.passwords, hcalls none nofun⟩, List.prefix_rfl⟩
    | false =>
      simp only [perform, htaken, Bool.false_eq_true, if_false]
      have hnext := hcalls (c.step cfg x.sessions.store).2
        fun c' hc' => sound_step (hx.calls c hmem) hc'
      rcases credentials_step cfg x.sessions.store c with
        ⟨r, u, githubId, rfl, hnew, hcredentials⟩ | hcredentials
      · have hcreated := registered_create hx (hx.calls _ hmem) htaken hnew
        rw [← hcredentials] at hcreated
        exact ⟨⟨hcreated.1, hcreated.2.1, hcreated.2.2, hnext⟩,
          hcredentials ▸ List.prefix_append _ _⟩
      · exact ⟨⟨hcredentials.symm ▸ hx.emails, hcredentials.symm ▸ hx.ids,
          hcredentials.symm ▸ hx.passwords, hnext⟩, hcredentials.symm ▸ List.prefix_rfl⟩

theorem registered_of_reaches (hx : x.Registered cfg)
    (h : Reaches (step cfg) (fun _ _ => True) x y) :
    y.Registered cfg ∧ credentials x.sessions.store <+: credentials y.sessions.store :=
  h.invariant
    (fun z => z.Registered cfg ∧ credentials x.sessions.store <+: credentials z.sessions.store)
    ⟨hx, List.prefix_rfl⟩ fun _ _ _ ⟨hz, hprefix⟩ _ hstep =>
      ⟨(registered_step hz hstep).1, hprefix.trans (registered_step hz hstep).2⟩

theorem registered_initial : (initial : Accounts H).Registered cfg where
  emails := List.nodup_nil
  ids := List.nodup_nil
  passwords _ hc := nomatch hc
  calls _ hc := nomatch hc

/-! ## Signing in -/

/-- Whoever is found under an address stays found there. -/
theorem find_of_prefix {s s' : Store H} {email : String} {u : User H}
    (h : credentials s <+: credentials s') (hu : s.findByEmail email = some u) :
    ∃ v, s'.findByEmail email = some v ∧ v.id = u.id ∧ v.password = u.password := by
  obtain ⟨added, hadded⟩ := h
  have hfind := find_credentials s' email
  rw [← hadded, List.find?_append, find_credentials, hu] at hfind
  obtain ⟨v, hv, hsame⟩ := Option.map_eq_some_iff.mp hfind.symm
  exact ⟨v, hv, congrArg Credentials.id hsame, congrArg Credentials.password hsame⟩

/-- What of a password is compared. -/
def key (password : String) : Bytes := (utf8 password).take 72

/-- A request signs up with no password that holds a NUL. -/
def Plain : Request → Prop
  | .signUp _ dto => 0 ∉ utf8 dto.password
  | _ => True

instance : DecidablePred Plain := by
  intro q
  cases q <;> unfold Plain <;> infer_instance

theorem signIn_ok_iff (r : Draw) (s : Store H) (dto : SignInDto) (out : Store H × Tokens) :
    signIn cfg r s dto = .ok out ↔
      ∃ u, s.findByEmail dto.email = some u ∧
        u.password.any (cfg.bcrypt.compare (utf8 dto.password)) = true ∧
        issueTokens cfg r s u = out := by
  rw [signIn]
  cases s.findByEmail dto.email with
  | none =>
    constructor
    · intro h
      cases h
    · rintro ⟨_, hu, _⟩
      cases hu
  | some u =>
    dsimp only
    split
    · rename_i hmatch
      rw [Except.ok.injEq]
      constructor
      · intro h
        exact ⟨u, rfl, hmatch, h⟩
      · rintro ⟨_, hu, _, h⟩
        cases hu
        exact h
    · rename_i hmatch
      constructor
      · intro h
        cases h
      · rintro ⟨_, hu, hmatch', _⟩
        cases hu
        exact absurd hmatch' hmatch

/-- A user's password is a sign-up's, or there is none. -/
theorem exists_key (hx : x.Registered cfg) (hplain : ∀ q ∈ x.requests, Plain q)
    {email : String} {u : User H}
    (hu : x.sessions.store.findByEmail email = some u) :
    ∃ k : Option Bytes,
      (∀ bytes, k = some bytes →
        ∃ r dto, .signUp r dto ∈ x.requests ∧ dto.email = email ∧ bytes = key dto.password) ∧
      ∀ password, 0 ∉ utf8 password →
        (u.password.any (cfg.bcrypt.compare (utf8 password)) = true ↔ k = some (key password)) := by
  cases hpassword : u.password with
  | none => exact ⟨none, nofun, fun password _ => ⟨nofun, nofun⟩⟩
  | some hash =>
    have hmem := List.mem_of_find?_eq_some hu
    have hemail : u.email = email := by
      have hbeq := List.find?_some hu
      exact beq_iff_eq.mp hbeq
    obtain ⟨r, dto, hrequest, hdto, rfl⟩ :=
      hx.passwords _ (List.mem_map_of_mem hmem) hash hpassword
    refine ⟨some (key dto.password), fun bytes hbytes => ?_, fun password hnul => ?_⟩
    · exact ⟨r, dto, hrequest, hdto.trans hemail, (Option.some.inj hbytes).symm⟩
    · rw [Option.any_some, cfg.bcrypt.compare_hash _ _ _ hnul (hplain _ hrequest),
        Option.some.injEq, eq_comm]
      rfl

/-- From its first user on, an address signs in that user, with one password or with none: the
password of a sign-up, as far as its first 72 bytes.  No request changes it. -/
theorem password_is_fixed (cfg : Config H) (x : Accounts H)
    (hx : Reaches (step cfg) (fun _ _ => True) initial x) (hplain : ∀ q ∈ x.requests, Plain q)
    (email : String) (hknown : (x.sessions.store.findByEmail email).isSome = true) :
    ∃ (id : Uuid) (k : Option Bytes),
      (∀ bytes, k = some bytes →
        ∃ r dto, .signUp r dto ∈ x.requests ∧ dto.email = email ∧ bytes = key dto.password) ∧
      ∀ y, Reaches (step cfg) (fun _ _ => True) x y → ∀ r password,
        (0 ∉ utf8 password →
          ((∃ out, signIn cfg r y.sessions.store { email, password } = .ok out) ↔
            k = some (key password))) ∧
        ∀ out, signIn cfg r y.sessions.store { email, password } = .ok out →
          ∃ v ∈ y.sessions.store.users, v.id = id ∧ out.2 = getTokens cfg r.now v := by
  have hregistered := (registered_of_reaches registered_initial hx).1
  obtain ⟨u, hu⟩ := Option.isSome_iff_exists.mp hknown
  obtain ⟨k, hsource, hkey⟩ := exists_key hregistered hplain hu
  refine ⟨u.id, k, hsource, fun y hy r password => ?_⟩
  obtain ⟨v, hv, hid, hpassword⟩ := find_of_prefix (registered_of_reaches hregistered hy).2 hu
  constructor
  · intro hnul
    rw [← hkey password hnul, ← hpassword]
    constructor
    · rintro ⟨out, hout⟩
      obtain ⟨w, hw, hmatch, -⟩ := (signIn_ok_iff r y.sessions.store _ out).mp hout
      rw [hv, Option.some.injEq] at hw
      exact hw ▸ hmatch
    · exact fun hmatch => ⟨_, (signIn_ok_iff r y.sessions.store _ _).mpr ⟨v, hv, hmatch, rfl⟩⟩
  · intro out hout
    obtain ⟨w, hw, -, rfl⟩ := (signIn_ok_iff r y.sessions.store _ out).mp hout
    rw [hv, Option.some.injEq] at hw
    subst hw
    exact ⟨v, List.mem_of_find?_eq_some hv, hid, rfl⟩

/-- She has signed up, and someone else signs up under her address. -/
theorem password_is_fixed_ada :
    ∃ x : Accounts Bytes, Reaches (step Config.clear) (fun _ _ => True) initial x ∧
      ∃ k : Option Bytes, ∀ y, Reaches (step Config.clear) (fun _ _ => True) x y →
        ∀ r password, 0 ∉ utf8 password →
          ((∃ out, signIn Config.clear r y.sessions.store
            { email := "ada@example.net", password } = .ok out) ↔ k = some (key password)) := by
  obtain ⟨x, hx, hend⟩ := Reaches.exists_of_runEvents (step Config.clear) (fun _ _ => True)
    initial (adaLeaves ++ [.request (.signUp (adaDraw 1)
      { email := "ada@example.net", password := "battery staple", name := "Eve" })])
    (fun x => (x.sessions.store.findByEmail "ada@example.net").isSome &&
      decide (∀ q ∈ x.requests, Plain q)) (by decide) (runsUnder_true _ _ _)
  rw [Bool.and_eq_true, decide_eq_true_eq] at hend
  obtain ⟨hknown, hplain⟩ := hend
  obtain ⟨id, k, -, hfixed⟩ :=
    password_is_fixed Config.clear x hx hplain "ada@example.net" hknown
  exact ⟨x, hx, k, fun y hy r password => (hfixed y hy r password).1⟩

end Accounts
end AuthService
end Api
end Code2Cloud
