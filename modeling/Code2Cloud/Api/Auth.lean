import Code2Cloud.Base.Base64
import Code2Cloud.Base.Reach
import Code2Cloud.Base.Table

/-!
# Sign-in and refresh tokens

`AuthService`: the tokens it issues, the hash of the last refresh token that it keeps with
the user, and the comparison that decides a refresh.
-/

namespace Code2Cloud
namespace Api
namespace AuthService

/-! ## Tokens -/

/-- The identifier Prisma gives a user. -/
abbrev Uuid := {s : String // s.toList.length = 36}

/-- `bcrypt`, which reads no more than 72 bytes of its data.  Data that hold a zero byte, with
which it ends them, are left open. -/
structure Bcrypt (H : Type) where
  /-- The hash of the data under a salt. -/
  hash : Bytes → Nat → H
  compare : Bytes → H → Bool
  compare_hash : ∀ a b salt, 0 ∉ a → 0 ∉ b →
    (compare a (hash b salt) = true ↔ a.take 72 = b.take 72)

structure Config (H : Type) where
  bcrypt : Bcrypt H
  /-- HMAC-SHA-256 under a secret. -/
  hmac : String → Bytes → Bytes
  jwtSecret : String
  jwtRefreshSecret : String

/-- A character inside a JSON text. -/
def escapeChar (c : Char) : List Char :=
  let hex (n : Nat) : Char := Char.ofNat (if n < 10 then 0x30 + n else 0x57 + n)
  match c.toNat with
  | 0x22 => ['\\', c]
  | 0x5c => ['\\', c]
  | 0x08 => ['\\', 'b']
  | 0x09 => ['\\', 't']
  | 0x0a => ['\\', 'n']
  | 0x0c => ['\\', 'f']
  | 0x0d => ['\\', 'r']
  | n => if n < 0x20 then ['\\', 'u', '0', '0', hex (n / 16), hex (n % 16)] else [c]

def jsonString (s : String) : String :=
  "\"" ++ String.ofList (s.toList.flatMap escapeChar) ++ "\""

structure Claims where
  sub : Uuid
  email : String
  name : String
  avatar : Option String
  iat : Nat
  exp : Nat
  deriving DecidableEq

def Claims.details (c : Claims) : String :=
  ",\"email\":" ++ jsonString c.email ++ ",\"name\":" ++ jsonString c.name ++
    ",\"avatar\":" ++ (match c.avatar with
      | some avatar => jsonString avatar
      | none => "null") ++
    ",\"iat\":" ++ toString c.iat ++ ",\"exp\":" ++ toString c.exp ++ "\x7d"

/-- The payload as `getTokens` and `signAsync` build it: the user first, the times last. -/
def Claims.text (c : Claims) : String :=
  "\x7b\"sub\":" ++ jsonString c.sub.val ++ c.details

def headerText : String := "\x7b\"alg\":\"HS256\",\"typ\":\"JWT\"\x7d"

def dot : UInt8 := 0x2e

/-- `header.payload.signature` -/
def sign (hmac : String → Bytes → Bytes) (secret : String) (c : Claims) : Bytes :=
  let input := Base64.encode (utf8 headerText) ++ dot :: Base64.encode (utf8 c.text)
  input ++ dot :: Base64.encode (hmac secret input)

theorem zero_not_mem_sign (hmac : String → Bytes → Bytes) (secret : String) (c : Claims) :
    0 ∉ sign hmac secret c := by
  have hdot : (0 : UInt8) ≠ dot := by decide
  simp only [sign, List.mem_append, List.mem_cons, Base64.zero_not_mem_encode, hdot, or_self,
    not_false_eq_true]

theorem length_utf8 (s : String) : s.toList.length ≤ (utf8 s).length := by
  rw [utf8]
  induction s.toList with
  | nil => exact Nat.le_refl 0
  | cons c cs ih =>
    have hpos : 1 ≤ (String.utf8EncodeChar c).length := by
      rw [String.length_utf8EncodeChar]
      exact Char.utf8Size_pos c
    simp only [List.flatMap_cons, List.length_append, List.length_cons]
    omega

theorem one_le_length_escapeChar (c : Char) : 1 ≤ (escapeChar c).length := by
  unfold escapeChar
  dsimp only
  split
  all_goals first
    | exact Nat.le_add_left 1 _
    | (split <;> exact Nat.le_add_left 1 _)

theorem length_jsonString (s : String) : s.toList.length ≤ (jsonString s).toList.length := by
  have hbody (cs : List Char) : cs.length ≤ (cs.flatMap escapeChar).length := by
    induction cs with
    | nil => exact Nat.le_refl 0
    | cons c cs ih =>
      have hchar := one_le_length_escapeChar c
      simp only [List.flatMap_cons, List.length_append, List.length_cons]
      omega
  have hquoted := hbody s.toList
  simp only [jsonString, String.toList_append, String.toList_ofList, List.length_append]
  omega

/-- A user's payloads start with the same 27 bytes: all of them are the user's identifier. -/
theorem take_payload {c c' : Claims} (h : c.sub = c'.sub) :
    (utf8 c.text).take 27 = (utf8 c'.text).take 27 ∧ 27 ≤ (utf8 c.text).length := by
  have hbegins : 27 ≤ (utf8 ("\x7b\"sub\":" ++ jsonString c.sub.val)).length := by
    have hchars := length_utf8 ("\x7b\"sub\":" ++ jsonString c.sub.val)
    have hjson := length_jsonString c.sub.val
    rw [c.sub.property] at hjson
    rw [String.toList_append, List.length_append] at hchars
    omega
  have htext (d : Claims) : ∃ rest, utf8 d.text =
      utf8 ("\x7b\"sub\":" ++ jsonString d.sub.val) ++ rest :=
     ⟨utf8 d.details, utf8_append _ _⟩
  obtain ⟨rest, hc⟩ := htext c
  obtain ⟨rest', hc'⟩ := htext c'
  rw [← h] at hc'
  rw [hc, hc', List.take_append_of_le_length hbegins, List.take_append_of_le_length hbegins]
  refine ⟨rfl, ?_⟩
  rw [List.length_append]
  omega

/-- Two tokens of one user start with the same 72 bytes: the header, the dot, and the 36 digits
of those 27 bytes. -/
theorem take_sign {hmac : String → Bytes → Bytes} {secret secret' : String} {c c' : Claims}
    (h : c.sub = c'.sub) : (sign hmac secret c).take 72 = (sign hmac secret' c').take 72 := by
  obtain ⟨hsame, hlength⟩ := take_payload h
  have hlength' := (take_payload h.symm).2
  have hdigits : (Base64.encode (utf8 c.text)).take 36 = (Base64.encode (utf8 c'.text)).take 36 :=
    Base64.take_encode (k := 9) hsame hlength hlength'
  have hheader : (Base64.encode (utf8 headerText)).length = 36 := by decide +kernel
  have htoken (s : String) (d : Claims) (hd : 27 ≤ (utf8 d.text).length) :
      (sign hmac s d).take 72 =
        Base64.encode (utf8 headerText) ++
          dot :: ((Base64.encode (utf8 d.text)).take 36).take 35 := by
    have hpayload : 36 ≤ (Base64.encode (utf8 d.text)).length := Base64.le_length_encode (k := 9) hd
    rw [sign, List.append_assoc, List.take_append, hheader, List.take_of_length_le (by omega),
      List.cons_append, List.take_succ_cons, List.take_append_of_le_length (by omega),
      List.take_take]
    rfl
  rw [htoken secret c hlength, htoken secret' c' hlength', hdigits]

/-! ## Users -/

structure User (H : Type) where
  id : Uuid
  email : String
  password : Option H := none
  name : Option String
  avatar : Option String := none
  hashedRefreshToken : Option H := none

inductive AuthException
  | forbidden (message : String)
  | unauthorized (message : String)
  | internal

structure Tokens where
  accessToken : Bytes
  refreshToken : Bytes

structure Store (H : Type) where
  users : List (User H)
  /-- The GitHub accounts, by their identifier there, with their users. -/
  gitAccounts : List (String × Uuid)
  /-- The refresh tokens issued so far, oldest first. -/
  issued : List (Uuid × Bytes)

structure SignUpDto where
  email : String
  password : String
  name : Option String

structure SignInDto where
  email : String
  password : String

structure OAuthUser where
  email : String
  name : String
  picture : Option String

structure CompleteGithubPayload where
  githubId : String
  username : String
  email : Option String
  name : Option String
  avatarUrl : Option String

/-- What a request draws: the time in seconds, salts, and the identifier of a new row. -/
structure Draw where
  now : Nat
  salt : Nat
  passwordSalt : Nat
  id : Uuid

/-- `x || y` on a text that may be absent. -/
def orElse (x : Option String) (y : String) : String :=
  match x with
  | some text => if text.isEmpty then y else text
  | none => y

variable {H : Type}

namespace Store

def empty : Store H where
  users := []
  gitAccounts := []
  issued := []

def findById (s : Store H) (id : Uuid) : Option (User H) := s.users.find? fun u => u.id == id

def findByEmail (s : Store H) (email : String) : Option (User H) :=
  s.users.find? fun u => u.email == email

def update (s : Store H) (id : Uuid) (f : User H → User H) : Store H :=
  { s with users := s.users.map fun u => if u.id = id then f u else u }

/-- Insert a user; the identifier must be new. -/
def create (s : Store H) (u : User H) : Except AuthException (Store H) :=
  if s.users.all fun v => v.id != u.id then .ok { s with users := s.users ++ [u] }
  else .error .internal

def upsertGitAccount (s : Store H) (githubId : String) (userId : Uuid) : Store H :=
  { s with gitAccounts := s.gitAccounts.filter (fun a => a.1 != githubId) ++ [(githubId, userId)] }

def latest (s : Store H) (id : Uuid) : Option Bytes :=
  ((s.issued.filter fun i => i.1 == id).getLast?).map (·.2)

end Store

/-! ## The service -/

variable (cfg : Config H)

def claimsOf (now ttl : Nat) (u : User H) : Claims :=
  { sub := u.id, email := u.email, name := orElse u.name "", avatar := u.avatar
    iat := now, exp := now + ttl }

/-- An access token for 15 minutes and a refresh token for seven days. -/
def getTokens (now : Nat) (u : User H) : Tokens :=
  { accessToken := sign cfg.hmac cfg.jwtSecret (claimsOf now (15 * 60) u)
    refreshToken := sign cfg.hmac cfg.jwtRefreshSecret (claimsOf now (7 * 24 * 60 * 60) u) }

def updateRefreshTokenHash (salt : Nat) (s : Store H) (userId : Uuid) (rt : Bytes) : Store H :=
  s.update userId fun u => { u with hashedRefreshToken := some (cfg.bcrypt.hash rt salt) }

/-- The end of every request that signs a user in: new tokens, and the hash of the new refresh
token. -/
def issueTokens (r : Draw) (s : Store H) (u : User H) : Store H × Tokens :=
  let tokens := getTokens cfg r.now u
  let updated := updateRefreshTokenHash cfg r.salt s u.id tokens.refreshToken
  ({ updated with issued := s.issued ++ [(u.id, tokens.refreshToken)] }, tokens)

def register (r : Draw) (s : Store H) (user : User H) (githubId : Option String := none) :
    Except AuthException (Store H × Tokens) :=
  match s.create user with
  | .error e => .error e
  | .ok created =>
    match githubId with
    | none => .ok (issueTokens cfg r created user)
    | some githubId => .ok (issueTokens cfg r (created.upsertGitAccount githubId user.id) user)

def signUp (r : Draw) (s : Store H) (dto : SignUpDto) :
    Except AuthException (Store H × Tokens) :=
  if (s.findByEmail dto.email).isSome then .error (.forbidden "Credentials taken")
  else
    register cfg r s
      { id := r.id, email := dto.email, name := dto.name
        password := some (cfg.bcrypt.hash (utf8 dto.password) r.passwordSalt) }

def signIn (r : Draw) (s : Store H) (dto : SignInDto) :
    Except AuthException (Store H × Tokens) :=
  match s.findByEmail dto.email with
  | none => .error (.unauthorized "Invalid credentials")
  | some u =>
    -- a user without a password is compared with the empty hash, which matches nothing
    if u.password.any (cfg.bcrypt.compare (utf8 dto.password)) then .ok (issueTokens cfg r s u)
    else .error (.unauthorized "Invalid credentials")

def logout (s : Store H) (userId : Uuid) : Store H :=
  s.update userId fun u => { u with hashedRefreshToken := none }

def refreshTokens (r : Draw) (s : Store H) (userId : Uuid) (rt : Bytes) :
    Except AuthException (Store H × Tokens) :=
  match s.findById userId with
  | none => .error (.forbidden "Access Denied")
  | some u =>
    match u.hashedRefreshToken with
    | none => .error (.forbidden "Access Denied")
    | some hash =>
      if cfg.bcrypt.compare rt hash then .ok (issueTokens cfg r s u)
      else .error (.forbidden "Access Denied")

def validateOAuthLogin (r : Draw) (s : Store H) (profile : OAuthUser) :
    Except AuthException (Store H × Tokens) :=
  match s.findByEmail profile.email with
  | none =>
    register cfg r s
      { id := r.id, email := profile.email, name := some profile.name, avatar := profile.picture }
  | some u =>
    let updated := s.update u.id fun u => { u with avatar := profile.picture }
    .ok (issueTokens cfg r updated { u with avatar := profile.picture })

def processGithubCallback (r : Draw) (s : Store H) (payload : CompleteGithubPayload)
    (currentUserId : Option Uuid) : Except AuthException (Store H × Tokens) :=
  match currentUserId with
  | some id =>
    -- linking an account; the row's user must exist
    match s.findById id with
    | none => .error .internal
    | some u => .ok (issueTokens cfg r (s.upsertGitAccount payload.githubId id) u)
  | none =>
    match payload.email.filter fun email => !email.isEmpty with
    | none => .error (.unauthorized "GitHub account must have a public email")
    | some email =>
      let linked := (s.gitAccounts.find? fun a => a.1 == payload.githubId).bind
        fun a => s.findById a.2
      match linked <|> s.findByEmail email with
      | none =>
        register cfg r s
          { id := r.id, email, name := some (orElse payload.name payload.username)
            avatar := payload.avatarUrl }
          (some payload.githubId)
      | some u =>
        -- an absent avatar leaves the stored one; the tokens name the avatar read before
        let avatar := payload.avatarUrl.filter fun url => !url.isEmpty
        let updated := s.update u.id fun u => { u with avatar := avatar <|> u.avatar }
        .ok (issueTokens cfg r (updated.upsertGitAccount payload.githubId u.id) u)

/-! ## Runs -/

inductive Request
  | signUp (r : Draw) (dto : SignUpDto)
  | signIn (r : Draw) (dto : SignInDto)
  | oauth (r : Draw) (profile : OAuthUser)
  | github (r : Draw) (payload : CompleteGithubPayload) (currentUserId : Option Uuid)
  | logout (userId : Uuid)
  | refresh (r : Draw) (userId : Uuid) (rt : Bytes)

/-- A request that throws changes nothing. -/
def kept (s : Store H) : Except AuthException (Store H × Tokens) → Store H
  | .ok (s', _) => s'
  | .error _ => s

def step (s : Store H) : Request → Option (Store H)
  | .signUp r dto => some (kept s (signUp cfg r s dto))
  | .signIn r dto => some (kept s (signIn cfg r s dto))
  | .oauth r profile => some (kept s (validateOAuthLogin cfg r s profile))
  | .github r payload id => some (kept s (processGithubCallback cfg r s payload id))
  | .logout userId => some (AuthService.logout s userId)
  | .refresh r userId rt => some (kept s (refreshTokens cfg r s userId rt))

/-- The stored hash of a user is that of the refresh token issued last. -/
structure Store.Consistent (s : Store H) : Prop where
  ids : (s.users.map (·.id)).Nodup
  hashes : ∀ u ∈ s.users, ∀ hash, u.hashedRefreshToken = some hash →
    ∃ c salt, c.sub = u.id ∧ s.latest u.id = some (sign cfg.hmac cfg.jwtRefreshSecret c) ∧
      hash = cfg.bcrypt.hash (sign cfg.hmac cfg.jwtRefreshSecret c) salt

variable {cfg : Config H} {s s' : Store H}

theorem consistent_create {u : User H} (hs : s.Consistent cfg) (hu : u.hashedRefreshToken = none)
    (h : s.create u = .ok s') : s'.Consistent cfg := by
  unfold Store.create at h
  split at h
  · rename_i hnew
    cases h
    constructor
    · rw [List.map_append, List.map_singleton, List.nodup_append]
      refine ⟨hs.ids, by simp, ?_⟩
      rintro id hid _ hu' rfl
      obtain ⟨v, hv, rfl⟩ := List.mem_map.mp hid
      have hne := List.all_eq_true.mp hnew v hv
      rw [List.mem_singleton] at hu'
      simp [hu'] at hne
    · intro v hv hash hhash
      rcases List.mem_append.mp hv with hv | hv
      · exact hs.hashes v hv hash hhash
      · rw [List.mem_singleton.mp hv, hu] at hhash
        cases hhash
  · cases h

theorem consistent_update {f : User H → User H} (hs : s.Consistent cfg) (id : Uuid)
    (hid : ∀ u, (f u).id = u.id)
    (hhash : ∀ u, (f u).hashedRefreshToken = u.hashedRefreshToken ∨
      (f u).hashedRefreshToken = none) : (s.update id f).Consistent cfg := by
  constructor
  · have hids : (s.update id f).users.map (·.id) = s.users.map (·.id) := by
      simp only [Store.update, List.map_map]
      refine List.map_congr_left fun u _ => ?_
      simp only [Function.comp_apply]
      split
      · exact hid u
      · rfl
    rw [hids]
    exact hs.ids
  · intro v hv hash hv'
    obtain ⟨u, hu, rfl⟩ := List.mem_map.mp hv
    split at hv'
    · rename_i huid
      rw [if_pos huid, hid]
      rcases hhash u with hsame | hnone
      · exact hs.hashes u hu hash (hsame ▸ hv')
      · rw [hnone] at hv'
        cases hv'
    · rename_i huid
      rw [if_neg huid]
      exact hs.hashes u hu hash hv'

theorem consistent_upsertGitAccount (hs : s.Consistent cfg) (githubId : String) (id : Uuid) :
    (s.upsertGitAccount githubId id).Consistent cfg :=
  ⟨hs.ids, hs.hashes⟩

theorem consistent_issueTokens (hs : s.Consistent cfg) (r : Draw) (u : User H) :
    (issueTokens cfg r s u).1.Consistent cfg := by
  constructor
  · have hids : (issueTokens cfg r s u).1.users.map (·.id) = s.users.map (·.id) := by
      simp only [issueTokens, updateRefreshTokenHash, Store.update, List.map_map]
      refine List.map_congr_left fun v _ => ?_
      simp only [Function.comp_apply]
      split <;> rfl
    rw [hids]
    exact hs.ids
  · intro v hv hash hhash
    obtain ⟨v₀, hv₀, rfl⟩ := List.mem_map.mp hv
    by_cases hid : v₀.id = u.id
    · simp only [hid, if_true, Option.some.injEq] at hhash ⊢
      refine ⟨claimsOf r.now (7 * 24 * 60 * 60) u, r.salt, rfl, ?_, hhash.symm⟩
      simp [Store.latest, issueTokens, getTokens]
    · simp only [hid, if_false] at hhash ⊢
      obtain ⟨c, salt, hsub, hlatest, hc⟩ := hs.hashes v₀ hv₀ hash hhash
      refine ⟨c, salt, hsub, ?_, hc⟩
      rw [← hlatest]
      have hne : (u.id == v₀.id) = false := beq_eq_false_iff_ne.mpr fun h => hid h.symm
      simp only [Store.latest, issueTokens, List.filter_append, List.filter_cons, hne,
        Bool.false_eq_true, if_false, List.filter_nil, List.append_nil]

theorem consistent_kept {e : Except AuthException (Store H × Tokens)} (hs : s.Consistent cfg)
    (h : ∀ s' tokens, e = .ok (s', tokens) → s'.Consistent cfg) : (kept s e).Consistent cfg := by
  cases e with
  | error => exact hs
  | ok result => exact h result.1 result.2 rfl

theorem consistent_register (hs : s.Consistent cfg) (r : Draw) {u : User H}
    (hu : u.hashedRefreshToken = none) (githubId : Option String) {tokens : Tokens}
    (h : register cfg r s u githubId = .ok (s', tokens)) : s'.Consistent cfg := by
  unfold register at h
  cases hcreate : s.create u with
  | error => simp [hcreate] at h
  | ok created =>
    have hcreated := consistent_create hs hu hcreate
    rw [hcreate] at h
    cases githubId with
    | none =>
      cases h
      exact consistent_issueTokens hcreated r u
    | some githubId =>
      cases h
      exact consistent_issueTokens (consistent_upsertGitAccount hcreated githubId u.id) r u

theorem consistent_github (hs : s.Consistent cfg) (r : Draw) (payload : CompleteGithubPayload)
    (currentUserId : Option Uuid) {tokens : Tokens}
    (h : processGithubCallback cfg r s payload currentUserId = .ok (s', tokens)) :
    s'.Consistent cfg := by
  unfold processGithubCallback at h
  cases currentUserId with
  | some id =>
    cases hfind : s.findById id with
    | none => simp [hfind] at h
    | some u =>
      simp only [hfind, Except.ok.injEq] at h
      have hissue := consistent_issueTokens
        (consistent_upsertGitAccount hs payload.githubId id) r u
      rw [h] at hissue
      exact hissue
  | none =>
    dsimp only at h
    split at h
    · cases h
    · split at h
      · exact consistent_register hs r rfl _ h
      · rename_i u _
        rw [Except.ok.injEq] at h
        have hupdate := consistent_update hs u.id
          (f := fun u => { u with
            avatar := (payload.avatarUrl.filter fun url => !url.isEmpty) <|> u.avatar })
          (fun _ => rfl) (fun _ => Or.inl rfl)
        have hissue := consistent_issueTokens
          (consistent_upsertGitAccount hupdate payload.githubId u.id) r u
        rw [h] at hissue
        exact hissue

theorem consistent_step {request : Request} (hs : s.Consistent cfg)
    (h : step cfg s request = some s') : s'.Consistent cfg := by
  cases request with
  | signUp r dto =>
    cases h
    refine consistent_kept hs fun s' tokens h => ?_
    unfold AuthService.signUp at h
    split at h
    · cases h
    · exact consistent_register hs r rfl none h
  | signIn r dto =>
    cases h
    refine consistent_kept hs fun s' tokens h => ?_
    unfold AuthService.signIn at h
    split at h
    · cases h
    · split at h
      · cases h
        exact consistent_issueTokens hs r _
      · cases h
  | oauth r profile =>
    cases h
    refine consistent_kept hs fun s' tokens h => ?_
    unfold validateOAuthLogin at h
    split at h
    · exact consistent_register hs r rfl none h
    · rename_i u _
      cases h
      have hupdate := consistent_update hs u.id
        (f := fun u => { u with avatar := profile.picture }) (fun _ => rfl) (fun _ => Or.inl rfl)
      exact consistent_issueTokens hupdate r { u with avatar := profile.picture }
  | github r payload id =>
    cases h
    exact consistent_kept hs fun s' tokens h => consistent_github hs r payload id h
  | logout userId =>
    cases h
    exact consistent_update hs userId (fun _ => rfl) (fun _ => Or.inr rfl)
  | refresh r userId rt =>
    cases h
    refine consistent_kept hs fun s' tokens h => ?_
    unfold refreshTokens at h
    split at h
    · cases h
    · split at h
      · cases h
      · split at h
        · cases h
          exact consistent_issueTokens hs r _
        · cases h

/-- A user who is signed in is let in with any refresh token of his: the comparison never gets
past the bytes they share. -/
theorem accepts_iff (hs : s.Consistent cfg) {u : User H} (hu : u ∈ s.users) {c : Claims}
    (hc : c.sub = u.id) (r : Draw) :
    (∃ result, refreshTokens cfg r s u.id (sign cfg.hmac cfg.jwtRefreshSecret c) = .ok result) ↔
      u.hashedRefreshToken ≠ none := by
  have hfind : s.findById u.id = some u := Table.find?_of_nodup hs.ids hu
  unfold refreshTokens
  simp only [hfind]
  cases hhash : u.hashedRefreshToken with
  | none => simp
  | some hash =>
    obtain ⟨c', salt, hsub, _, rfl⟩ := hs.hashes u hu hash hhash
    have hcompare : cfg.bcrypt.compare (sign cfg.hmac cfg.jwtRefreshSecret c)
        (cfg.bcrypt.hash (sign cfg.hmac cfg.jwtRefreshSecret c') salt) = true :=
      (cfg.bcrypt.compare_hash _ _ salt (zero_not_mem_sign _ _ _) (zero_not_mem_sign _ _ _)).mpr
        (take_sign (hc.trans hsub.symm))
    simp [hcompare]

theorem consistent_of_reaches (h : Reaches (step cfg) (fun _ _ => True) Store.empty s) :
    s.Consistent cfg := by
  refine h.invariant (Store.Consistent cfg) ⟨List.nodup_nil, ?_⟩ ?_
  · intro v hv
    exact absurd hv List.not_mem_nil
  · exact fun _ _ _ hs _ hstep => consistent_step hs hstep

/-- In every reachable state and for every signature-valid refresh token of a user: the token is
accepted only if it is the one most recently issued to the user, if and only if it is that one
or the user is signed out. -/
theorem refresh_accepts_latest_iff
    (h : Reaches (step cfg) (fun _ _ => True) Store.empty s) {u : User H} (hu : u ∈ s.users)
    {c : Claims} (hc : c.sub = u.id) (r : Draw) :
    ((∃ result, refreshTokens cfg r s u.id (sign cfg.hmac cfg.jwtRefreshSecret c) = .ok result) →
        s.latest u.id = some (sign cfg.hmac cfg.jwtRefreshSecret c)) ↔
      (u.hashedRefreshToken = none ∨
        s.latest u.id = some (sign cfg.hmac cfg.jwtRefreshSecret c)) := by
  rw [accepts_iff (consistent_of_reaches h) hu hc r]
  constructor
  · intro haccepts
    by_cases hhash : u.hashedRefreshToken = none
    · exact Or.inl hhash
    · exact Or.inr (haccepts hhash)
  · rintro (hhash | hlatest) haccepted
    · exact absurd hhash haccepted
    · exact hlatest

/-! ## An exchanged token -/

def Bcrypt.clear : Bcrypt Bytes where
  hash data _ := data.take 72
  compare data hash := data.take 72 == hash
  compare_hash _ _ _ _ _ := beq_iff_eq

def Config.clear : Config Bytes where
  bcrypt := .clear
  hmac _ input := input.take 32
  jwtSecret := "access"
  jwtRefreshSecret := "refresh"

def ada : Uuid := ⟨"3f2b8c1e-5d4a-4e6f-9a7b-1c2d3e4f5a6b", by decide⟩

def adaDraw (now : Nat) : Draw := { now, salt := 0, passwordSalt := 0, id := ada }

/-- The claims of the refresh token that a user gets when she signs up at a time. -/
def adaClaims (now : Nat) : Claims :=
  { sub := ada, email := "ada@example.net", name := "Ada", avatar := none, iat := now
    exp := now + 7 * 24 * 60 * 60 }

def adaToken (now : Nat) : Bytes :=
  sign Config.clear.hmac Config.clear.jwtRefreshSecret (adaClaims now)

/-- She signs up, and a minute later exchanges her refresh token. -/
def adaRequests : List Request :=
  [.signUp (adaDraw 0) { email := "ada@example.net", password := "correct horse", name := "Ada" },
    .refresh (adaDraw 60) ada (adaToken 0)]

theorem exists_adaRequests :
    ∃ s, Reaches (step Config.clear) (fun _ _ => True) Store.empty s ∧
      ∃ u ∈ s.users, u.id = ada ∧ u.hashedRefreshToken ≠ none ∧
        s.latest u.id = some (adaToken 60) := by
  obtain ⟨s, hs, hend⟩ := Reaches.exists_of_runEvents (step Config.clear) _ Store.empty adaRequests
    (fun s => s.users.any fun u => u.id == ada && u.hashedRefreshToken.isSome &&
      s.latest u.id == some (adaToken 60)) (by decide +kernel) (runsUnder_true _ _ _)
  obtain ⟨u, hu, hend⟩ := List.any_eq_true.mp hend
  simp only [Bool.and_eq_true, beq_iff_eq] at hend
  obtain ⟨⟨hid, hsome⟩, hlatest⟩ := hend
  exact ⟨s, hs, u, hu, hid, Option.isSome_iff_ne_none.mp hsome, hlatest⟩

theorem refresh_accepts_latest_ada :
    ∃ s, ∃ u ∈ s.users,
      (∃ result, refreshTokens Config.clear (adaDraw 120) s u.id (adaToken 60) = .ok result) →
        s.latest u.id = some (adaToken 60) := by
  obtain ⟨s, hs, u, hu, hid, _, hlatest⟩ := exists_adaRequests
  exact ⟨s, u, hu, (refresh_accepts_latest_iff (c := adaClaims 60) hs hu hid.symm
    (adaDraw 120)).mpr (Or.inr hlatest)⟩

/-- The token that was exchanged is accepted again. -/
theorem not_refresh_accepts_latest :
    ¬∀ (H : Type) (cfg : Config H) (s : Store H),
      Reaches (step cfg) (fun _ _ => True) Store.empty s →
        ∀ u ∈ s.users, ∀ (c : Claims) (r : Draw), c.sub = u.id → r.now < c.exp →
          (∃ result, refreshTokens cfg r s u.id (sign cfg.hmac cfg.jwtRefreshSecret c) =
              .ok result) →
            s.latest u.id = some (sign cfg.hmac cfg.jwtRefreshSecret c) := by
  intro h
  obtain ⟨s, hs, u, hu, hid, hsome, hlatest⟩ := exists_adaRequests
  have haccepted := (accepts_iff (c := adaClaims 0) (consistent_of_reaches hs) hu hid.symm
    (adaDraw 120)).mpr hsome
  have hstale := h Bytes Config.clear s hs u hu (adaClaims 0) (adaDraw 120) hid.symm (by decide)
    haccepted
  rw [hlatest, Option.some.injEq] at hstale
  have hne : adaToken 60 ≠ adaToken 0 := by decide +kernel
  exact hne hstale

end AuthService
end Api
end Code2Cloud
