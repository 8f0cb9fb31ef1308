import Code2Cloud.Base.Reach

/-!
# The API client of the pages

`FetchClient.request` with its refresh of the tokens: any number of calls share one client, and
each goes on when what it awaits is there.
-/

namespace Code2Cloud
namespace Web
namespace FetchClient

/-- The cookies behind `tokenManager`. -/
structure Tokens where
  accessToken : Option String := none
  refreshToken : Option String := none
  deriving DecidableEq

/-- `|| null` -/
def nonempty (cookie : Option String) : Option String := cookie.filter fun s => !s.isEmpty

def Tokens.getAccessToken (t : Tokens) : Option String := nonempty t.accessToken

def Tokens.getRefreshToken (t : Tokens) : Option String := nonempty t.refreshToken

structure AuthResponse where
  accessToken : String
  refreshToken : String

def Tokens.setTokens (data : AuthResponse) : Tokens where
  accessToken := some data.accessToken
  refreshToken := some data.refreshToken

/-! ## Calls -/

inductive HttpMethod
  | get | post | put | patch | delete
  deriving DecidableEq

abbrev Headers := List (String × String)

/-- A property of an object literal, over those before it. -/
def Headers.spread (headers : Headers) (field : String × String) : Headers :=
  headers.filter (fun old => old.1 != field.1) ++ [field]

/-- What `request` is called with; the body is JSON already, and the URL has its parameters. -/
structure Options where
  method : HttpMethod
  url : String
  headers : Headers := []
  body : Option String := none
  skipAuth : Bool := false
  deriving DecidableEq

structure Fetch where
  method : HttpMethod
  url : String
  headers : Headers
  body : Option String
  deriving DecidableEq

inductive Outcome
  /-- The response is parsed. -/
  | parsed
  /-- `ApiError` -/
  | apiError (status : Nat)
  /-- `fetch` has thrown. -/
  | failed
  /-- The tokens are cleared and the page is told to log out. -/
  | loggedOut
  deriving DecidableEq

inductive Phase
  /-- `await doFetch()` -/
  | sent
  /-- `return await this.refreshPromise`, in the call that has set it. -/
  | refreshing (refresh : Nat)
  /-- `await this.refreshTokens()` -/
  | waiting (refresh : Nat)
  /-- `await doFetch(newHeaders)` -/
  | resent (refresh : Nat)
  | ended (outcome : Outcome)
  deriving DecidableEq

structure Call where
  options : Options
  headers : Headers
  phase : Phase
  /-- All that was fetched for the call, in order. -/
  fetches : List Fetch
  /-- The refresh it has awaited or awaits. -/
  awaited : Option Nat
  deriving DecidableEq

/-- Where the promise of a refresh is. -/
inductive Refresh
  /-- `/auth/refresh` is on its way. -/
  | sent
  /-- `await response.json()` -/
  | parsing
  /-- With the new access token, or rejected. -/
  | settled (token : Option String)
  deriving DecidableEq

def Refresh.pending : Refresh → Bool
  | sent | parsing => true
  | settled _ => false

def Call.fetch (c : Call) (headers : Headers) : Fetch where
  method := c.options.method
  url := c.options.url
  headers
  body := c.options.body

/-- `newHeaders` -/
def Call.withToken (c : Call) (token : String) : Headers :=
  c.headers.spread ("Authorization", "Bearer " ++ token)

end FetchClient

open FetchClient

structure FetchClient where
  tokens : Tokens := {}
  refreshPromise : Option Nat := none
  /-- The promises of all refreshes, the oldest first. -/
  refreshes : List Refresh := []
  calls : List Call := []
  deriving DecidableEq

namespace FetchClient

/-! ## What a call does next -/

/-- A call goes on, and the client's own fields stay. -/
def setCall (s : FetchClient) (i : Nat) (c : Call) : FetchClient :=
  { s with calls := s.calls.set i c }

def settle (s : FetchClient) (r : Nat) (x : Refresh) : FetchClient :=
  { s with refreshes := s.refreshes.set r x }

def clearTokens (s : FetchClient) : FetchClient := { s with tokens := {} }

/-- `headers` of a call. -/
def headersOf (defaultHeaders : Headers) (tokens : Tokens) (o : Options) : Headers :=
  let headers := (defaultHeaders ++ o.headers).foldl Headers.spread
    [("Content-Type", "application/json")]
  if o.skipAuth then headers
  else
    match tokens.getAccessToken with
    | some token => headers.spread ("Authorization", "Bearer " ++ token)
    | none => headers

/-- A call up to its first `fetch`. -/
def request (defaultHeaders : Headers) (s : FetchClient) (o : Options) : FetchClient :=
  let headers := headersOf defaultHeaders s.tokens o
  let c : Call := { options := o, headers, phase := .sent, fetches := [], awaited := none }
  { s with calls := s.calls ++ [{ c with fetches := [c.fetch headers] }] }

/-- `refreshTokens` as far as it goes at once: share the promise that is set, or set one. -/
def refreshTokens (s : FetchClient) (i : Nat) (c : Call) : FetchClient :=
  match s.refreshPromise with
  | some r => s.setCall i { c with phase := .waiting r, awaited := some r }
  | none =>
    let r := s.refreshes.length
    { s.setCall i { c with phase := .refreshing r, awaited := some r } with
      refreshPromise := some r
      -- without a token nothing is sent and the promise is rejected
      refreshes := s.refreshes ++
        [if s.tokens.getRefreshToken.isSome then .sent else .settled none] }

/-- `if (!res.ok) throw` -/
def outcomeOf (status : Nat) : Outcome :=
  if 200 ≤ status ∧ status ≤ 299 then .parsed else .apiError status

/-- A response to the `fetch` that a call awaits. -/
def respond (s : FetchClient) (i : Nat) (c : Call) (status : Nat) : Option FetchClient :=
  match c.phase with
  | .sent =>
    if status = 401 ∧ c.options.skipAuth = false ∧ s.tokens.getRefreshToken.isSome then
      some (s.refreshTokens i c)
    else some (s.setCall i { c with phase := .ended (outcomeOf status) })
  | .resent _ => some (s.setCall i { c with phase := .ended (outcomeOf status) })
  | .refreshing _ | .waiting _ | .ended _ => none

/-- The `fetch` that a call awaits throws. -/
def reject (s : FetchClient) (i : Nat) (c : Call) : Option FetchClient :=
  match c.phase with
  | .sent => some (s.setCall i { c with phase := .ended .failed })
  | .resent _ => some (s.setCall i { c with phase := .ended .loggedOut }).clearTokens
  | .refreshing _ | .waiting _ | .ended _ => none

/-- `finally { this.refreshPromise = null }`, once the awaited promise is settled. -/
def release (s : FetchClient) (i : Nat) (c : Call) : Option FetchClient :=
  match c.phase with
  | .refreshing r =>
    match s.refreshes[r]? with
    | some (.settled _) =>
      some { s.setCall i { c with phase := .waiting r } with refreshPromise := none }
    | _ => none
  | _ => none

/-- A call goes on after `await this.refreshTokens()`. -/
def resume (s : FetchClient) (i : Nat) (c : Call) : Option FetchClient :=
  match c.phase with
  | .waiting r =>
    match s.refreshes[r]? with
    | some (.settled token) =>
      match nonempty token with
      | some token =>
        some (s.setCall i { c with
          phase := .resent r
          fetches := c.fetches ++ [c.fetch (c.withToken token)] })
      | none => some (s.setCall i { c with phase := .ended .loggedOut }).clearTokens
    | _ => none
  | _ => none

/-- The response to `/auth/refresh`, and its body. -/
def refreshResponds (s : FetchClient) (r : Nat) (ok : Bool) : Option FetchClient :=
  if s.refreshes[r]? = some .sent then
    some (s.settle r (if ok then .parsing else .settled none))
  else none

def refreshParsed (s : FetchClient) (r : Nat) (data : AuthResponse) : Option FetchClient :=
  if s.refreshes[r]? = some .parsing then
    some { s.settle r (.settled (some data.accessToken)) with tokens := .setTokens data }
  else none

/-- The `fetch` of a refresh throws, or its body is no JSON. -/
def refreshRejects (s : FetchClient) (r : Nat) : Option FetchClient :=
  if (s.refreshes[r]?).any Refresh.pending then some (s.settle r (.settled none)) else none

/-! ## Runs -/

inductive Event
  | request (o : Options)
  | respond (call status : Nat)
  | reject (call : Nat)
  | release (call : Nat)
  | resume (call : Nat)
  | refreshResponds (refresh : Nat) (ok : Bool)
  | refreshParsed (refresh : Nat) (data : AuthResponse)
  | refreshRejects (refresh : Nat)
  /-- A login, a logout, another tab or the clock changes the cookies. -/
  | cookies (tokens : Tokens)

def step (defaultHeaders : Headers) (s : FetchClient) : Event → Option FetchClient
  | .request o => some (request defaultHeaders s o)
  | .respond i status => (s.calls[i]?).bind fun c => s.respond i c status
  | .reject i => (s.calls[i]?).bind fun c => s.reject i c
  | .release i => (s.calls[i]?).bind fun c => s.release i c
  | .resume i => (s.calls[i]?).bind fun c => s.resume i c
  | .refreshResponds r ok => s.refreshResponds r ok
  | .refreshParsed r data => s.refreshParsed r data
  | .refreshRejects r => s.refreshRejects r
  | .cookies tokens => some { s with tokens }

end FetchClient
end Web
end Code2Cloud
