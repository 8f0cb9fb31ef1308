import Code2Cloud.Web.FetchClient

/-!
# One refresh at a time

However many calls find their token expired, they share one refresh, and each is sent again with
the token of the refresh it awaited.
-/

namespace Code2Cloud
namespace Web
namespace FetchClient

variable {defaultHeaders : Headers} {s s' : FetchClient} {i r : Nat} {c c' : Call}

/-- `/auth/refresh` is outstanding. -/
def Outstanding (s : FetchClient) (r : Nat) : Prop := (s.refreshes[r]?).any Refresh.pending = true

/-- What was fetched for a call: its own request and, where it has awaited a refresh, the same with
the token of that refresh. -/
def Call.Fetched (refreshes : List Refresh) (c : Call) : Prop :=
  c.fetches = [c.fetch c.headers] ∨
    ∃ r token, c.awaited = some r ∧ refreshes[r]? = some (.settled (some token)) ∧
      c.fetches = [c.fetch c.headers, c.fetch (c.withToken token)]

structure SingleFlight (s : FetchClient) : Prop where
  one : ∀ r r', s.Outstanding r → s.Outstanding r' → r = r'
  shared : ∀ r, s.Outstanding r → s.refreshPromise = some r
  fetched : ∀ c ∈ s.calls, c.Fetched s.refreshes
  /-- Where a call is about to clear the promise, it is the one that the call has set. -/
  own : ∀ c ∈ s.calls, ∀ r, c.phase = .refreshing r → s.refreshPromise = some r

/-! ## What holds in every state -/

/-- The call has not been sent again. -/
def Phase.first : Phase → Bool
  | sent | refreshing _ | waiting _ => true
  | resent _ | ended _ => false

/-- The refresh that a phase names. -/
def Phase.refresh? : Phase → Option Nat
  | refreshing r | waiting r | resent r => some r
  | sent | ended _ => none

structure Call.Sound (refreshes : List Refresh) (c : Call) : Prop where
  awaited : ∀ r, c.phase.refresh? = some r → c.awaited = some r
  once : c.phase.first = true → c.fetches = [c.fetch c.headers]
  fetched : c.Fetched refreshes

structure Sound (s : FetchClient) : Prop where
  shared : ∀ r, s.Outstanding r → s.refreshPromise = some r
  own : ∀ (i : Nat) (c : Call) (r : Nat), s.calls[i]? = some c → c.phase = .refreshing r →
    s.refreshPromise = some r
  /-- Only one call has set the promise. -/
  setter : ∀ (i j : Nat) (c c' : Call) (r : Nat), s.calls[i]? = some c → s.calls[j]? = some c' →
    c.phase = .refreshing r → c'.phase = .refreshing r → i = j
  calls : ∀ (i : Nat) (c : Call), s.calls[i]? = some c → c.Sound s.refreshes

theorem Sound.singleFlight (hs : Sound s) : SingleFlight s where
  one r r' hr hr' := Option.some.inj ((hs.shared r hr).symm.trans (hs.shared r' hr'))
  shared := hs.shared
  fetched c hc := by
    obtain ⟨i, hi⟩ := List.mem_iff_getElem?.mp hc
    exact (hs.calls i c hi).fetched
  own c hc r hr := by
    obtain ⟨i, hi⟩ := List.mem_iff_getElem?.mp hc
    exact hs.own i c r hi hr

theorem sound_start (tokens : Tokens) : Sound { tokens } := by
  constructor
  · exact fun r hr => absurd hr (by simp [Outstanding])
  all_goals
    intro i
    intros
    simp at *

theorem Sound.of_eq (hs : Sound s) (hpromise : s'.refreshPromise = s.refreshPromise)
    (hrefreshes : s'.refreshes = s.refreshes) (hcalls : s'.calls = s.calls) : Sound s' := by
  constructor
  · intro r hr
    rw [Outstanding, hrefreshes] at hr
    rw [hpromise]
    exact hs.shared r hr
  · rw [hcalls, hpromise]
    exact hs.own
  · rw [hcalls]
    exact hs.setter
  · rw [hcalls, hrefreshes]
    exact hs.calls

/-! ## One call goes on -/

/-- The calls after one of them went on. -/
theorem getElem?_set_eq_some {l : List Call} {j : Nat} {x : Call}
    (h : (l.set i c')[j]? = some x) : j = i ∧ x = c' ∨ j ≠ i ∧ l[j]? = some x := by
  rw [List.getElem?_set] at h
  by_cases hij : i = j
  · rw [if_pos hij] at h
    split at h
    · exact Or.inl ⟨hij.symm, (Option.some.inj h).symm⟩
    · cases h
  · rw [if_neg hij] at h
    exact Or.inr ⟨Ne.symm hij, h⟩

theorem sound_setCall (hs : Sound s) (hc : s.calls[i]? = some c) (hc' : c'.Sound s.refreshes)
    (hphase : ∀ r, c'.phase = .refreshing r → c.phase = .refreshing r) :
    Sound (s.setCall i c') := by
  have hold {j : Nat} {x : Call} {r : Nat} (hx : (s.calls.set i c')[j]? = some x)
      (hr : x.phase = .refreshing r) :
      ∃ y, s.calls[j]? = some y ∧ y.phase = .refreshing r := by
    rcases getElem?_set_eq_some hx with ⟨rfl, rfl⟩ | ⟨_, hx⟩
    · exact ⟨c, hc, hphase r hr⟩
    · exact ⟨x, hx, hr⟩
  constructor
  · exact hs.shared
  · intro j x r hx hr
    obtain ⟨y, hy, hr⟩ := hold hx hr
    exact hs.own j y r hy hr
  · intro j k x x' r hx hx' hr hr'
    obtain ⟨y, hy, hr⟩ := hold hx hr
    obtain ⟨y', hy', hr'⟩ := hold hx' hr'
    exact hs.setter j k y y' r hy hy' hr hr'
  · intro j x hx
    rcases getElem?_set_eq_some hx with ⟨_, rfl⟩ | ⟨_, hx⟩
    · exact hc'
    · exact hs.calls j x hx

theorem Call.Sound.ended {refreshes : List Refresh} (hc : c.Sound refreshes) (o : Outcome) :
    ({ c with phase := .ended o } : Call).Sound refreshes where
  awaited r hr := by cases hr
  once h := by cases h
  fetched := hc.fetched

theorem sound_ended (hs : Sound s) (hc : s.calls[i]? = some c) (o : Outcome) :
    Sound (s.setCall i { c with phase := .ended o }) :=
  sound_setCall hs hc ((hs.calls i c hc).ended o) fun r hr => by cases hr

theorem Call.Sound.await {refreshes : List Refresh} (hc : c.Sound refreshes)
    (hfirst : c.phase.first = true) {p : Phase} (hp : p.refresh? = some r) :
    ({ c with phase := p, awaited := some r } : Call).Sound refreshes where
  awaited r' hr' := by
    cases hp.symm.trans hr'
    rfl
  once _ := hc.once hfirst
  fetched := Or.inl (hc.once hfirst)

/-! ## Refreshes -/

theorem Call.Sound.mono {refreshes refreshes' : List Refresh} (hc : c.Sound refreshes)
    (hmono : ∀ (r : Nat) (token : Option String), refreshes[r]? = some (.settled token) →
      refreshes'[r]? = some (.settled token)) : c.Sound refreshes' where
  awaited := hc.awaited
  once := hc.once
  fetched := by
    rcases hc.fetched with h | ⟨r, token, hawaited, hr, hfetches⟩
    · exact Or.inl h
    · exact Or.inr ⟨r, token, hawaited, hmono r _ hr, hfetches⟩

/-- No refresh is outstanding and no call is about to clear the promise where there is none. -/
theorem sound_refreshTokens (hs : Sound s) (hc : s.calls[i]? = some c) (hsent : c.phase = .sent) :
    Sound (s.refreshTokens i c) := by
  have hfirst : c.phase.first = true := by
    rw [hsent]
    rfl
  unfold refreshTokens
  cases hpromise : s.refreshPromise with
  | some r =>
    exact sound_setCall hs hc ((hs.calls i c hc).await hfirst rfl) fun r hr => by cases hr
  | none =>
    have hnone : ∀ r, ¬s.Outstanding r := fun r hr => by
      cases hpromise.symm.trans (hs.shared r hr)
    have hnobody (j : Nat) (x : Call) (r : Nat) (hx : s.calls[j]? = some x) :
        x.phase ≠ .refreshing r := fun hr => by
      cases hpromise.symm.trans (hs.own j x r hx hr)
    have hsetter {j : Nat} {x : Call} {r : Nat}
        (hx : (s.calls.set i { c with
          phase := .refreshing s.refreshes.length
          awaited := some s.refreshes.length })[j]? = some x)
        (hr : x.phase = .refreshing r) : j = i ∧ r = s.refreshes.length := by
      rcases getElem?_set_eq_some hx with ⟨rfl, rfl⟩ | ⟨_, hx⟩
      · cases hr
        exact ⟨rfl, rfl⟩
      · exact absurd hr (hnobody j x r hx)
    constructor
    · intro r hr
      by_cases hlt : r < s.refreshes.length
      · refine absurd ?_ (hnone r)
        rwa [Outstanding, List.getElem?_append_left hlt] at hr
      · have hle : r ≤ s.refreshes.length := by
          refine Nat.le_of_not_lt fun hgt => ?_
          rw [Outstanding, List.getElem?_eq_none (by simp; omega)] at hr
          cases hr
        exact congrArg some (Nat.le_antisymm (Nat.le_of_not_lt hlt) hle)
    · intro j x r hx hr
      rw [(hsetter hx hr).2]
    · intro j k x x' r hx hx' hr hr'
      exact (hsetter hx hr).1.trans (hsetter hx' hr').1.symm
    · intro j x hx
      have hmono (r : Nat) (token : Option String)
          (hr : s.refreshes[r]? = some (.settled token)) (new : Refresh) :
          (s.refreshes ++ [new])[r]? = some (.settled token) := by
        rw [List.getElem?_append_left (List.getElem?_eq_some_iff.mp hr).1]
        exact hr
      rcases getElem?_set_eq_some hx with ⟨_, rfl⟩ | ⟨_, hx⟩
      · exact ((hs.calls i c hc).await hfirst rfl).mono fun r token hr => hmono r token hr _
      · exact (hs.calls j x hx).mono fun r token hr => hmono r token hr _

/-- A refresh goes on: what was settled stays settled. -/
theorem sound_settle (hs : Sound s) (hr : s.Outstanding r) (x : Refresh) :
    Sound (s.settle r x) := by
  constructor
  · intro r' hr'
    by_cases hne : r = r'
    · exact hne ▸ hs.shared r hr
    · refine hs.shared r' ?_
      rwa [Outstanding, settle, List.getElem?_set_ne hne] at hr'
  · exact hs.own
  · exact hs.setter
  · intro i c hc
    refine (hs.calls i c hc).mono fun r' token hr' => ?_
    have hne : r ≠ r' := by
      rintro rfl
      rw [Outstanding, hr'] at hr
      cases hr
    rw [settle, List.getElem?_set_ne hne]
    exact hr'

/-- The promise is cleared by the call that has set it, so no refresh is outstanding. -/
theorem sound_release (hs : Sound s) (hc : s.calls[i]? = some c) (h : s.release i c = some s') :
    Sound s' := by
  unfold release at h
  split at h
  · rename_i r hphase
    split at h
    · rename_i token hsettled
      cases h
      have hpromise := hs.own i c r hc hphase
      have hothers {j : Nat} {x : Call} {r' : Nat}
          (hx : (s.calls.set i { c with phase := .waiting r })[j]? = some x)
          (hr' : x.phase = .refreshing r') : False := by
        rcases getElem?_set_eq_some hx with ⟨_, rfl⟩ | ⟨hne, hx⟩
        · cases hr'
        · cases hpromise.symm.trans (hs.own j x r' hx hr')
          exact hne (hs.setter j i x c r hx hc hr' hphase)
      constructor
      · intro r' hr'
        cases hpromise.symm.trans (hs.shared r' hr')
        rw [Outstanding] at hr'
        change (s.refreshes[r]?).any _ = true at hr'
        rw [hsettled] at hr'
        cases hr'
      · exact fun j x r' hx hr' => (hothers hx hr').elim
      · exact fun j k x x' r' hx _ hr' _ => (hothers hx hr').elim
      · intro j x hx
        rcases getElem?_set_eq_some hx with ⟨_, rfl⟩ | ⟨_, hx⟩
        · have hold := hs.calls i c hc
          have hfirst : c.phase.first = true := by
            rw [hphase]
            rfl
          refine ⟨fun r' hr' => ?_, fun _ => hold.once hfirst, hold.fetched⟩
          cases hr'
          exact hold.awaited r (by rw [hphase]; rfl)
        · exact hs.calls j x hx
    · cases h
  · cases h

/-- The call is sent again with the token of the refresh it awaited, or is over. -/
theorem sound_resume (hs : Sound s) (hc : s.calls[i]? = some c) (h : s.resume i c = some s') :
    Sound s' := by
  unfold resume at h
  split at h
  · rename_i r hphase
    split at h
    · rename_i token hsettled
      split at h
      · rename_i newToken htoken
        cases h
        have hold := hs.calls i c hc
        have honce : c.fetches = [c.fetch c.headers] := hold.once (by rw [hphase]; rfl)
        have hawaited : c.awaited = some r := hold.awaited r (by rw [hphase]; rfl)
        have hsame : token = some newToken := Option.eq_some_of_filter_eq_some htoken
        refine sound_setCall hs hc ⟨?_, (fun h => by cases h), ?_⟩ fun r' hr' => by cases hr'
        · intro r' hr'
          cases hr'
          exact hawaited
        · refine Or.inr ⟨r, newToken, hawaited, hsame ▸ hsettled, ?_⟩
          change c.fetches ++ _ = _
          rw [honce]
          rfl
      · cases h
        exact (sound_ended hs hc .loggedOut).of_eq rfl rfl rfl
    · cases h
  · cases h

/-! ## Runs -/

theorem sound_request (hs : Sound s) (o : Options) : Sound (request defaultHeaders s o) := by
  have hnew {j : Nat} {x y : Call} (hx : (s.calls ++ [y])[j]? = some x) :
      s.calls[j]? = some x ∨ x = y := by
    by_cases hlt : j < s.calls.length
    · rw [List.getElem?_append_left hlt] at hx
      exact Or.inl hx
    · rw [List.getElem?_append_right (Nat.le_of_not_lt hlt)] at hx
      exact Or.inr (List.mem_singleton.mp (List.mem_of_getElem? hx))
  constructor
  · exact hs.shared
  · intro j x r hx hr
    rcases hnew hx with hx | rfl
    · exact hs.own j x r hx hr
    · cases hr
  · intro j k x x' r hx hx' hr hr'
    rcases hnew hx with hx | rfl
    · rcases hnew hx' with hx' | rfl
      · exact hs.setter j k x x' r hx hx' hr hr'
      · cases hr'
    · cases hr
  · intro j x hx
    rcases hnew hx with hx | rfl
    · exact hs.calls j x hx
    · exact ⟨(fun r hr => by cases hr), fun _ => rfl, Or.inl rfl⟩

theorem sound_respond {status : Nat} (hs : Sound s) (hc : s.calls[i]? = some c)
    (h : s.respond i c status = some s') : Sound s' := by
  unfold respond at h
  split at h
  · rename_i hsent
    split at h
    · cases h
      exact sound_refreshTokens hs hc hsent
    · cases h
      exact sound_ended hs hc _
  · cases h
    exact sound_ended hs hc _
  all_goals cases h

theorem sound_reject (hs : Sound s) (hc : s.calls[i]? = some c) (h : s.reject i c = some s') :
    Sound s' := by
  unfold reject at h
  split at h
  · cases h
    exact sound_ended hs hc _
  · cases h
    exact (sound_ended hs hc _).of_eq rfl rfl rfl
  all_goals cases h

theorem sound_step {e : Event} (hs : Sound s) (hstep : step defaultHeaders s e = some s') :
    Sound s' := by
  cases e with
  | request o =>
    cases hstep
    exact sound_request hs o
  | respond i status =>
    obtain ⟨c, hc, h⟩ := Option.bind_eq_some_iff.mp hstep
    exact sound_respond hs hc h
  | reject i =>
    obtain ⟨c, hc, h⟩ := Option.bind_eq_some_iff.mp hstep
    exact sound_reject hs hc h
  | release i =>
    obtain ⟨c, hc, h⟩ := Option.bind_eq_some_iff.mp hstep
    exact sound_release hs hc h
  | resume i =>
    obtain ⟨c, hc, h⟩ := Option.bind_eq_some_iff.mp hstep
    exact sound_resume hs hc h
  | refreshResponds r ok =>
    rw [step, refreshResponds] at hstep
    split at hstep
    · rename_i hsent
      cases hstep
      exact sound_settle hs (by rw [Outstanding, hsent]; rfl) _
    · cases hstep
  | refreshParsed r data =>
    rw [step, refreshParsed] at hstep
    split at hstep
    · rename_i hparsing
      cases hstep
      have hsettled := sound_settle hs (by rw [Outstanding, hparsing]; rfl)
        (.settled (some data.accessToken))
      exact hsettled.of_eq rfl rfl rfl
    · cases hstep
  | refreshRejects r =>
    rw [step, refreshRejects] at hstep
    split at hstep
    · rename_i hpending
      cases hstep
      exact sound_settle hs hpending _
    · cases hstep
  | cookies tokens =>
    cases hstep
    exact hs.of_eq rfl rfl rfl

/-- In every state of a client there is one refresh at most, all that await one share it, and none
is sent again with another token. -/
theorem singleFlight_of_reaches {tokens : Tokens}
    (h : Reaches (step defaultHeaders) (fun _ _ => True) { tokens } s) : SingleFlight s :=
  (h.invariant Sound (sound_start tokens) fun _ _ _ hs _ hstep => sound_step hs hstep).singleFlight

def expired : Tokens where
  accessToken := some "old"
  refreshToken := some "r1"

def listProjects : Options where
  method := .get
  url := "/projects"

/-- Two calls are refused, share a refresh and are sent again. -/
theorem singleFlight_shared : ∃ s : FetchClient, s.refreshes.length = 1 ∧
    s.calls.map (fun c => c.fetches.length) = [2, 2] ∧ SingleFlight s := by
  obtain ⟨s, hs, hend⟩ := Reaches.exists_of_runEvents (step []) (fun _ _ => True)
    { tokens := expired }
    [.request listProjects, .request listProjects, .respond 1 401, .respond 0 401,
      .refreshResponds 0 true, .refreshParsed 0 { accessToken := "new", refreshToken := "r2" },
      .resume 0, .release 1, .resume 1, .respond 0 200]
    (fun s => s.refreshes.length == 1 && s.calls.map (fun c => c.fetches.length) == [2, 2])
    (by decide) (runsUnder_true _ _ _)
  rw [Bool.and_eq_true, beq_iff_eq, beq_iff_eq] at hend
  exact ⟨s, hend.1, hend.2, singleFlight_of_reaches hs⟩

end FetchClient
end Web
end Code2Cloud
