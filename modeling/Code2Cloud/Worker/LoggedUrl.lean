import Code2Cloud.Worker.Clone

/-!
# The URL in the log of a clone

What `sanitizeURL` does to a URL with its credentials and to one without, and to the URL with
which `git clone` is called.
-/

namespace Code2Cloud
namespace Worker
namespace Cloner

open Search

/-- `scheme://[userinfo@]host[/path]`, in which the last `@` before a `/` ends the userinfo. -/
structure Url where
  scheme : List Char
  userinfo : Option (List Char)
  host : List Char
  /-- With the `/` it begins with. -/
  path : List Char
  scheme_plain : ∀ c ∈ scheme, c ≠ ':' ∧ c ≠ '@' ∧ c ≠ '/'
  userinfo_plain : ∀ info ∈ userinfo, '/' ∉ info
  host_plain : '/' ∉ host ∧ '@' ∉ host
  path_slash : path = [] ∨ path.head? = some '/'

namespace Url

/-- What stands behind the scheme. -/
def rest (u : Url) : List Char :=
  (match u.userinfo with
    | none => u.host
    | some info => info ++ '@' :: u.host) ++ u.path

def text (u : Url) : String := String.ofList (u.scheme ++ ("://".toList ++ u.rest))

def withoutUserinfo (u : Url) : Url :=
  { u with userinfo := none, userinfo_plain := fun _ h => absurd h (Option.not_mem_none _) }

/-- The first `@` ends the userinfo: it contains none, and where it is missing, the path contains
none. -/
def EndsAtFirst (u : Url) : Prop :=
  match u.userinfo with
  | none => '@' ∉ u.path
  | some info => '@' ∉ info

instance (u : Url) : Decidable u.EndsAtFirst := by
  unfold EndsAtFirst
  split <;> infer_instance

end Url

/-- Behind `://` there is one `@` at most, and none before. -/
def Settled (url : String) : Prop :=
  ∀ n, indexOf "://".toList url.toList = some n →
    '@' ∉ url.toList.take n ∧ (url.toList.drop n).count '@' ≤ 1

/-! ## Behind the first `@` -/

def behindAt (s : List Char) : List Char :=
  match indexOf ['@'] s with
  | some idx => s.drop (idx + 1)
  | none => s

theorem behindAt_of_notMem {s : List Char} (h : '@' ∉ s) : behindAt s = s := by
  rw [behindAt, indexOf_singleton_eq_none_iff.mpr h]

theorem behindAt_append {before : List Char} (h : '@' ∉ before) (behind : List Char) :
    behindAt (before ++ '@' :: behind) = behind := by
  have hindex : indexOf ['@'] (before ++ '@' :: behind) = some before.length :=
    indexOf_append h behind []
  rw [behindAt, hindex]
  simp only
  rw [← List.drop_drop, List.drop_left]
  rfl

/-- The part that stays is what stands behind an `@` only if that is the first. -/
theorem behindAt_append_iff (before behind : List Char) :
    behindAt (before ++ '@' :: behind) = behind ↔ '@' ∉ before := by
  refine ⟨fun h hmem => ?_, fun h => behindAt_append h behind⟩
  obtain ⟨first, more, rfl, hfirst⟩ := List.eq_append_cons_of_mem hmem
  rw [List.append_assoc, List.cons_append, behindAt_append hfirst] at h
  have hlength := congrArg List.length h
  rw [List.length_append, List.length_cons] at hlength
  omega

theorem behindAt_behindAt_iff (s : List Char) :
    behindAt (behindAt s) = behindAt s ↔ s.count '@' ≤ 1 := by
  by_cases hs : '@' ∈ s
  · obtain ⟨before, behind, rfl, hbefore⟩ := List.eq_append_cons_of_mem hs
    have hcount : (before ++ '@' :: behind).count '@' ≤ 1 ↔ '@' ∉ behind := by
      rw [List.count_append, List.count_eq_zero_of_not_mem hbefore, List.count_cons_self,
        ← List.count_eq_zero]
      omega
    rw [behindAt_append hbefore, hcount]
    refine ⟨fun h hmem => ?_, behindAt_of_notMem⟩
    obtain ⟨first, more, rfl, hfirst⟩ := List.eq_append_cons_of_mem hmem
    rw [behindAt_append hfirst] at h
    have hlength := congrArg List.length h
    rw [List.length_append, List.length_cons] at hlength
    omega
  · rw [behindAt_of_notMem hs, behindAt_of_notMem hs, List.count_eq_zero_of_not_mem hs]
    exact iff_of_true rfl (Nat.zero_le 1)

/-! ## Sanitising -/

theorem sanitizeURL_of_notMem {url : String} (h : '@' ∉ url.toList) : sanitizeURL url = url := by
  rw [sanitizeURL, indexOf_singleton_eq_none_iff.mpr h]

theorem sanitizeURL_of_no_scheme {url : String} (h : indexOf "://".toList url.toList = none) :
    sanitizeURL url = url := by
  unfold sanitizeURL
  rw [h]
  split <;> rfl

/-- Where no `@` comes before `://`, what stands between `://` and the first `@` is cut out. -/
theorem toList_sanitizeURL {url : String} {scheme rest : List Char}
    (hurl : url.toList = scheme ++ ("://".toList ++ rest)) (hat : '@' ∉ scheme)
    (hscheme : indexOf "://".toList url.toList = some scheme.length) :
    (sanitizeURL url).toList = scheme ++ ("://".toList ++ behindAt rest) := by
  by_cases hrest : '@' ∈ rest
  · obtain ⟨before, behind, rfl, hbefore⟩ := List.eq_append_cons_of_mem hrest
    have hlist : url.toList = (scheme ++ ("://".toList ++ before)) ++ '@' :: behind := by
      rw [hurl]
      simp only [List.append_assoc]
    have hfirst : '@' ∉ scheme ++ ("://".toList ++ before) := by
      rw [List.mem_append, List.mem_append, not_or, not_or]
      exact ⟨hat, by decide, hbefore⟩
    have hindex : indexOf ['@'] url.toList =
        some (scheme ++ ("://".toList ++ before)).length := by
      rw [hlist]
      exact indexOf_append hfirst behind []
    have htake : url.toList.take (scheme.length + 3) = scheme ++ "://".toList := by
      rw [hurl, ← List.append_assoc]
      exact List.take_left' (by simp)
    have hdrop : url.toList.drop ((scheme ++ ("://".toList ++ before)).length + 1) = behind := by
      rw [hlist, ← List.drop_drop, List.drop_left]
      rfl
    rw [behindAt_append hbefore, sanitizeURL, hindex, hscheme]
    simp only
    rw [String.toList_ofList, htake, hdrop, List.append_assoc]
  · have hnone : '@' ∉ url.toList := by
      rw [hurl, List.mem_append, List.mem_append, not_or, not_or]
      exact ⟨hat, by decide, hrest⟩
    rw [sanitizeURL_of_notMem hnone, behindAt_of_notMem hrest, hurl]

theorem indexOf_scheme {scheme : List Char} (h : ':' ∉ scheme) (rest : List Char) :
    indexOf "://".toList (scheme ++ ("://".toList ++ rest)) = some scheme.length :=
  indexOf_append h rest "//".toList

namespace Url

theorem colon_notMem (u : Url) : ':' ∉ u.scheme := fun h => (u.scheme_plain _ h).1 rfl

theorem at_notMem (u : Url) : '@' ∉ u.scheme := fun h => (u.scheme_plain _ h).2.1 rfl

theorem toList_text (u : Url) : u.text.toList = u.scheme ++ ("://".toList ++ u.rest) :=
  String.toList_ofList

theorem toList_sanitizeURL_text (u : Url) :
    (sanitizeURL u.text).toList = u.scheme ++ ("://".toList ++ behindAt u.rest) := by
  refine toList_sanitizeURL u.toList_text u.at_notMem ?_
  rw [u.toList_text]
  exact indexOf_scheme u.colon_notMem u.rest

theorem sanitizeURL_text_eq_iff (u v : Url) (hscheme : v.scheme = u.scheme) :
    sanitizeURL u.text = v.text ↔ behindAt u.rest = v.rest := by
  rw [← String.toList_inj, u.toList_sanitizeURL_text, v.toList_text, hscheme,
    List.append_cancel_left_eq, List.append_cancel_left_eq]

theorem sanitizeURL_text_iff (u : Url) :
    sanitizeURL u.text = u.withoutUserinfo.text ↔ u.EndsAtFirst := by
  rw [sanitizeURL_text_eq_iff u u.withoutUserinfo rfl]
  unfold EndsAtFirst rest withoutUserinfo
  cases u.userinfo with
  | some info =>
    simp only [List.append_assoc, List.cons_append]
    exact behindAt_append_iff info _
  | none =>
    simp only
    refine ⟨fun h hmem => ?_, fun h => behindAt_of_notMem ?_⟩
    · obtain ⟨before, behind, hpath, hbefore⟩ := List.eq_append_cons_of_mem hmem
      have hfirst : '@' ∉ u.host ++ before := by
        rw [List.mem_append, not_or]
        exact ⟨u.host_plain.2, hbefore⟩
      rw [hpath, ← List.append_assoc, behindAt_append hfirst] at h
      have hlength := congrArg List.length h
      rw [List.length_append, List.length_cons] at hlength
      omega
    · rw [List.mem_append, not_or]
      exact ⟨u.host_plain.2, h⟩

end Url

/-! ## With the token -/

theorem toList_buildAuthURL {u : Url} (hhttps : u.scheme = "https".toList) {token : String}
    (htoken : token ≠ "") : (buildAuthURL u.text token).toList =
      "https".toList ++ ("://".toList ++
        (("x-access-token:".toList ++ token.toList) ++ '@' :: u.rest)) := by
  have htext : u.text.toList = "https://".toList ++ u.rest := by
    rw [u.toList_text, hhttps]
    rfl
  have hempty : token.isEmpty = false := by
    rw [← Bool.not_eq_true, String.isEmpty_iff]
    exact htoken
  have hbegins : "https://".toList.isPrefixOf u.text.toList = true := by
    rw [htext, List.isPrefixOf_iff_prefix]
    exact List.prefix_append _ _
  have hdrop : u.text.toList.drop 8 = u.rest := by
    rw [htext]
    exact List.drop_left' rfl
  rw [buildAuthURL, hempty, hbegins, hdrop]
  simp

/-- The token leaves the log, and the URL comes back, unless the token contains an `@`. -/
theorem sanitizeURL_buildAuthURL_iff {u : Url} (hhttps : u.scheme = "https".toList) {token : String}
    (htoken : token ≠ "") :
    sanitizeURL (buildAuthURL u.text token) = u.text ↔ '@' ∉ token.toList := by
  have hauth := toList_buildAuthURL hhttps htoken
  have hsanitized := toList_sanitizeURL hauth (by decide) (by
    rw [hauth]
    exact indexOf_scheme (by decide) _)
  rw [← String.toList_inj, hsanitized, u.toList_text, hhttps, List.append_cancel_left_eq,
    List.append_cancel_left_eq, behindAt_append_iff, List.mem_append, not_or]
  exact and_iff_right (by decide)

/-! ## Sanitising twice -/

/-- An `@` before `://` is still there afterwards, and the text grows each time. -/
theorem sanitizeURL_twice_ne {url : String} {scheme rest : List Char}
    (hurl : url.toList = scheme ++ ("://".toList ++ rest)) (hat : '@' ∈ scheme)
    (hscheme : indexOf "://".toList url.toList = some scheme.length) :
    sanitizeURL (sanitizeURL url) ≠ sanitizeURL url := by
  obtain ⟨before, behind, rfl, hbefore⟩ := List.eq_append_cons_of_mem hat
  have hcut {s : String} {rest : List Char}
      (hs : s.toList = before ++ '@' :: behind ++ ("://".toList ++ rest))
      (hindex : indexOf "://".toList s.toList = some (before ++ '@' :: behind).length) :
      (sanitizeURL s).toList =
        before ++ '@' :: behind ++ ("://".toList ++ (behind ++ ("://".toList ++ rest))) := by
    have hat : indexOf ['@'] s.toList = some before.length := by
      rw [hs, List.append_assoc]
      exact indexOf_append hbefore _ []
    have htake : s.toList.take ((before ++ '@' :: behind).length + 3) =
        before ++ '@' :: behind ++ "://".toList := by
      rw [hs, ← List.append_assoc]
      exact List.take_left' (by simp; omega)
    have hdrop : s.toList.drop (before.length + 1) = behind ++ ("://".toList ++ rest) := by
      rw [hs, List.append_assoc, ← List.drop_drop, List.drop_left]
      rfl
    rw [sanitizeURL, hat, hindex]
    simp only
    rw [String.toList_ofList, htake, hdrop, List.append_assoc]
  have honce := hcut hurl hscheme
  rw [hurl] at hscheme
  have htwice := hcut honce (by
    rw [honce]
    exact indexOf_append_congr _ hscheme)
  intro heq
  rw [heq, honce] at htwice
  have hlength := congrArg List.length htwice
  simp only [List.length_append, List.length_cons] at hlength
  have hproto : "://".toList.length = 3 := by decide
  omega

theorem sanitizeURL_twice_iff (url : String) :
    sanitizeURL (sanitizeURL url) = sanitizeURL url ↔ Settled url := by
  unfold Settled
  cases hscheme : indexOf "://".toList url.toList with
  | none =>
    rw [sanitizeURL_of_no_scheme hscheme]
    refine iff_of_true (sanitizeURL_of_no_scheme hscheme) fun n h => ?_
    exact absurd h (Option.some_ne_none n).symm
  | some n =>
    obtain ⟨rest, hurl, hlength⟩ := exists_of_indexOf hscheme
    generalize htake : url.toList.take n = scheme at hurl hlength
    subst hlength
    have hdrop : url.toList.drop scheme.length = "://".toList ++ rest := by
      rw [hurl, List.drop_left]
    have hcount : ("://".toList ++ rest).count '@' = rest.count '@' := by
      rw [List.count_append, List.count_eq_zero_of_not_mem (by decide), Nat.zero_add]
    have hsettled : (∀ m, some scheme.length = some m →
        '@' ∉ url.toList.take m ∧ (url.toList.drop m).count '@' ≤ 1) ↔
        '@' ∉ scheme ∧ rest.count '@' ≤ 1 := by
      constructor
      · intro h
        have := h _ rfl
        rwa [htake, hdrop, hcount] at this
      · rintro h m ⟨⟩
        rwa [htake, hdrop, hcount]
    rw [hsettled]
    by_cases hat : '@' ∈ scheme
    · exact iff_of_false (sanitizeURL_twice_ne hurl hat hscheme) fun h => h.1 hat
    · have honce := toList_sanitizeURL hurl hat hscheme
      rw [hurl] at hscheme
      have htwice := toList_sanitizeURL honce hat (by
        rw [honce]
        exact indexOf_append_congr _ hscheme)
      rw [← String.toList_inj, htwice, honce, List.append_cancel_left_eq,
        List.append_cancel_left_eq, behindAt_behindAt_iff, and_iff_right hat]

/-! ## What reaches the log -/

/-- The credentials leave a URL and nothing else does, they leave a URL they were just written
into, and sanitising again changes nothing. -/
structure Sanitizes (u v : Url) (token url : String) : Prop where
  userinfo : sanitizeURL u.text = u.withoutUserinfo.text
  token : sanitizeURL (buildAuthURL v.text token) = v.text
  twice : sanitizeURL (sanitizeURL url) = sanitizeURL url

/-- Each of the three, exactly when the first `@` of the text is the one that ends the
credentials. -/
theorem sanitizes_iff (u v : Url) (token url : String) (hhttps : v.scheme = "https".toList)
    (htoken : token ≠ "") :
    (sanitizeURL u.text = u.withoutUserinfo.text ↔ u.EndsAtFirst) ∧
      (sanitizeURL (buildAuthURL v.text token) = v.text ↔ '@' ∉ token.toList) ∧
      (sanitizeURL (sanitizeURL url) = sanitizeURL url ↔ Settled url) ∧
      (Sanitizes u v token url ↔ u.EndsAtFirst ∧ '@' ∉ token.toList ∧ Settled url) := by
  have huserinfo := u.sanitizeURL_text_iff
  have hbuilt := sanitizeURL_buildAuthURL_iff hhttps htoken
  have htwice := sanitizeURL_twice_iff url
  refine ⟨huserinfo, hbuilt, htwice, fun h => ?_, fun h => ?_⟩
  · exact ⟨huserinfo.mp h.userinfo, hbuilt.mp h.token, htwice.mp h.twice⟩
  · exact ⟨huserinfo.mpr h.1, hbuilt.mpr h.2.1, htwice.mpr h.2.2⟩

theorem https_plain : ∀ c ∈ "https".toList, c ≠ ':' ∧ c ≠ '@' ∧ c ≠ '/' := by
  change ∀ c ∈ ['h', 't', 't', 'p', 's'], c ≠ ':' ∧ c ≠ '@' ∧ c ≠ '/'
  simp

def shopUrl : Url where
  scheme := "https".toList
  userinfo := none
  host := "github.com".toList
  path := "/acme/shop.git".toList
  scheme_plain := https_plain
  userinfo_plain := fun _ h => absurd h (Option.not_mem_none _)
  host_plain := by decide
  path_slash := by decide

/-- A repository in a directory whose name begins with an `@`. -/
def scopedUrl : Url where
  scheme := "https".toList
  userinfo := none
  host := "github.com".toList
  path := "/@acme/shop.git".toList
  scheme_plain := https_plain
  userinfo_plain := fun _ h => absurd h (Option.not_mem_none _)
  host_plain := by decide
  path_slash := by decide

example : sanitizeURL scopedUrl.text = "https://acme/shop.git" := by decide

theorem sanitizes_shop : Sanitizes shopUrl shopUrl "ghs_1" "https://me@github.com/acme/shop" := by
  refine (sanitizes_iff shopUrl shopUrl "ghs_1" _ rfl (by decide)).2.2.2.mpr
    ⟨by decide, by decide, ?_⟩
  intro n hn
  have hscheme : indexOf "://".toList "https://me@github.com/acme/shop".toList = some 5 := by decide
  cases hscheme.symm.trans hn
  decide

theorem not_sanitizes :
    ¬∀ (u v : Url) (token url : String), v.scheme = "https".toList → v.userinfo = none →
      token ≠ "" → Sanitizes u v token url := by
  intro h
  have huserinfo := (h scopedUrl shopUrl "ghs_1" "" rfl rfl (by decide)).userinfo
  exact absurd huserinfo (by decide)

end Cloner
end Worker
end Code2Cloud
