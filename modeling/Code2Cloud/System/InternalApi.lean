import Code2Cloud.Worker.ApiClient
import Code2Cloud.Worker.Builder

/-!
# The worker's calls at the API

What the handlers of `InternalController` get for each method of the worker's client.
-/

namespace Code2Cloud
namespace System

open Api HttpRequest InternalController Worker Client

/-- What a saved line is to the API. -/
def logged (x : SaveLogEntry) : LogEntryDto where
  source := x.source
  message := GoString.text x.message
  timestamp := if x.timestamp.isEmpty then none else some (GoString.text x.timestamp)

/-- What a call means to the API. -/
def asks : Client.Call → Handler
  | .updateDeploymentStatus id status => .updateDeploymentStatus id.val { status }
  | .updateDeploymentWithImage id status imageName =>
    .updateDeploymentStatus id.val { status, containerImage := GoString.text imageName }
  | .updateDeploymentWithURL id status url =>
    .updateDeploymentStatus id.val { status, deploymentUrl := GoString.text url }
  | .failDeployment id _ => .updateDeploymentStatus id.val { status := .failed }
  | .getExpiredDeployments => .getExpiredDeployments
  | .cleanupDeployment id => .deleteDeploymentResources id.val
  | .getPendingDomains => .getPendingDomains
  | .updateDomainStatus id status errorMsg =>
    .updateDomainStatus id.val status (GoString.text errorMsg)
  | .getInstallationToken installationID => .getInstallationToken (toString installationID)
  | .saveLogs id source messages now | .saveLogsRaw id source messages now =>
    .createLogs id.val ((logEntries source messages now).map logged)
  | .triggerLogCleanup => .cleanupLogs
  | .notifySuccess id projectName url _ =>
    .sendDeploymentNotification
      { deploymentId := id.val, status := .ready, message := none
        projectName := GoString.text projectName, deploymentUrl := GoString.text url }
  | .notifyFailure id projectName errorMsg =>
    .sendDeploymentNotification
      { deploymentId := id.val, status := .failed, message := GoString.text errorMsg
        projectName := GoString.text projectName, deploymentUrl := none }
  | .getProjectSettings id => .getSettingsByProject id.val
  | .updateProjectStatus id status => .updateProjectStatus id.val status

/-! ## Bodies -/

theorem plain_statusUpdate (u : DeploymentStatusUpdate) : PlainJson 1 u.json := by
  obtain ⟨status, containerImage, deploymentURL⟩ := u
  cases containerImage <;> cases deploymentURL <;>
    simp [DeploymentStatusUpdate.json, omitEmpty, jsonText, PlainJson, isOwnName, inherited]

theorem plain_logEntry (x : SaveLogEntry) : PlainJson 1 x.json := by
  obtain ⟨source, message, timestamp⟩ := x
  by_cases htimestamp : timestamp.isEmpty <;>
    simp [SaveLogEntry.json, omitEmpty, jsonText, htimestamp, PlainJson, isOwnName, inherited]

theorem plain_notification (n : DeploymentNotification) : PlainJson 1 n.json := by
  obtain ⟨id, status, projectName, deploymentURL, message⟩ := n
  cases deploymentURL <;> cases message <;>
    simp [DeploymentNotification.json, omitEmpty, jsonText, PlainJson, isOwnName, inherited]

/-! ## Paths -/

theorem pathOf_append (ss ss' : List String) : pathOf (ss ++ ss') = pathOf ss ++ pathOf ss' :=
  List.flatMap_append

theorem path_id {before behind : String} (front back : List String)
    (hbefore : before.toList = pathOf front ++ ['/']) (hbehind : behind.toList = pathOf back)
    (id : PathId) : (before ++ id.val ++ behind).toList = pathOf (front ++ id.val :: back) := by
  rw [String.toList_append, String.toList_append, hbefore, hbehind, pathOf_append]
  simp [pathOf]

theorem matchPath_lits (back : List String) : matchPath (back.map .lit) back = some [] := by
  induction back with
  | nil => rfl
  | cons s back ih => simpa [matchPath] using ih

/-- The route's pattern has one parameter, the identifier. -/
theorem matchPath_id (front back : List String) (id : String) :
    matchPath (front.map .lit ++ .param :: back.map .lit) (front ++ id :: back) = some [id] := by
  induction front with
  | nil => simp [matchPath, matchPath_lits]
  | cons s front ih => simpa [matchPath] using ih

/-! ## Serving -/

/-- What comes of a request with the given handler: the body may be too large, or the key wrong. -/
def Answers (r : HttpRequest) (handler : Handler) : Prop :=
  ∀ (nest : Nest) (valid : Option String), nest.serve routes (canActivate valid) r =
    if r.tooLarge then .error 413
    else if canActivate valid r then .ok (some handler)
    else .error 401

/-- The request finds its route, which takes the body. -/
theorem answers_of_route {route : Route Handler} (hroute : route ∈ routes) {apiKey : ApiKey}
    {path : String} {segments params : List String} {body : Option Json} {handler : Handler}
    (hpath : path.toList = pathOf segments) (hne : segments ≠ [])
    (hsegments : ∀ s ∈ segments, isPlainSegment s = true)
    (hmatch : matchPath route.pattern segments = some params)
    (hbody : body = none ∨ ∃ depth ms, body = some (.obj ms) ∧ PlainJson depth (.obj ms))
    (hgiven : route.body.isSome = true → body.isSome = true) (hadmits : route.admits body = true)
    (hhandle : route.handle params body = some handler) :
    Answers (doRequest apiKey route.method path body) handler := by
  intro nest valid
  have hplain : (doRequest apiKey route.method path body).Plain segments body := by
    refine ⟨rfl, hpath, hne, hsegments, ?_⟩
    rcases hbody with rfl | ⟨depth, ms, rfl, hms⟩
    · exact .inl ⟨rfl, rfl⟩
    · exact .inr ⟨marshal (.obj ms), .obj ms, rfl, rfl, marshalEscaping, depth, ms, rfl, hms, rfl⟩
  by_cases hlarge : (doRequest apiKey route.method path body).tooLarge = true
  · rw [if_pos hlarge, nest.serve_large _ _ _ hplain.isJson hlarge]
  · rw [if_neg hlarge, nest.serve_plain _ _ _ segments body route params hplain
      (Bool.not_eq_true _ ▸ hlarge) (findRoute_of_match routes_apart hroute hmatch) hgiven, hadmits,
      hhandle]
    rfl

theorem answers_of_body (route : Route Handler) (hroute : route ∈ routes) {apiKey : ApiKey}
    {path : String} {segments params : List String} {depth : Nat} {ms : List (String × Json)}
    {handler : Handler} {properties : List Dto.Property} (hpath : path.toList = pathOf segments)
    (hne : segments ≠ []) (hsegments : ∀ s ∈ segments, isPlainSegment s = true)
    (hmatch : matchPath route.pattern segments = some params) (hms : PlainJson depth (.obj ms))
    (hproperties : route.body = some properties)
    (haccepts : Dto.accepts properties (.obj ms) = true)
    (hhandle : route.handle params (some (.obj ms)) = some handler) :
    Answers (doRequest apiKey route.method path (some (.obj ms))) handler :=
  answers_of_route hroute hpath hne hsegments hmatch (.inr ⟨depth, ms, rfl, hms⟩) (fun _ => rfl)
    (by rw [Route.admits, hproperties, Option.all_some, Option.any_some, haccepts]) hhandle

theorem answers_of_none (route : Route Handler) (hroute : route ∈ routes) {apiKey : ApiKey}
    {path : String} {segments params : List String} {handler : Handler}
    (hpath : path.toList = pathOf segments) (hne : segments ≠ [])
    (hsegments : ∀ s ∈ segments, isPlainSegment s = true)
    (hmatch : matchPath route.pattern segments = some params)
    (hproperties : route.body = none) (hhandle : route.handle params none = some handler) :
    Answers (doRequest apiKey route.method path none) handler :=
  answers_of_route hroute hpath hne hsegments hmatch (.inl rfl)
    (by rw [hproperties]; exact nofun) (by rw [Route.admits, hproperties]; rfl) hhandle

theorem plain_id {front back : List String}
    (h : (front ++ back).all isPlainSegment = true) (id : PathId) :
    ∀ s ∈ front ++ id.val :: back, isPlainSegment s = true := by
  rw [List.all_eq_true] at h
  intro s hs
  rcases List.mem_append.mp hs with hmem | hmem
  · exact h s (List.mem_append_left _ hmem)
  · rcases List.mem_cons.mp hmem with rfl | hmem
    · exact id.property
    · exact h s (List.mem_append_right _ hmem)

/-! ### Each call -/

theorem enumOf_text {α : Type} {values : List α} {text : α → String}
    (hinj : ∀ a ∈ values, ∀ b ∈ values, text a = text b → a = b) {a : α} (ha : a ∈ values) :
    enumOf values text (some (.str (text a))) = some a := by
  rw [enumOf, Dto.textOf, Option.bind_some]
  have hsome : (values.find? fun b => text b == text a).isSome := by
    rw [List.find?_isSome]
    exact ⟨a, ha, beq_self_eq_true _⟩
  obtain ⟨b, hb⟩ := Option.isSome_iff_exists.mp hsome
  have htext : text b = text a := by simpa using List.find?_some hb
  rw [hb, hinj b (List.mem_of_find?_eq_some hb) a ha htext]

theorem enumOf_status (status : DeploymentStatus) :
    enumOf deploymentStatuses (·.text) (some (.str status.text)) = some status :=
  enumOf_text (by decide) (by cases status <;> decide)

theorem enumOf_dnsStatus (status : DomainDnsStatus) :
    enumOf domainDnsStatuses dnsStatusText (some (.str (dnsStatusText status))) = some status :=
  enumOf_text (by decide) (by cases status <;> decide)

theorem enumOf_source (source : Logs.LogSource) :
    enumOf logSources sourceText (some (.str (sourceText source))) = some source :=
  enumOf_text (by decide) (by cases source <;> decide)

theorem accepts_statusUpdate (u : DeploymentStatusUpdate) :
    Dto.accepts updateDeploymentStatusDto u.json = true := by
  obtain ⟨status, containerImage, deploymentURL⟩ := u
  have hstatus : Dto.isEnum (deploymentStatuses.map (·.text)) (.str status.text) = true ∧
      Dto.isNotEmpty (.str status.text) = true := by
    cases status <;> decide
  cases containerImage <;> cases deploymentURL <;>
    simp [DeploymentStatusUpdate.json, Dto.accepts, updateDeploymentStatusDto, omitEmpty, jsonText,
      Dto.get, List.lookup_cons, List.lookup_nil, Dto.Property.holds, Dto.isString, hstatus]

theorem read_statusUpdate (u : DeploymentStatusUpdate) :
    readDeploymentStatus u.json =
      some { status := u.status
             containerImage := u.containerImage.map GoString.text
             deploymentUrl := u.deploymentURL.map GoString.text } := by
  obtain ⟨status, containerImage, deploymentURL⟩ := u
  cases containerImage <;> cases deploymentURL <;>
    simp [DeploymentStatusUpdate.json, readDeploymentStatus, omitEmpty, jsonText, members,
      Dto.get, List.lookup_cons, List.lookup_nil, readOptional, enumOf_status]

theorem isNotEmpty_of_not_blank {msg : GoString} (h : Logs.isBlank (GoString.text msg) = false) :
    Dto.isNotEmpty (.str (GoString.text msg)) = true := by
  rw [Dto.isNotEmpty, Bool.not_eq_true', Bool.eq_false_iff, Ne, String.isEmpty_iff]
  intro hempty
  rw [hempty] at h
  exact absurd h (by decide)

theorem accepts_logEntry {x : SaveLogEntry}
    (hmessage : Dto.isNotEmpty (.str (GoString.text x.message)) = true) :
    Dto.accepts logEntryDto x.json = true := by
  obtain ⟨source, message, timestamp⟩ := x
  have hsource : Dto.isEnum (logSources.map sourceText) (.str (sourceText source)) = true ∧
      Dto.isNotEmpty (.str (sourceText source)) = true := by
    cases source <;> decide
  by_cases htimestamp : timestamp.isEmpty <;>
    simp [SaveLogEntry.json, Dto.accepts, logEntryDto, omitEmpty, jsonText, htimestamp,
      Dto.get, List.lookup_cons, List.lookup_nil, Dto.Property.holds, Dto.isString, hsource,
      hmessage]

/-- The lines that are saved are not blank. -/
theorem accepts_logs (source : Logs.LogSource) (messages : List GoString) (now : GoString) :
    Dto.accepts createLogsDto
      (.obj [("logs", .arr ((logEntries source messages now).map SaveLogEntry.json))]) = true := by
  have hlogs : ((logEntries source messages now).map SaveLogEntry.json).all
      (Dto.accepts logEntryDto) = true := by
    rw [List.all_eq_true]
    intro j hj
    obtain ⟨x, hx, rfl⟩ := List.mem_map.mp hj
    obtain ⟨message, hmessage, rfl⟩ := List.mem_map.mp hx
    have hblank : Logs.isBlank (GoString.text message) = false := by
      simpa using (List.mem_filter.mp hmessage).2
    exact accepts_logEntry (isNotEmpty_of_not_blank hblank)
  simp [Dto.accepts, createLogsDto, Dto.get, List.lookup_cons, List.lookup_nil,
    Dto.Property.holds, Dto.isArrayOf, hlogs]

theorem read_logEntry (x : SaveLogEntry) : readLogEntry x.json = some (logged x) := by
  obtain ⟨source, message, timestamp⟩ := x
  by_cases htimestamp : timestamp.isEmpty <;>
    simp [SaveLogEntry.json, readLogEntry, logged, omitEmpty, jsonText, members, htimestamp,
      Dto.get, List.lookup_cons, List.lookup_nil, Dto.textOf, readOptional, enumOf_source]

theorem read_logEntries (xs : List SaveLogEntry) :
    readLogEntries (xs.map SaveLogEntry.json) = some (xs.map logged) := by
  induction xs with
  | nil => rfl
  | cons x xs ih =>
    rw [List.map_cons, readLogEntries, read_logEntry, Option.bind_some, ih]
    rfl

theorem accepts_notification (n : DeploymentNotification) :
    Dto.accepts deploymentNotificationDto n.json = true := by
  obtain ⟨id, status, projectName, deploymentURL, message⟩ := n
  have hstatus : Dto.isEnum (deploymentStatuses.map (·.text)) (.str status.text) = true ∧
      Dto.isNotEmpty (.str status.text) = true := by
    cases status <;> decide
  have hid : Dto.isNotEmpty (.str id.val) = true := (Bool.and_eq_true_iff.mp id.property).1
  cases deploymentURL <;> cases message <;>
    simp [DeploymentNotification.json, Dto.accepts, deploymentNotificationDto, omitEmpty, jsonText,
      Dto.get, List.lookup_cons, List.lookup_nil, Dto.Property.holds, Dto.isString, hstatus, hid]

theorem read_notification (n : DeploymentNotification) :
    readNotification n.json =
      some { deploymentId := n.deploymentID.val
             status := n.status
             message := n.message.map GoString.text
             projectName := some (GoString.text n.projectName)
             deploymentUrl := n.deploymentURL.map GoString.text } := by
  obtain ⟨id, status, projectName, deploymentURL, message⟩ := n
  cases deploymentURL <;> cases message <;>
    simp [DeploymentNotification.json, readNotification, omitEmpty, jsonText, members,
      Dto.get, List.lookup_cons, List.lookup_nil, Dto.textOf, readOptional, enumOf_status]

theorem answers_status (apiKey : ApiKey) (id : PathId) (u : DeploymentStatusUpdate) :
    Answers (doRequest apiKey "PATCH" (statusPath id) u.json)
      (.updateDeploymentStatus id.val
        { status := u.status
          containerImage := u.containerImage.map GoString.text
          deploymentUrl := u.deploymentURL.map GoString.text }) := by
  refine answers_of_body Route.updateDeploymentStatus (by simp [routes])
    (path_id ["internal", "deployments"] ["status"] (by decide) (by decide) id) (by simp)
    (plain_id (by decide) id) (matchPath_id ["internal", "deployments"] ["status"] id.val)
    (plain_statusUpdate u) rfl (accepts_statusUpdate u) ?_
  exact congrArg (Option.map _) (read_statusUpdate u)

theorem answers_notification (apiKey : ApiKey) (n : DeploymentNotification) :
    Answers (doRequest apiKey "POST" "/internal/notifications/deployment" n.json)
      (.sendDeploymentNotification
        { deploymentId := n.deploymentID.val
          status := n.status
          message := n.message.map GoString.text
          projectName := some (GoString.text n.projectName)
          deploymentUrl := n.deploymentURL.map GoString.text }) := by
  have hmatch := matchPath_lits ["internal", "notifications", "deployment"]
  refine answers_of_body Route.sendDeploymentNotification (by simp [routes]) (by decide)
    (by simp) (by decide) hmatch (plain_notification n) rfl (accepts_notification n) ?_
  exact congrArg (Option.map _) (read_notification n)

theorem answers_saveLogs (apiKey : ApiKey) (id : PathId) (source : Logs.LogSource)
    (messages : List GoString) (now : GoString) :
    Answers (doRequest apiKey "POST" ("/internal/deployments/" ++ id.val ++ "/logs")
        (some (.obj [("logs", .arr ((logEntries source messages now).map SaveLogEntry.json))])))
      (.createLogs id.val ((logEntries source messages now).map logged)) := by
  have hplain : PlainJson 3
      (.obj [("logs", .arr ((logEntries source messages now).map SaveLogEntry.json))]) := by
    refine ⟨by simp, fun m hm => ?_⟩
    rw [List.mem_singleton] at hm
    subst hm
    have hname : isOwnName "logs" = true := by decide
    refine ⟨hname, fun j hj => ?_⟩
    obtain ⟨x, _, rfl⟩ := List.mem_map.mp hj
    exact ⟨rfl, plain_logEntry x⟩
  refine answers_of_body Route.createLogs (by simp [routes])
    (path_id ["internal", "deployments"] ["logs"] (by decide) (by decide) id) (by simp)
    (plain_id (by decide) id) (matchPath_id ["internal", "deployments"] ["logs"] id.val) hplain rfl
    (accepts_logs source messages now) ?_
  have hread := read_logEntries (logEntries source messages now)
  simpa [Route.createLogs, withId, readLogs, members, Dto.get] using hread

theorem answers_domainStatus (apiKey : ApiKey) (id : PathId) (status : DomainDnsStatus)
    (errorMsg : GoString) :
    Answers (doRequest apiKey "PATCH" ("/internal/domains/" ++ id.val ++ "/status")
        (some (.obj [("error", jsonText errorMsg), ("status", .str (dnsStatusText status))])))
      (.updateDomainStatus id.val status (some (GoString.text errorMsg))) := by
  have hplain : PlainJson 1
      (.obj [("error", jsonText errorMsg), ("status", .str (dnsStatusText status))]) := by
    simp [jsonText, PlainJson, isOwnName, inherited]
  have hstatus : Dto.isEnum (domainDnsStatuses.map dnsStatusText) (.str (dnsStatusText status)) =
      true ∧ Dto.isNotEmpty (.str (dnsStatusText status)) = true := by
    cases status <;> decide
  refine answers_of_body Route.updateDomainStatus (by simp [routes])
    (path_id ["internal", "domains"] ["status"] (by decide) (by decide) id) (by simp)
    (plain_id (by decide) id) (matchPath_id ["internal", "domains"] ["status"] id.val) hplain rfl
    ?_ ?_
  · simp [Dto.accepts, updateDomainStatusDto, jsonText, Dto.get, List.lookup_cons,
      List.lookup_nil, Dto.Property.holds, Dto.isString, hstatus]
  · simp [Route.updateDomainStatus, withId, readDomainStatus, members, jsonText, Dto.get,
      List.lookup_cons, enumOf_dnsStatus, readOptional]

theorem answers_projectStatus (apiKey : ApiKey) (id : PathId) (status : DomainDnsStatus) :
    Answers (doRequest apiKey "PATCH" ("/internal/projects/" ++ id.val ++ "/status")
        (some (.obj [("onlineStatus", .str (dnsStatusText status))])))
      (.updateProjectStatus id.val status) := by
  have hplain : PlainJson 1 (.obj [("onlineStatus", .str (dnsStatusText status))]) := by
    simp [PlainJson, isOwnName, inherited]
  have hstatus : Dto.isEnum (domainDnsStatuses.map dnsStatusText) (.str (dnsStatusText status)) =
      true ∧ Dto.isNotEmpty (.str (dnsStatusText status)) = true := by
    cases status <;> decide
  refine answers_of_body Route.updateProjectStatus (by simp [routes])
    (path_id ["internal", "projects"] ["status"] (by decide) (by decide) id) (by simp)
    (plain_id (by decide) id) (matchPath_id ["internal", "projects"] ["status"] id.val) hplain rfl
    ?_ ?_
  · simp [Dto.accepts, updateProjectStatusDto, Dto.get, List.lookup_cons, List.lookup_nil,
      Dto.Property.holds, hstatus]
  · simp [Route.updateProjectStatus, withId, readOnlineStatus, members, Dto.get,
      enumOf_dnsStatus]

theorem answers_fixed (route : Route Handler) (hroute : route ∈ routes) (hbody : route.body = none)
    (apiKey : ApiKey) {path : String} {handler : Handler} (segments : List String)
    (hpath : path.toList = pathOf segments) (hne : segments ≠ [])
    (hplain : segments.all isPlainSegment = true) (hpattern : route.pattern = segments.map .lit)
    (hhandle : route.handle [] none = some handler) :
    Answers (doRequest apiKey route.method path none) handler :=
  answers_of_none route hroute hpath hne (List.all_eq_true.mp hplain)
    (hpattern ▸ matchPath_lits segments) hbody hhandle

theorem answers_last (route : Route Handler) (hroute : route ∈ routes) (hbody : route.body = none)
    (apiKey : ApiKey) {before : String} {handler : Handler} (front : List String) (id : PathId)
    (hbefore : before.toList = pathOf front ++ ['/']) (hplain : front.all isPlainSegment = true)
    (hpattern : route.pattern = front.map .lit ++ [.param])
    (hhandle : route.handle [id.val] none = some handler) :
    Answers (doRequest apiKey route.method (before ++ id.val) none) handler := by
  have hend : "".toList = pathOf [] := rfl
  have hpath := path_id front [] hbefore hend id
  rw [String.append_empty] at hpath
  exact answers_of_none route hroute hpath (by simp)
    (plain_id (by rwa [List.append_nil]) id) (hpattern ▸ matchPath_id front [] id.val) hbody hhandle

def digits (n : Nat) : PathId :=
  ⟨toString n, by
    rw [isPlainSegment, Bool.and_eq_true, Bool.not_eq_true', List.all_eq_true]
    refine ⟨?_, fun c hc => ?_⟩
    · rw [Bool.eq_false_iff, Ne, String.isEmpty_iff]
      intro h
      have hdigits : Nat.toDigits 10 n = [] := by
        rw [← Nat.toList_repr, ← String.toList_empty, ← h]
        rfl
      exact Nat.toDigits_ne_nil hdigits
    · rw [Char.isAlphanum, Builder.digit_of_mem_toString hc, Bool.or_true, Bool.true_or]⟩

/-- The API takes a call for what the worker means by it. -/
theorem answers_request {apiKey : ApiKey} {c : Client.Call} {r : HttpRequest}
    (h : Client.request apiKey c = some r) : Answers r (asks c) := by
  cases c with
  | updateDeploymentStatus id status =>
    cases h
    exact answers_status apiKey id { status }
  | updateDeploymentWithImage id status imageName =>
    cases h
    exact answers_status apiKey id { status, containerImage := imageName }
  | updateDeploymentWithURL id status url =>
    cases h
    exact answers_status apiKey id { status, deploymentURL := url }
  | failDeployment id errorMsg =>
    cases h
    exact answers_status apiKey id { status := .failed }
  | getExpiredDeployments =>
    cases h
    exact answers_fixed Route.getExpiredDeployments (by simp [routes]) rfl apiKey
      ["internal", "deployments", "expired"] (by decide) (by simp) (by decide) rfl rfl
  | cleanupDeployment id =>
    cases h
    exact answers_of_none Route.deleteDeploymentResources (by simp [routes])
      (path_id ["internal", "deployments"] ["resources"] (by decide) (by decide) id) (by simp)
      (plain_id (by decide) id) (matchPath_id ["internal", "deployments"] ["resources"] id.val) rfl
      rfl
  | getPendingDomains =>
    cases h
    exact answers_fixed Route.getPendingDomains (by simp [routes]) rfl apiKey
      ["internal", "domains", "pending"] (by decide) (by simp) (by decide) rfl rfl
  | updateDomainStatus id status errorMsg =>
    cases h
    exact answers_domainStatus apiKey id status errorMsg
  | getInstallationToken installationID =>
    cases h
    exact answers_last Route.getInstallationToken (by simp [routes]) rfl apiKey
      ["internal", "git", "installation-token"] (digits installationID) (by decide) (by decide) rfl
      rfl
  | saveLogs id source messages now | saveLogsRaw id source messages now =>
    rw [Client.request, saveRequest] at h
    split at h
    · cases h
    · cases h
      exact answers_saveLogs apiKey id source messages now
  | triggerLogCleanup =>
    cases h
    exact answers_fixed Route.cleanupLogs (by simp [routes]) rfl apiKey
      ["internal", "logs", "cleanup"] (by decide) (by simp) (by decide) rfl rfl
  | notifySuccess id projectName url duration =>
    cases h
    exact answers_notification apiKey
      { deploymentID := id, status := .ready, projectName, deploymentURL := url }
  | notifyFailure id projectName errorMsg =>
    cases h
    exact answers_notification apiKey
      { deploymentID := id, status := .failed, projectName, message := errorMsg }
  | getProjectSettings id =>
    cases h
    exact answers_last Route.getSettingsByProject (by simp [routes]) rfl apiKey
      ["internal", "settings", "by-project"] id (by decide) (by decide) rfl rfl
  | updateProjectStatus id status =>
    cases h
    exact answers_projectStatus apiKey id status

/-- Nothing is sent when there is no line to save. -/
theorem request_eq_none {apiKey : ApiKey} {c : Client.Call} :
    Client.request apiKey c = none ↔ ∃ id, asks c = .createLogs id [] := by
  cases c with
  | saveLogs id source messages now | saveLogsRaw id source messages now =>
    rw [Client.request, saveRequest]
    split
    · rename_i hempty
      rw [List.isEmpty_iff] at hempty
      exact iff_of_true rfl ⟨id.val, by rw [asks, hempty]; rfl⟩
    · rename_i hne
      refine iff_of_false (Option.some_ne_none _) ?_
      rintro ⟨id', h⟩
      refine hne ?_
      rw [asks] at h
      simp only [Handler.createLogs.injEq, List.map_eq_nil_iff] at h
      rw [h.2]
      rfl
  | _ =>
    refine iff_of_false (Option.some_ne_none _) ?_
    rintro ⟨_, h⟩
    cases h

theorem apiKey_request {apiKey : ApiKey} {c : Client.Call} {r : HttpRequest}
    (h : Client.request apiKey c = some r) :
    r.headers.lookup "x-worker-api-key" = some apiKey.val := by
  cases c with
  | saveLogs | saveLogsRaw =>
    rw [Client.request, saveRequest] at h
    split at h
    · cases h
    · cases h
      rfl
  | _ =>
    cases h
    rfl

/-- Every call of the worker's client finds its handler with what the worker means by it, unless
its body is too large for the parser or its key is not the API's; only a call without a line to
save sends nothing. -/
theorem calls_are_answered (nest : Nest) (valid : Option String) (apiKey : ApiKey)
    (c : Client.Call) :
    match Client.request apiKey c with
    | none => ∃ id, asks c = .createLogs id []
    | some r =>
      nest.serve routes (canActivate valid) r =
        if r.tooLarge then .error 413
        else if valid = some apiKey.val ∧ apiKey.val ≠ "" then .ok (some (asks c))
        else .error 401 := by
  cases hrequest : Client.request apiKey c with
  | none => exact request_eq_none.mp hrequest
  | some r =>
    have hanswers := answers_request hrequest nest valid
    simpa only [canActivate_iff (apiKey_request hrequest)] using hanswers

/-- A deployment is reported to a server that reads plain requests. -/
theorem calls_are_answered_shop :
    Nest.plain.serve routes (canActivate (some "key")) (doRequest ⟨"key", by decide⟩ "PATCH"
        (statusPath ⟨"d-1", by decide⟩) (DeploymentStatusUpdate.json { status := .ready })) =
      .ok (some (.updateDeploymentStatus "d-1" { status := .ready })) := by
  have hanswered : Nest.plain.serve routes (canActivate (some "key")) (doRequest ⟨"key", by decide⟩
      "PATCH" (statusPath ⟨"d-1", by decide⟩) (DeploymentStatusUpdate.json { status := .ready })) =
        _ := calls_are_answered .plain (some "key") ⟨"key", by decide⟩
          (.updateDeploymentStatus ⟨"d-1", by decide⟩ .ready)
  have hsmall : (doRequest ⟨"key", by decide⟩ "PATCH" (statusPath ⟨"d-1", by decide⟩)
      (DeploymentStatusUpdate.json { status := .ready })).tooLarge = false := by decide
  have hkey : some "key" = some "key" ∧ "key" ≠ "" := ⟨rfl, by decide⟩
  rw [hanswered, hsmall, if_neg Bool.false_ne_true, if_pos hkey]
  rfl

end System
end Code2Cloud
