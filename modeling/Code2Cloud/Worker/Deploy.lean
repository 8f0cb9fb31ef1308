import Code2Cloud.Worker.Cluster

/-!
# Deploy and Cleanup

The stages of `Client.Deploy` with the object each one creates or updates, the
hosts of an ingress, and the deletions of `Client.Cleanup`.
-/

namespace Code2Cloud
namespace Worker

open GoString Segments

/-! ## Hosts -/

def sanitizeHost (host : GoString) : GoString :=
  let host := trimPrefix host (utf8 "https://")
  let host := trimPrefix host (utf8 "http://")
  toLower (before 0x2f host)

def isSubdomain (host baseDomain : GoString) : Bool :=
  if baseDomain.isEmpty then false
  else (0x2e :: toLower baseDomain).isSuffixOf (toLower host) || equalFold host baseDomain

def wildcardTLSSecret : GoString := utf8 "preview-wildcard-tls"

def buildIngressRules (hosts : List GoString) (serviceName : GoString) : List IngressRule :=
  hosts.map fun host => { host := sanitizeHost host, serviceName }

def buildTLSEntries (name : GoString) (subdomainHosts customHosts : List GoString) :
    List IngressTLS :=
  (if subdomainHosts.isEmpty then [] else
    [{ hosts := subdomainHosts, secretName := wildcardTLSSecret }]) ++
  (if customHosts.isEmpty then [] else
    [{ hosts := customHosts, secretName := name ++ utf8 "-custom-tls" }])

/-! ## Deploy -/

structure DeployOptions where
  deploymentId : Api.DeploymentId
  projectId : Api.ProjectId
  projectName : GoString
  imageName : GoString
  port : Nat
  cpuRequest : String
  cpuLimit : String
  memoryRequest : String
  memoryLimit : String
  replicas : Nat
  envVars : EnvMap
  domains : List GoString

namespace Client

def allHosts (opts : DeployOptions) : List GoString :=
  (opts.domains.filter fun domain => !domain.isEmpty).map sanitizeHost

def serviceAccount (opts : DeployOptions) : Object :=
  let name := sanitizeK8sName opts.projectName
  .serviceAccount (buildServiceAccountName name)
    { app := name, deploymentId := opts.deploymentId, projectId := opts.projectId }

def networkPolicy (opts : DeployOptions) : NetworkPolicyObject :=
  let name := sanitizeK8sName opts.projectName
  { app := name, deploymentId := opts.deploymentId, projectId := opts.projectId
    podSelector := name
    ingressFrom := [.pods name, .namespace (utf8 "traefik")] }

def deployment (opts : DeployOptions) : DeploymentObject :=
  let name := sanitizeK8sName opts.projectName
  { app := name, deploymentId := opts.deploymentId, projectId := opts.projectId
    serviceAccountName := buildServiceAccountName name
    image := opts.imageName
    port := opts.port
    envVars := containerEnv opts.envVars opts.port
    cpuRequest := opts.cpuRequest, cpuLimit := opts.cpuLimit
    memoryRequest := opts.memoryRequest, memoryLimit := opts.memoryLimit
    replicas := opts.replicas }

def service (opts : DeployOptions) : ServiceObject :=
  { app := sanitizeK8sName opts.projectName, projectId := opts.projectId
    targetPort := opts.port }

def ingress (baseDomain : GoString) (opts : DeployOptions) : IngressObject :=
  let name := sanitizeK8sName opts.projectName
  let hosts := allHosts opts
  let subdomainHosts := hosts.filter fun host => isSubdomain host baseDomain
  let customHosts := hosts.filter fun host => !isSubdomain host baseDomain
  { app := name, projectId := opts.projectId
    rules := buildIngressRules hosts name
    tls := buildTLSEntries name subdomainHosts customHosts
    clusterIssuer := !customHosts.isEmpty }

/-- What `UpdateIngressHosts` makes of an ingress. -/
def updateIngressHosts (baseDomain name : GoString) (hosts : List GoString)
    (ingress : IngressObject) : IngressObject :=
  let sanitized := hosts.map sanitizeHost
  let subdomainHosts := sanitized.filter fun host => isSubdomain host baseDomain
  let customHosts := sanitized.filter fun host => !isSubdomain host baseDomain
  { ingress with
    rules := buildIngressRules hosts name
    tls := buildTLSEntries name subdomainHosts customHosts
    clusterIssuer := !customHosts.isEmpty }

/-- The calls of `Client.Deploy`, in order. -/
inductive DeployStage
  | serviceAccount | networkPolicy | deployment | service | ingress | wait
  deriving DecidableEq

/-- The object a stage of `Client.Deploy` creates or updates; the last one only
waits. -/
def object (baseDomain : GoString) (opts : DeployOptions) : DeployStage → Option Object
  | .serviceAccount => some (serviceAccount opts)
  | .networkPolicy =>
    some (.networkPolicy (buildPolicyName (sanitizeK8sName opts.projectName)) (networkPolicy opts))
  | .deployment => some (.deployment (sanitizeK8sName opts.projectName) (deployment opts))
  | .service => some (.service (sanitizeK8sName opts.projectName) (service opts))
  | .ingress => some (.ingress (sanitizeK8sName opts.projectName) (ingress baseDomain opts))
  | .wait => none

def DeployStage.next : DeployStage → Option DeployStage
  | .serviceAccount => some .networkPolicy
  | .networkPolicy => some .deployment
  | .deployment => some .service
  | .service => some .ingress
  | .ingress => some .wait
  | .wait => none

/-- The name under which `Client.Deploy` keeps a project's object of each kind. -/
def objectName : Kind → GoString → GoString
  | .networkPolicy, projectName => buildPolicyName (sanitizeK8sName projectName)
  | .serviceAccount, projectName => buildServiceAccountName (sanitizeK8sName projectName)
  | _, projectName => sanitizeK8sName projectName

theorem object_name {baseDomain : GoString} {opts : DeployOptions} {stage : DeployStage}
    {o : Object} (h : object baseDomain opts stage = some o) :
    o.name = objectName o.kind opts.projectName := by
  cases stage <;> simp only [object, Option.some.injEq, reduceCtorEq] at h <;> subst h <;> rfl

/-! ## Cleanup -/

structure CleanupOptions where
  /-- Set by the teardown of a deployment; the teardown of a project leaves it out.
  No deletion reads it. -/
  deploymentId : Option Api.DeploymentId
  projectName : GoString
  deriving DecidableEq

/-- The deletions of `Client.Cleanup`, in order. -/
def cleanupStages : List Kind :=
  [.ingress, .service, .deployment, .networkPolicy, .serviceAccount]

/-- The name one deletion of `Client.Cleanup` acts on: `Cleanup` sanitises the
project's name and each `Delete` function sanitises it again. -/
def deleteName (kind : Kind) (opts : CleanupOptions) : GoString :=
  objectName kind (sanitizeK8sName opts.projectName)

end Client

/-! ## Sanitising twice -/

theorem isNameByte_or_dash_of_mem {name : GoString} {c : UInt8}
    (h : c ∈ sanitizeK8sName name) : isNameByte c = true ∨ c = dash := by
  rw [sanitizeK8sName_eq] at h
  have hbody : ∀ d ∈ clip dash 63 (slug isNameByte dash (toLower name)),
      isNameByte d = true ∨ d = dash := by
    intro d hd
    have hslug := (slug_prefix_collapse isNameByte_dash (toLower name)).subset
      ((clip_isPrefix_self dash 63 _).subset hd)
    exact mem_collapse isNameByte dash hslug
  generalize clip dash 63 (slug isNameByte dash (toLower name)) = s at h hbody
  cases s with
  | nil =>
    left
    rw [startWithLetter_nil] at h
    have hall : (utf8 "app").all isNameByte = true := by decide
    exact List.all_eq_true.mp hall c h
  | cons d r =>
    by_cases hd : isDigit d = true
    · rw [startWithLetter_digit hd] at h
      rcases List.mem_cons.mp h with rfl | h
      · exact Or.inl (by decide)
      · exact hbody c h
    · rw [startWithLetter_letter (by simpa using hd)] at h
      exact hbody c h

theorem toLower_sanitizeK8sName (name : GoString) :
    toLower (sanitizeK8sName name) = sanitizeK8sName name := by
  have hrange : ∀ c ∈ sanitizeK8sName name,
      (0x61 ≤ c.toNat ∧ c.toNat ≤ 0x7a) ∨ (0x30 ≤ c.toNat ∧ c.toNat ≤ 0x39) ∨ c.toNat = 0x2d := by
    intro c hc
    rcases isNameByte_or_dash_of_mem hc with h | rfl
    · simp only [isNameByte, isLower, isDigit, Bool.or_eq_true, Bool.and_eq_true,
        decide_eq_true_eq, UInt8.le_iff_toNat_le] at h
      exact h.imp_right Or.inl
    · exact Or.inr (Or.inr rfl)
  have hbyte : ∀ c ∈ sanitizeK8sName name, lowerByte c = c := by
    intro c hc
    have hmem := hrange c hc
    rw [lowerByte, if_neg]
    simp only [isUpper, Bool.and_eq_true, decide_eq_true_eq, UInt8.le_iff_toNat_le]
    change ¬(0x41 ≤ c.toNat ∧ c.toNat ≤ 0x5a)
    omega
  rw [toLower_of_ascii fun c hc => by have := hrange c hc; omega]
  exact (List.map_congr_left hbyte).trans (List.map_id' _)

theorem slug_sanitizeK8sName (name : GoString) :
    slug isNameByte dash (toLower (sanitizeK8sName name)) = sanitizeK8sName name := by
  have hwf := wellFormed_sanitizeK8sName name
  obtain ⟨c, r, hcr, hletter⟩ := hwf.letter
  have hhead : (sanitizeK8sName name).head? ≠ some dash := by
    rw [hcr]
    simpa using ne_dash_of_isLower hletter
  rw [toLower_sanitizeK8sName, slug_eq_self isNameByte_dash
    (fun _ => isNameByte_or_dash_of_mem) hwf.spaced hhead hwf.last]

theorem startWithLetter_sanitizeK8sName (name : GoString) :
    startWithLetter (sanitizeK8sName name) = sanitizeK8sName name := by
  obtain ⟨c, r, hcr, hletter⟩ := (wellFormed_sanitizeK8sName name).letter
  have hdigit : isDigit c = false := by
    revert hletter
    unfold isLower isDigit
    grind
  rw [hcr, startWithLetter_letter hdigit]

theorem label_sanitizeK8sName (name : GoString) :
    label (sanitizeK8sName name) = sanitizeK8sName name := by
  rw [label, slug_sanitizeK8sName, startWithLetter_sanitizeK8sName]

/-- Sanitising again cuts a name that got its letter in front of 63 digits. -/
theorem sanitizeK8sName_sanitizeK8sName {name : GoString}
    (h : (sanitizeK8sName name).length ≤ 63) :
    sanitizeK8sName (sanitizeK8sName name) = sanitizeK8sName name := by
  have hlast := (wellFormed_sanitizeK8sName name).last
  rw [sanitizeK8sName_eq, slug_sanitizeK8sName, clip_of_length_le dash h hlast,
    startWithLetter_sanitizeK8sName]

theorem length_sanitizeK8sName_twice (name : GoString) :
    (sanitizeK8sName (sanitizeK8sName name)).length ≤ 63 := by
  obtain ⟨c, r, hcr, hletter⟩ := (wellFormed_sanitizeK8sName name).letter
  have hdigit : isDigit c = false := by
    revert hletter
    unfold isLower isDigit
    grind
  rw [sanitizeK8sName_eq, slug_sanitizeK8sName]
  have hle := length_clip_le dash 63 (sanitizeK8sName name)
  have hclipped := clip_isPrefix_self dash 63 (sanitizeK8sName name)
  cases hclip : clip dash 63 (sanitizeK8sName name) with
  | nil => decide
  | cons d t =>
    rw [hclip, hcr, List.cons_prefix_cons] at hclipped
    rw [hclip] at hle
    rw [hclipped.1, startWithLetter_letter hdigit]
    exact hle

/-- Sanitising again changes exactly the names of 64 bytes. -/
theorem sanitizeK8sName_twice_iff {name : GoString} :
    sanitizeK8sName (sanitizeK8sName name) = sanitizeK8sName name ↔
      (sanitizeK8sName name).length ≤ 63 :=
  ⟨fun h => h ▸ length_sanitizeK8sName_twice name, sanitizeK8sName_sanitizeK8sName⟩

theorem slash_notMem_sanitizeHost (host : GoString) : 0x2f ∉ sanitizeHost host := by
  intro h
  have hslash := mem_of_mem_toLower (by decide) (by decide) (by decide) h
  simpa using List.mem_takeWhile_imp hslash

theorem sanitizeHost_sanitizeHost (host : GoString) :
    sanitizeHost (sanitizeHost host) = sanitizeHost host := by
  have hslash := slash_notMem_sanitizeHost host
  have htrim : ∀ pre : GoString, 0x2f ∈ pre →
      trimPrefix (sanitizeHost host) pre = sanitizeHost host := by
    intro pre hpre
    rw [trimPrefix, if_neg]
    intro h
    exact hslash ((List.isPrefixOf_iff_prefix.mp h).subset hpre)
  have hbefore : before 0x2f (sanitizeHost host) = sanitizeHost host := by
    refine List.takeWhile_eq_self_iff.mpr fun c hc => ?_
    rw [bne_iff_ne]
    rintro rfl
    exact hslash hc
  have hlower : toLower (sanitizeHost host) = sanitizeHost host := toLower_toLower _
  rw [sanitizeHost.eq_def (sanitizeHost host)]
  simp only [htrim (utf8 "https://") (by decide), htrim (utf8 "http://") (by decide), hbefore,
    hlower]

theorem map_sanitizeHost_allHosts (opts : DeployOptions) :
    (Client.allHosts opts).map sanitizeHost = Client.allHosts opts := by
  refine List.map_congr_left (g := id) (fun host h => ?_) |>.trans (List.map_id _)
  obtain ⟨domain, _, rfl⟩ := List.mem_map.mp h
  exact sanitizeHost_sanitizeHost domain

theorem hosts_buildIngressRules (hosts : List GoString) (serviceName : GoString) :
    (buildIngressRules hosts serviceName).map (·.host) = hosts.map sanitizeHost := by
  rw [buildIngressRules, List.map_map]
  rfl

theorem sanitized_of_mem_map {hosts : List GoString} {host : GoString}
    (h : host ∈ hosts.map sanitizeHost) : sanitizeHost host = host := by
  obtain ⟨raw, _, rfl⟩ := List.mem_map.mp h
  exact sanitizeHost_sanitizeHost raw

/-! ## The stem of a project's object names -/

/-- The cut of the label that every object name of the project starts with. -/
def stem (projectName : GoString) : GoString := clip dash 56 (label projectName)

theorem stem_sanitizeK8sName (name : GoString) : stem (sanitizeK8sName name) = stem name := by
  rw [stem, label_sanitizeK8sName, clip_sanitizeK8sName name (by omega) (by omega), stem]

theorem buildPolicyName_inj {a b : GoString} :
    buildPolicyName (sanitizeK8sName a) = buildPolicyName (sanitizeK8sName b) ↔
      stem a = stem b := by
  rw [buildPolicyName_eq, buildPolicyName_eq, List.append_left_inj, stem, stem]

/-- Two projects that share an object name share their stem. -/
theorem stem_eq_of_objectName_eq {kind : Kind} {a b : GoString}
    (h : Client.objectName kind a = Client.objectName kind b) : stem a = stem b := by
  cases kind with
  | networkPolicy => exact buildPolicyName_inj.mp h
  | serviceAccount =>
    have hclip : clip dash 60 (label a) = clip dash 60 (label b) := by
      simpa only [Client.objectName, buildServiceAccountName_eq, List.append_left_inj] using h
    have h56 : 56 ≤ 60 := by omega
    rw [stem, stem, ← clip_clip dash (wellFormed_label a).spaced h56, hclip,
      clip_clip dash (wellFormed_label b).spaced h56]
  | ingress | service | deployment =>
    have hname : sanitizeK8sName a = sanitizeK8sName b := h
    rw [← stem_sanitizeK8sName a, hname, stem_sanitizeK8sName b]

/-- A deletion of one project's teardown hits an object of another project only if
the two share their stem. -/
theorem stem_eq_of_deleteName_eq {kind : Kind} {opts : Client.CleanupOptions} {b : GoString}
    (h : Client.deleteName kind opts = Client.objectName kind b) :
    stem opts.projectName = stem b := by
  rw [← stem_sanitizeK8sName opts.projectName]
  exact stem_eq_of_objectName_eq h

end Worker
end Code2Cloud
