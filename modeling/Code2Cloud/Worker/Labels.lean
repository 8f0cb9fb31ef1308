import Code2Cloud.Worker.Deploy

/-!
# Names as labels

When `sanitizeK8sName` yields a label of Kubernetes, and when the names with a suffix are, and when
the functions that create, delete, watch and update a project's objects, which apply it once or
twice, mean the same objects.
-/

namespace Code2Cloud
namespace Worker

open GoString Segments

/-- A label of Kubernetes that starts with a letter and in which no two dashes meet. -/
structure IsLabel (s : GoString) : Prop where
  nonempty : s ≠ []
  length : s.length ≤ 63
  first : ∃ c, s.head? = some c ∧ isLower c = true
  last : ∃ c, s.getLast? = some c ∧ isNameByte c = true
  bytes : ∀ c ∈ s, isNameByte c = true ∨ c = dash
  spaced : Spaced dash s

/-- The name in lower case, with one dash between the runs of letters and digits. -/
def body (name : GoString) : GoString := slug isNameByte dash (toLower name)

/-- The name begins with a digit and is not cut at a dash: all of its first 63 bytes stay, and a
letter is put in front of them. -/
def Overflows (name : GoString) : Prop :=
  (body name).head?.any isDigit = true ∧ 63 ≤ (body name).length ∧ (body name)[62]? ≠ some dash

instance (name : GoString) : Decidable (Overflows name) := instDecidableAnd

/-! ## The length of a name -/

theorem length_startWithLetter (s : GoString) : (startWithLetter s).length =
    if s = [] then 3 else if s.head?.any isDigit = true then s.length + 1 else s.length := by
  cases s with
  | nil => rw [startWithLetter_nil]; rfl
  | cons c r =>
    rw [if_neg (List.cons_ne_nil c r)]
    by_cases hc : isDigit c = true
    · rw [startWithLetter_digit hc, if_pos (by simpa using hc)]
      rfl
    · rw [startWithLetter_letter (by simpa using hc), if_neg (by simpa using hc)]

theorem head?_clip_body (name : GoString) :
    (clip dash 63 (body name)).head? = (body name).head? := by
  cases hbody : body name with
  | nil => rfl
  | cons c r =>
    have hc : isNameByte c = true := by
      refine (body_slug (toLower name)).head c ?_
      rw [← body, hbody]
      rfl
    have hne : c ≠ dash := by
      rintro rfl
      exact absurd hc (by decide)
    rw [clip_cons dash hne]
    rfl

/-- Only an overflowing name is longer than a label. -/
theorem length_sanitizeK8sName_le_iff (name : GoString) :
    (sanitizeK8sName name).length ≤ 63 ↔ ¬Overflows name := by
  have hle := length_clip_le dash 63 (body name)
  have hfull : (clip dash 63 (body name)).length = 63 ↔
      63 ≤ (body name).length ∧ (body name)[62]? ≠ some dash := length_clip_eq_iff dash
  rw [sanitizeK8sName_eq, ← body, length_startWithLetter, head?_clip_body, Overflows, ← hfull]
  split
  · rename_i hnil
    exact iff_of_true (by omega) fun h => by simp [hnil] at h
  · split
    · rename_i hdigit
      exact ⟨fun h hover => by omega, fun h => by
        have hne : (clip dash 63 (body name)).length ≠ 63 := fun hlength => h ⟨hdigit, hlength⟩
        omega⟩
    · rename_i hletter
      exact iff_of_true hle fun h => hletter h.1

/-! ## Labels -/

theorem last_sanitizeK8sName (name : GoString) :
    ∃ c, (sanitizeK8sName name).getLast? = some c ∧ isNameByte c = true := by
  have hwf := wellFormed_sanitizeK8sName name
  have hlast := List.getLast?_eq_some_getLast hwf.ne_nil
  refine ⟨_, hlast, (isNameByte_or_dash_of_mem (List.getLast_mem hwf.ne_nil)).resolve_right ?_⟩
  intro hdash
  exact hwf.last (hdash ▸ hlast)

theorem first_sanitizeK8sName (name : GoString) :
    ∃ c, (sanitizeK8sName name).head? = some c ∧ isLower c = true := by
  obtain ⟨c, r, hname, hletter⟩ := (wellFormed_sanitizeK8sName name).letter
  exact ⟨c, by rw [hname, List.head?_cons], hletter⟩

/-- Every name becomes a label, but for the length of those that overflow. -/
theorem isLabel_sanitizeK8sName_iff (name : GoString) :
    IsLabel (sanitizeK8sName name) ↔ ¬Overflows name := by
  rw [← length_sanitizeK8sName_le_iff]
  refine ⟨IsLabel.length, fun hlength => ?_⟩
  exact
    { nonempty := (wellFormed_sanitizeK8sName name).ne_nil
      length := hlength
      first := first_sanitizeK8sName name
      last := last_sanitizeK8sName name
      bytes := fun _ => isNameByte_or_dash_of_mem
      spaced := (wellFormed_sanitizeK8sName name).spaced }

def zeros : GoString := List.replicate 63 0x30

theorem not_isLabel_sanitizeK8sName : ¬∀ name, IsLabel (sanitizeK8sName name) := by
  intro h
  have hlength := (h zeros).length
  exact absurd hlength (by decide)

/-! ## Names with a suffix -/

/-- A suffixed name is a label, and cutting the base leaves the suffix whole. -/
theorem isLabel_buildNameWithSuffix {base suffix : GoString} (hbase : WellFormed base)
    (hbytes : ∀ c ∈ base, isNameByte c = true ∨ c = dash) (hlength : suffix.length < 63)
    (hsuffix : ∀ c ∈ suffix, isNameByte c = true ∨ c = dash) (hspaced : Spaced dash suffix)
    (hlast : ∃ c, suffix.getLast? = some c ∧ isNameByte c = true) :
    IsLabel (buildNameWithSuffix base suffix) ∧ suffix <:+ buildNameWithSuffix base suffix := by
  rw [buildNameWithSuffix_eq hbase hlength]
  have hcut := length_clip_le dash (63 - suffix.length) base
  have hbegins := clip_isPrefix_self dash (63 - suffix.length) base
  have hend := getLast?_trimOne_ne dash (hbase.spaced.take dash (63 - suffix.length))
  have hfirst : ∃ c r, clip dash (63 - suffix.length) base = c :: r ∧ isLower c = true := by
    obtain ⟨c, r, rfl, hc⟩ := hbase.letter
    obtain ⟨n, hn⟩ : ∃ n, 63 - suffix.length = n + 1 := ⟨62 - suffix.length, by omega⟩
    exact ⟨c, _, by rw [hn, clip_cons dash (ne_dash_of_isLower hc)], hc⟩
  obtain ⟨first, rest, hclip, hletter⟩ := hfirst
  obtain ⟨last, hlast, hlastByte⟩ := hlast
  refine ⟨⟨?_, ?_, ⟨first, by rw [hclip]; rfl, hletter⟩, ⟨last, ?_, hlastByte⟩, ?_, ?_⟩,
    List.suffix_append _ _⟩
  · rw [hclip]
    exact List.cons_ne_nil _ _
  · rw [List.length_append]
    omega
  · rw [List.getLast?_append, hlast, Option.some_or]
  · intro c hc
    rcases List.mem_append.mp hc with hc | hc
    · exact hbytes c (hbegins.subset hc)
    · exact hsuffix c hc
  · refine List.isChain_append.mpr ⟨hbase.spaced.mono dash hbegins, hspaced, ?_⟩
    rintro x hx y _ ⟨rfl, _⟩
    exact hend hx

/-- What a suffixed name of a project is: the function comes to its end, and the name is a label
with the whole suffix. -/
structure Suffixed (projectName suffix name : GoString) : Prop where
  sliced : sliceNameWithSuffix (sanitizeK8sName projectName) suffix = some name
  label : IsLabel name
  suffix : suffix <:+ name

theorem derived_names_fit (projectName : GoString) :
    Suffixed projectName (utf8 "-sa") (buildServiceAccountName (sanitizeK8sName projectName)) ∧
      Suffixed projectName (utf8 "-netpol") (buildPolicyName (sanitizeK8sName projectName)) := by
  have hfits (suffix : GoString) (hlength : suffix.length < 63)
      (hsuffix : ∀ c ∈ suffix, isNameByte c = true ∨ c = dash) (hspaced : Spaced dash suffix)
      (hlast : ∃ c, suffix.getLast? = some c ∧ isNameByte c = true) :
      Suffixed projectName suffix (buildNameWithSuffix (sanitizeK8sName projectName) suffix) := by
    obtain ⟨hlabel, hend⟩ := isLabel_buildNameWithSuffix
      (wellFormed_sanitizeK8sName projectName) (fun _ => isNameByte_or_dash_of_mem) hlength hsuffix
      hspaced hlast
    exact ⟨sliceNameWithSuffix_eq _ _, hlabel, hend⟩
  constructor
  · exact hfits _ (by decide) (by decide +kernel) (by simp only [Spaced]; decide)
      ⟨0x61, by decide, by decide⟩
  · exact hfits _ (by decide) (by decide +kernel) (by simp only [Spaced]; decide)
      ⟨0x6c, by decide, by decide⟩

/-! ## One project, one set of names -/

namespace Client

/-- The Deployment that `WaitForDeploymentReady` gets, when `Deploy` has given it the name. -/
def waitName (projectName : GoString) : GoString := sanitizeK8sName (sanitizeK8sName projectName)

/-- The Ingress that `UpdateIngressHosts` gets, when `AddDomain` or `RemoveDomain` has given it the
name. -/
def updateName (projectName : GoString) : GoString := sanitizeK8sName (sanitizeK8sName projectName)

/-- Whatever deploys, tears down, waits for or reroutes the project acts on the same objects. -/
structure SameNames (projectName : GoString) : Prop where
  cleanup : ∀ (baseDomain : GoString) (opts : DeployOptions) (stage : DeployStage) (o : Object)
    (cleanup : CleanupOptions), opts.projectName = projectName →
      cleanup.projectName = projectName → object baseDomain opts stage = some o →
        deleteName o.kind cleanup = o.name
  wait : ∀ (baseDomain : GoString) (opts : DeployOptions) (o : Object),
    opts.projectName = projectName → object baseDomain opts .deployment = some o →
      waitName projectName = o.name
  update : ∀ (baseDomain : GoString) (opts : DeployOptions) (o : Object),
    opts.projectName = projectName → object baseDomain opts .ingress = some o →
      updateName projectName = o.name

theorem twice_iff (name : GoString) :
    sanitizeK8sName (sanitizeK8sName name) = sanitizeK8sName name ↔ ¬Overflows name :=
  sanitizeK8sName_twice_iff.trans (length_sanitizeK8sName_le_iff name)

theorem sameNames_of_twice {name : GoString}
    (h : sanitizeK8sName (sanitizeK8sName name) = sanitizeK8sName name) : SameNames name where
  cleanup := by
    rintro baseDomain opts stage o cleanup rfl hcleanup ho
    rw [object_name ho, deleteName, hcleanup]
    cases o.kind <;> simp only [objectName, h]
  wait := by
    rintro baseDomain opts o rfl ho
    cases ho
    exact h
  update := by
    rintro baseDomain opts o rfl ho
    cases ho
    exact h

/-- A deployment of the project with nothing else in it. -/
def bareOptions (projectName : GoString) : DeployOptions where
  deploymentId := 0
  projectId := 0
  projectName
  imageName := []
  port := 0
  cpuRequest := ""
  cpuLimit := ""
  memoryRequest := ""
  memoryLimit := ""
  replicas := 0
  envVars := []
  domains := []

/-- The names agree exactly where sanitising again changes nothing, and that is the case for the
projects whose names do not overflow. -/
theorem sameNames_iff (projectName : GoString) :
    (SameNames projectName ↔ ¬Overflows projectName) ∧
      (sanitizeK8sName (sanitizeK8sName projectName) = sanitizeK8sName projectName ↔
        ¬Overflows projectName) := by
  refine ⟨⟨fun h => ?_, fun h => sameNames_of_twice ((twice_iff projectName).mpr h)⟩,
    twice_iff projectName⟩
  exact (twice_iff projectName).mp (h.wait [] (bareOptions projectName) _ rfl rfl)

theorem not_sameNames : ¬∀ projectName, SameNames projectName := by
  intro h
  have hsame : sanitizeK8sName (sanitizeK8sName zeros) = sanitizeK8sName zeros :=
    (h zeros).wait [] (bareOptions zeros) _ rfl rfl
  exact absurd hsame (by decide)

end Client
end Worker
end Code2Cloud
