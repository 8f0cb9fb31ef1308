import Code2Cloud.Base.Assignments
import Code2Cloud.Worker.Builder

/-!
# The two commands of a build

`railpack prepare` is given the variables of a build with `--env`, and `buildctl` in its
environment, with one `--secret` for each.  Each is put together in a loop of its own over the map.
-/

namespace Code2Cloud
namespace Worker
namespace Builder

/-- A variable in a list of `NAME=VALUE`: of several entries of one name the last one counts. -/
def getenv (environ : List String) (name : String) : Option String :=
  (Assignments.read '=' (environ.map (·.toList)) name.toList).map String.ofList

def assignments (vars : EnvMap) : List String := vars.map fun kv => kv.1 ++ "=" ++ kv.2

/-- The arguments of `railpack prepare` before the variables. -/
def planArgs (opts : Options) : List String :=
  ["prepare", ".", "--plan-out", "railpack-plan.json"] ++
    (if opts.buildCommand.isEmpty then [] else ["--build-cmd", opts.buildCommand]) ++
    (if opts.runCommand.isEmpty then [] else ["--start-cmd", opts.runCommand])

def envArgs (vars : EnvMap) : List String :=
  (assignments vars).flatMap fun assignment => ["--env", assignment]

/-- One secret for each name, from the variable of that name. -/
def secretsOf (names : List String) : List String :=
  names.flatMap fun name => ["--secret", "id=" ++ name ++ ",env=" ++ name]

/-! ## Reading assignments -/

theorem lookup_toList (kvs : EnvMap) (name : String) :
    (List.lookup name.toList (kvs.map fun kv => (kv.1.toList, kv.2.toList))).map String.ofList =
      List.lookup name kvs := by
  induction kvs with
  | nil => rfl
  | cons kv kvs ih =>
    obtain ⟨key, value⟩ := kv
    rw [List.map_cons, List.lookup_cons, List.lookup_cons]
    by_cases hkey : name = key
    · subst hkey
      simp
    · have hlist : name.toList ≠ key.toList := fun h => hkey (String.toList_inj.mp h)
      rw [beq_false_of_ne hkey, beq_false_of_ne hlist]
      exact ih

theorem getenv_append (environ environ' : List String) (name : String) :
    getenv (environ ++ environ') name = (getenv environ' name).or (getenv environ name) := by
  rw [getenv, List.map_append, Assignments.read_append, Option.map_or]
  rfl

theorem getenv_assignments {kvs : EnvMap} (h : ∀ kv ∈ kvs, '=' ∉ kv.1.toList) (name : String) :
    getenv (assignments kvs) name = EnvMap.get kvs.reverse name := by
  have hentries : ((kvs.map fun kv => kv.1 ++ "=" ++ kv.2).map (·.toList)) =
      (kvs.map fun kv => (kv.1.toList, kv.2.toList)).map fun nv => nv.1 ++ '=' :: nv.2 := by
    rw [List.map_map, List.map_map]
    refine List.map_congr_left fun kv _ => ?_
    simp [String.toList_append]
  have hnames : ∀ nv ∈ kvs.map fun kv => (kv.1.toList, kv.2.toList), '=' ∉ nv.1 := by
    intro nv hnv
    obtain ⟨kv, hkv, rfl⟩ := List.mem_map.mp hnv
    exact h kv hkv
  rw [getenv, assignments, hentries, Assignments.read_map hnames, ← List.map_reverse, lookup_toList]
  rfl

/-! ## The variables of a build -/

/-- What the variables of a build are to be. -/
def configuredVar (opts : Options) (name : String) : Option String :=
  let installCmd := resolveInstallCommand opts.installCommand opts.framework
  if name = "PORT" then some (portOf opts.envVars)
  else
    ((EnvMap.get opts.envVars name).filter fun v => hasPrefix name "RAILPACK_" && !v.isEmpty).or
      (if name = "RAILPACK_INSTALL_CMD" ∧ installCmd.isEmpty = false then some installCmd else none)

theorem get_perm {m m' : EnvMap} (hm : (m.map (·.1)).Nodup) (h : m'.Perm m) (key : String) :
    EnvMap.get m' key = EnvMap.get m key := by
  have hm' : (m'.map (·.1)).Nodup := (h.map (·.1)).nodup_iff.mpr hm
  apply Option.ext
  intro value
  rw [EnvMap.get_eq_some_iff hm', EnvMap.get_eq_some_iff hm, h.mem_iff]

theorem get_railpackVars_eq {envVars : EnvMap} (hkeys : (envVars.map (·.1)).Nodup)
    (name : String) : EnvMap.get (railpackVars envVars).reverse name =
      (EnvMap.get envVars name).filter fun v => hasPrefix name "RAILPACK_" && !v.isEmpty := by
  have hrailpack : ((railpackVars envVars).map (·.1)).Nodup :=
    hkeys.sublist (List.filter_sublist.map _)
  rw [EnvMap.get_reverse hrailpack]
  apply Option.ext
  intro value
  rw [EnvMap.get_eq_some_iff hrailpack, Option.filter_eq_some_iff, EnvMap.get_eq_some_iff hkeys,
    railpackVars, List.mem_filter]

/-- The variables do not depend on the order of the map. -/
theorem givenVar_eq {opts : Options} (hkeys : (opts.envVars.map (·.1)).Nodup) {envVars : EnvMap}
    (henv : envVars.Perm opts.envVars) (name : String) :
    givenVar { opts with envVars } name = configuredVar opts name := by
  have hnodup : (envVars.map (·.1)).Nodup := (henv.map (·.1)).nodup_iff.mpr hkeys
  have hport : portOf envVars = portOf opts.envVars := by
    rw [portOf, get_perm hkeys henv, portOf]
  have hinstall (installCmd : String) :
      EnvMap.get (if installCmd.isEmpty then [] else
        [("RAILPACK_INSTALL_CMD", installCmd)]).reverse name =
          if name = "RAILPACK_INSTALL_CMD" ∧ installCmd.isEmpty = false then some installCmd
          else none := by
    by_cases hempty : installCmd.isEmpty = true
    · simp [hempty, EnvMap.get]
    · by_cases hcmd : name = "RAILPACK_INSTALL_CMD"
      · simp [hempty, hcmd, EnvMap.get]
      · simp [hempty, hcmd, EnvMap.get]
  rw [givenVar, buildVars, List.reverse_append, List.reverse_append, EnvMap.get_append,
    EnvMap.get_append, get_railpackVars_eq hnodup, get_perm hkeys henv, List.reverse_singleton,
    EnvMap.get_cons, configuredVar, hport, hinstall]
  by_cases hname : name = "PORT"
  · have hother : hasPrefix name "RAILPACK_" = false := by
      rw [hname]
      decide
    rw [if_pos hname.symm, if_pos hname, hother]
    simp
  · rw [if_neg (Ne.symm hname), if_neg hname]
    rfl

theorem name_of_mem_buildVars {opts : Options} {kv : String × String} (h : kv ∈ buildVars opts) :
    kv.1 = "PORT" ∨ hasPrefix kv.1 "RAILPACK_" = true := by
  simp only [buildVars, List.mem_append, List.mem_singleton] at h
  rcases h with (h | rfl) | h
  · split at h
    · cases h
    · rw [List.mem_singleton.mp h]
      right
      show hasPrefix "RAILPACK_INSTALL_CMD" "RAILPACK_" = true
      decide
  · exact Or.inl rfl
  · have hkept := (List.mem_filter.mp h).2
    rw [Bool.and_eq_true] at hkept
    exact Or.inr hkept.1

/-- The variables of a build change no other variable of the process, whatever their names. -/
theorem getenv_buildctlEnv (environ : List String) (opts : Options) {name : String}
    (hport : name ≠ "PORT") (hname : hasPrefix name "RAILPACK_" = false) :
    getenv (buildctlEnv environ opts) name = getenv environ name := by
  have hnone : getenv (assignments (buildVars opts)) name = none := by
    rw [getenv, Option.map_eq_none_iff]
    refine Assignments.read_eq_none fun entry hentry nv hcut heq => ?_
    obtain ⟨text, htext, rfl⟩ := List.mem_map.mp hentry
    obtain ⟨kv, hkv, rfl⟩ := List.mem_map.mp htext
    have hentry : (kv.1 ++ "=" ++ kv.2).toList = kv.1.toList ++ '=' :: kv.2.toList := by
      simp [String.toList_append]
    rw [hentry] at hcut
    rcases name_of_mem_buildVars hkv with hkey | hkey
    · rw [hkey, Assignments.cut_assignment (by decide), Option.some.injEq] at hcut
      rw [← hcut, String.toList_inj] at heq
      exact hport heq.symm
    · have hbegins : "RAILPACK_".toList <+: kv.1.toList ++ '=' :: kv.2.toList := by
        rw [hasPrefix, List.isPrefixOf_iff_prefix] at hkey
        exact hkey.trans (List.prefix_append _ _)
      have hcutname := Assignments.prefix_of_cut (by decide) hbegins hcut
      rw [heq, ← List.isPrefixOf_iff_prefix, ← hasPrefix, hname] at hcutname
      cases hcutname
  rw [buildctlEnv, getenv_append, ← assignments, hnone, Option.none_or]

/-- Another order of the map gives the same variables in another order. -/
theorem buildVars_perm {opts : Options} (hkeys : (opts.envVars.map (·.1)).Nodup)
    {envVars : EnvMap} (henv : envVars.Perm opts.envVars) :
    (buildVars { opts with envVars }).Perm (buildVars opts) := by
  have hport : portOf envVars = portOf opts.envVars := by
    rw [portOf, get_perm hkeys henv, portOf]
  rw [buildVars, buildVars, hport]
  exact (henv.filter _).append_left _

/-- Both commands are given the same variables, each name with the same last value, in whichever
orders the two loops go over the map.  `buildctl` has the value of each in its environment as long
as no name holds the sign that ends it, and all other variables of the process as they were. -/
theorem commands_agree (environ : List String) {opts : Options}
    (hkeys : (opts.envVars.map (·.1)).Nodup) {prepared built : EnvMap}
    (hprepared : prepared.Perm opts.envVars) (hbuilt : built.Perm opts.envVars) :
    ∃ told kept : EnvMap,
      prepareArgs { opts with envVars := prepared } = planArgs opts ++ envArgs told ∧
      secretArgs { opts with envVars := built } = secretsOf (kept.map (·.1)) ∧
      buildctlEnv environ { opts with envVars := built } = environ ++ assignments kept ∧
      told.Perm kept ∧
      ∀ name, EnvMap.get told.reverse name = configuredVar opts name ∧
        EnvMap.get kept.reverse name = configuredVar opts name ∧
        ((∀ kv ∈ railpackVars opts.envVars, '=' ∉ kv.1.toList) →
          getenv (environ ++ assignments kept) name =
            (configuredVar opts name).or (getenv environ name)) ∧
        (name ≠ "PORT" → hasPrefix name "RAILPACK_" = false →
          getenv (environ ++ assignments kept) name = getenv environ name) := by
  have hgiven {envVars : EnvMap} (henv : envVars.Perm opts.envVars) (name : String) :
      EnvMap.get (buildVars { opts with envVars }).reverse name = configuredVar opts name :=
    givenVar_eq hkeys henv name
  refine ⟨buildVars { opts with envVars := prepared }, buildVars { opts with envVars := built },
    ?_, ?_, rfl, (buildVars_perm hkeys hprepared).trans (buildVars_perm hkeys hbuilt).symm,
    fun name => ⟨hgiven hprepared name, hgiven hbuilt name, fun hplain => ?_, ?_⟩⟩
  · rw [prepareArgs, envArgs, assignments, List.flatMap_map]
    rfl
  · rw [secretArgs, secretsOf, List.flatMap_map]
  · have hnames : ∀ kv ∈ buildVars { opts with envVars := built }, '=' ∉ kv.1.toList := by
      intro kv hkv
      simp only [buildVars, List.mem_append, List.mem_singleton] at hkv
      rcases hkv with (hkv | rfl) | hkv
      · split at hkv
        · cases hkv
        · rw [List.mem_singleton.mp hkv]
          show '=' ∉ "RAILPACK_INSTALL_CMD".toList
          decide
      · show '=' ∉ "PORT".toList
        decide
      · exact hplain kv ((hbuilt.filter _).mem_iff.mp hkv)
    rw [getenv_append, getenv_assignments hnames, hgiven hbuilt]
  · exact getenv_buildctlEnv environ _

def shopOptions : Options where
  installCommand := "npm ci"
  buildCommand := "npm run build"
  runCommand := ""
  framework := "nextjs"
  envVars := [("PORT", "8080"), ("RAILPACK_NODE_VERSION", "20"), ("GREETING", "hello")]

theorem commands_agree_shop :
    ∃ told kept : EnvMap,
      prepareArgs { shopOptions with envVars := shopOptions.envVars.reverse } =
        planArgs shopOptions ++ envArgs told ∧
      secretArgs shopOptions = secretsOf (kept.map (·.1)) ∧
      EnvMap.get told.reverse "RAILPACK_NODE_VERSION" = some "20" ∧
      getenv ("PATH=/bin" :: assignments kept) "RAILPACK_NODE_VERSION" = some "20" ∧
      getenv ("PATH=/bin" :: assignments kept) "PATH" = getenv ["PATH=/bin"] "PATH" := by
  have hkeys : (shopOptions.envVars.map (·.1)).Nodup := by decide
  have hconfigured : configuredVar shopOptions "RAILPACK_NODE_VERSION" = some "20" := by
    decide
  obtain ⟨told, kept, htold, hkept, -, -, h⟩ := commands_agree ["PATH=/bin"] hkeys
    (List.reverse_perm shopOptions.envVars) (List.Perm.refl _)
  obtain ⟨hvalue, -, henv, -⟩ := h "RAILPACK_NODE_VERSION"
  rw [hconfigured] at hvalue henv
  exact ⟨told, kept, htold, hkept, hvalue, henv (by decide),
    (h "PATH").2.2.2 (by decide) (by decide)⟩

end Builder
end Worker
end Code2Cloud
