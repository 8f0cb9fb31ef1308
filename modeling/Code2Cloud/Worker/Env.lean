import Code2Cloud.Worker.GoString
import Mathlib.Data.List.Nodup

/-!
# Environment variables of a container

Go's `map[string]string` as a list of pairs with one entry for each key, and the
variables that `processJob` hands to the container.
-/

namespace Code2Cloud
namespace Worker

abbrev EnvMap := List (String × String)

namespace EnvMap

def get (m : EnvMap) (key : String) : Option String := List.lookup key m

/-- `m[key] = value` -/
def set (m : EnvMap) (key value : String) : EnvMap :=
  if (get m key).isSome then m.map fun kv => if kv.1 = key then (key, value) else kv
  else m ++ [(key, value)]

/-- `MergeEnvVars`: a later map wins. -/
def merge (maps : List EnvMap) : EnvMap :=
  maps.flatten.foldl (fun m kv => set m kv.1 kv.2) []

theorem get_cons (kv : String × String) (m : EnvMap) (key : String) :
    get (kv :: m) key = if kv.1 = key then some kv.2 else get m key := by
  obtain ⟨k, value⟩ := kv
  rw [get, List.lookup_cons]
  by_cases h : k = key
  · subst h
    simp
  · have hne : (key == k) = false := by simpa using fun heq : key = k => h heq.symm
    simp only [hne, h, if_false]
    rfl

theorem get_append (m m' : EnvMap) (key : String) :
    get (m ++ m') key = (get m key).or (get m' key) :=
  List.lookup_append

theorem get_map_set (m : EnvMap) (k value key : String) :
    get (m.map fun kv => if kv.1 = k then (k, value) else kv) key =
      if k = key then (get m key).map fun _ => value else get m key := by
  induction m with
  | nil => simp [get]
  | cons kv m ih =>
    rw [List.map_cons, get_cons, get_cons, ih]
    by_cases hk : kv.1 = k
    · by_cases hkey : k = key <;> simp [hk, hkey]
    · rw [if_neg hk]
      by_cases hkey : k = key
      · subst hkey
        simp [hk]
      · simp [hkey]

theorem get_set (m : EnvMap) (k value key : String) :
    get (set m k value) key = if k = key then some value else get m key := by
  rw [set]
  by_cases hk : (get m k).isSome = true
  · rw [if_pos hk, get_map_set]
    by_cases hkey : k = key
    · subst hkey
      obtain ⟨v, hv⟩ := Option.isSome_iff_exists.mp hk
      simp [hv]
    · simp [hkey]
  · rw [if_neg hk, get_append, get_cons]
    by_cases hkey : k = key
    · subst hkey
      simp [Option.not_isSome_iff_eq_none.mp hk]
    · simp [hkey, get]

theorem get_foldl_set (kvs m : EnvMap) (key : String) :
    get (kvs.foldl (fun m kv => set m kv.1 kv.2) m) key = (get kvs.reverse key).or (get m key) := by
  induction kvs generalizing m with
  | nil => simp [get]
  | cons kv kvs ih =>
    rw [List.foldl_cons, ih, get_set, List.reverse_cons, get_append, get_cons]
    by_cases hkey : kv.1 = key <;> simp [hkey, get]

/-- With one entry for each key, what a key leads to is what is listed under it. -/
theorem get_eq_some_iff {m : EnvMap} (hm : (m.map (·.1)).Nodup) {key value : String} :
    get m key = some value ↔ (key, value) ∈ m := by
  induction m with
  | nil => simp [get]
  | cons kv m ih =>
    rw [List.map_cons, List.nodup_cons] at hm
    rw [get_cons, List.mem_cons]
    by_cases hkey : kv.1 = key
    · subst hkey
      rw [if_pos rfl, Option.some.injEq]
      constructor
      · rintro rfl
        exact Or.inl rfl
      · rintro (h | h)
        · exact (Prod.mk.inj h).2.symm
        · exact absurd (List.mem_map_of_mem h) hm.1
    · rw [if_neg hkey, ih hm.2]
      constructor
      · exact Or.inr
      · rintro (h | h)
        · exact absurd (congrArg Prod.fst h).symm hkey
        · exact h

theorem get_reverse {m : EnvMap} (hm : (m.map (·.1)).Nodup) (key : String) :
    get m.reverse key = get m key := by
  have hrev : (m.reverse.map (·.1)).Nodup := by
    rw [List.map_reverse]
    exact List.nodup_reverse.mpr hm
  apply Option.ext
  intro value
  rw [get_eq_some_iff hm, get_eq_some_iff hrev, List.mem_reverse]

theorem get_merge {m m' : EnvMap} (hm : (m.map (·.1)).Nodup) (hm' : (m'.map (·.1)).Nodup)
    (key : String) : get (merge [m, m']) key = (get m' key).or (get m key) := by
  have hflat : [m, m'].flatten = m ++ m' := by simp
  rw [merge, get_foldl_set, hflat, List.reverse_append, get_append, get_reverse hm,
    get_reverse hm']
  simp [get]

theorem nodup_set {m : EnvMap} (hm : (m.map (·.1)).Nodup) (k value : String) :
    ((set m k value).map (·.1)).Nodup := by
  rw [set]
  split
  · have hkeys : (m.map fun kv => if kv.1 = k then (k, value) else kv).map (·.1) =
        m.map (·.1) := by
      rw [List.map_map]
      refine List.map_congr_left fun kv _ => ?_
      by_cases hkv : kv.1 = k <;> simp [hkv]
    rw [hkeys]
    exact hm
  · rename_i hnone
    rw [List.map_append, List.map_singleton, ← List.concat_eq_append]
    refine hm.concat fun hmem => hnone ?_
    obtain ⟨⟨_, v⟩, hkv, rfl⟩ := List.mem_map.mp hmem
    rw [(get_eq_some_iff hm).mpr hkv]
    rfl

theorem nodup_merge (maps : List EnvMap) : ((merge maps).map (·.1)).Nodup := by
  have hfold (kvs : EnvMap) : ∀ m : EnvMap, (m.map (·.1)).Nodup →
      ((kvs.foldl (fun m kv => set m kv.1 kv.2) m).map (·.1)).Nodup := by
    induction kvs with
    | nil => exact fun _ hm => hm
    | cons kv kvs ih => exact fun m hm => ih _ (nodup_set hm kv.1 kv.2)
  exact hfold _ [] (by simp)

theorem merge_singleton {m : EnvMap} (hm : (m.map (·.1)).Nodup) : merge [m] = m := by
  have hfold (kvs : EnvMap) : ∀ before : EnvMap, ((before ++ kvs).map (·.1)).Nodup →
      kvs.foldl (fun m kv => set m kv.1 kv.2) before = before ++ kvs := by
    induction kvs with
    | nil => simp
    | cons kv kvs ih =>
      intro before hnodup
      have hfresh : get before kv.1 = none := by
        rw [Option.eq_none_iff_forall_ne_some]
        intro value hvalue
        rw [List.map_append, List.map_cons, List.nodup_append] at hnodup
        have hmem := List.mem_map_of_mem (f := (·.1)) ((get_eq_some_iff hnodup.1).mp hvalue)
        exact hnodup.2.2 kv.1 hmem kv.1 List.mem_cons_self rfl
      rw [List.foldl_cons, set, hfresh]
      simp only [Option.isSome_none, Bool.false_eq_true, if_false]
      rw [ih (before ++ [kv]) (by simpa using hnodup), List.append_assoc, List.singleton_append]
  rw [merge, List.flatten_singleton, hfold m [] (by simpa using hm), List.nil_append]

end EnvMap

/-- The decimal digits of `strconv.ParseInt(s, 10, 32)`; a sign may precede them. -/
def parseDigits (cs : List Char) : Option Nat :=
  if cs.isEmpty || !cs.all Char.isDigit then none
  else some (cs.foldl (fun n c => 10 * n + (c.toNat - '0'.toNat)) 0)

/-- `PORT` when it parses to a port number, and 3000 otherwise. -/
def resolvePort (envVars : EnvMap) : Nat :=
  match envVars.get "PORT" with
  | none => 3000
  | some portStr =>
    let digits := match portStr.toList with
      | '+' :: cs => cs
      | cs => cs
    match parseDigits digits with
    | some port => if 0 < port ∧ port ≤ 65535 then port else 3000
    | none => 3000

/-- `strings.ToLower` on the text of a framework. -/
def lowerText (s : String) : String := String.ofList (s.toList.map Case.toLower)

def frameworkRuntimePortEnv (framework : String) (port : Nat) : EnvMap :=
  let portStr := toString port
  match lowerText framework with
  | "nextjs" => [("PORT", portStr), ("HOSTNAME", "0.0.0.0")]
  | "vite" | "vue" | "sveltekit" | "astro" => [("PORT", portStr), ("HOST", "0.0.0.0")]
  | "nuxt" | "nuxtjs" =>
    [("PORT", portStr), ("HOST", "0.0.0.0"), ("NUXT_PORT", portStr), ("NUXT_HOST", "0.0.0.0")]
  | "django" => [("PORT", portStr), ("ALLOWED_HOSTS", "*")]
  | "flask" =>
    [("PORT", portStr), ("FLASK_RUN_PORT", portStr), ("FLASK_RUN_HOST", "0.0.0.0")]
  | "fastapi" => [("PORT", portStr), ("UVICORN_PORT", portStr), ("UVICORN_HOST", "0.0.0.0")]
  | "streamlit" =>
    [("PORT", portStr), ("STREAMLIT_SERVER_PORT", portStr),
      ("STREAMLIT_SERVER_ADDRESS", "0.0.0.0")]
  | _ => [("PORT", portStr)]

def runtimeEnvVars (jobEnv : EnvMap) (framework : String) : EnvMap :=
  let port := resolvePort jobEnv
  (EnvMap.merge [jobEnv, frameworkRuntimePortEnv framework port]).set "PORT" (toString port)

/-- The container's variables as `CreateOrUpdateDeployment` writes them: `PORT` and
`NODE_ENV` are added where absent. -/
def containerEnv (envVars : EnvMap) (port : Nat) : EnvMap :=
  let env := if (envVars.get "PORT").isSome then envVars
    else envVars ++ [("PORT", toString port)]
  if (envVars.get "NODE_ENV").isSome then env else env ++ [("NODE_ENV", "production")]

end Worker
end Code2Cloud
