import Code2Cloud.Api.EnvVars
import Code2Cloud.Web.EnvFile
import Mathlib.Data.List.Nodup

/-!
# Importing into the variables of a project

`importEnvFile` of the panel puts what it read before the variables that are there, and
`saveEnvChanges` sends them all to `EnvVarsService.saveAll`.
-/

namespace Code2Cloud
namespace Web

open Api EnvFile Trim
open Api.SettingsService (isTrimmed)

structure EnvVar where
  id : String
  key : String
  value : String
  targets : List EnvironmentType
  deriving DecidableEq

namespace EnvVarsPanel

/-- The variables after an import; `generateId` draws the ids of the new ones. -/
def importEnvFile (generateId : Nat → String) (text : String) (prev : List EnvVar) : List EnvVar :=
  if parsed text = [] then prev
  else
    let existingKeys := prev.map (·.key)
    let fresh := ((parsed text).filter fun v => !existingKeys.contains v.key).mapIdx fun i v =>
      { id := generateId i, key := v.key, value := v.value, targets := [.production] }
    fresh ++ prev

/-- What is sent; nothing is while a key is blank. -/
def saveEnvChanges (envVars : List EnvVar) : Option (List EnvVarItem) :=
  if envVars.any fun v => trim isTrimmed v.key.toList = [] then none
  else some (envVars.map fun v => { key := v.key, value := v.value, targets := v.targets })

/-! ## What a line binds -/

/-- A key, a `=` behind it, blanks around both, and a value on one line. -/
def Binds (line key : List Char) : Prop :=
  key ≠ [] ∧ (∀ c ∈ key, isKeyChar c = true) ∧
    ∃ a w rest, a.all isTrimmed = true ∧ w.all isTrimmed = true ∧
      line = a ++ (key ++ (w ++ '=' :: rest)) ∧ (trim isTrimmed rest).all isDot = true

/-- The value may have line terminators behind it, where only blanks follow. -/
theorem scanValue_isSome_iff (rest : List Char) :
    (scanValue (rest.dropWhile isTrimmed)).isSome = true ↔
      (trim isTrimmed rest).all isDot = true := by
  rw [scanValue, trim]
  constructor
  · intro hsome
    split at hsome
    · next hall =>
      have hcut : (rest.dropWhile isTrimmed).takeWhile isDot ++
          (rest.dropWhile isTrimmed).dropWhile isDot = rest.dropWhile isTrimmed :=
        List.takeWhile_append_dropWhile
      rw [← hcut, rdropWhile_append_of_all hall]
      exact List.all_eq_true.mpr fun c hc =>
        List.mem_takeWhile_imp ((List.rdropWhile_prefix isTrimmed _).subset hc)
    · cases hsome
  · intro hall
    have hblank : ((rest.dropWhile isTrimmed).dropWhile isDot).all isTrimmed = true := by
      have hcut := List.rdropWhile_append_rtakeWhile (p := isTrimmed)
        (l := rest.dropWhile isTrimmed)
      rw [← hcut, dropWhile_append_of_all hall]
      exact List.all_eq_true.mpr fun c hc =>
        List.mem_rtakeWhile_imp ((List.dropWhile_suffix isDot).subset hc)
    rw [if_pos hblank]
    rfl

/-- The panel reads a key from a line exactly when the line binds it. -/
theorem binds_iff (line key : List Char) :
    Binds line key ↔ (parseEnvLine line).map (·.key) = some (String.ofList key) := by
  rw [parseEnvLine_eq, Option.map_map]
  constructor
  · rintro ⟨hne, hkey, a, w, rest, ha, hw, rfl, hrest⟩
    have hline : (a ++ (key ++ (w ++ '=' :: rest))).dropWhile isTrimmed =
        key ++ (w ++ '=' :: rest) := by
      rw [dropWhile_append_of_all ha]
      obtain ⟨c, key, rfl⟩ := List.exists_cons_of_ne_nil hne
      have hc : ¬isTrimmed c = true := by
        rw [isTrimmed_of_isKeyChar (hkey c List.mem_cons_self)]
        exact Bool.false_ne_true
      exact List.dropWhile_cons_of_neg hc
    obtain ⟨value, hvalue⟩ := Option.isSome_iff_exists.mp ((scanValue_isSome_iff rest).mpr hrest)
    rw [scanLine_eq hne hkey hw hline, hvalue]
    rfl
  · intro hparse
    obtain ⟨found, hfound, hpair⟩ := Option.map_eq_some_iff.mp hparse
    obtain ⟨hne, hkey, w, rest, hw, hline, hvalue⟩ := exists_of_scanLine hfound
    rw [String.ofList_injective hpair] at hne hkey hline
    refine ⟨hne, hkey, line.takeWhile isTrimmed, w, rest, List.all_takeWhile, hw, ?_, ?_⟩
    · rw [← hline, List.takeWhile_append_dropWhile]
    · rw [← scanValue_isSome_iff, hvalue]
      rfl

/-! ## The keys after an import -/

/-- What an import is to do: it keeps the keys apart and the variables that are there, it brings
every key of the file, and what is saved then meets no other row with its key. -/
structure Imported (text : String) (prev envVars : List EnvVar) : Prop where
  nodup : (envVars.map (·.key)).Nodup
  kept : prev <:+ envVars
  imported : ∀ v ∈ parsed text, v.key ∈ envVars.map (·.key)
  saved : ∀ (e : EncryptionService) (ivs : Nat → Iv) (now : Nat) (db : Database) (userId : UserId)
    (projectId : ProjectId) (items : List EnvVarItem), saveEnvChanges envVars = some items →
      EnvVarsService.saveAll e ivs now db userId projectId items ≠ .error .internal

/-- The keys that are new, in the order of the file. -/
def freshKeys (text : String) (prev : List EnvVar) : List String :=
  ((parsed text).map (·.key)).filter fun key => !(prev.map (·.key)).contains key

theorem keys_importEnvFile (generateId : Nat → String) (text : String) (prev : List EnvVar) :
    (importEnvFile generateId text prev).map (·.key) =
      freshKeys text prev ++ prev.map (·.key) := by
  rw [importEnvFile, freshKeys]
  split
  · next hnil => rw [hnil]; rfl
  · dsimp only
    rw [List.map_append, List.mapIdx_eq_zipIdx_map, List.map_map, List.filter_map]
    conv_rhs => rw [← List.zipIdx_map_fst 0 ((parsed text).filter _), List.map_map]
    rfl

theorem suffix_importEnvFile (generateId : Nat → String) (text : String) (prev : List EnvVar) :
    prev <:+ importEnvFile generateId text prev := by
  rw [importEnvFile]
  split
  · exact List.suffix_refl prev
  · exact List.suffix_append _ prev

theorem mem_keys_importEnvFile (generateId : Nat → String) {text : String} (prev : List EnvVar)
    {v : Pair} (hv : v ∈ parsed text) :
    v.key ∈ (importEnvFile generateId text prev).map (·.key) := by
  rw [keys_importEnvFile, List.mem_append]
  by_cases hold : v.key ∈ prev.map (·.key)
  · exact Or.inr hold
  · refine Or.inl (List.mem_filter.mpr ⟨List.mem_map_of_mem hv, ?_⟩)
    rw [Bool.not_eq_true', ← Bool.not_eq_true, List.contains_iff_mem]
    exact hold

/-- A save fails on the constraint only where a key is sent twice. -/
theorem saveAll_saveEnvChanges {envVars : List EnvVar} (h : (envVars.map (·.key)).Nodup)
    {items : List EnvVarItem} (hitems : saveEnvChanges envVars = some items)
    (e : EncryptionService) (ivs : Nat → Iv) (now : Nat) (db : Database) (userId : UserId)
    (projectId : ProjectId) :
    EnvVarsService.saveAll e ivs now db userId projectId items ≠ .error .internal := by
  have hkeys : items.map (·.key) = envVars.map (·.key) := by
    rw [saveEnvChanges] at hitems
    split at hitems
    · cases hitems
    · cases hitems
      rw [List.map_map]
      rfl
  rw [EnvVarsService.saveAll, hkeys, if_pos h]
  split
  · intro herror
    cases herror
  · intro herror
    cases herror

/-- Two lines do not bind the same key, or it is there already. -/
def Apart (text : String) (prev : List EnvVar) : Prop :=
  (lines text).Pairwise fun line line' => ∀ key, Binds line key → Binds line' key →
    String.ofList key ∈ prev.map (·.key)

theorem nodup_freshKeys_iff (text : String) (prev : List EnvVar) :
    (freshKeys text prev).Nodup ↔
      (parsed text).Pairwise fun v w => v.key = w.key → v.key ∈ prev.map (·.key) := by
  have hnew (key : String) :
      (!(prev.map (·.key)).contains key) = true ↔ key ∉ prev.map (·.key) := by
    rw [Bool.not_eq_true', ← Bool.not_eq_true, List.contains_iff_mem]
  rw [freshKeys, List.Nodup, List.pairwise_filter, List.pairwise_map]
  refine List.Pairwise.iff fun v w => ?_
  rw [hnew, hnew]
  constructor
  · intro hne heq
    by_contra hv
    exact hne hv (heq ▸ hv) heq
  · intro hold hv _ heq
    exact hv (hold heq)

theorem apart_iff (text : String) (prev : List EnvVar) :
    Apart text prev ↔
      (parsed text).Pairwise fun v w => v.key = w.key → v.key ∈ prev.map (·.key) := by
  rw [Apart, parsed, List.pairwise_filterMap]
  refine List.Pairwise.iff fun line line' => ?_
  constructor
  · intro hold v hv w hw heq
    have hkey (line : List Char) (v : Pair) (h : parseEnvLine line = some v) :
        Binds line v.key.toList := by
      rw [binds_iff, h, String.ofList_toList]
      rfl
    have hv' := hkey line v hv
    have hw' := hkey line' w hw
    rw [← heq] at hw'
    have hmem := hold v.key.toList hv' hw'
    rwa [String.ofList_toList] at hmem
  · intro hold key hline hline'
    obtain ⟨v, hv, hvkey⟩ := Option.map_eq_some_iff.mp ((binds_iff line key).mp hline)
    obtain ⟨w, hw, hwkey⟩ := Option.map_eq_some_iff.mp ((binds_iff line' key).mp hline')
    rw [← hvkey]
    exact hold v hv w hw (hvkey.trans hwkey.symm)

/-- An import does what it is to do exactly when the file names no new key twice. -/
theorem imported_iff (generateId : Nat → String) (text : String) {prev : List EnvVar}
    (h : (prev.map (·.key)).Nodup) :
    Imported text prev (importEnvFile generateId text prev) ↔ Apart text prev := by
  rw [apart_iff, ← nodup_freshKeys_iff]
  constructor
  · intro himported
    have hnodup := himported.nodup
    rw [keys_importEnvFile] at hnodup
    exact hnodup.of_append_left
  · intro hfresh
    have hnodup : ((importEnvFile generateId text prev).map (·.key)).Nodup := by
      rw [keys_importEnvFile]
      refine List.nodup_append.mpr ⟨hfresh, h, ?_⟩
      rintro key hkey _ hold rfl
      have hnew := (List.mem_filter.mp hkey).2
      rw [List.contains_iff_mem.mpr hold] at hnew
      cases hnew
    exact
      { nodup := hnodup
        kept := suffix_importEnvFile generateId text prev
        imported := fun v hv => mem_keys_importEnvFile generateId prev hv
        saved := fun e ivs now db userId projectId items hitems =>
          saveAll_saveEnvChanges hnodup hitems e ivs now db userId projectId }

/-- A file may name a key twice that is there already. -/
theorem imported_file :
    Imported "A=1\n# B\nC = '3'\nA=4"
      [{ id := "1", key := "A", value := "0", targets := [.preview] }]
      (importEnvFile toString "A=1\n# B\nC = '3'\nA=4"
        [{ id := "1", key := "A", value := "0", targets := [.preview] }]) := by
  refine (imported_iff toString _ (by decide)).mpr ?_
  rw [apart_iff]
  decide

/-- The second value of a new key is imported besides the first one. -/
theorem not_imported :
    ¬∀ (generateId : Nat → String) (text : String) (prev : List EnvVar),
      (prev.map (·.key)).Nodup → Imported text prev (importEnvFile generateId text prev) := by
  intro h
  have hnodup := (h toString "A=1\nA=2" [] List.nodup_nil).nodup
  exact absurd hnodup (by decide)

end EnvVarsPanel
end Web
end Code2Cloud
