import Code2Cloud.Api.Database
import Code2Cloud.Api.Encryption

/-!
# Stored variables

`EnvVarsService`, and what the listings make of the variables that were stored
encrypted.
-/

namespace Code2Cloud
namespace Api

structure EnvVarItem where
  key : String
  value : String
  targets : List EnvironmentType
  deriving DecidableEq

namespace EnvironmentVariables

variable (e : EncryptionService)

def plain (projectId : ProjectId) (v : EnvVarItem) : EnvironmentVariable :=
  { key := v.key, value := v.value, targets := v.targets, projectId }

def encryptAll (ivs : Nat → Iv) : List EnvironmentVariable → List EnvironmentVariable
  | [] => []
  | v :: vs => { v with value := e.encrypt (ivs vs.length) v.value } :: encryptAll ivs vs

/-- Decrypt the value of every row; the first failure is an uncaught error. -/
def decryptAll : List EnvironmentVariable → Except HttpException (List EnvironmentVariable)
  | [] => .ok []
  | v :: vs =>
    match e.decrypt v.value with
    | .error _ => .error .internal
    | .ok value => (decryptAll vs).map ({ v with value } :: ·)

def Stores (plain row : EnvironmentVariable) : Prop :=
  ∃ iv, row = { plain with value := e.encrypt iv plain.value }

theorem stores_encryptAll (ivs : Nat → Iv) (vs : List EnvironmentVariable) :
    List.Forall₂ (Stores e) vs (encryptAll e ivs vs) := by
  induction vs with
  | nil => exact List.Forall₂.nil
  | cons v vs ih => exact List.Forall₂.cons ⟨ivs vs.length, rfl⟩ ih

theorem projectId_of_mem_encryptAll {ivs : Nat → Iv} {vs : List EnvironmentVariable}
    {row : EnvironmentVariable} (h : row ∈ encryptAll e ivs vs) :
    ∃ v ∈ vs, row.projectId = v.projectId := by
  induction vs with
  | nil => simp [encryptAll] at h
  | cons v vs ih =>
    rw [encryptAll] at h
    rcases List.mem_cons.mp h with rfl | h
    · exact ⟨v, List.mem_cons_self, rfl⟩
    · obtain ⟨w, hw, hrow⟩ := ih h
      exact ⟨w, List.mem_cons_of_mem v hw, hrow⟩

variable {e}

/-- Stored variables decrypt to what was stored, unless one of them is empty: then
the whole listing fails. -/
theorem decryptAll_stored {vs rows : List EnvironmentVariable}
    (h : List.Forall₂ (Stores e) vs rows) :
    decryptAll e rows = if ∀ v ∈ vs, v.value ≠ "" then .ok vs else .error .internal := by
  induction h with
  | nil => rfl
  | @cons v row vs rows hrow hrows ih =>
    obtain ⟨iv, rfl⟩ := hrow
    rw [decryptAll, EncryptionService.decrypt_encrypt]
    by_cases hv : v.value = ""
    · simp [hv]
    · rw [if_neg hv, ih]
      by_cases hvs : ∀ w ∈ vs, w.value ≠ ""
      · rw [if_pos hvs, if_pos (by simpa [hv] using hvs)]
        rfl
      · rw [if_neg hvs, if_neg (by simpa [hv] using hvs)]
        rfl

theorem decryptAll_eq_ok_iff {vs rows : List EnvironmentVariable}
    (h : List.Forall₂ (Stores e) vs rows) :
    decryptAll e rows = .ok vs ↔ ∀ v ∈ vs, v.value ≠ "" := by
  rw [decryptAll_stored h]
  split
  · rename_i hvs
    exact ⟨fun _ => hvs, fun _ => rfl⟩
  · rename_i hvs
    exact ⟨fun hok => by simp at hok, fun hall => absurd hall hvs⟩

theorem decryptAll_cons_eq_ok {row : EnvironmentVariable} {rows vs : List EnvironmentVariable}
    (h : decryptAll e (row :: rows) = .ok vs) :
    ∃ value rest, e.decrypt row.value = .ok value ∧ decryptAll e rows = .ok rest ∧
      vs = { row with value } :: rest := by
  rw [decryptAll] at h
  cases hvalue : e.decrypt row.value with
  | error error => simp [hvalue] at h
  | ok value =>
    simp only [hvalue] at h
    cases hrest : decryptAll e rows with
    | error error => simp [hrest, Except.map] at h
    | ok rest =>
      simp only [hrest, Except.map, Except.ok.injEq] at h
      exact ⟨value, rest, rfl, rfl, h.symm⟩

theorem map_decryptAll {β : Type} {f : EnvironmentVariable → β}
    (hf : ∀ (v : EnvironmentVariable) value, f { v with value } = f v)
    {rows vs : List EnvironmentVariable} (h : decryptAll e rows = .ok vs) :
    vs.map f = rows.map f := by
  induction rows generalizing vs with
  | nil =>
    cases h
    rfl
  | cons row rows ih =>
    obtain ⟨value, rest, _, hrest, rfl⟩ := decryptAll_cons_eq_ok h
    rw [List.map_cons, List.map_cons, ih hrest, hf]

theorem key_decryptAll {rows vs : List EnvironmentVariable} (h : decryptAll e rows = .ok vs) :
    vs.map (·.key) = rows.map (·.key) :=
  map_decryptAll (fun _ _ => rfl) h

theorem projectId_of_mem_decryptAll {rows vs : List EnvironmentVariable}
    (h : decryptAll e rows = .ok vs) {v : EnvironmentVariable} (hv : v ∈ vs) :
    ∃ row ∈ rows, row.projectId = v.projectId := by
  have hmem : v.projectId ∈ vs.map (·.projectId) := List.mem_map_of_mem hv
  rw [map_decryptAll (fun _ _ => rfl) h] at hmem
  exact List.mem_map.mp hmem

/-- What decryption lists under a key is the decrypted value of a row with that key. -/
theorem mem_decryptAll {rows vs : List EnvironmentVariable} (h : decryptAll e rows = .ok vs)
    {key value : String} :
    (∃ v ∈ vs, v.key = key ∧ v.value = value) ↔
      ∃ row ∈ rows, row.key = key ∧ e.decrypt row.value = .ok value := by
  induction rows generalizing vs with
  | nil =>
    cases h
    simp
  | cons row rows ih =>
    obtain ⟨plain, rest, hvalue, hrest, rfl⟩ := decryptAll_cons_eq_ok h
    rw [List.exists_mem_cons_iff, List.exists_mem_cons_iff, ih hrest, hvalue, Except.ok.injEq]

theorem exists_decrypt {rows vs : List EnvironmentVariable} (h : decryptAll e rows = .ok vs)
    {row : EnvironmentVariable} (hrow : row ∈ rows) : ∃ value, e.decrypt row.value = .ok value := by
  induction rows generalizing vs with
  | nil => cases hrow
  | cons row' rows ih =>
    obtain ⟨plain, rest, hvalue, hrest, -⟩ := decryptAll_cons_eq_ok h
    rcases List.mem_cons.mp hrow with rfl | hrow
    · exact ⟨plain, hvalue⟩
    · exact ih hrest hrow

/-! ## Order -/

/-- `orderBy: { key: 'asc' }` under the database's collation. -/
def orderByKey (collation : String → String → Bool) (vs : List EnvironmentVariable) :
    List EnvironmentVariable :=
  vs.insertionSort fun a b => collation a.key b.key = true

theorem stores_orderedInsert (collation : String → String → Bool)
    {v row : EnvironmentVariable} (hrow : Stores e v row) {vs rows : List EnvironmentVariable}
    (h : List.Forall₂ (Stores e) vs rows) :
    List.Forall₂ (Stores e) (vs.orderedInsert (fun a b => collation a.key b.key = true) v)
      (rows.orderedInsert (fun a b => collation a.key b.key = true) row) := by
  induction h with
  | nil => exact List.Forall₂.cons hrow List.Forall₂.nil
  | @cons w row' vs rows hrow' hrows ih =>
    have hkey : row.key = v.key := by obtain ⟨iv, rfl⟩ := hrow; rfl
    have hkey' : row'.key = w.key := by obtain ⟨iv, rfl⟩ := hrow'; rfl
    rw [List.orderedInsert_cons, List.orderedInsert_cons, hkey, hkey']
    split
    · exact List.Forall₂.cons hrow (List.Forall₂.cons hrow' hrows)
    · exact List.Forall₂.cons hrow' ih

theorem stores_orderByKey (collation : String → String → Bool) {vs rows : List EnvironmentVariable}
    (h : List.Forall₂ (Stores e) vs rows) :
    List.Forall₂ (Stores e) (orderByKey collation vs) (orderByKey collation rows) := by
  induction h with
  | nil => exact List.Forall₂.nil
  | cons hrow _ ih => exact stores_orderedInsert collation hrow ih

end EnvironmentVariables

/-! ## The service -/

namespace EnvVarsService

open EnvironmentVariables

variable (e : EncryptionService) (collation : String → String → Bool)

/-- Replace a project's variables; `ivs` are the nonces drawn. -/
def saveAll (ivs : Nat → Iv) (now : Nat) (db : Database) (userId : UserId)
    (projectId : ProjectId) (items : List EnvVarItem) : Except HttpException Database :=
  match db.findOwnedProject projectId userId with
  | none => .error (.notFound "Project not found")
  | some _ =>
    -- the inserts of one call meet only each other: the old rows are gone
    if (items.map (·.key)).Nodup then
      .ok ((db.replaceEnvironmentVariables projectId
        (encryptAll e ivs (items.map (plain projectId)))).updateProject projectId
          fun p => { p with configChanged := true, updatedAt := now })
    else .error .internal

def findAll (db : Database) (userId : UserId) (projectId : ProjectId) :
    Except HttpException (List EnvironmentVariable) :=
  match db.findOwnedProject projectId userId with
  | none => .error (.notFound "Project not found")
  | some _ => decryptAll e (orderByKey collation (db.environmentVariablesOf projectId))

theorem findOwnedProject_updateProject (db : Database) (id : ProjectId) (userId : UserId)
    {f : Project → Project} (hid : ∀ p, (f p).id = p.id) (huser : ∀ p, (f p).userId = p.userId)
    (target : ProjectId) :
    ((db.updateProject target f).findOwnedProject id userId).isSome =
      (db.findOwnedProject id userId).isSome := by
  rw [Database.findOwnedProject, Database.findOwnedProject, Bool.eq_iff_iff, List.find?_isSome,
    List.find?_isSome]
  simp only [Database.updateProject, List.mem_map, exists_exists_and_eq_and]
  refine exists_congr fun p => and_congr_right fun _ => ?_
  split <;> simp [hid, huser]

theorem environmentVariablesOf_saveAll {ivs : Nat → Iv} {now : Nat} {db db' : Database}
    {userId : UserId} {projectId : ProjectId} {items : List EnvVarItem}
    (h : saveAll e ivs now db userId projectId items = .ok db') :
    db'.environmentVariablesOf projectId = encryptAll e ivs (items.map (plain projectId)) := by
  rw [saveAll] at h
  split at h
  · simp at h
  · split at h
    · injection h with h
      subst h
      have hold : ((db.environmentVariables.filter fun v => v.projectId != projectId).filter
          fun v => v.projectId == projectId) = [] := by
        rw [List.filter_filter, List.filter_eq_nil_iff]
        simp
      have hnew : ((encryptAll e ivs (items.map (plain projectId))).filter
          fun v => v.projectId == projectId) = encryptAll e ivs (items.map (plain projectId)) := by
        rw [List.filter_eq_self]
        intro row hrow
        obtain ⟨v, hv, hid⟩ := projectId_of_mem_encryptAll e hrow
        obtain ⟨item, _, rfl⟩ := List.mem_map.mp hv
        simpa [plain] using hid
      simp only [Database.environmentVariablesOf, Database.updateProject,
        Database.replaceEnvironmentVariables, List.filter_append, hold, hnew, List.nil_append]
    · simp at h

theorem findOwnedProject_saveAll {ivs : Nat → Iv} {now : Nat} {db db' : Database}
    {userId : UserId} {projectId : ProjectId} {items : List EnvVarItem}
    (h : saveAll e ivs now db userId projectId items = .ok db') :
    (db'.findOwnedProject projectId userId).isSome = true := by
  rw [saveAll] at h
  split at h
  · simp at h
  · rename_i hfound
    split at h
    · injection h with h
      subst h
      rw [findOwnedProject_updateProject]
      · exact Option.isSome_of_eq_some hfound
      · exact fun _ => rfl
      · exact fun _ => rfl
    · simp at h

/-- A save followed by a listing returns the submitted variables exactly when the
save succeeds and none of their values is empty. -/
theorem findAll_saveAll_iff (ivs : Nat → Iv) (now : Nat) (db : Database) (userId : UserId)
    (projectId : ProjectId) (items : List EnvVarItem) :
    (saveAll e ivs now db userId projectId items).bind
        (fun db' => findAll e collation db' userId projectId) =
      .ok (orderByKey collation (items.map (plain projectId))) ↔
    (∃ db', saveAll e ivs now db userId projectId items = .ok db') ∧
      ∀ v ∈ items, v.value ≠ "" := by
  cases hsave : saveAll e ivs now db userId projectId items with
  | error err => simp [Except.bind]
  | ok db' =>
    obtain ⟨p, hp⟩ := Option.isSome_iff_exists.mp (findOwnedProject_saveAll e hsave)
    have hstored := stores_orderByKey collation
      (stores_encryptAll e ivs (items.map (plain projectId)))
    have hvalues : (∀ v ∈ orderByKey collation (items.map (plain projectId)), v.value ≠ "") ↔
        ∀ v ∈ items, v.value ≠ "" := by
      simp [orderByKey, List.mem_insertionSort, plain]
    simp only [Except.bind, findAll, hp, environmentVariablesOf_saveAll e hsave,
      decryptAll_eq_ok_iff hstored, hvalues, Except.ok.injEq, exists_eq', true_and]

end EnvVarsService
end Api
end Code2Cloud
