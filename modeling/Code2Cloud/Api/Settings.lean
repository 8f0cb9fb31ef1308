import Code2Cloud.Api.Database
import Code2Cloud.Api.Encryption

/-!
# Settings

`SettingsService`: a user's configuration, which is made when it is first asked for, with the
webhook's address encrypted.
-/

namespace Code2Cloud
namespace Api
namespace SettingsService

variable (e : EncryptionService) (iv : Iv)

/-- What `trim` takes away. -/
def isTrimmed (c : Char) : Bool :=
  let n := c.toNat
  (0x09 ≤ n && n ≤ 0x0d) || (0x2000 ≤ n && n ≤ 0x200a) ||
    [0x20, 0xa0, 0x1680, 0x2028, 0x2029, 0x202f, 0x205f, 0x3000, 0xfeff].contains n

def webhookOf (dto : UpdateSettingsDto) : Option String :=
  match dto.slackWebhook with
  | none => none
  | some s =>
    if !s.toList.all isTrimmed then some (e.encrypt iv s) else if s.isEmpty then none else some s

def update (dto : UpdateSettingsDto) (c : SystemConfig) : SystemConfig :=
  { c with
    defaultRegion := dto.defaultRegion.getD c.defaultRegion
    maxConcurrentBuilds := dto.maxConcurrentBuilds.getD c.maxConcurrentBuilds
    logRetentionDays := dto.logRetentionDays.getD c.logRetentionDays
    turboMode := dto.turboMode.getD c.turboMode
    globalTTLMinutes := dto.globalTTLMinutes.getD c.globalTTLMinutes
    autoDeploy := dto.autoDeploy.getD c.autoDeploy
    slackWebhook := webhookOf e iv dto <|> c.slackWebhook
    emailDeployFailed := dto.emailDeployFailed.getD c.emailDeployFailed
    emailDeploySuccess := dto.emailDeploySuccess.getD c.emailDeploySuccess }

def create (userId : UserId) (dto : UpdateSettingsDto) : SystemConfig :=
  update e iv dto { userId }

/-- `systemConfig.upsert`: of `updateConfig`, and of `getConfig` with an empty dto. -/
def upsert (userId : UserId) (dto : UpdateSettingsDto) (configs : List SystemConfig) :
    List SystemConfig :=
  if configs.any fun c => c.userId == userId then
    configs.map fun c => if c.userId = userId then update e iv dto c else c
  else configs ++ [create e iv userId dto]

/-- `getConfig`: the row with its webhook decrypted. -/
def decrypted (c : SystemConfig) : Except HttpException SystemConfig :=
  match c.slackWebhook with
  | none => .ok c
  | some s =>
    if s.isEmpty then .ok c
    else
      match e.decrypt s with
      | .error _ => .error .internal
      | .ok webhook => .ok { c with slackWebhook := some webhook }

variable {e iv}

@[simp] theorem update_userId (dto : UpdateSettingsDto) (c : SystemConfig) :
    (update e iv dto c).userId = c.userId := rfl

theorem decrypted_userId {c c' : SystemConfig} (h : decrypted e c = .ok c') :
    c'.userId = c.userId := by
  unfold decrypted at h
  split at h
  · cases h
    rfl
  · split at h
    · cases h
      rfl
    · split at h <;> cases h
      rfl

theorem upsert_other {userId v : UserId} (hv : v ≠ userId) (dto : UpdateSettingsDto)
    (configs : List SystemConfig) :
    (upsert e iv userId dto configs).filter (fun c => c.userId == v) =
      configs.filter fun c => c.userId == v := by
  unfold upsert
  split
  · refine Table.filter_map_eq (fun c _ => ?_) fun c _ hc => ?_
    · split <;> rfl
    · exact if_neg fun hid => hv ((eq_of_beq hc).symm.trans hid)
  · rw [List.filter_append]
    have hnew : [create e iv userId dto].filter (fun c => c.userId == v) = [] := by
      simp [create, hv.symm]
    rw [hnew, List.append_nil]

theorem nodup_upsert {userId : UserId} {dto : UpdateSettingsDto} {configs : List SystemConfig}
    (h : (configs.map (·.userId)).Nodup) :
    ((upsert e iv userId dto configs).map (·.userId)).Nodup := by
  unfold upsert
  split
  · rw [List.map_map]
    refine Eq.mpr (congrArg List.Nodup (List.map_congr_left fun c _ => ?_)) h
    rw [Function.comp_apply]
    split <;> rfl
  · rename_i hnone
    rw [List.map_append, List.nodup_append]
    refine ⟨h, List.nodup_singleton _, ?_⟩
    rintro id hid id' hid' rfl
    obtain ⟨c, hc, rfl⟩ := List.mem_map.mp hid
    refine hnone (List.any_eq_true.mpr ⟨c, hc, ?_⟩)
    rw [beq_iff_eq]
    exact List.mem_singleton.mp hid'

end SettingsService
end Api
end Code2Cloud
