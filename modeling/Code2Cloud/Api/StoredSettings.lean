import Code2Cloud.Api.Methods

/-!
# Settings, written and read again

What `getConfig` returns after `updateConfig`.
-/

namespace Code2Cloud
namespace Api
namespace SettingsService

variable (e : EncryptionService) (iv : Iv)

def upserted (st : Store) (userId : UserId) (dto : UpdateSettingsDto) : Store :=
  { st with db := { st.db with systemConfigs := upsert e iv userId dto st.db.systemConfigs } }

def updateConfig (st : Store) (userId : UserId) (dto : UpdateSettingsDto) :
    Store × Except HttpException Result :=
  let st' := upserted e iv st userId dto
  (st', (Methods.SettingsService.updateConfig userId dto).result fun _ => st')

def getConfig (st : Store) (userId : UserId) : Except HttpException Result :=
  (Methods.SettingsService.getConfig e userId).result fun _ => upserted e iv st userId {}

/-- The row of a user, or the one that `getConfig` makes. -/
def previous (st : Store) (userId : UserId) : SystemConfig :=
  (st.db.systemConfigOf userId).getD { userId }

/-- Whether the webhook of a row is shown, and as what; none and an empty one are the same. -/
def shownWebhook (c : SystemConfig) : Option String :=
  match decrypted e c with
  | .ok c => some (c.slackWebhook.getD "")
  | .error _ => none

/-- A submitted webhook is no blank text, and where it is empty, none was shown before; where none
is submitted, the stored one can be decrypted. -/
def Kept (old : SystemConfig) (dto : UpdateSettingsDto) : Prop :=
  match dto.slackWebhook with
  | none => shownWebhook e old ≠ none
  | some s => s.toList.all isTrimmed = false ∨ s = "" ∧ shownWebhook e old = some ""

variable {e iv}

/-! ## One row -/

end SettingsService
end Api
end Code2Cloud
