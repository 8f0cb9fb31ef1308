import Code2Cloud.System.Rows

/-!
# Redeploys and pushes

The two requests that insert the rows of deployments for projects that exist, and the commands that
they issue.
-/

namespace Code2Cloud
namespace System

open Api Worker

variable {cfg : Config} {w : World}

def Call.builds : Call → Bool
  | .createDeployment _ | .push _ => true
  | _ => false

def Command.builds : Command → Bool
  | .skip | .createDeployment _ | .createRedeployment _ | .addBuildJob _ | .publishCancelSignal _
  | .writeStatus _ .webhookCancel => true
  | _ => false

theorem builds_query {σ : Type} (o : Outcome) (ok err : σ) :
    (query o (.pure ok) (.pure err) : Turn σ).command.builds = true := by
  unfold query
  split <;> rfl

theorem builds_issue {σ : Type} (w : World) (o : Outcome) {c : Command} (hc : c.builds = true)
    (ok err : σ) (entries errors : List Entry) :
    (issue w o c ok err entries errors).command.builds = true := by
  rcases command_issue w o c ok err entries errors with h | h <;> rw [h]
  · exact hc
  · rfl

theorem builds_call (cfg : Config) (w : World) {c : Call} (hc : c.builds = true) (r : Reply) :
    (c.step cfg w r).command.builds = true := by
  cases c with
  | createDeployment c =>
    rw [Call.step, Turn.command_map]
    cases c with
    | getLatestCommit => rfl
    | insert | enqueue => exact builds_issue w _ rfl _ _ _ _
    | _ => exact builds_query _ _ _
  | push c =>
    rw [Call.step, Turn.command_map]
    cases c with
    | findProjects payload =>
      rw [WebhooksService.Push.step]
      split
      · rfl
      · split
        · rfl
        · exact builds_query _ _ _
    | findSystemConfig => exact builds_query _ _ _
    | publish | markCanceled | insert | enqueue => exact builds_issue w _ rfl _ _ _ _
  | _ => cases hc

theorem builds_next {c c' : Call} (hc : c.builds = true) {r : Reply}
    (h : (c.step cfg w r).next = some c') : c'.builds = true := by
  cases c with
  | createDeployment c | push c =>
    obtain ⟨x, _, rfl⟩ := toCall_eq_some h
    rfl
  | _ => cases hc

end System
end Code2Cloud
