import Code2Cloud.System.BuildWorker
import Code2Cloud.Worker.Builder

/-!
# Ports

A build derives a port for the cluster from the number in `PORT`, and one for the builder from its
text; a static site listens where its start command says.
-/

namespace Code2Cloud
namespace System

open Api Worker BuildWorker

variable {env : EnvMap} {framework : String} {port : Nat}

theorem nodup_frameworkRuntimePortEnv :
    ((frameworkRuntimePortEnv framework port).map (·.1)).Nodup := by
  unfold frameworkRuntimePortEnv
  split <;> simp

end System
end Code2Cloud
