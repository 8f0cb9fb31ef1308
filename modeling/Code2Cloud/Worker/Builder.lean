import Code2Cloud.Worker.Env
import Mathlib.Data.List.Basic

/-!
# The builder

The variables that `Builder.Build` hands to Railpack and BuildKit, and the start command of a
framework.
-/

namespace Code2Cloud
namespace Worker
namespace Builder

/-- `strings.Contains` -/
def contains (s sub : String) : Bool := s.toList.tails.any sub.toList.isPrefixOf

def hasPrefix (s pre : String) : Bool := pre.toList.isPrefixOf s.toList

/-- `unicode.IsSpace` -/
def isSpace (c : Char) : Bool :=
  let n := c.toNat
  (0x09 ≤ n && n ≤ 0x0d) || (0x2000 ≤ n && n ≤ 0x200a) ||
    [0x20, 0x85, 0xa0, 0x1680, 0x2028, 0x2029, 0x202f, 0x205f, 0x3000].contains n

/-- `strings.TrimSpace` -/
def trimSpace (s : String) : String :=
  String.ofList ((s.toList.dropWhile isSpace).reverse.dropWhile isSpace).reverse

/-! ## Frameworks -/

def isPythonFramework (framework : String) : Bool :=
  ["flask", "django", "fastapi", "streamlit", "python"].contains (lowerText framework)

def resolveInstallCommand (userCmd framework : String) : String :=
  let userCmd := trimSpace userCmd
  if isPythonFramework framework && !userCmd.isEmpty then
    "python -m venv /app/.venv && export PATH=/app/.venv/bin:$PATH && " ++ userCmd
  else if userCmd.isEmpty then ""
  else if userCmd = "npm ci" then "npm ci || npm install"
  else if hasPrefix userCmd "--" then "npm install " ++ userCmd
  else userCmd

/-! ## Build -/

structure Options where
  installCommand : String
  buildCommand : String
  runCommand : String
  framework : String
  envVars : EnvMap

/-- `PORT` as it was sent, and 3000 where it is absent or empty. -/
def portOf (envVars : EnvMap) : String :=
  match envVars.get "PORT" with
  | some p => if p.isEmpty then "3000" else p
  | none => "3000"

/-- The variables for Railpack that the user set. -/
def railpackVars (envVars : EnvMap) : EnvMap :=
  envVars.filter fun kv => hasPrefix kv.1 "RAILPACK_" && !kv.2.isEmpty

/-- The variables given beside the port: to Railpack with `--env`, to BuildKit as secrets. -/
def buildVars (opts : Options) : EnvMap :=
  let installCmd := resolveInstallCommand opts.installCommand opts.framework
  (if installCmd.isEmpty then [] else [("RAILPACK_INSTALL_CMD", installCmd)]) ++
    [("PORT", portOf opts.envVars)] ++ railpackVars opts.envVars

def prepareArgs (opts : Options) : List String :=
  ["prepare", ".", "--plan-out", "railpack-plan.json"] ++
    (if opts.buildCommand.isEmpty then [] else ["--build-cmd", opts.buildCommand]) ++
    (if opts.runCommand.isEmpty then [] else ["--start-cmd", opts.runCommand]) ++
    (buildVars opts).flatMap fun kv => ["--env", kv.1 ++ "=" ++ kv.2]

/-- The environment of `buildctl`, where a later entry wins, and the secrets it reads from it. -/
def buildctlEnv (environ : List String) (opts : Options) : List String :=
  environ ++ (buildVars opts).map fun kv => kv.1 ++ "=" ++ kv.2

def secretArgs (opts : Options) : List String :=
  (buildVars opts).flatMap fun kv => ["--secret", "id=" ++ kv.1 ++ ",env=" ++ kv.1]

/-- What Railpack and BuildKit find a variable set to: the last entry wins. -/
def givenVar (opts : Options) (key : String) : Option String :=
  EnvMap.get (buildVars opts).reverse key

/-- The words between blanks. -/
def words : List Char → List (List Char)
  | [] => [[]]
  | c :: cs =>
    if c = ' ' then [] :: words cs
    else
      match words cs with
      | [] => [[c]]
      | w :: ws => (c :: w) :: ws

theorem digit_of_mem_toString {n : Nat} {c : Char} (h : c ∈ (toString n).toList) : c.isDigit := by
  rw [show toString n = n.repr from rfl, Nat.toList_repr] at h
  exact Nat.isDigit_of_mem_toDigits (by decide) (by decide) h

end Builder
end Worker
end Code2Cloud
