import Code2Cloud.Base.Paths
import Code2Cloud.Worker.GoString

/-!
# The source path of a build

Where `processJob` lets the builder work: the clone, or a directory that the project's
`rootDirectory` names from there.
-/

namespace Code2Cloud
namespace Worker

open GoString Paths

/-! ## filepath -/

def slash : UInt8 := 0x2f

/-- What a part between two slashes stands for: nothing where it is empty or a dot. -/
def segmentOf (part : GoString) : Option (Segment GoString) :=
  if part = [] ∨ part = utf8 "." then none
  else if part = utf8 ".." then some .up
  else some (.name part)

def segments (path : GoString) : List (Segment GoString) :=
  (path.splitOn slash).filterMap segmentOf

/-- The path that `filepath.Clean` writes, as its parts. -/
def resolve (path : GoString) : Clean GoString :=
  .ofSegments (path.head? == some slash) (segments path)

/-- `filepath.Clean` -/
def cleanPath (path : GoString) : GoString :=
  let p := resolve path
  let relative := [slash].intercalate (List.replicate p.ups (utf8 "..") ++ p.names)
  if p.rooted then slash :: relative else if relative.isEmpty then utf8 "." else relative

/-- `filepath.Join` of two elements: leading ones that are empty are ignored. -/
def joinPath (a b : GoString) : GoString :=
  if a = [] then (if b = [] then [] else cleanPath b) else cleanPath (a ++ slash :: b)

/-! ## The builder's directory -/

/-- The directory that `Cloner.Clone` clones into. -/
def clonePath (workspacePath deploymentID : GoString) : GoString :=
  joinPath workspacePath deploymentID

/-- What `processJob` passes to the builder. -/
def sourcePath (clonePath rootDirectory : GoString) : GoString :=
  if rootDirectory = [] then clonePath else clonePath ++ slash :: rootDirectory

/-- The files that `Build` writes: the plan of `railpack prepare`, and `.dockerignore`. -/
def writtenFiles (sourcePath : GoString) : List GoString :=
  [sourcePath ++ slash :: utf8 "railpack-plan.json", sourcePath ++ slash :: utf8 ".dockerignore"]

/-- The root directory as a path by itself: how far it climbs, and where it goes down to. -/
def relativePath (rootDirectory : GoString) : Clean GoString :=
  .ofSegments false (segments rootDirectory)

/-- The root directory climbs out of no directory of the clone's path that it does not go down into
again. -/
def StaysIn (clonePath rootDirectory : GoString) : Prop :=
  let clone := resolve clonePath
  let root := relativePath rootDirectory
  (clone.rooted = true ∨ root.ups ≤ clone.names.length) ∧
    clone.names.drop (clone.names.length - root.ups) <+: root.names

instance (clonePath rootDirectory : GoString) : Decidable (StaysIn clonePath rootDirectory) :=
  instDecidableAnd

/-! ## Resolving -/

theorem segments_append_slash (s t : GoString) :
    segments (s ++ slash :: t) = segments s ++ segments t := by
  rw [segments, segments, segments, ← List.filterMap_append]
  exact congrArg (List.filterMap segmentOf) (List.splitOnP_append_cons s t (beq_self_eq_true slash))

theorem resolve_append {path : GoString} (hpath : path ≠ []) (rest : GoString) :
    resolve (path ++ slash :: rest) = (resolve path).goOn (relativePath rest) := by
  have hhead : (path ++ slash :: rest).head? = path.head? := by
    rw [List.head?_append_of_ne_nil _ hpath]
  rw [resolve, segments_append_slash, hhead, Clean.ofSegments_append]
  rfl

theorem cleanPath_ne_nil (path : GoString) : cleanPath path ≠ [] := by
  unfold cleanPath
  dsimp only
  split
  · exact List.cons_ne_nil _ _
  · split
    · decide
    · rename_i hne
      simpa using hne

theorem clonePath_ne_nil (workspacePath : GoString) {deploymentID : GoString}
    (hid : deploymentID ≠ []) : clonePath workspacePath deploymentID ≠ [] := by
  rw [clonePath, joinPath, if_neg hid]
  split <;> exact cleanPath_ne_nil _

theorem resolve_sourcePath {clonePath : GoString} (hclone : clonePath ≠ [])
    (rootDirectory : GoString) : resolve (sourcePath clonePath rootDirectory) =
      (resolve clonePath).goOn (relativePath rootDirectory) := by
  rw [sourcePath]
  split
  · rename_i hroot
    subst hroot
    exact (Clean.goOn_start _).symm
  · exact resolve_append hclone rootDirectory

/-- The builder works in the clone or below it exactly where the root directory stays in; no
service checks that it does. -/
theorem within_sourcePath_iff (workspacePath deploymentID rootDirectory : GoString)
    (hid : deploymentID ≠ []) :
    (resolve (clonePath workspacePath deploymentID)).Within
        (resolve (sourcePath (clonePath workspacePath deploymentID) rootDirectory)) ↔
      StaysIn (clonePath workspacePath deploymentID) rootDirectory := by
  rw [resolve_sourcePath (clonePath_ne_nil workspacePath hid), Clean.within_goOn_iff]
  exact Iff.rfl

/-- The deployment that the paths below are about. -/
def buildId : GoString := utf8 "5f0c7a52-1d0b-4a8e-9d2e-0a9b1c2d3e4f"

theorem within_sourcePath_app :
    (resolve (clonePath (utf8 "/tmp/builds") buildId)).Within
      (resolve (sourcePath (clonePath (utf8 "/tmp/builds") buildId) (utf8 "./apps/../web"))) :=
  (within_sourcePath_iff _ _ _ (by decide)).mpr (by decide)

/-- The directory above the clone is the workspace, with the clones of all other builds. -/
theorem not_within_sourcePath :
    ¬∀ workspacePath deploymentID rootDirectory : GoString, deploymentID ≠ [] →
      (resolve (clonePath workspacePath deploymentID)).Within
        (resolve (sourcePath (clonePath workspacePath deploymentID) rootDirectory)) := by
  intro h
  have hups := (h (utf8 "/tmp/builds") buildId (utf8 "..") (by decide)).names
  exact absurd hups (by decide)

/-- What the builder writes lies where it works. -/
theorem within_writtenFiles {clone : Clean GoString} {sourcePath file : GoString}
    (hsource : sourcePath ≠ []) (h : clone.Within (resolve sourcePath))
    (hfile : file ∈ writtenFiles sourcePath) : clone.Within (resolve file) := by
  have hbelow {name : GoString} (hname : (relativePath name).ups = 0) :
      clone.Within (resolve (sourcePath ++ slash :: name)) := by
    rw [resolve_append hsource]
    exact h.trans (Clean.within_goOn _ hname)
  rcases List.mem_pair.mp hfile with rfl | rfl
  · exact hbelow (by decide)
  · exact hbelow (by decide)

end Worker
end Code2Cloud
