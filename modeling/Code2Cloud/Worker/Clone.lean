import Code2Cloud.Base.Search
import Code2Cloud.Base.Utf8
import Code2Cloud.Api.Schema

/-!
# Cloning a repository

`Cloner.Clone` against the state its remote is in when `git clone` runs.
-/

namespace Code2Cloud
namespace Worker

/-! ## Remotes -/

def isObjectName (s : String) : Bool :=
  s.toList.length == 40 && s.toList.all fun c => c.isDigit || ('a' ≤ c && c ≤ 'f')

abbrev ObjectName := {s : String // isObjectName s = true}

structure Remote where
  /-- The commits of a branch, newest first; none for a branch that does not exist. -/
  branches : String → List ObjectName
  defaultBranch : String

/-- The branch that `--branch` names, or the default one without it. -/
def Remote.commits (r : Remote) (branch : String) : List ObjectName :=
  r.branches (if branch.isEmpty then r.defaultBranch else branch)

/-- What `git clone` leaves behind: the commit that is checked out, and the commits that were
fetched. -/
structure WorkTree where
  head : ObjectName
  commits : List ObjectName

/-- The remotes, by URL, and which commands run without an error. -/
structure Git where
  remote : String → Remote
  clones : Bool := true
  checksOut : Bool := true
  parses : Bool := true

/-! ## Clone -/

structure CloneOptions where
  repoURL : String
  branch : String
  commitHash : String
  token : String
  shallow : Bool
  depth : Nat

structure CloneResult where
  /-- What lies at `Path`. -/
  tree : WorkTree
  commitHash : String

inductive CloneError
  | cloneFailed
  /-- The log line slices the first eight bytes of the commit. -/
  | panicked

namespace Cloner

def buildAuthURL (repoURL token : String) : String :=
  if token.isEmpty then repoURL
  else if "https://".toList.isPrefixOf repoURL.toList then
    "https://x-access-token:" ++ token ++ "@" ++ String.ofList (repoURL.toList.drop 8)
  else if "github.com/".toList.isPrefixOf repoURL.toList then
    "https://x-access-token:" ++ token ++ "@" ++ repoURL
  else repoURL

/-- The URL as it is logged. -/
def sanitizeURL (url : String) : String :=
  match Search.indexOf ['@'] url.toList with
  | some idx =>
    match Search.indexOf "://".toList url.toList with
    | some protoIdx => String.ofList (url.toList.take (protoIdx + 3) ++ url.toList.drop (idx + 1))
    | none => url
  | none => url

/-- `git clone --single-branch`, with `--depth` where the clone is shallow. -/
def gitClone (g : Git) (opts : CloneOptions) : Option WorkTree :=
  let commits := (g.remote (buildAuthURL opts.repoURL opts.token)).commits opts.branch
  let depth := if opts.depth = 0 then 1 else opts.depth
  let fetched := if opts.shallow then commits.take depth else commits
  if g.clones then fetched.head?.map fun head => { head, commits := fetched } else none

/-- `git checkout` of a commit that was fetched; a job carries the whole name, or `HEAD`. -/
def checkout (g : Git) (tree : WorkTree) (commit : String) : Option WorkTree :=
  if g.checksOut then
    if commit = "HEAD" then some tree
    else (tree.commits.find? fun c => c.val == commit).map fun head => { tree with head }
  else none

/-- `git rev-parse HEAD`; its error is ignored. -/
def getHeadCommit (g : Git) (tree : WorkTree) : String := if g.parses then tree.head.val else ""

def clone (g : Git) (opts : CloneOptions) : Except CloneError CloneResult :=
  match gitClone g opts with
  | none => .error .cloneFailed
  | some cloned =>
    -- a failed checkout is logged and the branch's head is kept
    let tree :=
      if !opts.commitHash.isEmpty && !opts.shallow then
        (checkout g cloned opts.commitHash).getD cloned
      else cloned
    let commitHash :=
      if opts.commitHash.isEmpty then getHeadCommit g tree else opts.commitHash
    if (utf8 commitHash).length < 8 then .error .panicked else .ok { tree, commitHash }

def tip (g : Git) (opts : CloneOptions) : Option ObjectName :=
  ((g.remote (buildAuthURL opts.repoURL opts.token)).commits opts.branch).head?

theorem head_of_gitClone {g : Git} {opts : CloneOptions} {tree : WorkTree}
    (h : gitClone g opts = some tree) : tip g opts = some tree.head := by
  unfold gitClone at h
  rw [tip]
  generalize (g.remote (buildAuthURL opts.repoURL opts.token)).commits opts.branch = commits at h ⊢
  dsimp only at h
  split at h
  · rw [Option.map_eq_some_iff] at h
    obtain ⟨head, hhead, rfl⟩ := h
    cases commits with
    | nil => split at hhead <;> simp at hhead
    | cons c commits =>
      split at hhead
      · generalize hdepth : (if opts.depth = 0 then 1 else opts.depth) = depth at hhead
        cases depth with
        | zero =>
          split at hdepth
          · cases hdepth
          · contradiction
        | succ depth => exact hhead
      · exact hhead
  · cases h

/-- A shallow clone checks out the head of the branch, and reports the commit it was asked for
if there is one. -/
theorem clone_shallow {g : Git} {opts : CloneOptions} {res : CloneResult}
    (hshallow : opts.shallow = true) (h : clone g opts = .ok res) :
    tip g opts = some res.tree.head ∧
      res.commitHash = if opts.commitHash.isEmpty then res.tree.head.val else opts.commitHash := by
  unfold clone at h
  cases hclone : gitClone g opts with
  | none => simp [hclone] at h
  | some cloned =>
    rw [hclone] at h
    simp only [hshallow, Bool.not_true, Bool.and_false, Bool.false_eq_true, if_false] at h
    generalize hhash : (if opts.commitHash.isEmpty = true then getHeadCommit g cloned
      else opts.commitHash) = commitHash at h
    split at h
    · cases h
    · rename_i hlength
      cases h
      refine ⟨head_of_gitClone hclone, ?_⟩
      rw [← hhash]
      by_cases hempty : opts.commitHash.isEmpty = true
      · rw [if_pos hempty, getHeadCommit] at hhash
        rw [if_pos hempty, if_pos hempty, getHeadCommit]
        split
        · rfl
        · rename_i hparses
          rw [if_neg hparses] at hhash
          subst hhash
          exact absurd (by decide) hlength
      · rw [if_neg hempty, if_neg hempty]

end Cloner
end Worker
end Code2Cloud
