import Octa.Foundation.OrderedMap
import Octa.Fileset.Pattern

/-!
# The walk over a workspace

All groups of rules share one traversal.
-/

namespace Octa.Fileset

open Octa.Cache FileTree

inductive FileType where
  | directory
  | file
  | symlink
  | other
  deriving DecidableEq, Repr

inductive IgnoreMatch where
  | none
  | ignore
  | whitelist
  deriving DecidableEq, Repr

abbrev Gitignore := FsPath → Bool → IgnoreMatch

/-- A file tree that does not change, addressed relative to the workspace.  `stat` follows links
above the last component, so that paths below a link are unrestricted. -/
structure Workspace (μ : Type) where
  stat : FsPath → Except ErrorKind μ
  fileType : μ → FileType
  readDir : FsPath → List String
  /-- Whether the bytes of a name are UTF-8. -/
  utf8 : String → Bool
  /-- `IgnoreFilter::load` of a directory. -/
  load : FsPath → CacheResult (Option Gitignore)
  root : ∃ metadata, stat [] = .ok metadata ∧ fileType metadata = .directory
  listed : ∀ path metadata name, stat path = .ok metadata → fileType metadata = .directory →
    (name ∈ readDir path ↔ ∃ child, stat (path ++ [name]) = .ok child)
  unlisted : ∀ path metadata name, stat path = .ok metadata → fileType metadata = .directory →
    name ∉ readDir path → stat (path ++ [name]) = .error .notFound
  leaf : ∀ path metadata name, stat path = .ok metadata → fileType metadata = .file ∨
    fileType metadata = .other → stat (path ++ [name]) = .error .notADirectory
  missing : ∀ path error name, stat path = .error error → stat (path ++ [name]) = .error error

def ancestors (path : FsPath) : List FsPath := (List.range path.length).map path.take

/-! ## Ignore files -/

/-- `IgnoreFilter::matches`: the last file that decides wins. -/
def decideIgnored (active : List Gitignore) (path : FsPath) (isDirectory : Bool) : Bool :=
  active.foldl (fun ignored rules =>
    match rules path isDirectory with
    | .ignore => true
    | .whitelist => false
    | .none => ignored) false

namespace Workspace

variable {μ : Type}

/-- The loop of `is_ignored` over the directories above a path. -/
def isIgnoredBelow (ws : Workspace μ) (path : FsPath) (isDirectory : Bool)
    (active : List Gitignore) (directory : FsPath) : List String → CacheResult Bool
  | [] => .ok (decideIgnored active path isDirectory)
  | part :: rest =>
    if decideIgnored active (directory ++ [part]) true then .ok true
    else do
      let rules ← ws.load (directory ++ [part])
      ws.isIgnoredBelow path isDirectory (active ++ rules.toList) (directory ++ [part]) rest

def isIgnored (ws : Workspace μ) (path : FsPath) (isDirectory : Bool) : CacheResult Bool :=
  if path.head? = some ".octa" then .ok true
  else do
    let rules ← ws.load []
    ws.isIgnoredBelow path isDirectory rules.toList [] path.dropLast

/-- The portable spelling of a path is the path itself. -/
def normalize (ws : Workspace μ) (path : FsPath) : CacheResult Unit :=
  if !path.all ws.utf8 then .error (.path path "portable cache paths must be UTF-8")
  else if path.any fun name => name.toList.contains '\\' then
    .error (.path path "portable cache paths must not contain backslashes")
  else .ok ()

end Workspace

/-! ## The walk -/

/-- For every rule of every group, whether it matches a path or a directory above it. -/
abbrev Flags := List (List Bool)

def ancestorMatches (glob : Glob) (groups : List (List InputPattern)) (path : FsPath) : Flags :=
  groups.map fun group => group.map fun pattern =>
    (ancestors path).any fun ancestor => pattern.accepts glob ancestor true

def currentMatches (glob : Glob) (groups : List (List InputPattern)) (inherited : Flags)
    (path : FsPath) (isDirectory : Bool) : Flags :=
  groups.zipWith (fun group flags =>
    group.zipWith (fun pattern flag => pattern.accepts glob path isDirectory || flag) flags)
    inherited

def groupSelects (group : List InputPattern) (flags : List Bool) : Bool :=
  (((group.zip flags).filter fun entry => entry.2).map fun entry => !entry.1.excluded).getLast?.getD
    false

def selected (groups : List (List InputPattern)) (flags : Flags) : Bool :=
  (groups.zip flags).any fun entry => groupSelects entry.1 entry.2

def selectedByInclude (groups : List (List InputPattern)) (flags : Flags) : Bool :=
  (groups.zip flags).any fun entry =>
    (entry.1.zip entry.2).any fun entry => !entry.1.excluded && entry.2

variable {μ : Type}

abbrev Found (μ : Type) := OrderedMap FsPath μ

/-- `entry(path).or_insert(metadata)`. -/
def Found.orInsert (found : Found μ) (path : FsPath) (metadata : μ) : Found μ :=
  if path ∈ found.entries.map Prod.fst then found else found.insert path metadata

def exceeded (maxEntries : ℕ) : CacheError :=
  .limit s!"input snapshot exceeds {maxEntries} visited filesystem entries"

/-- `Walker::walk` with `remaining` units of the budget. -/
def walk (ws : Workspace μ) (glob : Glob) (groups : List (List InputPattern)) (maxEntries : ℕ) :
    ℕ → List (FsPath × Flags) → Found μ → CacheResult (ℕ × Found μ)
  | remaining, [], found => .ok (remaining, found)
  | 0, _ :: _, _ => .error (exceeded maxEntries)
  | remaining + 1, (path, inherited) :: pending, found =>
    match ws.stat path with
    | .error .notFound => walk ws glob groups maxEntries remaining pending found
    | .error error => .error (.io "inspect cache input" path error)
    | .ok metadata =>
      let isDirectory := ws.fileType metadata == .directory
      match ws.isIgnored path isDirectory with
      | .error error => .error error
      | .ok true => walk ws glob groups maxEntries remaining pending found
      | .ok false =>
        -- every rule normalizes the path before it matches
        match ws.normalize path with
        | .error error => .error error
        | .ok () =>
          let flags := currentMatches glob groups inherited path isDirectory
          let found := if selected groups flags then found.orInsert path metadata else found
          if !isDirectory || (!selectedByInclude groups flags &&
              !groups.flatten.any fun pattern => pattern.mayMatchBelow path) then
            walk ws glob groups maxEntries remaining pending found
          else if remaining < (ws.readDir path).length then .error (exceeded maxEntries)
          else
            let children := ((ws.readDir path).map fun name => path ++ [name]).insertionSort
              (· ≤ ·)
            walk ws glob groups maxEntries remaining
              (children.map (fun child => (child, flags)) ++ pending) found

/-- The loop of `collect_pattern_sets` over the scan roots. -/
def walkRoots (ws : Workspace μ) (glob : Glob) (groups : List (List InputPattern))
    (maxEntries : ℕ) : ℕ → List FsPath → Found μ → CacheResult (Found μ)
  | _, [], found => .ok found
  | remaining, root :: rest, found => do
      let (remaining, found) ←
        walk ws glob groups maxEntries remaining [(root, ancestorMatches glob groups root)] found
      walkRoots ws glob groups maxEntries remaining rest found

/-- Parses every group; `count` rules come before them. -/
def parseGroups (glob : Glob) : ℕ → List (List String) → CacheResult (List (List InputPattern))
  | _, [] => .ok []
  | count, patternSet :: rest =>
    if count + patternSet.length > maxCacheListItems then
      .error (.configuration s!"cache input patterns are limited to {maxCacheListItems} items")
    else do
      let group ← patternSet.mapM (InputPattern.parse glob)
      let groups ← parseGroups glob (count + patternSet.length) rest
      return group :: groups

def collectPatternSets (ws : Workspace μ) (glob : Glob) (patternSets : List (List String))
    (maxEntries : ℕ) : CacheResult (List (FsPath × μ)) :=
  if maxEntries = 0 then
    .error (.configuration "cache input max_entries must be nonzero")
  else do
    let groups ← parseGroups glob 0 patternSets
    let found ← walkRoots ws glob groups maxEntries maxEntries
      (minimalScanRoots groups.flatten) .empty
    return found.entries

end Octa.Fileset
