import Mathlib.Data.List.Dedup
import Mathlib.Data.List.DropRight
import Octa.Cache.RelativePath
import Octa.Foundation.Fallible
import Octa.Foundation.OrderedMap

/-!
# Discovery of the projects of a monorepo

Every root pattern gives a walk of its own, which starts at the directory that
the literal beginning of the pattern names and goes as deep as the pattern asks.
-/

namespace Octa.Monorepo

open Octa.Cache FileTree

inductive MonorepoError where
  | io (kind : ErrorKind)
  | invalidConfiguration (message : String)
  | invalidPattern (pattern message : String)
  deriving DecidableEq, Repr

structure MonorepoConfig where
  roots : List String
  exclude : List String := []
  maxDepth : ℕ := 5
  deriving DecidableEq, Repr

def MonorepoConfig.validate (config : MonorepoConfig) : Except MonorepoError Unit :=
  if config.roots = [] then .error (.invalidConfiguration "monorepo roots must not be empty")
  else if config.maxDepth = 0 then
    .error (.invalidConfiguration "monorepo max_depth must be greater than zero")
  else .ok ()

/-- Glob compilation and matching, and the character class that `trim` uses. -/
structure Globs where
  isWhitespace : Char → Bool
  /-- the error of a pattern that does not compile -/
  error : String → Option String
  isMatch : String → String → Bool

/-! ## Paths -/

/-- A path below the root as it is written: names, and `.` for the directory itself. -/
abbrev WrittenPath := List String

def components (path : WrittenPath) : FsPath := path.filter (· ≠ ".")

def replaceBackslashes (text : List Char) : List Char :=
  text.map fun c => if c = '\\' then '/' else c

/-- `path_text` of a path that has been taken relative to the root: `.` vanishes at both ends. -/
def pathText (path : WrittenPath) : String :=
  String.ofList (replaceBackslashes
    ("/".intercalate ((path.dropWhile (· = ".")).rdropWhile (· = "."))).toList)

/-! ## Patterns -/

structure RootPattern where
  pattern : String
  searchPrefix : WrittenPath
  depth : ℕ
  deriving DecidableEq, Repr

structure Excludes where
  names : List String
  patterns : List String
  deriving DecidableEq, Repr

structure DiscoveryPlan where
  excludes : Excludes
  roots : List RootPattern
  deriving DecidableEq, Repr

def alwaysExcludedDirectories : List String := [".git", ".octa"]

def trimStartMatches : List Char → List Char
  | '.' :: '/' :: rest => trimStartMatches rest
  | text => text

def normalizePattern (globs : Globs) (pattern : String) : Except MonorepoError String :=
  let trimmed := (pattern.toList.dropWhile globs.isWhitespace).rdropWhile globs.isWhitespace
  let text := replaceBackslashes (trimStartMatches trimmed)
  let pattern := String.ofList text
  if text = [] ∨ text.head? = some '/' ∨ ".." ∈ splitSlash pattern then
    .error (.invalidPattern pattern "patterns must be relative and stay within the monorepo root")
  else .ok pattern

def compilePattern (globs : Globs) (pattern : String) : Except MonorepoError String :=
  match globs.error pattern with
  | some message => .error (.invalidPattern pattern message)
  | none => .ok pattern

def isWildcard (segment : String) : Bool :=
  segment.toList.any fun c => c ∈ ['*', '?', '[', '{']

def patternWalk (pattern : String) (maxDepth : ℕ) : WrittenPath × ℕ :=
  let segments := splitSlash pattern
  let remaining := segments.dropWhile fun segment => !isWildcard segment
  ((segments.takeWhile fun segment => !isWildcard segment).filter (· ≠ ""),
    if remaining.any fun segment => decide (['*', '*'] <:+: segment.toList) then maxDepth
    else remaining.length)

def Excludes.add (globs : Globs) (excludes : Excludes) (exclude : String) :
    Except MonorepoError Excludes := do
  let normalized ← normalizePattern globs exclude
  if '/' ∉ normalized.toList then
    return { excludes with names := normalized :: excludes.names }
  else do
    let pattern ← compilePattern globs normalized
    return { excludes with patterns := excludes.patterns ++ [pattern] }

def Excludes.new (globs : Globs) (excludes : List String) : Except MonorepoError Excludes :=
  excludes.foldlM (Excludes.add globs) ⟨alwaysExcludedDirectories, []⟩

/-- `Excludes::matches` -/
def Excludes.isMatch (globs : Globs) (excludes : Excludes) (path : WrittenPath) : Bool :=
  (components path).any (· ∈ excludes.names) ||
    excludes.patterns.any fun pattern => globs.isMatch pattern (pathText path)

def prepareRoot (globs : Globs) (maxDepth : ℕ) (pattern : String) :
    Except MonorepoError RootPattern := do
  let normalized ← normalizePattern globs pattern
  let pattern ← compilePattern globs normalized
  let walk := patternWalk normalized maxDepth
  return ⟨pattern, walk.1, walk.2⟩

def prepare (globs : Globs) (config : MonorepoConfig) : Except MonorepoError DiscoveryPlan := do
  let excludes ← Excludes.new globs config.exclude
  let roots ← config.roots.mapM (prepareRoot globs config.maxDepth)
  return ⟨excludes, roots⟩

/-! ## The directory tree -/

variable {κ : Type}

structure IsName (name : String) : Prop where
  nonempty : name ≠ ""
  notCurrent : name ≠ "."
  notParent : name ≠ ".."
  single : '/' ∉ name.toList

instance (name : String) : Decidable (IsName name) :=
  decidable_of_iff (name ≠ "" ∧ name ≠ "." ∧ name ≠ ".." ∧ '/' ∉ name.toList)
    ⟨fun ⟨hempty, hdot, hdots, hslash⟩ => ⟨hempty, hdot, hdots, hslash⟩,
      fun h => ⟨h.nonempty, h.notCurrent, h.notParent, h.single⟩⟩

/-- The tree below the root of the monorepo, which has no symbolic links. -/
structure Workspace (κ : Type) where
  tree : Tree String κ
  root : get tree [] = some .dir
  closed : ∀ path, path ≠ [] → get tree path ≠ none → get tree path.dropLast = some .dir
  named : ∀ path, get tree path ≠ none → ∀ name ∈ path, IsName name

namespace Workspace

theorem exists_entry {tree : Tree String κ} {path : FsPath} (h : get tree path ≠ none) :
    ∃ e ∈ tree, e.1 = path := by
  by_contra hn
  push Not at hn
  exact h (get_eq_none_iff.mpr hn)

def ofTree (tree : Tree String κ) (hroot : get tree [] = some .dir)
    (hclosed : ∀ entry ∈ tree, entry.1 ≠ [] → get tree entry.1.dropLast = some .dir)
    (hnamed : ∀ entry ∈ tree, ∀ name ∈ entry.1, IsName name) : Workspace κ where
  tree := tree
  root := hroot
  closed := by
    intro path hpath h
    obtain ⟨entry, hentry, rfl⟩ := exists_entry h
    exact hclosed entry hentry hpath
  named := by
    intro path h
    obtain ⟨entry, hentry, rfl⟩ := exists_entry h
    exact hnamed entry hentry

def isDir (workspace : Workspace κ) (path : FsPath) : Bool :=
  match get workspace.tree path with
  | some .dir => true
  | _ => false

def isFile (workspace : Workspace κ) (path : FsPath) : Bool :=
  match get workspace.tree path with
  | some (.leaf _) => true
  | _ => false

def subdirectories (workspace : Workspace κ) (path : FsPath) : List String :=
  (workspace.tree.filterMap fun entry =>
    if entry.1.dropLast = path ∧ workspace.isDir entry.1 then entry.1.getLast? else none).dedup

def defaultNames : List String :=
  ["Octafile.yml", "octafile.yml", "Octafile.yaml", "octafile.yaml", "Octafile.lock.yml",
    "octafile.lock.yml", "Octafile.lock.yaml", "octafile.lock.yaml"]

/-- `Octafile::find_in_directory` -/
def findInDirectory (workspace : Workspace κ) (directory : FsPath) : Option FsPath :=
  (defaultNames.map fun name => directory ++ [name]).find? workspace.isFile

/-- The directories that the walker yields from a start directory. -/
def walk (workspace : Workspace κ) (keep : WrittenPath → Bool) : ℕ → WrittenPath → List WrittenPath
  | 0, path => [path]
  | depth + 1, path =>
    path :: ((workspace.subdirectories (components path)).filter fun name =>
      keep (path ++ [name])).flatMap fun name => workspace.walk keep depth (path ++ [name])

end Workspace

/-! ## Discovery -/

structure MonorepoProject where
  namespacePath : List String
  octafile : FsPath
  deriving DecidableEq, Repr

structure Found where
  directories : OrderedMap FsPath WrittenPath := .empty
  projects : OrderedMap FsPath MonorepoProject := .empty

structure DiscoveryResult where
  directories : List WrittenPath
  projects : List MonorepoProject

/-- `namespace` -/
def namespaceOf (path : WrittenPath) : Except MonorepoError (List String) :=
  match (components path).find? fun component => decide (':' ∈ component.toList) with
  | some component =>
    .error (.invalidConfiguration s!"project path component '{component}' cannot contain ':'")
  | none => .ok (components path)

def Found.recordDirectory (found : Found) (directory : WrittenPath) : Found :=
  { found with directories := found.directories.insert (components directory) directory }

def Found.recordNearestDirectory (workspace : Workspace κ) (found : Found) (path : WrittenPath) :
    Found :=
  match path.inits.reverse.find? fun path => workspace.isDir (components path) with
  | some directory => found.recordDirectory directory
  | none => found

section Discover

variable (globs : Globs) (workspace : Workspace κ) (rootOctafile : FsPath)

/-- The Octafile of a walked directory, unless its pattern does not match or it is the root's. -/
def projectIn (pattern : RootPattern) (entry : WrittenPath) : Option FsPath :=
  if globs.isMatch pattern.pattern (pathText entry) then
    match workspace.findInDirectory (components entry) with
    | some octafile => if octafile = rootOctafile then none else some octafile
    | none => none
  else none

def visit (excludes : Excludes) (pattern : RootPattern) (found : Found) (entry : WrittenPath) :
    Except MonorepoError Found :=
  if excludes.isMatch globs entry then .ok found
  else
    let found := found.recordDirectory entry
    match projectIn globs workspace rootOctafile pattern entry with
    | some octafile => do
        let namespacePath ← namespaceOf entry
        return { found with projects := found.projects.insert octafile ⟨namespacePath, octafile⟩ }
    | none => .ok found

def entries (excludes : Excludes) (pattern : RootPattern) : List WrittenPath :=
  workspace.walk (fun path => !excludes.isMatch globs path) pattern.depth pattern.searchPrefix

def search (excludes : Excludes) (found : Found) (pattern : RootPattern) :
    Except MonorepoError Found :=
  if workspace.isDir (components pattern.searchPrefix) then
    (entries globs workspace excludes pattern).foldlM
      (visit globs workspace rootOctafile excludes pattern) found
  else .ok (found.recordNearestDirectory workspace pattern.searchPrefix)

def discover (plan : DiscoveryPlan) : Except MonorepoError DiscoveryResult := do
  let start : Found := Found.recordNearestDirectory workspace {} []
  let found ← plan.roots.foldlM (search globs workspace rootOctafile plan.excludes) start
  return ⟨found.directories.values, found.projects.values.mergeSort fun left right =>
    decide (left.namespacePath ≤ right.namespacePath)⟩

end Discover

end Octa.Monorepo
