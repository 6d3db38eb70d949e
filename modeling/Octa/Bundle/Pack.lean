import Octa.Bundle.Extract

/-!
# Packing output roots

The writer walks the declared roots in tree order, checks every entry against
the limits, and writes the canonical stream.
-/

namespace Octa.Bundle

open FileTree LinkedTree Wire Octa.Cache Octa.LocalStore

/-- What stands at a path of the workspace.  A link comes with the kind of what it leads to. -/
inductive Output where
  | file (content : Bytes) (executable : Bool)
  | symlink (target : String) (isDirectory : Bool)
  | special
  | directory (children : List (String × Output))

namespace Output

def kind : Output → Option OutputKind
  | .file content executable => some (.file content executable)
  | .symlink target isDirectory => some (.symlink target isDirectory)
  | .special => none
  | .directory _ => some .directory

def lookup : Output → FsPath → Option OutputKind
  | output, [] => output.kind
  | .directory children, name :: rest =>
    match children.lookup name with
    | some child => child.lookup rest
    | none => none
  | _, _ :: _ => none

/-- A file system gives the entries of a directory different names without a separator, and
stores links shorter than 4 GiB. -/
inductive WellFormed : Output → Prop
  | file (content : Bytes) (executable : Bool) : WellFormed (.file content executable)
  | symlink {target : String} (isDirectory : Bool) :
      target.utf8ByteSize < 2 ^ 32 → WellFormed (.symlink target isDirectory)
  | special : WellFormed .special
  | directory {children : List (String × Output)} : (children.map Prod.fst).Nodup →
      (∀ child ∈ children, '/' ∉ child.1.toList) → (∀ child ∈ children, WellFormed child.2) →
      WellFormed (.directory children)

theorem induct {P : Output → Prop} (file : ∀ cnt exe, P (.file cnt exe))
    (symlink : ∀ target isDirectory, P (.symlink target isDirectory)) (special : P .special)
    (directory : ∀ children, (∀ child ∈ children, P child.2) → P (.directory children))
    (output : Output) : P output :=
  @Output.rec P (fun children => ∀ child ∈ children, P child.2) (fun child => P child.2)
    file symlink special directory (fun _ h => absurd h List.not_mem_nil)
    (fun _ _ hh ht _ hc => (List.mem_cons.mp hc).elim (fun he => he ▸ hh) fun hm => ht _ hm)
    (fun _ _ h => h) output

end Output

/-- The host's view of the workspace: the outputs at the paths of the declared roots, and the
canonical path that a link leads to. -/
structure Workspace where
  root : FsPath
  output : RelativePath → Option Output
  canonicalize : RelativePath → Except ErrorKind FsPath
  wellFormed : ∀ path output', output path = some output' → output'.WellFormed

variable (workspace : Workspace) (limits : BundleLimits)

def portableRelative (names : FsPath) : BundleResult RelativePath :=
  liftProtocol (RelativePath.new ("/".intercalate names))

def safeSymlinkTarget (link : RelativePath) (target : String) : BundleResult String :=
  match validateSymlinkText link target with
  | .error reason => .error (.cache (.path (workspace.root ++ link.components) reason))
  | .ok () =>
    match workspace.canonicalize link with
    | .error kind => .error (ioError "resolve cache symlink"
        (workspace.root ++ link.components) kind)
    | .ok resolved =>
      if workspace.root <+: resolved then .ok target
      else .error (.cache (.path (workspace.root ++ link.components)
        "symlink target resolves outside the workspace"))

def inspectKind (relative : RelativePath) : Output → BundleResult OutputKind
  | .symlink target isDirectory => do
      let target ← safeSymlinkTarget workspace relative target
      return .symlink target isDirectory
  | .directory _ => return .directory
  | .file content executable =>
    let maximum := limits.maxFileBytes
    let path := relative.value
    if maximum.toNat < content.length then
      throw (.cache (.limit s!"output file '{path}' exceeds {maximum} bytes"))
    else return .file content executable
  | .special => throw (.unsupportedEntry (workspace.root ++ relative.components)
      "only regular files, directories, and symlinks can be bundled")

def inspectOutputEntry (names : FsPath) (output : Output) : BundleResult OutputEntry := do
  let relative ← portableRelative names
  let maximum := limits.maxPathBytes
  if maximum.toNat < relative.value.utf8ByteSize then
    throw (.cache (.limit s!"output path exceeds {maximum} UTF-8 bytes"))
  else
    let kind ← inspectKind workspace limits relative output
    return ⟨relative, kind⟩

/-- A visit maps the number of scheduled paths to the entries it writes and the new number. -/
abbrev Visit := ℕ → BundleResult (List OutputEntry × ℕ)

def runVisits : List (String × Visit) → Visit
  | [], scheduled => return ([], scheduled)
  | (_, visit) :: rest, scheduled => do
      let (entries, scheduled) ← visit scheduled
      let (more, scheduled) ← runVisits rest scheduled
      return (entries ++ more, scheduled)

/-- `read_sorted_children`: by the bytes of the names. -/
def sortNamed {α : Type} (children : List (String × α)) : List (String × α) :=
  children.insertionSort fun left right => left.1 ≤ right.1

mutual

def visitOutput : Output → FsPath → Visit
  | .directory children, names, scheduled => do
      let entry ← inspectOutputEntry workspace limits names (.directory children)
      if limits.maxEntries.toNat - scheduled < children.length then
        let path := "/".intercalate (workspace.root ++ names)
        throw (.cache (.limit
          s!"output directory '{path}' exceeds the remaining bundle entry limit"))
      else
        let (entries, scheduled) ←
          runVisits (sortNamed (visitChildren children names)) (scheduled + children.length)
        return (entry :: entries, scheduled)
  | .file content executable, names, scheduled => do
      let entry ← inspectOutputEntry workspace limits names (.file content executable)
      return ([entry], scheduled)
  | .symlink target isDirectory, names, scheduled => do
      let entry ← inspectOutputEntry workspace limits names (.symlink target isDirectory)
      return ([entry], scheduled)
  | .special, names, scheduled => do
      let entry ← inspectOutputEntry workspace limits names .special
      return ([entry], scheduled)

def visitChildren : List (String × Output) → FsPath → List (String × Visit)
  | [], _ => []
  | (name, child) :: rest, names =>
    (name, visitOutput child (names ++ [name])) :: visitChildren rest names

end

def visitRoot (root : RelativePath) : Visit := fun scheduled =>
  match workspace.output root with
  | none => .error (ioError "inspect declared output" (workspace.root ++ root.components) .notFound)
  | some output => visitOutput workspace limits output root.components scheduled

def visitOutputTree (roots : List RelativePath) : BundleResult (List OutputEntry × ℕ) :=
  let maximum := limits.maxEntries
  if maximum.toNat < roots.length then
    .error (.cache (.limit s!"output bundle contains more than {maximum} entries"))
  else
    runVisits (roots.map fun root => (root.value, visitRoot workspace limits root)) roots.length

structure PackedBundle where
  bytes : Bytes
  descriptor : BlobDescriptor

variable (codec : Codec)

def encode (encoding : BundleEncoding) (stream : Bytes) : Bytes :=
  match encoding with
  | .identity => stream
  | .zstdV1 level => codec.compress level stream

def packBundle (outputRoots : List RelativePath) (encoding : BundleEncoding) :
    BundleResult PackedBundle := do
  let limits ← limits.validate
  let encoding ← encoding.validate
  let roots ← liftCache (validateOutputRoots outputRoots)
  let (entries, _) ← visitOutputTree workspace limits roots
  let stream := canonicalStream entries
  if limits.maxExpandedBytes.toNat < stream.length then
    throw (.stream "expanded bundle exceeds configured limit")
  else
    let encoded := encode codec encoding stream
    if limits.maxEncodedBytes.toNat < encoded.length then
      throw (.stream "encoded bundle exceeds configured limit")
    else
      return ⟨encoded, {
        digest := digestOf codec stream
        encoding := encoding.protocol
        encodedSizeBytes := UInt64.ofNat encoded.length
        expandedSizeBytes := UInt64.ofNat stream.length
        entryCount := UInt64.ofNat entries.length }⟩

end Octa.Bundle
