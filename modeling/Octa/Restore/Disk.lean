import Octa.Cache.RelativePath
import Octa.Foundation.Program

/-!
# The disk of a restore

A restore acts on a file tree, which holds the workspace and the sibling
transaction directory, and on the journal directory of the cache state.
-/

namespace Octa.Restore

open FileTree Crash Octa.Cache List

structure JournalRoot where
  path : RelativePath
  hadOriginal : Bool
  deriving DecidableEq

/-- Persisted information sufficient to finish or undo one interrupted restore. -/
structure RestoreJournal where
  version : ℕ
  id : String
  workspace : FsPath
  transaction : FsPath
  roots : List JournalRoot
  createdParents : List RelativePath
  deriving DecidableEq

inductive Extension where
  | json
  | tmp
  | prepared
  | committed
  | rolledBack
  deriving DecidableEq, Repr

def Extension.text : Extension → String
  | .json => "json"
  | .tmp => "tmp"
  | .prepared => "prepared"
  | .committed => "committed"
  | .rolledBack => "rolled-back"

structure JournalFile where
  stem : String
  extension : Extension
  deriving DecidableEq, Repr

def JournalFile.name (file : JournalFile) : String :=
  file.stem ++ "." ++ file.extension.text

/-- What a journal file holds: nothing, a strict part of an encoded journal, or
an encoded journal. -/
inductive JournalContent where
  | empty
  | torn (length : ℕ)
  | intent (journal : RestoreJournal)
  deriving DecidableEq

/-! ## The journal directory -/

structure JournalDir where
  entries : List (JournalFile × JournalContent)
  nodup : (entries.map Prod.fst).Nodup

namespace JournalDir

def get (dir : JournalDir) (file : JournalFile) : Option JournalContent :=
  dir.entries.lookup file

def names (dir : JournalDir) : List JournalFile := dir.entries.map Prod.fst

def remove (dir : JournalDir) (file : JournalFile) : JournalDir where
  entries := dir.entries.filter fun e => decide (e.1 ≠ file)
  nodup := dir.nodup.sublist (filter_sublist.map Prod.fst)

def set (dir : JournalDir) (file : JournalFile) (content : JournalContent) : JournalDir where
  entries := (file, content) :: (dir.remove file).entries
  nodup := by
    rw [map_cons, nodup_cons]
    refine ⟨?_, (dir.remove file).nodup⟩
    simp [remove]

def createNew (dir : JournalDir) (file : JournalFile) : Except ErrorKind JournalDir :=
  match dir.get file with
  | some _ => .error .alreadyExists
  | none => .ok (dir.set file .empty)

def rename (dir : JournalDir) (source destination : JournalFile) :
    Except ErrorKind JournalDir :=
  match dir.get source with
  | none => .error .notFound
  | some content => .ok ((dir.remove source).set destination content)

def removeFile (dir : JournalDir) (file : JournalFile) : Except ErrorKind JournalDir :=
  match dir.get file with
  | none => .error .notFound
  | some _ => .ok (dir.remove file)

theorem get_remove (dir : JournalDir) (file other : JournalFile) :
    (dir.remove file).get other = if other = file then none else dir.get other :=
  IndexMap.lookup_filter_ne dir.entries file other

theorem get_set (dir : JournalDir) (file other : JournalFile) (cnt : JournalContent) :
    (dir.set file cnt).get other = if other = file then some cnt else dir.get other := by
  change List.lookup other ((file, cnt) :: (dir.remove file).entries) = _
  rw [IndexMap.lookup_cons_ite]
  by_cases h : other = file
  · simp [h]
  · rw [if_neg h, if_neg h]
    exact (get_remove dir file other).trans (if_neg h)

theorem mem_names_iff (dir : JournalDir) (file : JournalFile) :
    file ∈ dir.names ↔ dir.get file ≠ none :=
  IndexMap.mem_keys_iff.trans Option.ne_none_iff_exists'.symm

end JournalDir

/-! ## Calls -/

/-- The decoded entries of a bundle and the verdict on its stream. -/
structure Bundle (κ : Type) where
  entries : List (RelativePath × Node κ)
  verdict : CacheResult Unit

inductive FsCall (κ : Type) where
  | canonicalize (path : FsPath)
  | symlinkMetadata (path : FsPath)
  | createDir (path : FsPath)
  | createDirAll (path : FsPath)
  | removeDir (path : FsPath)
  | removeDirAll (path : FsPath)
  | rename (source destination : FsPath)
  | readDirectories (root : FsPath)
  | syncDirectory (path : FsPath)
  | extractBundle (staging : FsPath) (roots : List RelativePath) (bundle : Bundle κ)
  | lockRecovery (exclusive : Bool)
  | lockOutputs (workspace : FsPath) (roots : List RelativePath)
  | journalScan
  | journalCreateNew (file : JournalFile)
  | journalWrite (file : JournalFile) (journal : RestoreJournal)
  | journalSync (file : JournalFile)
  | journalRename (source destination : JournalFile)
  | journalRemove (file : JournalFile)
  | journalMetadata (file : JournalFile)
  | journalRead (file : JournalFile)
  | journalSyncDirectory

def FsCall.Value {κ : Type} : FsCall κ → Type
  | .canonicalize _ => FsPath
  | .symlinkMetadata _ => Node κ
  | .readDirectories _ => List FsPath
  | .extractBundle _ _ _ => CacheResult Unit
  | .journalScan => List JournalFile
  | .journalMetadata _ => ℕ
  | .journalRead _ => JournalContent
  | _ => Unit

def FsCall.Reply {κ : Type} (request : FsCall κ) : Type := Except ErrorKind request.Value

/-- The behaviour of the host and of third-party code that the restore
relies on. -/
structure Platform where
  canonical : FsPath → FsPath
  canonical_canonical : ∀ path, canonical (canonical path) = canonical path
  encodedSize : RestoreJournal → ℕ
  decodeError : JournalContent → String

structure Disk (κ : Type) where
  tree : Tree String κ
  journals : JournalDir

variable {κ : Type}

def Platform.length (platform : Platform) : JournalContent → ℕ
  | .empty => 0
  | .torn length => length
  | .intent journal => platform.encodedSize journal

/-! ## Extraction -/

namespace Bundle

def staged (bundle : Bundle κ) (roots : List RelativePath) : Tree String κ :=
  (bundle.entries.filter fun e => roots.any fun root => contains root e.1).map
    fun e => (e.1.components, e.2)

def parents (roots : List RelativePath) : Tree String κ :=
  roots.flatMap fun root =>
    (root.components.inits.filter fun parent => parent ≠ root.components).map
      fun parent => (parent, .dir)

/-- The result of `extract_bundle`: the stream verdict, then the checks that
every entry lies in a declared root and that every root is present. -/
def check (bundle : Bundle κ) (roots : List RelativePath) : CacheResult Unit :=
  match bundle.verdict with
  | .error error => .error error
  | .ok () =>
    match bundle.entries.find? fun e => !roots.any fun root => contains root e.1 with
    | some e => .error (.invalidBundle
        s!"bundle path '{e.1.value}' is outside declared output roots")
    | none =>
      match roots.find? fun root => !bundle.entries.any fun e => decide (e.1 = root) with
      | some root => .error (.invalidBundle
          s!"bundle does not contain declared output root '{root.value}'")
      | none => .ok ()

def newTree (bundle : Bundle κ) (root : RelativePath) : FsPath → Option (Node κ) :=
  below (bundle.entries.map fun e => (e.1.components, e.2)) root.components

end Bundle

def graft (base : FsPath) (t : Tree String κ) : Tree String κ :=
  t.map fun e => (base ++ e.1, e.2)

/-! ## The device -/

namespace Disk

def found {α : Type} : Option α → Except ErrorKind α
  | some value => .ok value
  | none => .error .notFound

/-- Carry out a tree operation; a refused operation changes nothing. -/
def update (d : Disk κ) (result : Except ErrorKind (Tree String κ)) :
    Except ErrorKind Unit × Disk κ :=
  match result with
  | .ok tree => (.ok (), { d with tree })
  | .error kind => (.error kind, d)

def updateJournals (d : Disk κ) (result : Except ErrorKind JournalDir) :
    Except ErrorKind Unit × Disk κ :=
  match result with
  | .ok journals => (.ok (), { d with journals })
  | .error kind => (.error kind, d)

def exec (platform : Platform) : (request : FsCall κ) → Disk κ → request.Reply × Disk κ
  | .canonicalize path, d =>
    (found ((FileTree.get d.tree (platform.canonical path)).map
      fun _ => platform.canonical path), d)
  | .symlinkMetadata path, d => (found (FileTree.get d.tree path), d)
  | .createDir path, d => d.update (FileTree.createDir d.tree path)
  | .createDirAll path, d => d.update (FileTree.createDirAll d.tree path)
  | .removeDir path, d => d.update (FileTree.removeDir d.tree path)
  | .removeDirAll path, d => d.update (FileTree.removeDirAll d.tree path)
  | .rename source destination, d => d.update (FileTree.rename d.tree source destination)
  | .readDirectories root, d =>
    (.ok ((d.tree.filter fun e => root.isPrefixOf e.1 && e.2 matches .dir).map Prod.fst), d)
  | .syncDirectory _, d => (.ok (), d)
  | .extractBundle staging roots bundle, d =>
    (.ok (bundle.check roots),
      { d with tree := graft staging (bundle.staged roots ++ Bundle.parents roots) ++ d.tree })
  | .lockRecovery _, d => (.ok (), d)
  | .lockOutputs _ _, d => (.ok (), d)
  | .journalScan, d => (.ok d.journals.names, d)
  | .journalCreateNew file, d => d.updateJournals (d.journals.createNew file)
  | .journalWrite file journal, d =>
    (.ok (), { d with journals := d.journals.set file (.intent journal) })
  | .journalSync _, d => (.ok (), d)
  | .journalRename source destination, d =>
    d.updateJournals (d.journals.rename source destination)
  | .journalRemove file, d => d.updateJournals (d.journals.removeFile file)
  | .journalMetadata file, d => (found ((d.journals.get file).map platform.length), d)
  | .journalRead file, d => (found (d.journals.get file), d)
  | .journalSyncDirectory, d => (.ok (), d)

/-- The states in which a stop in the middle of a call can leave the disk. -/
inductive Torn : FsCall κ → Disk κ → Disk κ → Prop where
  | createDirAll {path part : FsPath} {d : Disk κ} {tree : Tree String κ} :
      part <+: path → FileTree.createDirAll d.tree part = .ok tree →
      Torn (.createDirAll path) d { d with tree }
  | removeDirAll {path : FsPath} {d : Disk κ} {tree : Tree String κ} :
      (∀ q, FileTree.get tree q = FileTree.get d.tree q ∨
        path <+: q ∧ q ≠ path ∧ FileTree.get tree q = none) →
      Torn (.removeDirAll path) d { d with tree }
  | extractBundle {staging : FsPath} {roots : List RelativePath} {bundle : Bundle κ}
      {d : Disk κ} {tree : Tree String κ} :
      (∀ q, ¬staging <+: q → FileTree.get tree q = FileTree.get d.tree q) →
      Torn (.extractBundle staging roots bundle) d { d with tree }
  | journalWrite {file : JournalFile} {journal : RestoreJournal} {d : Disk κ} (length : ℕ) :
      Torn (.journalWrite file journal) d
        { d with journals := d.journals.set file (.torn length) }

def device (platform : Platform) : Device (FsCall κ) FsCall.Reply (Disk κ) where
  exec := exec platform
  torn := Torn

end Disk

end Octa.Restore
