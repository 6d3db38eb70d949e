import Mathlib.Data.List.Nodup
import Octa.Foundation.Fallible
import Octa.Foundation.IndexMap

/-!
# Loaded Octafiles

An Octafile includes other ones under keys of its own choice; a monorepo root
also includes the projects it has discovered, under a key that joins the
components of their path.
-/

namespace Octa.Finder

open Fallible List

variable {τ ρ : Type}

/-! ## Names -/

abbrev Name := List Char

instance lawfulBEqName : LawfulBEq Name := inferInstance

def join (parts : List Name) : Name := List.intercalate [':'] parts

def segments (name : Name) : List Name := name.splitOn ':'

theorem segments_ne_nil (name : Name) : segments name ≠ [] := splitOnP_ne_nil _ _

theorem join_segments (name : Name) : join (segments name) = name := intercalate_splitOn ':'

theorem segments_injective : Function.Injective segments :=
  Function.LeftInverse.injective join_segments

variable {name part : Name}

theorem segments_of_not_mem (h : ':' ∉ name) : segments name = [name] := splitOn_eq_singleton h

variable {parts : List Name}

theorem join_cons (h : parts ≠ []) : join (part :: parts) = part ++ ':' :: join parts := by
  obtain ⟨next, rest, rfl⟩ := exists_cons_of_ne_nil h
  simp [join, List.intercalate]

theorem segments_join (h : parts ≠ []) : segments (join parts) = parts.flatMap segments := by
  induction parts with
  | nil => exact absurd rfl h
  | cons part parts ih =>
    by_cases hp : parts = []
    · rw [hp]
      simp [join, List.intercalate]
    · rw [join_cons hp, segments, splitOn_append_cons_self, flatMap_cons, ← ih hp]
      rfl

theorem join_segments_join (h : ∀ part ∈ parts, ':' ∉ part)
    (hpa : parts ≠ []) : segments (join parts) = parts := by
  rw [segments_join hpa]
  induction parts with
  | nil => exact absurd rfl hpa
  | cons part parts ih =>
    rw [flatMap_cons, segments_of_not_mem (h part mem_cons_self)]
    by_cases hn : parts = []
    · rw [hn]
      rfl
    · rw [ih (fun p hp => h p (mem_cons_of_mem _ hp)) hn]
      rfl

theorem not_mem_of_mem_segments (h : part ∈ segments name) : ':' ∉ part := by
  induction name generalizing part with
  | nil =>
    obtain rfl := mem_singleton.mp h
    exact not_mem_nil
  | cons c name ih =>
    rw [segments, List.splitOn, splitOnP_cons_eq_if_modifyHead] at h
    split at h
    · obtain rfl | h := mem_cons.mp h
      · exact not_mem_nil
      · exact ih h
    rename_i hc
    obtain ⟨head, tail, hs⟩ := exists_cons_of_ne_nil (segments_ne_nil name)
    rw [segments, List.splitOn] at hs
    rw [hs, modifyHead_cons] at h
    have hh : head ∈ segments name := by
      rw [segments, List.splitOn, hs]
      exact mem_cons_self
    obtain rfl | h := mem_cons.mp h
    · intro hcolon
      obtain rfl | hcolon := mem_cons.mp hcolon
      · exact hc rfl
      · exact ih hh hcolon
    apply ih
    rw [segments, List.splitOn, hs]
    exact mem_cons_of_mem _ h

/-! ## Octafiles -/

/-- The parts of an `Octafile` that name tasks: `_namespace`, `tasks` and `_included`. -/
inductive Octafile (τ : Type) where
  | mk (namespacePath : List Name) (tasks : List (Name × τ)) (included : List (Name × Octafile τ))

namespace Octafile

def namespacePath : Octafile τ → List Name
  | .mk namespacePath _ _ => namespacePath

def tasks : Octafile τ → List (Name × τ)
  | .mk _ tasks _ => tasks

def included : Octafile τ → List (Name × Octafile τ)
  | .mk _ _ included => included

/-- The Octafile that is reached through the includes with these keys. -/
def descend : Octafile τ → List Name → Option (Octafile τ)
  | octafile, [] => some octafile
  | octafile, key :: rest => (octafile.included.lookup key).bind fun child => child.descend rest

end Octafile

structure Octafile.HasTask (root : Octafile τ) (location : List Name) (octafile : Octafile τ)
    (key : Name) (task : τ) : Prop where
  located : root.descend location = some octafile
  task : octafile.tasks.lookup key = some task

/-! ## Loading -/

structure IncludeInfo (ρ : Type) where
  octafile : ρ
  isOptional : Bool
  internal : Bool

structure RawOctafile (τ ρ : Type) where
  tasks : List (Name × τ)
  includes : List (Name × IncludeInfo ρ)
  includes_distinct : (includes.map Prod.fst).Nodup

inductive OctafileError where
  | notFound
  | parse (message : String)
  | monorepoIncludeConflict (name : Name)
  /-- includes that never end -/
  | exhausted
  deriving DecidableEq, Repr

/-- Where an include leads: its template may fail, its path may not exist, or may be a directory
without an Octafile. -/
inductive Resolution (ρ : Type) where
  | failed (error : OctafileError)
  | missing
  | withoutOctafile
  | file (path : ρ)

/-- The files of a workspace.  A file is named by its path and by what it is loaded with: the
variables of its include, the secrets above it and the default plugin decide how it is read and
where its includes lead. -/
structure Files (τ ρ : Type) where
  parse : ρ → Except OctafileError (RawOctafile τ ρ)
  /-- the file that an include of a file selects, after rendering and canonicalisation -/
  resolve : ρ → ρ → Resolution ρ
  /-- the canonical path of a file -/
  location : ρ → ρ
  /-- a task with `internal` set -/
  markInternal : τ → τ

/-- `deserialize_with_context`, as far as it concerns tasks. -/
def readOctafile (files : Files τ ρ) (path : ρ) : Except OctafileError (RawOctafile τ ρ) := do
  let raw ← files.parse path
  if (raw.tasks.map Prod.fst).Nodup then return raw
  else throw (.parse "duplicated task")

/-- A discovered project; the components of its path are file names without a colon. -/
structure SyntheticInclude (ρ : Type) where
  namespacePath : List Name
  path : ρ
  nonempty : namespacePath ≠ []

/-- The includes of a root, with the namespaces of those that were discovered. -/
structure RootIncludes (ρ : Type) where
  includes : List (Name × IncludeInfo ρ)
  distinct : (includes.map Prod.fst).Nodup
  namespaces : List (Name × List Name)

/-- `merge_synthetic_includes`; a project that is included explicitly is skipped. -/
def mergeSyntheticIncludes [DecidableEq ρ] (explicit : List ρ) :
    List (SyntheticInclude ρ) → RootIncludes ρ → Except OctafileError (RootIncludes ρ)
  | [], root => return root
  | synthetic :: rest, root =>
    if synthetic.path ∈ explicit then mergeSyntheticIncludes explicit rest root
    else
      let name := join synthetic.namespacePath
      if h : name ∉ root.includes.map Prod.fst then
        mergeSyntheticIncludes explicit rest
          ⟨(name, ⟨synthetic.path, false, false⟩) :: root.includes,
            nodup_cons.mpr ⟨h, root.distinct⟩,
            (name, synthetic.namespacePath) :: root.namespaces⟩
      else throw (.monorepoIncludeConflict name)

def explicitPaths (files : Files τ ρ) (path : ρ) :
    List (Name × IncludeInfo ρ) → Except OctafileError (List ρ)
  | [] => return []
  | (_, info) :: rest =>
    match files.resolve path info.octafile with
    | .failed error => throw error
    | .file file => do
        let others ← explicitPaths files path rest
        return files.location file :: others
    | .missing | .withoutOctafile => explicitPaths files path rest

section Loops

variable {m : Type → Type} [Monad m] [MonadExceptOf OctafileError m]

/-- The includes of a file, in turn; `load` returns nothing for one that is skipped. -/
def loadEach (load : Name → IncludeInfo ρ → m (Option (Octafile τ))) :
    List (Name × IncludeInfo ρ) → m (List (Name × Octafile τ))
  | [] => return []
  | (name, info) :: rest => do
      let octafile ← load name info
      let others ← loadEach load rest
      return match octafile with
        | some octafile => (name, octafile) :: others
        | none => others

/-- One round of the loop of `load_includes`; `load` continues with the includes of the file.
`overrides` are the namespaces of discovered projects. -/
def loadInclude (files : Files τ ρ)
    (load : ρ → List Name → List (Name × τ) → List (Name × IncludeInfo ρ) → m (Octafile τ))
    (path : ρ) (namespacePath : List Name) (overrides : List (Name × List Name))
    (name : Name) (info : IncludeInfo ρ) : m (Option (Octafile τ)) :=
  match files.resolve path info.octafile with
  | .failed error => throw error
  | .missing => if info.isOptional then return none else throw .notFound
  | .withoutOctafile => throw .notFound
  | .file file =>
    match readOctafile files file with
    | .ok raw => do
        let namespacePath := (overrides.lookup name).getD (namespacePath ++ [name])
        let tasks := if info.internal
          then raw.tasks.map fun entry => (entry.1, files.markInternal entry.2)
          else raw.tasks
        let octafile ← load file namespacePath tasks raw.includes
        return some octafile
    | .error .notFound => if info.isOptional then return none else throw .notFound
    | .error error => throw error

end Loops

/-- `load_includes` for a file that was read. -/
def loadIncludes (files : Files τ ρ) :
    ℕ → ρ → List Name → List (Name × τ) → List (Name × IncludeInfo ρ) →
      List (Name × List Name) → Except OctafileError (Octafile τ)
  | 0, _, _, _, _, _ => throw .exhausted
  | fuel + 1, path, namespacePath, tasks, includes, overrides => do
      let included ← loadEach (loadInclude files
        (fun file namespacePath tasks includes =>
          loadIncludes files fuel file namespacePath tasks includes []) path namespacePath
        overrides) includes
      return .mk namespacePath tasks included

/-- The includes of a root together with the discovered projects. -/
def mergedIncludes [DecidableEq ρ] (files : Files τ ρ) (path : ρ)
    (synthetic : List (SyntheticInclude ρ)) (raw : RawOctafile τ ρ) :
    Except OctafileError (RootIncludes ρ) :=
  if synthetic.isEmpty then return ⟨raw.includes, raw.includes_distinct, []⟩
  else do
    let explicit ← explicitPaths files path raw.includes
    mergeSyntheticIncludes explicit synthetic ⟨raw.includes, raw.includes_distinct, []⟩

/-- `load_with_context`. -/
def load [DecidableEq ρ] (files : Files τ ρ) (fuel : ℕ) (path : ρ)
    (synthetic : List (SyntheticInclude ρ)) : Except OctafileError (Octafile τ) := do
  let raw ← readOctafile files path
  let root ← mergedIncludes files path synthetic raw
  loadIncludes files fuel path [] raw.tasks root.includes root.namespaces

/-! ## What loading guarantees -/

theorem join_concat (h : parts ≠ []) (key : Name) :
    join (parts ++ [key]) = join parts ++ ':' :: key := by
  induction parts with
  | nil => exact absurd rfl h
  | cons part parts ih =>
    by_cases hp : parts = []
    · rw [hp]
      simp [join, List.intercalate]
    · rw [cons_append, join_cons (by simp), ih hp, join_cons hp]
      simp

def SameText (left right : List Name) : Prop := ∀ key, join (left ++ [key]) = join (right ++ [key])

theorem SameText.concat {left right : List Name} (h : SameText left right) (name : Name) :
    SameText (left ++ [name]) (right ++ [name]) := by
  intro key
  have hne (parts : List Name) : parts ++ [name] ≠ [] := by simp
  rw [join_concat (hne left), join_concat (hne right), h name]

theorem sameText_join (h : parts ≠ []) : SameText parts [join parts] := by
  intro key
  rw [join_concat h, join_concat (cons_ne_nil _ _)]
  simp [join, List.intercalate]

variable {files : Files τ ρ} {path : ρ}

variable {raw : RawOctafile τ ρ}

theorem nodup_of_readOctafile
    (h : readOctafile files path = .ok raw) : (raw.tasks.map Prod.fst).Nodup := by
  obtain ⟨raw', -, h⟩ := bind_eq_ok h
  split at h
  · cases h
    assumption
  · cases h

variable {includes : List (Name × IncludeInfo ρ)} {included : List (Name × Octafile τ)}

theorem loadEach_spec {load : Name → IncludeInfo ρ → Except OctafileError (Option (Octafile τ))}
    (h : loadEach load includes = .ok included) :
    (included.map Prod.fst).Sublist (includes.map Prod.fst) ∧
      ∀ e ∈ included, ∃ info, load e.1 info = .ok (some e.2) := by
  induction includes generalizing included with
  | nil =>
    cases h
    exact ⟨.slnil, fun _ h => by cases h⟩
  | cons e rest ih =>
    obtain ⟨name, info⟩ := e
    obtain ⟨oct, hl, h⟩ := bind_eq_ok h
    obtain ⟨others, ho, h⟩ := bind_eq_ok h
    obtain ⟨hs, ha⟩ := ih ho
    cases oct with
    | none =>
      cases h
      exact ⟨hs.cons _, ha⟩
    | some oct =>
      cases h
      refine ⟨hs.cons_cons name, ?_⟩
      intro e hentry
      obtain rfl | hentry := mem_cons.mp hentry
      · exact ⟨info, hl⟩
      · exact ha e hentry

/-- What a file and the files below it guarantee when its own keys are `base`. -/
structure WellFormedAt (base : List Name) (octafile : Octafile τ) : Prop where
  tasks : ∀ location found, octafile.descend location = some found →
    (found.tasks.map Prod.fst).Nodup
  included : ∀ location found, octafile.descend location = some found →
    (found.included.map Prod.fst).Nodup
  namespaces : ∀ location found, octafile.descend location = some found →
    SameText found.namespacePath (base ++ location)

variable {base namespacePath : List Name} {tasks : List (Name × τ)}

theorem WellFormedAt.of_children (hta : (tasks.map Prod.fst).Nodup)
    (hin : (included.map Prod.fst).Nodup) (htext : SameText namespacePath base)
    (hch : ∀ e ∈ included, WellFormedAt (base ++ [e.1]) e.2) :
    WellFormedAt base (.mk namespacePath tasks included) := by
  have hd : ∀ loc found, (Octafile.mk namespacePath tasks included).descend loc = some found →
      (loc = [] ∧ found = .mk namespacePath tasks included) ∨
        ∃ key rest child, loc = key :: rest ∧ (key, child) ∈ included ∧
          child.descend rest = some found := by
    intro loc found h
    cases loc with
    | nil =>
      cases h
      exact .inl ⟨rfl, rfl⟩
    | cons key rest =>
      obtain ⟨child, hc, hr⟩ := Option.bind_eq_some_iff.mp h
      exact .inr ⟨key, rest, child, rfl, IndexMap.mem_of_lookup hc, hr⟩
  constructor
  · intro loc found h
    obtain ⟨-, rfl⟩ | ⟨key, rest, child, -, hm, hr⟩ := hd loc found h
    · exact hta
    · exact (hch _ hm).tasks rest found hr
  · intro loc found h
    obtain ⟨-, rfl⟩ | ⟨key, rest, child, -, hm, hr⟩ := hd loc found h
    · exact hin
    · exact (hch _ hm).included rest found hr
  intro loc found h
  obtain ⟨rfl, rfl⟩ | ⟨key, rest, child, rfl, hm, hr⟩ := hd loc found h
  · rw [append_nil]
    exact htext
  have hn := (hch _ hm).namespaces rest found hr
  rw [append_assoc] at hn
  exact hn

theorem wellFormed_loadIncludes {fuel : ℕ} {ov : List (Name × List Name)}
    {oct : Octafile τ} (hta : (tasks.map Prod.fst).Nodup) (hin : (includes.map Prod.fst).Nodup)
    (htext : SameText namespacePath base) (hov : ∀ e ∈ ov, SameText e.2 (base ++ [e.1]))
    (h : loadIncludes files fuel path namespacePath tasks includes ov = .ok oct) :
    WellFormedAt base oct ∧ oct.namespacePath = namespacePath := by
  induction fuel generalizing path namespacePath base tasks includes ov oct with
  | zero => cases h
  | succ fuel ih =>
    obtain ⟨included, hi, h⟩ := bind_eq_ok h
    cases h
    obtain ⟨hs, ha⟩ := loadEach_spec hi
    refine ⟨.of_children hta (hin.sublist hs) htext ?_, rfl⟩
    intro e he
    obtain ⟨info, hl⟩ := ha e he
    unfold loadInclude at hl
    split at hl
    · cases hl
    · split at hl <;> cases hl
    · cases hl
    rename_i file _
    split at hl
    · rename_i raw hr
      obtain ⟨oct, hoc, hl⟩ := bind_eq_ok hl
      cases hl
      have ht' := nodup_of_readOctafile hr
      refine (ih ?_ raw.includes_distinct ?_ (fun _ h => by cases h) hoc).1
      · split
        · rw [map_map]
          exact ht'
        · exact ht'
      cases ho : ov.lookup e.1 with
      | none => exact htext.concat e.1
      | some nsp' => exact hov _ (IndexMap.mem_of_lookup ho)
    · split at hl <;> cases hl
    · cases hl

variable {synthetic : List (SyntheticInclude ρ)}

theorem mergeSyntheticIncludes_spec [DecidableEq ρ] {explicit : List ρ}
    {root root' : RootIncludes ρ} (hroot : ∀ e ∈ root.namespaces, SameText e.2 [e.1])
    (h : mergeSyntheticIncludes explicit synthetic root = .ok root') :
    ∀ e ∈ root'.namespaces, SameText e.2 [e.1] := by
  induction synthetic generalizing root with
  | nil =>
    cases h
    exact hroot
  | cons e rest ih =>
    unfold mergeSyntheticIncludes at h
    split at h
    · exact ih hroot h
    dsimp only at h
    split at h
    · refine ih ?_ h
      intro e' hentry'
      obtain rfl | hentry' := mem_cons.mp hentry'
      · exact sameText_join e.nonempty
      · exact hroot e' hentry'
    · cases h

theorem mergedIncludes_spec [DecidableEq ρ] {root : RootIncludes ρ}
    (h : mergedIncludes files path synthetic raw = .ok root) :
    ∀ e ∈ root.namespaces, SameText e.2 [e.1] := by
  unfold mergedIncludes at h
  split at h
  · cases h
    exact fun _ h => by cases h
  · obtain ⟨explicit, -, hr⟩ := bind_eq_ok h
    exact mergeSyntheticIncludes_spec (fun _ h => by cases h) hr

theorem wellFormed_load [DecidableEq ρ] {fuel : ℕ} {root : Octafile τ}
    (h : load files fuel path synthetic = .ok root) :
    WellFormedAt [] root ∧ root.namespacePath = [] := by
  obtain ⟨raw, hr, h⟩ := bind_eq_ok h
  obtain ⟨includes, hm, h⟩ := bind_eq_ok h
  exact wellFormed_loadIncludes (nodup_of_readOctafile hr) includes.distinct (fun _ => rfl)
    (mergedIncludes_spec hm) h

end Octa.Finder
