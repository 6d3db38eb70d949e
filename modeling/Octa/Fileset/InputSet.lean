import Octa.Fileset.Selection

/-!
# The declared inputs

The inputs of a task are the entries that are visible without following a link,
that no ignore file above them takes out, and for which the last matching rule
of some group is an include rule.
-/

namespace Octa.Fileset

open Octa.Cache FileTree List

variable {μ : Type} {ws : Workspace μ} {glob : Glob} {groups : List (List InputPattern)}
  {path : FsPath} {metadata : μ}

/-! ## Ignored paths -/

def componentAccepts : List String → FsPath → Bool
  | [], path => path.isEmpty
  | part :: parts, path =>
    if part = "**" then (!parts.isEmpty || !path.isEmpty) && path.tails.any (componentAccepts parts)
    else
      match path with
      | [] => false
      | name :: rest => (part == "*" || part == name) && componentAccepts parts rest

def componentGlob : Glob where
  invalid _ := none
  accepts := componentAccepts
  empty path h := isEmpty_iff.mp h
  literal part parts path hliteral h := by
    have hstars : part ≠ "**" := by
      rintro rfl
      revert hliteral
      decide
    have hstar : part ≠ "*" := by
      rintro rfl
      revert hliteral
      decide
    cases path with
    | nil => simp [componentAccepts, hstars] at h
    | cons name rest =>
      simp only [componentAccepts, if_neg hstars, beq_false_of_ne hstar, Bool.false_or,
        Bool.and_eq_true, beq_iff_eq] at h
      exact ⟨rest, by rw [h.1], h.2⟩
  bounded parts path hstars h := by
    induction parts generalizing path with
    | nil => rw [isEmpty_iff.mp h]
    | cons part parts ih =>
      obtain ⟨hpart, hparts⟩ := not_or.mp (mt mem_cons.mpr hstars)
      cases path with
      | nil => exact Nat.zero_le _
      | cons name rest =>
        simp only [componentAccepts, if_neg (Ne.symm hpart), Bool.and_eq_true] at h
        exact Nat.succ_le_succ (ih rest hparts h.2)

/-- A finite file tree; a link shows the entries of the directory that it leads to. -/
inductive Node where
  | file
  | directory (children : List (String × Node))
  | symlink (children : List (String × Node))

namespace Node

def type : Node → FileType
  | .file => .file
  | .directory _ => .directory
  | .symlink _ => .symlink

def child : Node → String → Except ErrorKind Node
  | .file, _ => .error .notADirectory
  | .directory children, name | .symlink children, name =>
    match children.lookup name with
    | some node => .ok node
    | none => .error .notFound

def get : Node → FsPath → Except ErrorKind Node
  | node, [] => .ok node
  | node, name :: rest =>
    match node.child name with
    | .ok next => next.get rest
    | .error error => .error error

theorem get_concat (node : Node) (path : FsPath) (name : String) : node.get (path ++ [name]) =
      match node.get path with
      | .ok next => next.child name
      | .error error => .error error := by
  induction path generalizing node with
  | nil =>
    cases h : node.child name <;> simp [get, h]
  | cons first rest ih =>
    rw [cons_append, get, get]
    cases node.child first with
    | ok next => exact ih next
    | error error => rfl

mutual

def named : Node → Bool
  | .file => true
  | .directory children => allNamed children
  | .symlink children => allNamed children

def allNamed : List (String × Node) → Bool
  | [] => true
  | (name, node) :: rest =>
    !name.toList.contains '/' && name != "." && !name.toList.contains '\\' && node.named &&
      allNamed rest

end

theorem named_of_lookup {children : List (String × Node)} {name : String} {node : Node}
    (h : allNamed children = true) (hnode : children.lookup name = some node) :
    (('/' ∉ name.toList ∧ name ≠ ".") ∧ '\\' ∉ name.toList) ∧ node.named = true := by
  induction children with
  | nil => cases hnode
  | cons e rest ih =>
    obtain ⟨first, child⟩ := e
    simp only [allNamed, Bool.and_eq_true] at h
    rw [lookup_cons] at hnode
    split at hnode
    · rename_i hn
      cases hnode
      rw [eq_of_beq hn]
      exact ⟨⟨⟨by simpa using h.1.1.1.1, by simpa using h.1.1.1.2⟩, by simpa using h.1.1.2⟩, h.1.2⟩
    · exact ih h.2 hnode

theorem named_of_get {node found : Node} {path : FsPath} (h : node.named = true)
    (hfo : node.get path = .ok found) :
    ∀ name ∈ path, ('/' ∉ name.toList ∧ name ≠ ".") ∧ '\\' ∉ name.toList := by
  induction path generalizing node with
  | nil => exact fun name hname => absurd hname not_mem_nil
  | cons first rest ih =>
    rw [get] at hfo
    cases hc : node.child first with
    | error error =>
      rw [hc] at hfo
      cases hfo
    | ok child =>
      rw [hc] at hfo
      have hn : (('/' ∉ first.toList ∧ first ≠ ".") ∧ '\\' ∉ first.toList) ∧
          child.named = true := by
        cases node with
        | file => cases hc
        | directory children | symlink children =>
          simp only [Node.child] at hc
          split at hc
          · cases hc
            exact named_of_lookup h ‹_›
          · cases hc
      intro name hname
      obtain rfl | hname := mem_cons.mp hname
      · exact hn.1
      · exact ih hn.2 hfo name hname

end Node

def workspaceOf (children : List (String × Node)) : Workspace Node where
  stat path := (Node.directory children).get path
  fileType := Node.type
  readDir path :=
    match (Node.directory children).get path with
    | .ok (.directory children) => children.map Prod.fst
    | _ => []
  utf8 _ := true
  load _ := .ok none
  root := ⟨_, rfl, rfl⟩
  listed path node name hstat htype := by
    rw [Node.get_concat, hstat]
    cases node with
    | directory children =>
      refine IndexMap.mem_keys_iff.trans ?_
      simp only [Node.child]
      cases children.lookup name <;> simp
    | file => cases htype
    | symlink => cases htype
  unlisted path node name hstat htype hname := by
    rw [hstat] at hname
    rw [Node.get_concat, hstat]
    cases node with
    | directory children =>
      have hlookup := mt IndexMap.mem_keys_iff.mpr hname
      simp only [Node.child]
      cases h : children.lookup name with
      | none => rfl
      | some child => exact absurd ⟨child, h⟩ hlookup
    | file => cases htype
    | symlink => cases htype
  leaf path node name hstat htype := by
    rw [Node.get_concat, hstat]
    cases node with
    | file => rfl
    | directory => cases htype <;> contradiction
    | symlink => cases htype <;> contradiction
  missing path error name hstat := by
    rw [Node.get_concat, hstat]

theorem exists_of_map_paths {result : CacheResult (List (FsPath × μ))} {paths : List FsPath}
    (h : result.map (List.map Prod.fst) = .ok paths) :
    ∃ entries, result = .ok entries ∧ entries.map Prod.fst = paths := by
  cases result with
  | error error => cases h
  | ok entries =>
    cases h
    exact ⟨entries, rfl, rfl⟩

end Octa.Fileset
