import Mathlib.Data.List.Dedup
import Octa.Cache.RelativePath

/-!
# Input patterns

An ordered rule is the list of its path components.
-/

namespace Octa.Fileset

open Octa.Cache List

/-- `component_has_metacharacters`. -/
def hasMetacharacters (part : String) : Bool :=
  part.toList.any fun c => c == '*' || c == '?' || c == '['

/-- The documented behaviour of the glob library, with separators matched literally: the parts
of a pattern against the components of a path. -/
structure Glob where
  /-- the error of a pattern that is not accepted -/
  invalid : List String → Option String
  accepts : List String → FsPath → Bool
  empty : ∀ path, accepts [] path = true → path = []
  literal : ∀ part parts path, hasMetacharacters part = false →
    accepts (part :: parts) path = true →
      ∃ below, path = part :: below ∧ accepts parts below = true
  bounded : ∀ parts path, "**" ∉ parts → accepts parts path = true → path.length ≤ parts.length

structure InputPattern where
  parts : List String
  excluded : Bool
  requireDirectory : Bool
  deriving DecidableEq, Repr

def trimmedParts (value : String) : List String :=
  splitSlash (String.ofList (value.toList.reverse.dropWhile (· == '/')).reverse)

def ruleText (value : String) : String × Bool :=
  match value.toList with
  | '\\' :: '!' :: rest => (String.ofList ('!' :: rest), false)
  | '!' :: rest => (String.ofList rest, true)
  | _ => (value, false)

namespace InputPattern

def parse (glob : Glob) (value : String) : CacheResult InputPattern :=
  let (value, excluded) := ruleText value
  if value.isEmpty || value.utf8ByteSize > maxCacheStringBytes then
    .error (.configuration "cache input pattern must be non-empty and bounded")
  else if value.toList.head? = some '/' || value.toList.any (fun c => c == '\\' || c == ':') ||
      value.toList.any isControl ||
      (trimmedParts value).any (fun part => part == "" || part == "." || part == "..") then
    .error (.configuration
      s!"cache input pattern '{value}' must be portable and workspace-relative")
  else
    match glob.invalid (trimmedParts value) with
    | some error => .error (.configuration s!"invalid cache input pattern '{value}': {error}")
    | none => .ok ⟨trimmedParts value, excluded, value.toList.getLast? == some '/'⟩

/-- `scan_root`: the components before the first wildcard. -/
def scanRoot (pattern : InputPattern) : FsPath :=
  pattern.parts.takeWhile fun part => !hasMetacharacters part

/-- The loop of `scan_depth`. -/
def scanDepthFrom (started : Bool) (depth : ℕ) : List String → Option ℕ
  | [] => some depth
  | part :: rest =>
    if started || hasMetacharacters part then
      if part = "**" then none else scanDepthFrom true (depth + 1) rest
    else scanDepthFrom false depth rest

def maxDepth (pattern : InputPattern) : Option ℕ := scanDepthFrom false 0 pattern.parts

def accepts (glob : Glob) (pattern : InputPattern) (path : FsPath) (isDirectory : Bool) : Bool :=
  glob.accepts pattern.parts path && (!pattern.requireDirectory || isDirectory)

def mayMatchBelow (pattern : InputPattern) (directory : FsPath) : Bool :=
  if pattern.excluded then false
  else if directory <+: pattern.scanRoot ∧ pattern.scanRoot ≠ directory then true
  else if ¬pattern.scanRoot <+: directory then false
  else
    match pattern.maxDepth with
    | none => true
    | some maximum => decide ((directory.drop pattern.scanRoot.length).length < maximum)

end InputPattern

def scanRoots (patterns : List InputPattern) : List FsPath :=
  (patterns.filter fun pattern => !pattern.excluded).map InputPattern.scanRoot

/-- The loop of `minimal_scan_roots` over the sorted roots. -/
def dropNested (minimal : List FsPath) : List FsPath → List FsPath
  | [] => minimal
  | root :: rest =>
    if minimal.any fun ancestor => decide (ancestor <+: root) then dropNested minimal rest
    else dropNested (minimal ++ [root]) rest

def minimalScanRoots (patterns : List InputPattern) : List FsPath :=
  dropNested [] ((scanRoots patterns).insertionSort (· ≤ ·)).dedup

/-! ## What a rule can match -/

theorem scanDepthFrom_started {parts : List String} {depth d : ℕ}
    (h : InputPattern.scanDepthFrom true depth parts = some d) :
    "**" ∉ parts ∧ d = depth + parts.length := by
  induction parts generalizing depth with
  | nil =>
    cases h
    exact ⟨not_mem_nil, rfl⟩
  | cons part rest ih =>
    rw [InputPattern.scanDepthFrom, Bool.true_or, if_pos rfl] at h
    split at h
    · cases h
    rename_i hp
    obtain ⟨hr, rfl⟩ := ih h
    refine ⟨?_, ?_⟩
    · rw [mem_cons, not_or]
      exact ⟨Ne.symm hp, hr⟩
    · rw [length_cons]
      omega

variable {glob : Glob} {path root : FsPath}

theorem takeWhile_of_accepts {parts : List String} (h : glob.accepts parts path = true) :
    parts.takeWhile (fun part => !hasMetacharacters part) <+: path ∧
      ∀ d, InputPattern.scanDepthFrom false 0 parts = some d →
        path.length ≤ (parts.takeWhile fun part => !hasMetacharacters part).length + d := by
  induction parts generalizing path with
  | nil =>
    rw [glob.empty path h]
    exact ⟨⟨[], rfl⟩, fun d _ => Nat.zero_le _⟩
  | cons part rest ih =>
    cases hm : hasMetacharacters part with
    | true =>
      rw [takeWhile_cons_of_neg (by simp [hm])]
      refine ⟨⟨path, rfl⟩, ?_⟩
      intro d hd
      have hs : InputPattern.scanDepthFrom true 0 (part :: rest) = some d := by
        rw [InputPattern.scanDepthFrom, hm] at hd
        exact hd
      obtain ⟨hst, rfl⟩ := scanDepthFrom_started hs
      simpa using glob.bounded _ _ hst h
    | false =>
      obtain ⟨below, rfl, hb⟩ := glob.literal part rest path hm h
      obtain ⟨hr, hde⟩ := ih hb
      rw [takeWhile_cons_of_pos (by simp [hm])]
      refine ⟨cons_prefix_cons.mpr ⟨rfl, hr⟩, ?_⟩
      intro d hd
      rw [InputPattern.scanDepthFrom, hm] at hd
      have hl := hde d hd
      rw [length_cons, length_cons]
      omega

theorem scanRoot_of_accepts {pat : InputPattern} {d : Bool}
    (h : pat.accepts glob path d = true) : pat.scanRoot <+: path :=
  (takeWhile_of_accepts (Bool.and_eq_true_iff.mp h).1).1

theorem mayMatchBelow_of_accepts {pat : InputPattern} {directory : FsPath}
    {d : Bool} (hin : pat.excluded = false) (h : pat.accepts glob path d = true)
    (hbl : directory <+: path) (hne : directory ≠ path) :
    pat.mayMatchBelow directory = true := by
  obtain ⟨hr, hde⟩ := takeWhile_of_accepts (Bool.and_eq_true_iff.mp h).1
  have hl : directory.length < path.length :=
    lt_of_le_of_ne hbl.length_le fun he => hne (hbl.eq_of_length he)
  unfold InputPattern.mayMatchBelow
  rw [hin, if_neg Bool.false_ne_true]
  split
  · rfl
  rename_i ha
  have hd : pat.scanRoot <+: directory := by
    obtain hu | hd := prefix_or_prefix_of_prefix hbl hr
    · have he : pat.scanRoot = directory := by
        by_contra hn
        exact ha ⟨hu, hn⟩
      exact he ▸ prefix_rfl
    · exact hd
  rw [if_neg (not_not.mpr hd)]
  split
  · rfl
  rename_i maximum hma
  have hm : path.length ≤ pat.scanRoot.length + maximum := hde maximum hma
  have hr := hd.length_le
  rw [decide_eq_true_eq, length_drop]
  omega

/-! ## Minimal roots -/

variable {pats : List InputPattern}

end Octa.Fileset
