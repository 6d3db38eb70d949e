import Octa.Foundation.FileTree

/-!
# Symbolic links in a file tree

Some leaves of a tree are links.
-/

namespace LinkedTree

open FileTree List

inductive Step (ν : Type) where
  | up
  | name (name : ν)
  deriving DecidableEq, Repr

structure Target (ν : Type) where
  absolute : Bool
  steps : List (Step ν)
  deriving DecidableEq, Repr

/-- Where a name leads, and the links that were followed to get there. -/
structure Location (ν : Type) where
  path : Path ν
  followed : List (Path ν)
  deriving DecidableEq, Repr

variable {ν κ : Type} [DecidableEq ν] (link : κ → Option (Target ν))

def linkAt (t : Tree ν κ) (p : Path ν) : Option (Target ν) :=
  match get t p with
  | some (.leaf content) => link content
  | _ => none

/-- Where the target of a link in the directory `base` starts. -/
def Target.start (target : Target ν) (base : Path ν) : Path ν :=
  if target.absolute then [] else base

/-- Walk from a directory; `next` continues after a link. -/
def follow (t : Tree ν κ) (next : Location ν → List (Step ν) → Except ErrorKind (Location ν)) :
    Location ν → List (Step ν) → Except ErrorKind (Location ν)
  | at_, [] => .ok at_
  | at_, .up :: rest => follow t next ⟨at_.path.dropLast, at_.followed⟩ rest
  | at_, .name name :: rest =>
    match get t (at_.path ++ [name]) with
    | none => .error .notFound
    | some .dir => follow t next ⟨at_.path ++ [name], at_.followed⟩ rest
    | some (.leaf content) =>
      match link content with
      | none => .error .notADirectory
      | some target =>
        next ⟨target.start at_.path, at_.followed ++ [at_.path ++ [name]]⟩
          (target.steps ++ rest)

/-- The directory that a name denotes, with at most `links` links on the way. -/
def resolve (t : Tree ν κ) : ℕ → Location ν → List (Step ν) → Except ErrorKind (Location ν)
  | 0 => follow link t fun _ _ => .error .other
  | links + 1 => follow link t (resolve t links)

/-- The place of the last component of an absolute path, which is not followed itself. -/
def locate (t : Tree ν κ) (links : ℕ) (path : Path ν) : Except ErrorKind (Location ν) :=
  match path.getLast? with
  | none => .error .invalidInput
  | some name => do
      let parent ← resolve link t links ⟨[], []⟩ (path.dropLast.map .name)
      return ⟨parent.path ++ [name], parent.followed⟩

def openLast (t : Tree ν κ) : ℕ → Location ν → Except ErrorKind (Location ν)
  | 0, at_ => if (linkAt link t at_.path).isSome then .error .other else .ok at_
  | links + 1, at_ =>
    match linkAt link t at_.path with
    | none => .ok at_
    | some target =>
      match target.steps.getLast? with
      | some (.name name) => do
          let parent ← resolve link t links
            ⟨target.start at_.path.dropLast, at_.followed ++ [at_.path]⟩ target.steps.dropLast
          openLast t links ⟨parent.path ++ [name], parent.followed⟩
      | _ => .error .other

variable {link} {t : Tree ν κ}

theorem linkAt_eq_none {p : Path ν} (h : get t p = none ∨ get t p = some .dir) :
    linkAt link t p = none := by
  unfold linkAt
  obtain h | h := h <;> rw [h]

theorem openLast_of_not_link {p : Path ν} {fol : List (Path ν)} (links : ℕ)
    (h : linkAt link t p = none) : openLast link t links ⟨p, fol⟩ = .ok ⟨p, fol⟩ := by
  cases links with
  | zero | succ links => simp [openLast, h]

theorem follow_names_of_dirs {next : Location ν → List (Step ν) → Except ErrorKind (Location ν)}
    {base : Path ν} {fol : List (Path ν)} {names : List ν}
    (h : ∀ q, q ≠ [] → q <+: names → get t (base ++ q) = some .dir) :
    follow link t next ⟨base, fol⟩ (names.map .name) = .ok ⟨base ++ names, fol⟩ := by
  induction names generalizing base with
  | nil => simp [follow]
  | cons name names ih =>
    have hn : get t (base ++ [name]) = some .dir :=
      h [name] (by simp) (cons_prefix_cons.mpr ⟨rfl, List.nil_prefix⟩)
    rw [map_cons, follow, hn]
    have hnx : ∀ q, q ≠ [] → q <+: names → get t (base ++ [name] ++ q) = some .dir := by
      intro q _ hq
      have hl := h (name :: q) (by simp) (cons_prefix_cons.mpr ⟨rfl, hq⟩)
      rwa [append_cons] at hl
    simpa using ih hnx

theorem follow_names_eq_ok {next : Location ν → List (Step ν) → Except ErrorKind (Location ν)}
    {base : Path ν} {fol : List (Path ν)} {names : List ν} {found : Location ν}
    (hli : ∀ q, q ≠ [] → q <+: names → linkAt link t (base ++ q) = none)
    (h : follow link t next ⟨base, fol⟩ (names.map .name) = .ok found) :
    found = ⟨base ++ names, fol⟩ ∧ ∀ q, q ≠ [] → q <+: names → get t (base ++ q) = some .dir := by
  induction names generalizing base with
  | nil =>
    cases h
    exact ⟨by rw [append_nil], fun q hne hq => absurd (prefix_nil.mp hq) hne⟩
  | cons name names ih =>
    have hna := hli [name] (by simp) (cons_prefix_cons.mpr ⟨rfl, List.nil_prefix⟩)
    rw [map_cons, follow] at h
    cases hg : get t (base ++ [name]) with
    | none =>
      rw [hg] at h
      cases h
    | some node =>
      cases node with
      | leaf cnt =>
        simp only [linkAt, hg] at hna
        rw [hg] at h
        simp only [hna] at h
        cases h
      | dir =>
        rw [hg] at h
        have hnx : ∀ q, q ≠ [] → q <+: names → linkAt link t (base ++ [name] ++ q) = none := by
          intro q _ hq
          have hl := hli (name :: q) (by simp) (cons_prefix_cons.mpr ⟨rfl, hq⟩)
          rwa [append_cons] at hl
        obtain ⟨hf, hd⟩ := ih hnx h
        refine ⟨by rw [hf, append_assoc]; rfl, ?_⟩
        intro q hne hq
        cases q with
        | nil => exact absurd rfl hne
        | cons first q =>
          obtain ⟨rfl, hs⟩ := cons_prefix_cons.mp hq
          rw [append_cons]
          by_cases hn : q = []
          · rw [hn, append_nil]
            exact hg
          · exact hd q hn hs

theorem follow_names_cases {next : Location ν → List (Step ν) → Except ErrorKind (Location ν)}
    {base : Path ν} {fol : List (Path ν)} {names : List ν}
    (h : ∀ q, q ≠ [] → q <+: names → get t (base ++ q) = some .dir ∨ get t (base ++ q) = none) :
    (∀ q, q ≠ [] → q <+: names → get t (base ++ q) = some .dir) ∨
      follow link t next ⟨base, fol⟩ (names.map .name) = .error .notFound := by
  induction names generalizing base with
  | nil =>
    left
    intro q hne hq
    exact absurd (prefix_nil.mp hq) hne
  | cons name names ih =>
    have hnx : ∀ q, q ≠ [] → q <+: names → get t (base ++ [name] ++ q) = some .dir ∨
        get t (base ++ [name] ++ q) = none := by
      intro q _ hq
      have hl := h (name :: q) (by simp) (cons_prefix_cons.mpr ⟨rfl, hq⟩)
      rwa [append_cons] at hl
    rw [map_cons, follow]
    obtain hna | hna := h [name] (by simp) (cons_prefix_cons.mpr ⟨rfl, List.nil_prefix⟩)
    · rw [hna]
      obtain hd | hmiss := ih hnx
      · left
        intro q hne hq
        cases q with
        | nil => exact absurd rfl hne
        | cons first q =>
          obtain ⟨rfl, hs⟩ := cons_prefix_cons.mp hq
          rw [append_cons]
          by_cases hn : q = []
          · rw [hn, append_nil]
            exact hna
          · exact hd q hn hs
      · exact .inr hmiss
    · rw [hna]
      exact .inr rfl

/-- Every step of the way to `p` is a real directory. -/
abbrev Walkable (t : Tree ν κ) (p : Path ν) : Prop :=
  ∀ q, q ≠ [] → q <+: p → get t q = some .dir

theorem resolve_names_of_dirs {names : List ν} (links : ℕ)
    (h : Walkable t names) :
    resolve link t links ⟨[], []⟩ (names.map .name) = .ok ⟨names, []⟩ := by
  cases links <;> exact follow_names_of_dirs h

theorem resolve_names_eq_ok {names : List ν} {links : ℕ} {found : Location ν}
    (hli : ∀ q, q ≠ [] → q <+: names → linkAt link t q = none)
    (h : resolve link t links ⟨[], []⟩ (names.map .name) = .ok found) :
    found = ⟨names, []⟩ ∧ Walkable t names := by
  cases links <;> exact follow_names_eq_ok hli h

theorem locate_of_dirs {path : Path ν} (links : ℕ) (hpath : path ≠ [])
    (h : Walkable t path.dropLast) :
    locate link t links path = .ok ⟨path, []⟩ := by
  unfold locate
  rw [List.getLast?_eq_some_getLast hpath]
  simp only [resolve_names_of_dirs links h]
  exact congrArg (fun p => Except.ok (⟨p, []⟩ : Location ν)) (dropLast_append_getLast hpath)

theorem locate_eq_ok {path : Path ν} {links : ℕ} {found : Location ν}
    (hli : ∀ q, q ≠ [] → q <+: path.dropLast → linkAt link t q = none)
    (h : locate link t links path = .ok found) : path ≠ [] ∧ found = ⟨path, []⟩ ∧
      Walkable t path.dropLast := by
  unfold locate at h
  cases hl : path.getLast? with
  | none =>
    rw [hl] at h
    cases h
  | some name =>
    rw [hl] at h
    cases hp : resolve link t links ⟨[], []⟩ (path.dropLast.map .name) with
    | error error =>
      simp only [hp] at h
      cases h
    | ok par =>
      simp only [hp] at h
      obtain ⟨rfl, hd⟩ := resolve_names_eq_ok hli hp
      have hne : path ≠ [] := by
        rintro rfl
        cases hl
      refine ⟨hne, ?_, hd⟩
      obtain rfl := Except.ok.inj h
      rw [dropLast_append_getLast? name hl]

theorem locate_cases {path : Path ν} (links : ℕ) (hpath : path ≠ [])
    (h : ∀ q, q ≠ [] → q <+: path.dropLast → get t q = some .dir ∨ get t q = none) :
    (∀ q, q ≠ [] → q <+: path.dropLast → get t q = some .dir) ∨
      locate link t links path = .error .notFound := by
  have hc : (∀ q, q ≠ [] → q <+: path.dropLast → get t q = some .dir) ∨
      resolve link t links ⟨[], []⟩ (path.dropLast.map .name) = .error .notFound := by
    cases links <;> exact @follow_names_cases ν κ _ link t _ [] [] _ h
  refine hc.imp id fun hm => ?_
  unfold locate
  rw [List.getLast?_eq_some_getLast hpath]
  simp only [hm]
  rfl

end LinkedTree
