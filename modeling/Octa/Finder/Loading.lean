import Mathlib.Data.Set.Finite.Basic
import Mathlib.Order.WellFounded
import Octa.Finder.Octafile

/-!
# Termination of loading

The includes of a file are a hash map, so they are loaded in an order that no
file determines.
-/

namespace Octa.Finder

variable {τ ρ : Type}

/-! ## Loading in some order -/

/-- A computation that ends with a result or an error, or does not end within its bound. -/
abbrev Loading (α : Type) := ExceptT OctafileError Option α

structure IterationOrder (ρ : Type) where
  arrange : ρ → List (Name × IncludeInfo ρ) → List (Name × IncludeInfo ρ)
  perm : ∀ path includes, (arrange path includes).Perm includes

def IterationOrder.listed : IterationOrder ρ := ⟨fun _ includes => includes, fun _ _ => .rfl⟩

/-- `load_includes`, with the includes of each file taken in some order. -/
def loadOrdered (files : Files τ ρ) (order : IterationOrder ρ) :
    ℕ → ρ → List Name → List (Name × τ) → List (Name × IncludeInfo ρ) →
      List (Name × List Name) → Loading (Octafile τ)
  | 0, _, _, _, _, _ => ExceptT.mk none
  | fuel + 1, path, namespacePath, tasks, includes, overrides => do
      let included ← loadEach (loadInclude files
        (fun file namespacePath tasks includes =>
          loadOrdered files order fuel file namespacePath tasks includes []) path namespacePath
        overrides) (order.arrange path includes)
      return .mk namespacePath tasks included

def Loading.ofExcept {α : Type} (result : Except OctafileError α) : Loading α :=
  ExceptT.mk (some result)

/-- `load_with_context`. -/
def loadRoot [DecidableEq ρ] (files : Files τ ρ) (order : IterationOrder ρ) (fuel : ℕ) (path : ρ)
    (synthetic : List (SyntheticInclude ρ)) : Loading (Octafile τ) := do
  let raw ← Loading.ofExcept (readOctafile files path)
  let root ← Loading.ofExcept (mergedIncludes files path synthetic raw)
  loadOrdered files order fuel path [] raw.tasks root.includes root.namespaces

namespace Loading

variable {α β : Type}

/-- A computation that does not end within its bound counts as an error. -/
def finish (x : Loading α) : Except OctafileError α := x.run.getD (.error .exhausted)

variable {x : Loading α} {f : α → Loading β}

theorem run_bind_ok {a : α} (h : x.run = some (.ok a)) : (x >>= f).run = (f a).run := by
  simp only [bind, ExceptT.bind, ExceptT.run, ExceptT.mk] at h ⊢
  rw [h]
  rfl

theorem run_bind_error {error : OctafileError}
    (h : x.run = some (.error error)) : (x >>= f).run = some (.error error) := by
  simp only [bind, ExceptT.bind, ExceptT.run, ExceptT.mk] at h ⊢
  rw [h]
  rfl

theorem run_bind_none (h : x.run = none) : (x >>= f).run = none := by
  simp only [bind, ExceptT.bind, ExceptT.run, ExceptT.mk] at h ⊢
  rw [h]
  rfl

theorem run_ofExcept_bind (a : α) (f : α → Loading β) :
    (ofExcept (.ok a) >>= f).run = (f a).run := rfl

theorem finish_bind (x : Loading α) (f : α → Loading β) :
    (x >>= f).finish = x.finish >>= fun a => (f a).finish := by
  cases h : x.run with
  | none =>
    rw [finish, run_bind_none h, finish, h]
    rfl
  | some result =>
    cases result with
    | error error =>
      rw [finish, run_bind_error h, finish, h]
      rfl
    | ok a =>
      rw [finish, run_bind_ok h, finish, h]
      rfl

def Extends (x y : Loading α) : Prop := ∀ result, x.run = some result → y.run = some result

theorem Extends.refl (x : Loading α) : Extends x x := fun _ h => h

theorem Extends.bind {y : Loading α} {g : α → Loading β} (hxy : Extends x y)
    (hfg : ∀ a, Extends (f a) (g a)) : Extends (x >>= f) (y >>= g) := by
  intro result h
  cases hx : x.run with
  | none =>
    rw [run_bind_none hx] at h
    cases h
  | some val =>
    have hy := hxy val hx
    cases val with
    | error error =>
      rw [run_bind_error hx] at h
      rw [run_bind_error hy, h]
    | ok a =>
      rw [run_bind_ok hx] at h
      rw [run_bind_ok hy]
      exact hfg a result h

end Loading

open Loading List

theorem finish_loadEach {load : Name → IncludeInfo ρ → Loading (Option (Octafile τ))}
    (includes : List (Name × IncludeInfo ρ)) :
    (loadEach load includes).finish = loadEach (fun name info => (load name info).finish)
      includes := by
  induction includes with
  | nil => rfl
  | cons e rest ih =>
    rw [loadEach, finish_bind, loadEach]
    refine congrArg _ (funext fun oct => ?_)
    rw [finish_bind, ih]
    rfl

theorem finish_loadInclude (files : Files τ ρ)
    (load : ρ → List Name → List (Name × τ) → List (Name × IncludeInfo ρ) → Loading (Octafile τ))
    (path : ρ) (namespacePath : List Name) (ov : List (Name × List Name)) (name : Name)
    (info : IncludeInfo ρ) :
    (loadInclude files load path namespacePath ov name info).finish =
      loadInclude files (fun file namespacePath tasks includes =>
        (load file namespacePath tasks includes).finish) path namespacePath ov name info := by
  unfold loadInclude
  split
  · rfl
  · split <;> rfl
  · rfl
  split
  · exact finish_bind _ _
  · split <;> rfl
  · rfl

theorem loadIncludes_eq_finish (files : Files τ ρ) (fuel : ℕ) (path : ρ)
    (namespacePath : List Name) (tasks : List (Name × τ)) (includes : List (Name × IncludeInfo ρ))
    (ov : List (Name × List Name)) :
    loadIncludes files fuel path namespacePath tasks includes ov =
      (loadOrdered files .listed fuel path namespacePath tasks includes ov).finish := by
  induction fuel generalizing path namespacePath tasks includes ov with
  | zero => rfl
  | succ fuel ih =>
    rw [loadIncludes, loadOrdered, finish_bind, finish_loadEach]
    simp only [finish_loadInclude, ih]
    rfl

theorem load_eq_finish [DecidableEq ρ] (files : Files τ ρ) (fuel : ℕ) (path : ρ)
    (synthetic : List (SyntheticInclude ρ)) :
    load files fuel path synthetic = (loadRoot files .listed fuel path synthetic).finish := by
  rw [load, loadRoot, finish_bind]
  refine congrArg _ (funext fun raw => ?_)
  rw [finish_bind]
  refine congrArg _ (funext fun root => ?_)
  exact loadIncludes_eq_finish ..

theorem loadInclude_cases (files : Files τ ρ) (path : ρ) (namespacePath : List Name)
    (ov : List (Name × List Name)) (name : Name) (info : IncludeInfo ρ) :
    (∃ file raw, files.resolve path info.octafile = .file file ∧
      readOctafile files file = .ok raw ∧ ∃ nsp' tasks,
        ∀ load : ρ → List Name → List (Name × τ) → List (Name × IncludeInfo ρ) →
          Loading (Octafile τ),
        loadInclude files load path namespacePath ov name info = (do
          let octafile ← load file nsp' tasks raw.includes
          return some octafile)) ∨
    ∃ result, ∀ load : ρ → List Name → List (Name × τ) → List (Name × IncludeInfo ρ) →
        Loading (Octafile τ),
      (loadInclude files load path namespacePath ov name info).run = some result := by
  cases hr : files.resolve path info.octafile with
  | failed error =>
    refine .inr ⟨.error error, fun load => ?_⟩
    rw [loadInclude, hr]
    rfl
  | missing =>
    refine .inr ⟨if info.isOptional then .ok none else .error .notFound, fun load => ?_⟩
    rw [loadInclude, hr]
    cases info.isOptional <;> rfl
  | withoutOctafile =>
    refine .inr ⟨.error .notFound, fun load => ?_⟩
    rw [loadInclude, hr]
    rfl
  | file file =>
    cases hrd : readOctafile files file with
    | ok raw =>
      refine .inl ⟨file, raw, rfl, hrd, (ov.lookup name).getD (namespacePath ++ [name]),
        if info.internal
          then raw.tasks.map fun e => (e.1, files.markInternal e.2)
          else raw.tasks, fun load => ?_⟩
      rw [loadInclude, hr]
      simp only [hrd]
    | error error =>
      refine .inr ⟨if error = .notFound ∧ info.isOptional = true then .ok none
        else .error error, fun load => ?_⟩
      rw [loadInclude, hr]
      simp only [hrd]
      cases error with
      | notFound => cases info.isOptional <;> rfl
      | parse msg | monorepoIncludeConflict name | exhausted => rfl

/-! ## The include relation -/

section Relation

variable (files : Files τ ρ)

def Leads (path : ρ) (includes : List (Name × IncludeInfo ρ)) (file : ρ) : Prop :=
  ∃ entry ∈ includes, files.resolve path entry.2.octafile = .file file ∧
    ∃ raw, readOctafile files file = .ok raw

def Includes (path file : ρ) : Prop :=
  ∃ raw, readOctafile files path = .ok raw ∧ Leads files path raw.includes file

def Requires (path file : ρ) : Prop :=
  ∃ raw, readOctafile files path = .ok raw ∧
    Leads files path (raw.includes.filter fun entry => !entry.2.isOptional) file

theorem Requires.includes {path file : ρ} (h : Requires files path file) :
    Includes files path file := by
  obtain ⟨raw, hr, e, he, hf⟩ := h
  exact ⟨raw, hr, e, (mem_filter.mp he).1, hf⟩

def Reached [DecidableEq ρ] (path : ρ) (synthetic : List (SyntheticInclude ρ)) (file : ρ) : Prop :=
  ∃ raw root, readOctafile files path = .ok raw ∧
    mergedIncludes files path synthetic raw = .ok root ∧
    ∃ first, Leads files path root.includes first ∧
      Relation.ReflTransGen (Includes files) first file

def Winding (file : ρ) : Prop :=
  ∃ turn, Relation.ReflTransGen (Includes files) file turn ∧
    Relation.TransGen (Includes files) turn turn

variable {files}

theorem Winding.next {file : ρ} (h : Winding files file) :
    ∃ next, Includes files file next ∧ Winding files next := by
  obtain ⟨turn, ht, hc⟩ := h
  obtain rfl | ⟨next, hn, hr⟩ := Relation.ReflTransGen.cases_head ht
  · obtain ⟨next, hn, hr⟩ := Relation.TransGen.head'_iff.mp hc
    exact ⟨next, hn, file, hr, hc⟩
  · exact ⟨next, hn, turn, hr, hc⟩

end Relation

/-! ## Without cycles loading ends -/

section Ends

variable {files : Files τ ρ} {order : IterationOrder ρ}

theorem extends_loadEach {load load' : Name → IncludeInfo ρ → Loading (Option (Octafile τ))}
    (h : ∀ name info, Extends (load name info) (load' name info))
    (includes : List (Name × IncludeInfo ρ)) :
    Extends (loadEach load includes) (loadEach load' includes) := by
  induction includes with
  | nil => exact Extends.refl _
  | cons e rest ih =>
    exact Extends.bind (h e.1 e.2) fun oct =>
      Extends.bind ih fun others => Extends.refl _

theorem extends_loadInclude
    {load load' : ρ → List Name → List (Name × τ) → List (Name × IncludeInfo ρ) →
      Loading (Octafile τ)}
    (h : ∀ file namespacePath tasks includes, Extends (load file namespacePath tasks includes)
      (load' file namespacePath tasks includes)) (path : ρ) (namespacePath : List Name)
    (ov : List (Name × List Name)) (name : Name) (info : IncludeInfo ρ) :
    Extends (loadInclude files load path namespacePath ov name info)
      (loadInclude files load' path namespacePath ov name info) := by
  obtain ⟨file, raw, -, -, nsp', tasks, hl⟩ | ⟨result, hr⟩ :=
    loadInclude_cases files path namespacePath ov name info
  · rw [hl, hl]
    exact Extends.bind (h _ _ _ _) fun _ => Extends.refl _
  intro val hv
  rw [hr] at hv ⊢
  exact hv

theorem extends_loadOrdered {fuel fuel' : ℕ} (hfuel : fuel ≤ fuel') (path : ρ)
    (namespacePath : List Name) (tasks : List (Name × τ)) (includes : List (Name × IncludeInfo ρ))
    (ov : List (Name × List Name)) :
    Extends (loadOrdered files order fuel path namespacePath tasks includes ov)
      (loadOrdered files order fuel' path namespacePath tasks includes ov) := by
  induction fuel generalizing fuel' path namespacePath tasks includes ov with
  | zero => exact fun _ h => by cases h
  | succ fuel ih =>
    obtain ⟨fuel', rfl⟩ : ∃ n, fuel' = n + 1 := ⟨fuel' - 1, by omega⟩
    refine Extends.bind (extends_loadEach (fun name info => ?_) _) fun _ => Extends.refl _
    exact extends_loadInclude (fun _ _ _ _ => ih (by omega) _ _ _ _ _) _ _ _ _ _

theorem exists_fuel_loadEach {load : ℕ → Name → IncludeInfo ρ → Loading (Option (Octafile τ))}
    (hmono : ∀ {n m}, n ≤ m → ∀ name info, Extends (load n name info) (load m name info))
    {includes : List (Name × IncludeInfo ρ)}
    (h : ∀ e ∈ includes, ∃ fuel result, (load fuel e.1 e.2).run = some result) :
    ∃ fuel result, (loadEach (load fuel) includes).run = some result := by
  induction includes with
  | nil => exact ⟨0, .ok [], rfl⟩
  | cons e rest ih =>
    obtain ⟨n, result, hr⟩ := h e mem_cons_self
    obtain ⟨m, ress, hre⟩ := ih fun other ho => h other (mem_cons_of_mem _ ho)
    have hf := hmono (le_max_left n m) e.1 e.2 result hr
    have hrs := extends_loadEach (hmono (le_max_right n m)) rest ress hre
    refine ⟨max n m, ?_⟩
    rw [loadEach]
    cases result with
    | error error => exact ⟨_, run_bind_error hf⟩
    | ok oct =>
      rw [run_bind_ok hf]
      cases ress with
      | error error => exact ⟨_, run_bind_error hrs⟩
      | ok others => exact ⟨_, run_bind_ok hrs⟩

theorem exists_fuel_loadOrdered {path : ρ} {includes : List (Name × IncludeInfo ρ)}
    (h : ∀ file, Leads files path includes file → ∀ raw, readOctafile files file = .ok raw →
      ∀ namespacePath tasks, ∃ fuel result,
        (loadOrdered files order fuel file namespacePath tasks raw.includes []).run = some result)
    (namespacePath : List Name) (tasks : List (Name × τ)) (ov : List (Name × List Name)) :
    ∃ fuel result, (loadOrdered files order fuel path namespacePath tasks includes ov).run =
        some result := by
  have hea : ∃ fuel result, (loadEach (loadInclude files (fun file namespacePath tasks includes =>
        loadOrdered files order fuel file namespacePath tasks includes []) path namespacePath
      ov) (order.arrange path includes)).run = some result := by
    refine @exists_fuel_loadEach τ ρ (fun fuel => loadInclude files
      (fun file namespacePath tasks includes =>
        loadOrdered files order fuel file namespacePath tasks includes []) path namespacePath
      ov) ?_ _ ?_
    · intro n m hn name info
      exact extends_loadInclude (fun _ _ _ _ => extends_loadOrdered hn _ _ _ _ _) _ _ _ _ _
    intro e he
    have hm := (order.perm path includes).mem_iff.mp he
    obtain ⟨file, raw, hre, hrd, nsp', tasks, hl⟩ | ⟨result, hr⟩ :=
      loadInclude_cases files path namespacePath ov e.1 e.2
    · have hle : Leads files path includes file := ⟨e, hm, hre, raw, hrd⟩
      obtain ⟨fuel, result, hr⟩ := h file hle raw hrd nsp' tasks
      refine ⟨fuel, ?_⟩
      rw [hl]
      cases result with
      | error error => exact ⟨_, run_bind_error hr⟩
      | ok oct => exact ⟨_, run_bind_ok hr⟩
    · exact ⟨0, result, hr _⟩
  obtain ⟨fuel, result, hr⟩ := hea
  refine ⟨fuel + 1, ?_⟩
  rw [loadOrdered]
  cases result with
  | error error => exact ⟨_, run_bind_error hr⟩
  | ok included => exact ⟨_, run_bind_ok hr⟩

theorem exists_fuel_of_acc {file : ρ} (h : Acc (fun w v => Includes files v w) file)
    {raw : RawOctafile τ ρ} (hraw : readOctafile files file = .ok raw) (namespacePath : List Name)
    (tasks : List (Name × τ)) : ∃ fuel result,
      (loadOrdered files order fuel file namespacePath tasks raw.includes []).run =
        some result := by
  induction h generalizing raw namespacePath tasks with
  | intro file _ ih =>
    refine exists_fuel_loadOrdered (fun next hl raw' hr' namespacePath tasks => ?_) _ _ _
    exact ih next ⟨raw, hraw, hl⟩ hr' namespacePath tasks

end Ends

/-! ## With a cycle it does not -/

section Cycles

variable {files : Files τ ρ}

open Classical in
/-- Takes an include first from which a cycle can be reached. -/
noncomputable def windingFirst (files : Files τ ρ) : IterationOrder ρ where
  arrange path includes :=
    match includes.find? fun entry => decide (∃ file,
        files.resolve path entry.2.octafile = .file file ∧
          (∃ raw, readOctafile files file = .ok raw) ∧ Winding files file) with
    | some entry => entry :: includes.erase entry
    | none => includes
  perm path includes := by
    split
    · rename_i entry hentry
      exact (perm_cons_erase (mem_of_find?_eq_some hentry)).symm
    · exact .rfl

theorem windingFirst_cons {path file : ρ} {includes : List (Name × IncludeInfo ρ)}
    (hle : Leads files path includes file) (hwi : Winding files file) :
    ∃ e rest, (windingFirst files).arrange path includes = e :: rest ∧
      ∃ next raw, files.resolve path e.2.octafile = .file next ∧
        readOctafile files next = .ok raw ∧ Winding files next := by
  classical
  obtain ⟨e, he, hre, hrd⟩ := hle
  unfold windingFirst
  dsimp only
  split
  · rename_i first hf
    have hfo := List.find?_some hf
    obtain ⟨next, hnx, ⟨raw, hr⟩, hw⟩ := of_decide_eq_true hfo
    exact ⟨first, _, rfl, next, raw, hnx, hr, hw⟩
  rename_i hn
  rw [List.find?_eq_none] at hn
  exact absurd (decide_eq_true ⟨file, hre, hrd, hwi⟩) (hn e he)

theorem run_loadOrdered_windingFirst {path file : ρ} {includes : List (Name × IncludeInfo ρ)}
    (hle : Leads files path includes file) (hwi : Winding files file) (fuel : ℕ)
    (namespacePath : List Name) (tasks : List (Name × τ)) (ov : List (Name × List Name)) :
    (loadOrdered files (windingFirst files) fuel path namespacePath tasks includes ov).run =
      none := by
  induction fuel generalizing path file includes namespacePath tasks ov with
  | zero => rfl
  | succ fuel ih =>
    obtain ⟨e, rest, ha, next, raw, hre, hr, hn⟩ := windingFirst_cons hle hwi
    -- the first include leads to a file whose own includes go on
    obtain ⟨after, ⟨raw', hr', haf⟩, hw⟩ := hn.next
    obtain rfl : raw = raw' := Except.ok.inj (hr.symm.trans hr')
    rw [loadOrdered, ha]
    apply run_bind_none
    rw [loadEach]
    apply run_bind_none
    rw [loadInclude, hre]
    simp only [hr]
    exact run_bind_none (ih haf hw _ _ _)

end Cycles

/-! ## The two together -/

section Main

variable [DecidableEq ρ] (files : Files τ ρ) (path : ρ) (synthetic : List (SyntheticInclude ρ))

/-- Whatever the order of the includes, loading ends, and with an error when files require each
other in a cycle. -/
def LoadsSafely : Prop :=
  ∀ order, ∃ fuel result, (loadRoot files order fuel path synthetic).run = some result ∧
    ((∃ file, Reached files path synthetic file ∧
        Relation.TransGen (Requires files) file file) →
      ∃ error, result = .error error)

variable {files path synthetic}

theorem Reached.next {file next : ρ} (h : Reached files path synthetic file)
    (hnext : Includes files file next) : Reached files path synthetic next := by
  obtain ⟨raw, root, hr, hro, first, hf, hp⟩ := h
  exact ⟨raw, root, hr, hro, first, hf, hp.tail hnext⟩

theorem run_loadRoot {raw : RawOctafile τ ρ} {root : RootIncludes ρ}
    (hraw : readOctafile files path = .ok raw)
    (hroot : mergedIncludes files path synthetic raw = .ok root) (order : IterationOrder ρ)
    (fuel : ℕ) : (loadRoot files order fuel path synthetic).run =
      (loadOrdered files order fuel path [] raw.tasks root.includes root.namespaces).run := by
  rw [loadRoot, hraw]
  refine (run_ofExcept_bind _ _).trans ?_
  rw [hroot]
  exact run_ofExcept_bind _ _

theorem acc_of_acyclic (hfi : {file | Reached files path synthetic file}.Finite)
    (hac : ∀ file, Reached files path synthetic file →
      ¬Relation.TransGen (Includes files) file file) {file : ρ}
    (hfile : Reached files path synthetic file) : Acc (fun w v => Includes files v w) file := by
  let r : {file // Reached files path synthetic file} →
      {file // Reached files path synthetic file} → Prop :=
    fun w v => Relation.TransGen (Includes files) v.1 w.1
  have hwf : WellFounded r := by
    have : Finite {file // Reached files path synthetic file} := hfi
    have : IsTrans _ r := ⟨fun _ _ _ hb hc => hc.trans hb⟩
    have : Std.Irrefl r := ⟨fun v hv => hac v.1 v.2 hv⟩
    exact Finite.wellFounded_of_trans_of_irrefl r
  suffices h : ∀ v : {file // Reached files path synthetic file},
      Acc (fun w v => Includes files v w) v.1 from h ⟨file, hfile⟩
  intro v
  induction v using hwf.induction with
  | h v ih => exact ⟨_, fun w hw => ih ⟨w, v.2.next hw⟩ (.single hw)⟩

/-- In a workspace with finitely many files loading is safe exactly when no cycle of includes can
be reached from the root. -/
theorem loads_safely_iff (hfinite : {file | Reached files path synthetic file}.Finite) :
    LoadsSafely files path synthetic ↔ ∀ file, Reached files path synthetic file →
        ¬Relation.TransGen (Includes files) file file := by
  constructor
  · intro hsafe file hreached hcycle
    obtain ⟨raw, root, hraw, hroot, first, hfirst, hpath⟩ := hreached
    obtain ⟨fuel, result, hrun, -⟩ := hsafe (windingFirst files)
    have hnone : (loadRoot files (windingFirst files) fuel path synthetic).run = none := by
      rw [run_loadRoot hraw hroot]
      exact run_loadOrdered_windingFirst hfirst ⟨file, hpath, hcycle⟩ fuel _ _ _
    rw [hnone] at hrun
    cases hrun
  intro hacyclic order
  have hvacuous : ¬∃ file, Reached files path synthetic file ∧
      Relation.TransGen (Requires files) file file := by
    rintro ⟨file, hreached, hcycle⟩
    exact hacyclic file hreached (hcycle.lift id fun _ _ h => Requires.includes files h)
  suffices hend : ∃ fuel result, (loadRoot files order fuel path synthetic).run = some result by
    obtain ⟨fuel, result, hrun⟩ := hend
    exact ⟨fuel, result, hrun, fun hcycle => absurd hcycle hvacuous⟩
  cases hraw : readOctafile files path with
  | error error =>
    refine ⟨0, .error error, ?_⟩
    rw [loadRoot, hraw]
    exact run_bind_error rfl
  | ok raw =>
    cases hroot : mergedIncludes files path synthetic raw with
    | error error =>
      refine ⟨0, .error error, ?_⟩
      rw [loadRoot, hraw]
      exact (run_ofExcept_bind _ _).trans (by rw [hroot]; exact run_bind_error rfl)
    | ok root =>
      have hbelow : ∀ file, Leads files path root.includes file → ∀ raw',
          readOctafile files file = .ok raw' → ∀ namespacePath tasks, ∃ fuel result,
            (loadOrdered files order fuel file namespacePath tasks raw'.includes []).run =
              some result := by
        intro file hleads raw' hraw' namespacePath tasks
        have hreached : Reached files path synthetic file :=
          ⟨raw, root, hraw, hroot, file, hleads, .refl⟩
        exact exists_fuel_of_acc (acc_of_acyclic hfinite hacyclic hreached) hraw' _ _
      obtain ⟨fuel, result, hrun⟩ := exists_fuel_loadOrdered hbelow [] raw.tasks root.namespaces
      refine ⟨fuel, result, ?_⟩
      rw [run_loadRoot hraw hroot]
      exact hrun

end Main

def selfInclude : Files Unit Unit where
  parse _ := .ok ⟨[], [(['a'], ⟨(), false, false⟩)], nodup_singleton _⟩
  resolve _ _ := .file ()
  location := id
  markInternal := id

theorem loads_safely_iff_self_include : {file | Reached selfInclude () [] file}.Finite ∧
      (LoadsSafely selfInclude () [] ↔ ∀ file, Reached selfInclude () [] file →
          ¬Relation.TransGen (Includes selfInclude) file file) :=
  ⟨Set.toFinite _, loads_safely_iff (Set.toFinite _)⟩

theorem self_include_never_loaded : ¬LoadsSafely selfInclude () [] := by
  have hread : readOctafile selfInclude () =
      .ok ⟨[], [(['a'], ⟨(), false, false⟩)], nodup_singleton _⟩ := rfl
  have hleads : Leads selfInclude () [(['a'], ⟨(), false, false⟩)] () :=
    ⟨_, mem_singleton.mpr rfl, rfl, _, hread⟩
  have hcycle : Relation.TransGen (Includes selfInclude) () () := .single ⟨_, hread, hleads⟩
  intro hsafe
  obtain ⟨fuel, result, hrun, -⟩ := hsafe (windingFirst selfInclude)
  rw [run_loadRoot hread rfl, run_loadOrdered_windingFirst hleads ⟨(), .refl, hcycle⟩] at hrun
  cases hrun

end Octa.Finder
