import Octa.Restore.Recovery

/-!
# Recording the intent of a restore

Inspection of the live roots reads the tree only.
-/

namespace Octa.Restore

open FileTree Crash Device Octa.Cache RestoreManager List

variable {κ : Type} {platform : Platform} {mgr : RestoreManager} {d : Disk κ}

theorem mem_insertPath {p q : RelativePath} {paths : List RelativePath} :
    q ∈ insertPath p paths ↔ q = p ∨ q ∈ paths := by
  induction paths with
  | nil => simp [insertPath]
  | cons r rest ih =>
    rw [insertPath]
    split_ifs with hl he
    · simp
    · subst he
      simp
    · rw [mem_cons, ih, mem_cons]
      tauto

def Between (low a high : FsPath) : Prop := low <+: a ∧ a ≠ low ∧ a <+: high ∧ a ≠ high

variable {a low workspace : FsPath}

theorem not_between_self {name : String} : ¬Between low a (low ++ [name]) := by
  rintro ⟨⟨r, rfl⟩, hl, hh, hne⟩
  rw [prefix_append_right_inj] at hh
  have hle := hh.length_le
  rw [length_singleton] at hle
  rcases Nat.lt_or_ge r.length 1 with hs | hlo
  · have hr : r = [] := length_eq_zero_iff.mp (by omega)
    exact hl (by rw [hr, append_nil])
  · exact hne (by rw [hh.eq_of_length (by rw [length_singleton]; omega)])

theorem between_cons {rest : FsPath} {name next : String}
    (h : Between low a (low ++ name :: next :: rest)) :
    a = low ++ [name] ∨ Between (low ++ [name]) a (low ++ [name] ++ next :: rest) := by
  obtain ⟨⟨r, rfl⟩, hl, hh, hne⟩ := h
  rw [prefix_append_right_inj] at hh
  cases r with
  | nil => exact absurd (append_nil low) hl
  | cons x r =>
    obtain ⟨rfl, hr⟩ := cons_prefix_cons.mp hh
    by_cases hn : r = []
    · left
      rw [hn]
    right
    have ha : low ++ x :: r = low ++ [x] ++ r := by simp
    have ha' : low ++ x :: next :: rest = low ++ [x] ++ next :: rest := by simp
    refine ⟨?_, ?_, ?_, ?_⟩
    · rw [ha]
      exact prefix_append _ _
    · intro he
      rw [ha] at he
      exact hn (append_cancel_left (he.trans (append_nil _).symm))
    · rw [ha, prefix_append_right_inj]
      exact hr
    · intro he
      exact hne (he.trans ha'.symm)

structure Walked (t : Tree String κ) (workspace low high : FsPath)
    (before after : List RelativePath) : Prop where
  keeps : ∀ c ∈ before, c ∈ after
  missing : ∀ c ∈ after, c ∈ before ∨ get t (joinRelative workspace c) = none
  covers : ∀ a, Between low a high → get t (workspace ++ a) = some .dir ∨
    ∃ c ∈ after, c.components = a

theorem wpe_validateLiveAncestors {root : RelativePath} (rest : List String)
    (relative : FsPath) (missing : List RelativePath) (hroot : root.components = relative ++ rest) :
    (Disk.device platform).wpe (validateLiveAncestors workspace relative rest missing)
      (fun after s => s = d ∧ Walked d.tree workspace relative root.components missing after)
      (fun _ s => s = d) (fun s => s = d) d := by
  -- the walk stops before the last name, where nothing lies between
  have hs : ∀ low : FsPath, ∀ names : List String, names.length ≤ 1 →
      root.components = low ++ names → ∀ missing,
      Walked d.tree workspace low root.components missing missing := by
    intro low names hl hroot missing
    refine ⟨fun c hc => hc, fun c hc => .inl hc, fun a ha => ?_⟩
    rw [hroot] at ha
    match names, hl with
    | [], _ =>
      rw [append_nil] at ha
      have hse := ha.2.2.1.eq_of_length_le ha.1.length_le
      exact absurd hse ha.2.1
    | [name], _ => exact absurd ha not_between_self
  induction rest generalizing relative missing with
  | nil => exact wpe_pure rfl ⟨rfl, hs relative [] (by simp) hroot missing⟩
  | cons comp rest ih =>
    cases rest with
    | nil => exact wpe_pure rfl ⟨rfl, hs relative [comp] (by simp) hroot missing⟩
    | cons next rest =>
      have hr' : root.components = relative ++ [comp] ++ next :: rest := by
        rw [hroot]
        simp
      rw [validateLiveAncestors]
      refine wpe_bind (wpe_call rfl rfl (by rintro _ ⟨⟩) rfl ?_)
      cases hg : get d.tree (workspace ++ (relative ++ [comp])) with
      | some node =>
        cases node with
        | leaf cnt => exact wpe_throw rfl rfl
        | dir =>
          refine wpe_mono (ih (relative ++ [comp]) missing hr') ?_ (fun _ _ h => h) (fun _ h => h)
          rintro after s ⟨rfl, hw⟩
          refine ⟨rfl, hw.keeps, hw.missing, fun a ha => ?_⟩
          rw [hroot] at ha
          rcases between_cons ha with rfl | hla
          · exact .inl hg
          · exact hw.covers a (by rw [hr']; exact hla)
      | none =>
        obtain ⟨par, hp, hco⟩ := RelativePath.new_of_components
          (a := relative ++ [comp]) hr' (by simp) (by simp)
        rw [hp]
        refine wpe_mono (ih (relative ++ [comp]) (insertPath par missing) hr') ?_
          (fun _ _ h => h) (fun _ h => h)
        rintro after s ⟨rfl, hw⟩
        refine ⟨rfl, fun c hc => hw.keeps c (mem_insertPath.mpr (.inr hc)), ?_, ?_⟩
        · intro c hc
          rcases hw.missing c hc with hb | hn
          · rcases mem_insertPath.mp hb with rfl | hm
            · right
              rw [joinRelative, hco]
              exact hg
            · exact .inl hm
          · exact .inr hn
        intro a ha
        rw [hroot] at ha
        rcases between_cons ha with rfl | hla
        · exact .inr ⟨par, hw.keeps par (mem_insertPath.mpr (.inl rfl)), hco⟩
        · exact hw.covers a (by rw [hr']; exact hla)

structure Inspected (t : Tree String κ) (workspace : FsPath) (roots : List RelativePath)
    (before after : List RelativePath) : Prop where
  keeps : ∀ c ∈ before, c ∈ after
  missing : ∀ c ∈ after, c ∈ before ∨ get t (joinRelative workspace c) = none
  covers : ∀ root ∈ roots, ∀ a, Between [] a root.components →
    get t (workspace ++ a) = some .dir ∨ ∃ c ∈ after, c.components = a

def noted (t : Tree String κ) (workspace : FsPath) (root : RelativePath) : JournalRoot :=
  ⟨root, (get t (joinRelative workspace root)).isSome⟩

theorem wpe_inspectLiveRoots (rs : List RelativePath)
    (entries : List JournalRoot) (crt : List RelativePath) :
    (Disk.device platform).wpe (inspectLiveRoots workspace rs entries crt)
      (fun result s => s = d ∧ result.1 = entries ++ rs.map (noted d.tree workspace) ∧
        Inspected d.tree workspace rs crt result.2)
      (fun _ s => s = d) (fun s => s = d) d := by
  induction rs generalizing entries crt with
  | nil =>
    refine wpe_pure rfl ⟨rfl, by simp, fun c hc => hc, fun c hc => .inl hc, ?_⟩
    intro root hro
    simp at hro
  | cons root rest ih =>
    rw [inspectLiveRoots]
    refine wpe_bind (wpe_mono (wpe_validateLiveAncestors root.components [] crt rfl) ?_
      (fun _ _ h => h) (fun _ h => h))
    rintro mid s ⟨rfl, hw⟩
    refine wpe_bind (wpe_pathExists rfl ?_)
    refine wpe_mono (ih _ mid) ?_ (fun _ _ h => h) (fun _ h => h)
    rintro ⟨es', after⟩ s' ⟨rfl, he, hr⟩
    refine ⟨rfl, ?_, fun c hc => hr.keeps c (hw.keeps c hc), ?_, ?_⟩
    · rw [he, map_cons, append_assoc]
      rfl
    · intro c hc
      rcases hr.missing c hc with hm | hn
      · exact hw.missing c hm
      · exact .inr hn
    intro p hp a ha
    rcases mem_cons.mp hp with rfl | hp
    · rcases hw.covers a ha with hd | ⟨c, hc, hco⟩
      · exact .inl hd
      · exact .inr ⟨c, hr.keeps c hc, hco⟩
    · exact hr.covers p hp a ha

/-! ## From an accepted journal to a transaction -/

/-- The disk a restore starts from: every node has its parent directory, the
workspace is a directory, and nothing carries the fresh transaction id. -/
structure Ready (platform : Platform) (request : RestoreRequest κ) (d : Disk κ) : Prop where
  closed : ∀ p, p ≠ [] → get d.tree p ≠ none → get d.tree p.dropLast = some .dir
  workspace : get d.tree (platform.canonical request.workspace) = some .dir
  unused : ∀ transaction,
    transactionPath (platform.canonical request.workspace) request.id = .ok transaction →
    get d.tree transaction = none
  no_journal : ∀ f, d.journals.get f ≠ none → f.extension ≠ .json ∧ f.stem ≠ request.id

def intendedJournal (platform : Platform) (request : RestoreRequest κ) (t : Tree String κ)
    (transaction : FsPath) (outputRoots created : List RelativePath) : RestoreJournal :=
  RestoreJournal.new request.id (platform.canonical request.workspace) transaction
    (outputRoots.map (noted t (platform.canonical request.workspace))) created

def Transaction.ofRequest (request : RestoreRequest κ) (hready : Ready platform request d)
    {transaction : FsPath} {outputRoots created : List RelativePath}
    (htransaction : transactionPath (platform.canonical request.workspace) request.id =
      .ok transaction)
    (hinspected : Inspected d.tree (platform.canonical request.workspace) outputRoots []
      created)
    (hvalid : validateJournal
      (intendedJournal platform request d.tree transaction outputRoots created) = .ok ())
    (hbounded : platform.encodedSize
      (intendedJournal platform request d.tree transaction outputRoots created) ≤
        maxJournalBytes) : Transaction κ where
  platform
  journal := intendedJournal platform request d.tree transaction outputRoots created
  base := d.tree
  fresh := request.bundle.newTree
  valid := hvalid
  bounded := hbounded
  canonical := platform.canonical_canonical _
  closed := hready.closed
  workspace_dir := hready.workspace
  unused := hready.unused transaction htransaction
  had_iff e he := by
    obtain ⟨root, -, rfl⟩ := mem_map.mp he
    rfl
  ancestors e he a ha hne := by
    obtain ⟨root, hroot, rfl⟩ := mem_map.mp he
    by_cases hnil : a = []
    · left
      rw [hnil, append_nil]
      exact hready.workspace
    · exact hinspected.covers root hroot a ⟨List.nil_prefix, hnil, ha, hne⟩
  created_free c hc := (hinspected.missing c hc).resolve_left (by simp)

end Octa.Restore
