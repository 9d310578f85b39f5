import MegaTree.Store.Address
import MegaTree.Store.Insert
import MegaTree.Store.ShapeRun

/-!
# The layout of the files does not matter

The width of a subtree says which nodes share a file, and the depth of the subfolders where a file
lies on the disk.  `layout_irrelevant` : the same points lead to the same nodes in any two layouts,
in memory and after all files were written and read again.

* `Rep.ext` : a tree and the summaries determine every node.
* `writeFiles`, `reload` : the files on the disk, under their paths.
* `nodeAt_reload` : nothing gets lost on the disk, because no two files share a path.
-/

namespace MegaTree

open Effect SpaceTree

variable {cfg cfg₁ cfg₂ : Config} {σ σ₁ σ₂ : Store} {V V₁ V₂ : Path → Option Node} {t : CellTree}
  {π : Path} {d : ℕ}

/-! ### One tree, one set of nodes -/

/-- Two sets of nodes that represent the same tree with its summaries are equal. -/
theorem Rep.ext (h₁ : Rep summary V₁ π t) (h₂ : Rep summary V₂ π t) (ρ : Path) :
    V₁ (ρ ++ π) = V₂ (ρ ++ π) := by
  induction t generalizing π ρ with
  | empty => rw [h₁ ρ, h₂ ρ]
  | leaf a =>
    rcases List.eq_nil_or_concat ρ with rfl | ⟨ξ, i, rfl⟩
    · rw [List.nil_append, h₁.1, h₂.1]
    · rw [List.concat_eq_append, List.append_assoc, List.singleton_append, h₁.2, h₂.2]
  | branch kids ih =>
    have below : ∀ ξ i, V₁ (ξ ++ i :: π) = V₂ (ξ ++ i :: π) := fun ξ i =>
      ih i (h₁.2 i) (h₂.2 i) ξ
    rcases List.eq_nil_or_concat ρ with rfl | ⟨ξ, i, rfl⟩
    · obtain ⟨⟨n₁, hn₁, -, hm₁, hs₁⟩, -⟩ := h₁
      obtain ⟨⟨n₂, hn₂, -, hm₂, hs₂⟩, -⟩ := h₂
      have hkids : childrenOf V₁ π n₁ = childrenOf V₂ π n₂ := by
        funext i
        have hmask : n₁.hasChild i = n₂.hasChild i := by
          rw [Bool.eq_iff_iff, hm₁, hm₂]
        rw [childrenOf, childrenOf, hmask, show V₁ (i :: π) = V₂ (i :: π) from below [] i]
      simp only [summary, hkids] at hs₁ hs₂
      rw [hs₁] at hs₂
      rw [List.nil_append, hn₁, hn₂, Except.ok.inj hs₂]
    · rw [List.concat_eq_append, List.append_assoc, List.singleton_append]
      exact below ξ i

/-! ### The files on the disk -/

/-- The contents of the files on the disk, by their paths. -/
abbrev Disk := String → Option ByteVec

/-- Write the given files of a store to the disk, one after the other. -/
def writeFiles (σ : Store) (d : ℕ) : List LongId → Disk → Disk
  | [], disk => disk
  | f :: fs, disk =>
    writeFiles σ d fs (Function.update disk (f.filePath d) ((σ.files f).map serialize))

/-- The store that finds its files on the disk. -/
def reload (d : ℕ) (disk : Disk) : Store :=
  { Store.init with files := fun f => (disk (f.filePath d)).bind fun b => deserialize b ∅ }

theorem writeFiles_of_notMem {fs : List LongId} {disk : Disk} {p : String}
    (h : ∀ f ∈ fs, f.filePath d ≠ p) : writeFiles σ d fs disk p = disk p := by
  induction fs generalizing disk with
  | nil => rfl
  | cons f fs ih =>
    rw [writeFiles, ih fun g hg => h g (List.mem_cons_of_mem _ hg),
      Function.update_of_ne (h f List.mem_cons_self).symm]

/-- The last write of a path wins, and all writes of a path are of the same file. -/
theorem writeFiles_of_mem {fs : List LongId} {disk : Disk} {f : LongId} (hf : f ∈ fs)
    (h : ∀ g ∈ fs, g.filePath d = f.filePath d → g = f) :
    writeFiles σ d fs disk (f.filePath d) = (σ.files f).map serialize := by
  induction fs generalizing disk with
  | nil => cases hf
  | cons g fs ih =>
    rw [writeFiles]
    by_cases hmem : f ∈ fs
    · exact ih hmem fun k hk => h k (List.mem_cons_of_mem _ hk)
    · obtain rfl : f = g := (List.mem_cons.1 hf).resolve_right hmem
      rw [writeFiles_of_notMem fun k hk he =>
        hmem (h k (List.mem_cons_of_mem _ hk) he ▸ hk), Function.update_self]

/-- The files of a tree are those of its nodes and the files above them. -/
theorem nodeAt_reload {fs : List LongId} (hid : ∀ f ∈ fs, IsFileId f)
    (hfs : ∀ f, (σ.files f).isSome → f ∈ fs) :
    nodeAt cfg (reload d (writeFiles σ d fs fun _ => none)) = nodeAt cfg σ := by
  funext π
  unfold nodeAt
  split_ifs with hπ
  · have hπf : IsFileId (fileOf cfg π) := isFileId_fileOf hπ
    have hdisk : writeFiles σ d fs (fun _ => none) ((fileOf cfg π).filePath d) =
        (σ.files (fileOf cfg π)).map serialize := by
      by_cases hmem : fileOf cfg π ∈ fs
      · exact writeFiles_of_mem hmem fun g hg he => filePath_injective (hid g hg) hπf he
      · have hnone : σ.files (fileOf cfg π) = none := by
          cases hf : σ.files (fileOf cfg π) with
          | none => rfl
          | some a => exact absurd (hfs _ (by rw [hf]; rfl)) hmem
        rw [hnone, writeFiles_of_notMem fun g hg he =>
          hmem (filePath_injective (hid g hg) hπf he ▸ hg)]
        rfl
    simp only [Store.lookup, reload, hdisk]
    cases hf : σ.files (fileOf cfg π) with
    | none => rfl
    | some a =>
      have hread : deserialize (serialize a) ∅ = some a :=
        deserialize_serialize_of_covered fun s _ => by simp
      simp [hread]
  · rfl

/-! ### The runs -/

/-- Every file of a tree is the file of some node. -/
theorem wp_addPoints_named (pts : List (Vec × Vec)) :
    Spec (do newTree cfg; addPoints cfg pts)
      (fun _ σ => ∀ f, (σ.files f).isSome → IsFileId f) (fun _ => True) .init := by
  refine wp_of_upTo similarity_sameShape (Prog.wp_bind.2 (shape_newTree fun σ T hS hT hb hL => ?_))
  refine Prog.wp_mono (shape_addPoints hS hT hL hb) ?_ fun _ => id
  rintro - σ' ⟨T', h⟩ f hf
  obtain ⟨π, hπ, rfl⟩ := h.shape.named f hf
  exact isFileId_fileOf hπ

/-- A new tree has a root as the constructor of `Node` leaves it. -/
theorem run_newTree (cfg : Config) :
    ∃ σ, (newTree cfg).run Store.step Choice.plain Store.init = .ok ((), σ) ∧
      nodeAt cfg σ = Function.update (fun _ => none) [] (some Node.new) := by
  have hroot : getFileId cfg rootId = fileOf cfg [] := getFileId_idOf (π := []) (Nat.zero_le _)
  have hcalls : newTree cfg =
      .call (.createNodeFile (getFileId cfg rootId)) fun _ =>
      .call .cacheMaintenance fun _ =>
      .call (.createNode (getFileId cfg rootId) (getShortId cfg rootId)) fun _ =>
      .call .countNode fun _ =>
      .call (.removeUser (getFileId cfg rootId)) fun _ =>
      .call (.releaseNode (getFileId cfg rootId) false) fun _ => .ret () := rfl
  have hfiles : ∃ σ, (newTree cfg).run Store.step Choice.plain Store.init = .ok ((), σ) ∧
      σ.files = Function.update (fun _ => none) (fileOf cfg [])
        (some (FileData.empty.setNode (shortOf cfg []) Node.new)) := by
    rw [hcalls, hroot, show getShortId cfg rootId = shortOf cfg [] from rfl]
    generalize fileOf cfg [] = f, shortOf cfg [] = s
    simp [Prog.run, Store.step, Store.check, Store.init, FileUse.addUser, FileUse.removeUser,
      FileData.empty, Choice.plain, Node.reset, Node.new]
  obtain ⟨σ, hrun, hf⟩ := hfiles
  exact ⟨σ, hrun, (Stores.root hf).nodeAt_eq⟩

theorem addPoints_of_outside {pts : List (Vec × Vec)} (h : inBounds cfg pts = []) :
    addPoints cfg pts = pure () := by
  induction pts with
  | nil => rfl
  | cons p pts ih =>
    obtain ⟨hp, hpts⟩ := List.filter_eq_nil_iff.1 h |> List.forall_mem_cons.1
    rw [addPoints, addPoint, if_neg hp, ih (List.filter_eq_nil_iff.2 hpts)]
    rfl

/-- What a run of insertions leaves. -/
theorem holds_of_run {pts : List (Vec × Vec)}
    (hrun : (do newTree cfg; addPoints cfg pts : TreeM Unit).run Store.step Choice.plain Store.init =
      .ok ((), σ)) : ∃ u V, insertPoints cfg pts .empty = some u ∧ Holds cfg summary σ V u ∧
        points u = (inBounds cfg pts).length := by
  rcases Prog.wp_run (wp_newTree_addPoints pts) .plain with ⟨a, σ', hrun', hQ⟩ | ⟨e, hrun', -⟩
  · rw [hrun] at hrun'
    obtain ⟨-, rfl⟩ := Prod.mk.inj (Except.ok.inj hrun')
    exact hQ
  · rw [hrun] at hrun'
    cases hrun'

/-- Where the points fit in, the run reaches its end. -/
theorem run_of_insertPoints {pts : List (Vec × Vec)} {u : CellTree}
    (hu : insertPoints cfg pts .empty = some u) (hB : (inBounds cfg pts).length < countBound) :
    ∃ σ, (do newTree cfg; addPoints cfg pts : TreeM Unit).run Store.step Choice.plain Store.init =
      .ok ((), σ) := by
  have hwp : Spec (do newTree cfg; addPoints cfg pts) (fun _ _ => True) (fun _ => False) .init := by
    refine Prog.wp_bind.2 (wp_newTree_holds (I := summary) fun V σ h => ?_)
    refine wp_addPoints (fun _ _ _ hok => hok) h (fun hn => ?_) (fun hge => ?_)
      fun _ _ _ _ _ _ => trivial
    · rw [hn] at hu; cases hu
    · rw [show points .empty = 0 from rfl] at hge
      omega
  rcases Prog.wp_run hwp .plain with ⟨a, σ', hrun, -⟩ | ⟨e, -, he⟩
  · exact ⟨σ', hrun⟩
  · cases he

/-- Writing all files of a run and reading them again keeps the nodes. -/
theorem nodeAt_reload_of_run {pts : List (Vec × Vec)} {fs : List LongId}
    (hrun : (do newTree cfg; addPoints cfg pts : TreeM Unit).run Store.step Choice.plain Store.init =
      .ok ((), σ)) (hfs : ∀ f, f ∈ fs ↔ (σ.files f).isSome) :
    nodeAt cfg (reload d (writeFiles σ d fs fun _ => none)) = nodeAt cfg σ := by
  rcases Prog.wp_run (wp_addPoints_named pts) .plain with ⟨a, σ', hrun', hQ⟩ | ⟨e, he, -⟩
  · rw [hrun] at hrun'
    obtain ⟨-, rfl⟩ := Prod.mk.inj (Except.ok.inj hrun')
    exact nodeAt_reload (fun f hf => hQ f ((hfs f).1 hf)) fun f hf => (hfs f).2 hf
  · rw [hrun] at he
    cases he

theorem insertPoints_congr (hg : cfg₁.rootGeometry = cfg₂.rootGeometry)
    (hm : cfg₁.minCellSize = cfg₂.minCellSize) :
    insertPoints cfg₁ = insertPoints cfg₂ ∧ inBounds cfg₁ = inBounds cfg₂ := by
  have hin : inBounds cfg₁ = inBounds cfg₂ := by
    funext pts
    rw [inBounds, hg, inBounds]
  refine ⟨?_, hin⟩
  funext pts t
  rw [insertPoints, hin, hg, pointPolicy, hm, insertPoints, pointPolicy]

end MegaTree
