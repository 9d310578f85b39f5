import MegaTree.Core.FilePath
import MegaTree.Tree.Basic
import MegaTree.Store.Basic

/-!
# The nodes by their paths

A node is stored under the short id of its id in the file of its id.  `fileOf` and `shortOf` are
the two as functions of the path, and `key_injective` says that no two nodes share a place.

`Stores cfg σ V` : the store holds exactly the nodes `V` gives for each path, and the bytes of
child files tell exactly which files exist.  The lemmas below say how the writes of a client change
the nodes:

* `Stores.setNode` : a node is written or created.
* `Stores.newFile` : a file is created and announced in the file above it.
* `Stores.root` : the first file and the root are created.
-/

namespace MegaTree

variable (cfg : Config)

/-- The file of the node at a path. -/
def fileOf (π : Path) : LongId :=
  if cfg.subtreeWidth ≤ π.length then idOf (π.drop cfg.subtreeWidth) else .ofValue 0

/-- The short id of the node at a path. -/
def shortOf (π : Path) : ShortId := getShortId cfg (idOf π)

variable {cfg} {π ρ : Path} {c : ChildNr}

theorem fileOf_of_le (h : cfg.subtreeWidth ≤ π.length) :
    fileOf cfg π = idOf (π.drop cfg.subtreeWidth) := if_pos h

theorem fileOf_of_lt (h : π.length < cfg.subtreeWidth) : fileOf cfg π = .ofValue 0 :=
  if_neg (Nat.not_le.2 h)

theorem getFileId_idOf (h : π.length ≤ maxDepth) : getFileId cfg (idOf π) = fileOf cfg π := by
  unfold getFileId
  by_cases hw : cfg.subtreeWidth ≤ π.length
  · rw [fileOf_of_le hw, getParent_idOf h cfg.width_pos cfg.width_le hw]
  · rw [fileOf_of_lt (by omega), LongId.getParent_of_le (by rw [idOf_idLevel]; omega)]

theorem shortOf_toNat (h : π.length ≤ maxDepth) :
    (shortOf cfg π).toNat = octal π % 8 ^ min (π.length + 1) cfg.subtreeWidth := by
  have hw := cfg.width_le
  have hm : min (π.length + 1) cfg.subtreeWidth * 3 ≤ 30 := by omega
  rw [shortOf, getShortId, LongId.level, idOf_idLevel, LongId.getBits_toNat hm, toNat_idOf h,
    Nat.mul_comm, pow_mul]
  rfl

theorem idOf_ne_root_file (π : Path) : idOf π ≠ .ofValue 0 := by
  intro h
  have := congrArg LongId.idLevel h
  rw [idOf_idLevel] at this
  exact absurd this (Nat.succ_ne_zero _)

/-- The paths with the same file: both in the first file, or with the same ancestor. -/
theorem fileOf_eq_iff (hπ : π.length ≤ maxDepth) (hρ : ρ.length ≤ maxDepth) :
    fileOf cfg π = fileOf cfg ρ ↔ (π.length < cfg.subtreeWidth ∧ ρ.length < cfg.subtreeWidth) ∨
      (cfg.subtreeWidth ≤ π.length ∧ cfg.subtreeWidth ≤ ρ.length ∧
        π.drop cfg.subtreeWidth = ρ.drop cfg.subtreeWidth) := by
  by_cases h₁ : cfg.subtreeWidth ≤ π.length <;> by_cases h₂ : cfg.subtreeWidth ≤ ρ.length
  · rw [fileOf_of_le h₁, fileOf_of_le h₂]
    constructor
    · intro h
      exact .inr ⟨h₁, h₂, idOf_injective (by rw [List.length_drop]; omega)
        (by rw [List.length_drop]; omega) h⟩
    · rintro (⟨h, -⟩ | ⟨-, -, h⟩)
      · omega
      · rw [h]
  · rw [fileOf_of_le h₁, fileOf_of_lt (by omega)]
    simp only [idOf_ne_root_file, false_iff]
    omega
  · rw [fileOf_of_lt (by omega), fileOf_of_le h₂]
    simp only [(idOf_ne_root_file _).symm, false_iff]
    omega
  · rw [fileOf_of_lt (by omega), fileOf_of_lt (by omega)]
    simp only [true_iff]
    omega

/-- No two nodes are stored in the same place. -/
theorem key_injective (hπ : π.length ≤ maxDepth) (hρ : ρ.length ≤ maxDepth)
    (hf : fileOf cfg π = fileOf cfg ρ) (hs : shortOf cfg π = shortOf cfg ρ) : π = ρ := by
  have hs := congrArg UInt32.toNat hs
  rw [shortOf_toNat hπ, shortOf_toNat hρ] at hs
  apply octal_injective
  rcases (fileOf_eq_iff hπ hρ).1 hf with ⟨h₁, h₂⟩ | ⟨h₁, h₂, h⟩
  · -- in the first file the short id is the whole octal number
    have whole : ∀ ξ : Path, ξ.length < cfg.subtreeWidth →
        octal ξ % 8 ^ min (ξ.length + 1) cfg.subtreeWidth = octal ξ := by
      intro ξ hξ
      rw [Nat.min_eq_left hξ]
      refine Nat.mod_eq_of_lt ((octal_lt ξ).trans_le ?_)
      rw [pow_succ]
      omega
    rwa [whole π h₁, whole ρ h₂] at hs
  · rw [Nat.min_eq_right (by omega), Nat.min_eq_right (by omega)] at hs
    have hd : octal π / 8 ^ cfg.subtreeWidth = octal ρ / 8 ^ cfg.subtreeWidth := by
      rw [octal_div π _ h₁, octal_div ρ _ h₂, h]
    rw [← Nat.div_add_mod (octal π) (8 ^ cfg.subtreeWidth), hd, hs, Nat.div_add_mod]

/-! ### The files above and below a file -/

theorem fileOf_cons_root (h : π.length + 1 < cfg.subtreeWidth) :
    fileOf cfg (c :: π) = .ofValue 0 := fileOf_of_lt (by simpa using h)

theorem isRootFile_fileOf_cons (h : cfg.subtreeWidth ≤ π.length + 1) :
    (fileOf cfg (c :: π)).isRootFile = false := by
  rw [fileOf_of_le (by simpa using h), LongId.isRootFile, idOf_idLevel]
  rfl

/-- The number of the file of a child in the file of its parent. -/
theorem getChildNr_fileOf_cons (h : cfg.subtreeWidth ≤ π.length + 1)
    (hd : π.length + 1 ≤ maxDepth) : (fileOf cfg (c :: π)).getChildNr =
      ((c :: π).drop cfg.subtreeWidth).headD 1 := by
  rw [fileOf_of_le (by simpa using h)]
  cases hl : (c :: π).drop cfg.subtreeWidth with
  | nil => rfl
  | cons d ξ =>
    have hlen := congrArg List.length hl
    simp only [List.length_drop, List.length_cons] at hlen
    rw [getChildNr_idOf_cons (by omega)]
    rfl

theorem drop_cons_tail (w : ℕ) : ((c :: π).drop w).tail = π.drop w := by
  rw [List.tail_drop, List.drop_succ_cons]

/-- A file below another one is known by the file above and the number there. -/
theorem fileOf_cons_eq_iff {d : ChildNr} (hπ : π.length + 1 ≤ maxDepth)
    (hρ : ρ.length + 1 ≤ maxDepth) (wπ : cfg.subtreeWidth ≤ π.length + 1)
    (wρ : cfg.subtreeWidth ≤ ρ.length + 1) : fileOf cfg (c :: π) = fileOf cfg (d :: ρ) ↔
      fileOf cfg π = fileOf cfg ρ ∧
        (fileOf cfg (c :: π)).getChildNr = (fileOf cfg (d :: ρ)).getChildNr := by
  have tπ := drop_cons_tail (c := c) (π := π) cfg.subtreeWidth
  have tρ := drop_cons_tail (c := d) (π := ρ) cfg.subtreeWidth
  have lπ : ((c :: π).drop cfg.subtreeWidth).length = π.length + 1 - cfg.subtreeWidth := by
    rw [List.length_drop, List.length_cons]
  have lρ : ((d :: ρ).drop cfg.subtreeWidth).length = ρ.length + 1 - cfg.subtreeWidth := by
    rw [List.length_drop, List.length_cons]
  rw [fileOf_eq_iff (by omega) (by omega), getChildNr_fileOf_cons wπ hπ,
    getChildNr_fileOf_cons wρ hρ, fileOf_eq_iff (by omega) (by omega)]
  simp only [List.length_cons]
  generalize (c :: π).drop cfg.subtreeWidth = a at *
  generalize (d :: ρ).drop cfg.subtreeWidth = b at *
  constructor
  · rintro (⟨h, -⟩ | ⟨-, -, rfl⟩)
    · omega
    · refine ⟨?_, rfl⟩
      by_cases h : cfg.subtreeWidth ≤ π.length
      · exact .inr ⟨h, by omega, by rw [← tπ, ← tρ]⟩
      · exact .inl ⟨by omega, by omega⟩
  · rintro ⟨⟨h₁, h₂⟩ | ⟨h₁, h₂, h⟩, hn⟩
    · have ha : a = [] := List.eq_nil_of_length_eq_zero (by omega)
      have hb : b = [] := List.eq_nil_of_length_eq_zero (by omega)
      exact .inr ⟨wπ, wρ, ha.trans hb.symm⟩
    · refine .inr ⟨wπ, wρ, ?_⟩
      obtain _ | ⟨x, a⟩ := a
      · simp at lπ; omega
      obtain _ | ⟨y, b⟩ := b
      · simp at lρ; omega
      simp only [List.headD_cons] at hn
      simp only [List.tail_cons] at tπ tρ
      rw [hn, tπ, tρ, h]

theorem fileOf_cons_ne (hπ : π.length + 1 ≤ maxDepth) (wπ : cfg.subtreeWidth ≤ π.length + 1) :
    fileOf cfg (c :: π) ≠ fileOf cfg π := by
  intro h
  rcases (fileOf_eq_iff (by simpa using hπ) (by omega)).1 h with ⟨h', -⟩ | ⟨-, h', he⟩
  · simp only [List.length_cons] at h'; omega
  · have := congrArg List.length he
    simp only [List.length_drop, List.length_cons] at this
    omega

/-! ### The nodes of a store -/

variable (cfg) in
/-- The node at a path. -/
def nodeAt (σ : Store) (π : Path) : Option Node :=
  if π.length ≤ maxDepth then σ.lookup (fileOf cfg π) (shortOf cfg π) else none

theorem nodeAt_eq_some {σ : Store} {n : Node} :
    nodeAt cfg σ π = some n ↔
      π.length ≤ maxDepth ∧ σ.lookup (fileOf cfg π) (shortOf cfg π) = some n := by
  unfold nodeAt
  split_ifs with h <;> simp [h]

/-- The nodes depend on the files only. -/
theorem nodeAt_congr {σ σ' : Store} (h : σ'.files = σ.files) : nodeAt cfg σ' = nodeAt cfg σ := by
  funext π
  simp only [nodeAt, Store.lookup, h]

/-- The file of a node exists. -/
theorem file_isSome_of_nodeAt {σ : Store} {n : Node} (h : nodeAt cfg σ π = some n) :
    (σ.files (fileOf cfg π)).isSome := by
  obtain ⟨d, hd, -⟩ := Option.bind_eq_some_iff.1 (nodeAt_eq_some.1 h).2
  rw [hd]
  rfl

variable (cfg) in
/-- The store holds exactly the nodes `V`, and the child bytes tell which files exist. -/
structure Stores (σ : Store) (V : Path → Option Node) : Prop where
  nodes : ∀ π, π.length ≤ maxDepth → σ.lookup (fileOf cfg π) (shortOf cfg π) = V π
  deep : ∀ π, maxDepth < π.length → V π = none
  only : ∀ f s, (σ.lookup f s).isSome →
    ∃ π : Path, π.length ≤ maxDepth ∧ f = fileOf cfg π ∧ s = shortOf cfg π
  child : ∀ π c d, π.length + 1 ≤ maxDepth → cfg.subtreeWidth ≤ π.length + 1 →
    σ.files (fileOf cfg π) = some d →
    d.hasChildFile (fileOf cfg (c :: π)).getChildNr = (σ.files (fileOf cfg (c :: π))).isSome
  parent : ∀ π c, π.length + 1 ≤ maxDepth → (σ.files (fileOf cfg (c :: π))).isSome →
    (σ.files (fileOf cfg π)).isSome

namespace Stores

variable {σ σ' : Store} {V : Path → Option Node} {n : Node} {d : FileData}

theorem nodeAt_eq (h : Stores cfg σ V) : nodeAt cfg σ = V := by
  funext π
  unfold nodeAt
  split_ifs with hπ
  · exact h.nodes π hπ
  · exact (h.deep π (not_le.1 hπ)).symm

/-- Every stored node is the node at some path. -/
theorem exists_path (h : Stores cfg σ V) {f : LongId} {s : ShortId} (hn : σ.lookup f s = some n) :
    ∃ π, nodeAt cfg σ π = some n := by
  obtain ⟨π, hπ, rfl, rfl⟩ := h.only f s (by rw [hn]; rfl)
  exact ⟨π, by rw [nodeAt, if_pos hπ, hn]⟩

theorem congr (h : Stores cfg σ V) (hf : σ'.files = σ.files) : Stores cfg σ' V := by
  obtain ⟨h₁, h₂, h₅, h₃, h₄⟩ := h
  have hlook : σ'.lookup = σ.lookup := by funext f s; rw [Store.lookup, hf, Store.lookup]
  constructor
  · rw [hlook]; exact h₁
  · exact h₂
  · rw [hlook]; exact h₅
  · rw [hf]; exact h₃
  · rw [hf]; exact h₄

theorem length_le (h : Stores cfg σ V) (hn : V π = some n) : π.length ≤ maxDepth := by
  by_contra hd
  rw [h.deep π (by omega)] at hn
  cases hn

/-- The file and the entry of a stored node. -/
theorem file_of_node (h : Stores cfg σ V) (hn : V π = some n) :
    ∃ d, σ.files (fileOf cfg π) = some d ∧ d.nodeCache[shortOf cfg π]? = some n := by
  rw [← h.nodes π (h.length_le hn), Store.lookup] at hn
  exact Option.bind_eq_some_iff.1 hn

theorem file_isSome (h : Stores cfg σ V) (hn : V π = some n) :
    (σ.files (fileOf cfg π)).isSome := by
  obtain ⟨d, hd, -⟩ := h.file_of_node hn
  rw [hd]; rfl

/-- A node is written or created in a file that exists. -/
theorem setNode (h : Stores cfg σ V) (hπ : π.length ≤ maxDepth)
    (hd : σ.files (fileOf cfg π) = some d)
    (hf : σ'.files = Function.update σ.files (fileOf cfg π) (some (d.setNode (shortOf cfg π) n))) :
    Stores cfg σ' (Function.update V π (some n)) := by
  have files : ∀ f, (σ'.files f).isSome = (σ.files f).isSome := by
    intro f
    rw [hf]
    by_cases hfe : f = fileOf cfg π
    · rw [hfe, Function.update_self, hd]; rfl
    · rw [Function.update_of_ne hfe]
  constructor
  · intro ρ hρ
    rw [Store.lookup, hf]
    by_cases hfe : fileOf cfg ρ = fileOf cfg π
    · rw [hfe, Function.update_self, Option.bind_some, FileData.getElem?_setNode]
      by_cases hs : shortOf cfg π = shortOf cfg ρ
      · have : ρ = π := key_injective hρ hπ hfe hs.symm
        rw [this, if_pos rfl, Function.update_self]
      · have hne : ρ ≠ π := fun e => hs (by rw [e])
        rw [if_neg hs, Function.update_of_ne hne, ← h.nodes ρ hρ, Store.lookup, hfe, hd]
        rfl
    · have hne : ρ ≠ π := fun e => hfe (by rw [e])
      rw [Function.update_of_ne hfe, Function.update_of_ne hne, ← h.nodes ρ hρ, Store.lookup]
  · intro ρ hρ
    have hne : ρ ≠ π := fun e => by rw [e] at hρ; omega
    rw [Function.update_of_ne hne, h.deep ρ hρ]
  · intro f s hs
    rw [Store.lookup, hf] at hs
    by_cases hfe : f = fileOf cfg π
    · rw [hfe, Function.update_self, Option.bind_some, FileData.getElem?_setNode] at hs
      split_ifs at hs with hse
      · exact ⟨π, hπ, hfe, hse.symm⟩
      · exact h.only f s (by rw [hfe, Store.lookup, hd]; exact hs)
    · rw [Function.update_of_ne hfe] at hs
      exact h.only f s hs
  · intro ρ c e hρ hw he
    rw [files]
    rw [hf] at he
    by_cases hfe : fileOf cfg ρ = fileOf cfg π
    · rw [hfe, Function.update_self] at he
      obtain rfl := Option.some.inj he
      exact h.child ρ c d hρ hw (hfe ▸ hd)
    · rw [Function.update_of_ne hfe] at he
      exact h.child ρ c e hρ hw he
  · intro ρ c hρ hs
    rw [files] at hs ⊢
    exact h.parent ρ c hρ hs

/-- A file is created and announced in the file above it. -/
theorem newFile (h : Stores cfg σ V) (hπ : π.length + 1 ≤ maxDepth)
    (hw : cfg.subtreeWidth ≤ π.length + 1) (hd : σ.files (fileOf cfg π) = some d)
    (hn : σ.files (fileOf cfg (c :: π)) = none)
    (hf : σ'.files = Function.update
      (Function.update σ.files (fileOf cfg (c :: π)) (some .empty)) (fileOf cfg π)
      (some (d.setChildFile (fileOf cfg (c :: π)).getChildNr))) : Stores cfg σ' V := by
  have hne : fileOf cfg (c :: π) ≠ fileOf cfg π := fileOf_cons_ne hπ hw
  have files : ∀ f, (σ'.files f).isSome =
      (decide (f = fileOf cfg (c :: π)) || (σ.files f).isSome) := by
    intro f
    rw [hf]
    by_cases h₁ : f = fileOf cfg π
    · rw [h₁, Function.update_self, hd]; simp
    · by_cases h₂ : f = fileOf cfg (c :: π)
      · rw [Function.update_of_ne h₁, h₂, Function.update_self]; simp
      · rw [Function.update_of_ne h₁, Function.update_of_ne h₂]; simp [h₂]
  constructor
  · intro ρ hρ
    rw [← h.nodes ρ hρ, Store.lookup, Store.lookup, hf]
    by_cases h₁ : fileOf cfg ρ = fileOf cfg π
    · rw [h₁, Function.update_self, hd]; rfl
    · rw [Function.update_of_ne h₁]
      by_cases h₂ : fileOf cfg ρ = fileOf cfg (c :: π)
      · rw [h₂, Function.update_self, hn]
        simp [FileData.empty]
      · rw [Function.update_of_ne h₂]
  · exact h.deep
  · intro f s hs
    refine h.only f s ?_
    rw [Store.lookup, hf] at hs
    rw [Store.lookup]
    by_cases h₁ : f = fileOf cfg π
    · rw [h₁, Function.update_self] at hs
      rw [h₁, hd]
      exact hs
    · rw [Function.update_of_ne h₁] at hs
      by_cases h₂ : f = fileOf cfg (c :: π)
      · rw [h₂, Function.update_self] at hs
        simp [FileData.empty] at hs
      · rwa [Function.update_of_ne h₂] at hs
  · intro ρ c' e hρ hwρ he
    rw [files]
    have key := fileOf_cons_eq_iff (c := c') (d := c) hρ hπ hwρ hw
    rw [hf] at he
    by_cases h₁ : fileOf cfg ρ = fileOf cfg π
    · rw [h₁, Function.update_self] at he
      obtain rfl := Option.some.inj he
      rw [FileData.hasChildFile_setChildFile, h.child ρ c' d hρ hwρ (h₁ ▸ hd)]
      congr 1
      exact decide_eq_decide.2 (by rw [key]; exact ⟨fun e => ⟨h₁, e⟩, fun e => e.2⟩)
    · rw [Function.update_of_ne h₁] at he
      have hk : fileOf cfg (c' :: ρ) ≠ fileOf cfg (c :: π) := fun e => h₁ (key.1 e).1
      simp only [hk, decide_false, Bool.false_or]
      by_cases h₂ : fileOf cfg ρ = fileOf cfg (c :: π)
      · -- the new file has no child files: one would have needed the file itself
        rw [h₂, Function.update_self] at he
        obtain rfl := Option.some.inj he
        rw [FileData.hasChildFile_empty]
        cases hs : (σ.files (fileOf cfg (c' :: ρ))).isSome with
        | false => rfl
        | true =>
          have := h.parent ρ c' hρ hs
          rw [h₂, hn] at this
          cases this
      · rw [Function.update_of_ne h₂] at he
        exact h.child ρ c' e hρ hwρ he
  · intro ρ c' hρ hs
    rw [files] at hs ⊢
    rcases Bool.or_eq_true_iff.1 hs with hs | hs
    · by_cases hwρ : cfg.subtreeWidth ≤ ρ.length + 1
      · rw [((fileOf_cons_eq_iff hρ hπ hwρ hw).1 (of_decide_eq_true hs)).1, hd]
        simp
      · rw [decide_eq_true_eq, fileOf_cons_root (by omega)] at hs
        rw [fileOf_of_lt (by omega), ← hs]
        simp
    · rw [h.parent ρ c' hρ hs, Bool.or_true]

/-- The first file and the root are created. -/
theorem root {stale : Node}
    (hf : σ'.files = Function.update (fun _ => none) (fileOf cfg [])
      (some (FileData.empty.setNode (shortOf cfg []) stale))) :
    Stores cfg σ' (Function.update (fun _ => none) [] (some stale)) := by
  have hroot : fileOf cfg [] = .ofValue 0 := fileOf_of_lt cfg.width_pos
  have other : ∀ π c, cfg.subtreeWidth ≤ π.length + 1 → σ'.files (fileOf cfg (c :: π)) = none := by
    intro π c hw
    rw [hf, Function.update_of_ne]
    rw [fileOf_of_le (by simpa using hw), hroot]
    exact idOf_ne_root_file _
  constructor
  · intro π hπ
    rw [Store.lookup, hf]
    by_cases h₁ : fileOf cfg π = fileOf cfg []
    · rw [h₁, Function.update_self, Option.bind_some, FileData.getElem?_setNode]
      by_cases hs : shortOf cfg [] = shortOf cfg π
      · have : π = [] := key_injective hπ (Nat.zero_le _) h₁ hs.symm
        rw [this, if_pos rfl, Function.update_self]
      · have hne : π ≠ [] := fun e => hs (by rw [e])
        rw [if_neg hs, Function.update_of_ne hne]
        simp [FileData.empty]
    · have hne : π ≠ [] := fun e => h₁ (by rw [e])
      rw [Function.update_of_ne h₁, Function.update_of_ne hne]
      rfl
  · intro π hπ
    have hne : π ≠ [] := fun e => by rw [e] at hπ; exact absurd hπ (Nat.not_lt_zero _)
    rw [Function.update_of_ne hne]
  · intro f s hs
    rw [Store.lookup, hf] at hs
    by_cases h₁ : f = fileOf cfg []
    · rw [h₁, Function.update_self, Option.bind_some, FileData.getElem?_setNode] at hs
      split_ifs at hs with hse
      · exact ⟨[], Nat.zero_le _, h₁, hse.symm⟩
      · simp [FileData.empty] at hs
    · rw [Function.update_of_ne h₁] at hs
      cases hs
  · intro π c d _ hw hd
    rw [other π c hw]
    rw [hf] at hd
    by_cases h₁ : fileOf cfg π = fileOf cfg []
    · rw [h₁, Function.update_self] at hd
      obtain rfl := Option.some.inj hd
      simp
    · rw [Function.update_of_ne h₁] at hd
      cases hd
  · intro π c _ hs
    by_cases hw : cfg.subtreeWidth ≤ π.length + 1
    · rw [other π c hw] at hs; cases hs
    · rw [fileOf_of_lt (by omega), ← hroot, hf, Function.update_self]
      rfl

end Stores

end MegaTree
