import MegaTree.Core.FilePath
import MegaTree.Store.View

/-!
# Addresses of nodes

A node is found under the path of its file and its short id.  `address_unique` : no two nodes that
can be reached from the root have the same address, and a child lies in the file of its parent or in
the child file with the digit that `createChildNode` announces.
-/

namespace MegaTree

/-- `Descendant id n` : the id is reached from the id of the root by `n` calls of `getChild`. -/
inductive Descendant : LongId → ℕ → Prop
  | root : Descendant rootId 0
  | child {id id' : LongId} {n : ℕ} (c : ChildNr) :
      Descendant id n → id.getChild c = .ok id' → Descendant id' (n + 1)

theorem Descendant.exists_path {id : LongId} {n : ℕ} (h : Descendant id n) :
    ∃ π : Path, π.length = n ∧ id = idOf π := by
  induction h with
  | root => exact ⟨[], rfl, rfl⟩
  | child c _ hc ih =>
    obtain ⟨π, hπ, rfl⟩ := ih
    refine ⟨c :: π, by rw [List.length_cons, hπ], ?_⟩
    unfold LongId.getChild at hc
    split_ifs at hc
    exact (Except.ok.inj hc).symm

theorem Descendant.of_path (π : Path) (h : π.length ≤ maxDepth) : Descendant (idOf π) π.length := by
  induction π with
  | nil => exact .root
  | cons c π ih =>
    simp only [List.length_cons, maxDepth] at h
    exact .child c (ih (by simp only [maxDepth]; omega))
      (LongId.getChild_of_lt (by rw [idOf_idLevel]; omega) c)

variable {cfg : Config} {π : Path} {c : ChildNr}

theorem isFileId_fileOf (h : π.length ≤ maxDepth) : IsFileId (fileOf cfg π) := by
  by_cases hw : cfg.subtreeWidth ≤ π.length
  · rw [fileOf_of_le hw]
    exact .inr ⟨_, by rw [List.length_drop]; omega, rfl⟩
  · rw [fileOf_of_lt (by omega)]
    exact .inl rfl

/-- A child lies in the file of its parent, or in the child file of that file with its digit. -/
theorem fileOf_child (h : π.length + 1 ≤ maxDepth) : fileOf cfg (c :: π) = fileOf cfg π ∨
    (fileOf cfg π).getChild (fileOf cfg (c :: π)).getChildNr = .ok (fileOf cfg (c :: π)) := by
  by_cases hw : cfg.subtreeWidth ≤ π.length + 1
  · right
    have hchild : fileOf cfg (c :: π) = idOf ((c :: π).drop cfg.subtreeWidth) :=
      fileOf_of_le (by simpa using hw)
    rw [getChildNr_fileOf_cons hw h, hchild]
    rcases Nat.lt_or_ge π.length cfg.subtreeWidth with hlt | hge
    · -- the child is the first node below the first file
      have hnil : (c :: π).drop cfg.subtreeWidth = [] := List.drop_eq_nil_of_le hlt
      rw [fileOf_of_lt hlt, hnil]
      rfl
    · have htail := drop_cons_tail (c := c) (π := π) cfg.subtreeWidth
      cases hd : (c :: π).drop cfg.subtreeWidth with
      | nil =>
        have := congrArg List.length hd
        simp only [List.length_drop, List.length_cons, List.length_nil] at this
        omega
      | cons d ξ =>
        rw [hd, List.tail_cons] at htail
        have hlen := congrArg List.length hd
        simp only [List.length_drop, List.length_cons] at hlen
        have h1 := cfg.width_pos
        rw [fileOf_of_le hge, ← htail, List.headD_cons]
        exact LongId.getChild_of_lt (by rw [idOf_idLevel]; simp only [maxDepth] at h; omega) d
  · left
    rw [fileOf_of_lt (by simpa using hw), fileOf_of_lt (by omega)]

/-- **The path of its file and its short id determine a node, and the files are nested as the nodes
are.** -/
theorem address_unique (cfg : Config) (d : ℕ) {id₁ id₂ : LongId} {n₁ n₂ : ℕ}
    (h₁ : Descendant id₁ n₁) (hn₁ : n₁ ≤ 41) (h₂ : Descendant id₂ n₂) (hn₂ : n₂ ≤ 41) :
    (id₁ = id₂ ↔ (getFileId cfg id₁).filePath d = (getFileId cfg id₂).filePath d ∧
      getShortId cfg id₁ = getShortId cfg id₂) ∧
    ∀ c child, id₁.getChild c = .ok child → getFileId cfg child = getFileId cfg id₁ ∨
      (getFileId cfg id₁).getChild (getFileId cfg child).getChildNr = .ok (getFileId cfg child) := by
  obtain ⟨π, rfl, rfl⟩ := h₁.exists_path
  obtain ⟨ρ, rfl, rfl⟩ := h₂.exists_path
  rw [getFileId_idOf hn₁, getFileId_idOf hn₂]
  refine ⟨⟨fun h => ?_, fun ⟨hf, hs⟩ => ?_⟩, fun c child hc => ?_⟩
  · rw [idOf_injective hn₁ hn₂ h]
    exact ⟨rfl, rfl⟩
  · have hfile := filePath_injective (isFileId_fileOf hn₁) (isFileId_fileOf hn₂) hf
    rw [key_injective hn₁ hn₂ hfile hs]
  · have hlt : (idOf π).idLevel < 42 := by
      by_contra hge
      rw [LongId.getChild_of_le (not_lt.1 hge)] at hc
      cases hc
    have hlen : π.length + 1 ≤ maxDepth := by
      rw [idOf_idLevel] at hlt
      simp only [maxDepth]
      omega
    rw [LongId.getChild_of_lt hlt] at hc
    obtain rfl := Except.ok.inj hc
    have hid : getFileId cfg ((idOf π).childId c) = fileOf cfg (c :: π) :=
      getFileId_idOf (π := c :: π) (by simpa using hlen)
    rw [hid]
    exact fileOf_child hlen

/-- Two children of the root of a tree. -/
theorem address_unique_children :
    (rootId.childId 2 = rootId.childId 5 ↔
      (getFileId .sample (rootId.childId 2)).filePath 3 =
        (getFileId .sample (rootId.childId 5)).filePath 3 ∧
      getShortId .sample (rootId.childId 2) = getShortId .sample (rootId.childId 5)) :=
  (address_unique .sample 3 (.child 2 .root rfl) (by decide) (.child 5 .root rfl) (by decide)).1

end MegaTree
