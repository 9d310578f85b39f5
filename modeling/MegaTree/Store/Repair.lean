import MegaTree.Core.Repair
import MegaTree.Store.Layout

/-!
# Rebuilding a file of a tree

In a tree whose interior nodes are the summaries of their children, every file without leaves but
the first one can be rebuilt from the files below it, if the files are six levels high:
`initializeFromChildren_rebuilds`.

* `parentShortId_shortOf` : the short ids lead back to the parents.
* `families_familyAt` : the nodes of the files below are the children of the nodes of the file.
* `summedTree_addPoints` : the trees that insertions build are such trees.
-/

namespace MegaTree

open Effect SpaceTree

/-- The nodes and files of a tree are linked, and the interior nodes are summaries. -/
structure SummedTree (cfg : Config) (σ : Store) (T : Bits) : Prop where
  shape : Shape cfg σ T
  linked : Linked T
  interior : ∀ π n, nodeAt cfg σ π = some n → n.isLeaf = false →
    Node.copyFromChildNodes (childrenOf (nodeAt cfg σ) π n) = .ok n

/-- All nodes of a file are interior nodes. -/
def NoLeaves (d : FileData) : Prop :=
  ∀ (s : ShortId) (n : Node), d.nodeCache[s]? = some n → n.isLeaf = false

variable {cfg : Config} {σ : Store} {T : Bits} {π φ : Path} {i c : ChildNr} {n : Node}
  {F : LongId} {d : FileData} {p : ShortId}

/-! ### Short ids -/

/-- A short id of a child with the number of its file is the short id of its parent and the number
of the child. -/
theorem parentShortId_shortOf (hw : cfg.subtreeWidth = 6) (h : (c :: π).length ≤ maxDepth)
    (hd : π.drop 5 = i :: φ) :
    parentShortId i (shortOf cfg (c :: π)) = shortOf cfg π ∧
      whichChildId (shortOf cfg (c :: π)) = c := by
  have hlen : π.length = φ.length + 6 := by
    have := congrArg List.length hd
    simp only [List.length_drop, List.length_cons] at this
    omega
  have h' : π.length + 1 ≤ maxDepth := by simpa using h
  have hc := c.isLt
  have hi := i.isLt
  have hchild : (shortOf cfg (c :: π)).toNat = (8 * octal π + c.val) % 8 ^ 6 := by
    rw [shortOf_toNat h, hw, List.length_cons, Nat.min_eq_right (by omega), octal]
  have hparent : (shortOf cfg π).toNat = octal π % 8 ^ 6 := by
    rw [shortOf_toNat (by omega), hw, Nat.min_eq_right (by omega)]
  -- the digit that the child has lost is the number of its file
  have hdigit : octal π / 8 ^ 5 = 8 * octal φ + i.val := by
    rw [octal_div π 5 (by omega), hd, octal]
  constructor
  · apply UInt32.toNat_inj.1
    have hpre : (UInt32.ofNat i.val <<< (5 * 3)).toNat = i.val * 8 ^ 5 := by
      rw [UInt32.toNat_shiftLeft, UInt32.toNat_ofNat', Nat.shiftLeft_eq]
      have e : ((5 * 3 : UInt32).toNat % 32) = 15 := by decide
      rw [e]
      omega
    rw [parentShortId, UInt32.toNat_add, hpre, toNat_shiftRight_three, hchild, hparent]
    omega
  · apply Fin.ext
    rw [whichChildId_val, hchild]
    omega

/-! ### The families of a file -/

open Classical in
/-- The children of the node with a short id in a file. -/
noncomputable def familyAt (cfg : Config) (V : Path → Option Node) (F : LongId) (p : ShortId) :
    Option (ChildNr → Option Node) :=
  if h : ∃ π : Path, (V π).isSome ∧ π.length ≤ maxDepth ∧ fileOf cfg π = F ∧ shortOf cfg π = p then
    some fun c => V (c :: h.choose)
  else none

theorem familyAt_shortOf {V : Path → Option Node} (hV : (V π).isSome) (hπ : π.length ≤ maxDepth) :
    familyAt cfg V (fileOf cfg π) (shortOf cfg π) = some fun c => V (c :: π) := by
  have h : ∃ ρ : Path, (V ρ).isSome ∧ ρ.length ≤ maxDepth ∧ fileOf cfg ρ = fileOf cfg π ∧
      shortOf cfg ρ = shortOf cfg π := ⟨π, hV, hπ, rfl, rfl⟩
  obtain ⟨-, hρ, hf, hs⟩ := h.choose_spec
  rw [familyAt, dif_pos h, key_injective hρ hπ hf hs]

theorem exists_of_familyAt {V : Path → Option Node} {kids : ChildNr → Option Node}
    (h : familyAt cfg V F p = some kids) : ∃ π : Path, (V π).isSome ∧ π.length ≤ maxDepth ∧
      fileOf cfg π = F ∧ shortOf cfg π = p ∧ kids = fun c => V (c :: π) := by
  unfold familyAt at h
  split_ifs at h with hex
  obtain ⟨hV, hπ, hf, hs⟩ := hex.choose_spec
  exact ⟨hex.choose, hV, hπ, hf, hs, (Option.some.inj h).symm⟩

/-- The nodes of the file with the number `i` below a file are children of its nodes. -/
theorem Shape.below (hS : Shape cfg σ T) (hF : (σ.files F).isSome) {ρ : Path}
    (hρ : ρ.length ≤ maxDepth) (hfile : F.childId i = fileOf cfg ρ) :
    ∃ c π, ρ = c :: π ∧ fileOf cfg π = F ∧ cfg.subtreeWidth ≤ π.length + 1 ∧
      (fileOf cfg ρ).getChildNr = i := by
  obtain ⟨ξ, hξ, rfl⟩ := hS.named F hF
  have hlevel : (fileOf cfg ξ).idLevel < 42 := by
    by_cases h : cfg.subtreeWidth ≤ ξ.length
    · have := cfg.width_pos
      rw [fileOf_of_le h, idOf_idLevel, List.length_drop]
      simp only [maxDepth] at hξ
      omega
    · rw [fileOf_of_lt (by omega)]
      decide
  obtain ⟨c, π, rfl, hw, hf, hi⟩ := getChild_fileOf (k := i) hρ
    ((LongId.getChild_of_lt hlevel i).trans (congrArg _ hfile))
  exact ⟨c, π, rfl, hf, hw, hi⟩

theorem isRootFile_fileOf_iff : (fileOf cfg π).isRootFile = false ↔
    cfg.subtreeWidth ≤ π.length := by
  by_cases h : cfg.subtreeWidth ≤ π.length
  · rw [fileOf_of_le h, LongId.isRootFile, idOf_idLevel]
    simp [h]
  · rw [fileOf_of_lt (by omega)]
    simp only [h, iff_false]
    decide

/-- The digit that says in which file below its own a child of a node lies. -/
theorem drop_five (hw : cfg.subtreeWidth = 6) (hπ : (c :: π).length ≤ maxDepth)
    (hlen : 6 ≤ π.length) : ∃ φ, π.drop 5 = (fileOf cfg (c :: π)).getChildNr :: φ := by
  rw [getChildNr_fileOf_cons (by omega) (by simpa using hπ), hw]
  change ∃ φ, π.drop 5 = (π.drop 5).headD 1 :: φ
  cases h : π.drop 5 with
  | nil =>
    have := congrArg List.length h
    simp only [List.length_drop, List.length_nil] at this
    omega
  | cons i φ => exact ⟨φ, rfl⟩

/-- The nodes of the files below a file without leaves are the children of its nodes. -/
theorem families_familyAt (hw : cfg.subtreeWidth = 6) (hS : Shape cfg σ T) (hT : Linked T)
    (hF : σ.files F = some d) (hroot : F.isRootFile = false)
    (hint : NoLeaves d) :
    Families (fun i => σ.files (F.childId i)) (familyAt cfg (nodeAt cfg σ) F) where
  sound := by
    intro i f s n hf hn
    have hlook : σ.lookup (F.childId i) s = some n := by rw [Store.lookup, hf]; exact hn
    obtain ⟨ρ, hρ, hfile, rfl⟩ := hS.stores.only _ s (by rw [hlook]; rfl)
    obtain ⟨c, π, rfl, rfl, -, rfl⟩ := hS.below (by rw [hF]; rfl) hρ hfile
    have hlen : 6 ≤ π.length := hw ▸ isRootFile_fileOf_iff.1 hroot
    have hπ : π.length ≤ maxDepth := by
      simp only [List.length_cons] at hρ
      omega
    have hchild : nodeAt cfg σ (c :: π) = some n := by
      rw [nodeAt, if_pos hρ, ← hfile, hlook]
    have hparent : (nodeAt cfg σ π).isSome := by
      have := hT.parent π c (by rw [← hS.bits, hchild]; rfl)
      rwa [← hS.bits, Option.isSome_map] at this
    obtain ⟨φ, hφ⟩ := drop_five hw hρ hlen
    obtain ⟨hp, hc⟩ := parentShortId_shortOf hw hρ hφ
    refine ⟨_, by rw [hp, familyAt_shortOf hparent hπ], ?_⟩
    rw [hc, hchild]
  complete := by
    intro p kids c n hp hc
    obtain ⟨π, -, hπ, rfl, rfl, rfl⟩ := exists_of_familyAt hp
    obtain ⟨hρ, hlook⟩ := nodeAt_eq_some.1 hc
    obtain ⟨f, hf, hn⟩ := Option.bind_eq_some_iff.1 hlook
    have hlen : 6 ≤ π.length := hw ▸ isRootFile_fileOf_iff.1 hroot
    have hπ' : π.length + 1 ≤ maxDepth := by simpa using hρ
    obtain ⟨φ, hφ⟩ := drop_five hw hρ hlen
    obtain ⟨h₁, h₂⟩ := parentShortId_shortOf hw hρ hφ
    refine ⟨_, f, _, ?_, hn, h₁, h₂⟩
    have hchild : (fileOf cfg π).getChild (fileOf cfg (c :: π)).getChildNr =
        .ok (fileOf cfg (c :: π)) :=
      (fileOf_child hπ').resolve_left (fileOf_cons_ne hπ' (by omega))
    unfold LongId.getChild at hchild
    split_ifs at hchild
    rw [Except.ok.inj hchild, hf]
  nonempty := by
    intro p kids hp
    obtain ⟨π, hV, hπ, rfl, rfl, rfl⟩ := exists_of_familyAt hp
    obtain ⟨n, hn⟩ := Option.isSome_iff_exists.1 hV
    have hcache : d.nodeCache[shortOf cfg π]? = some n := by
      have := (nodeAt_eq_some.1 hn).2
      rwa [Store.lookup, hF] at this
    -- the node is no leaf, so one of its bits is set
    obtain ⟨c, hc⟩ : ∃ c, n.hasChild c = true := by
      by_contra hno
      have hleaf := Node.isLeaf_iff_hasChild.2 fun c => Bool.eq_false_iff.2 fun h => hno ⟨c, h⟩
      rw [hint _ _ hcache] at hleaf
      cases hleaf
    have hchild := hT.bits π n.hasChild (by rw [← hS.bits, hn]; rfl) c
    rw [hc, ← hS.bits, Option.isSome_map] at hchild
    obtain ⟨m, hm⟩ := Option.isSome_iff_exists.1 hchild.symm
    exact ⟨c, m, hm⟩

/-- With exact bits the children of a node are all nodes below it. -/
theorem childrenOf_eq (hS : Shape cfg σ T) (hT : Linked T) (hn : nodeAt cfg σ π = some n) :
    childrenOf (nodeAt cfg σ) π n = fun c => nodeAt cfg σ (c :: π) := by
  funext c
  have hc := hT.bits π n.hasChild (by rw [← hS.bits, hn]; rfl) c
  rw [← hS.bits, Option.isSome_map] at hc
  rw [childrenOf, hc]
  cases nodeAt cfg σ (c :: π) <;> rfl

/-- **A file without leaves is rebuilt exactly from the files below it**: the byte of child files and
the map from short ids to nodes. -/
theorem initializeFromChildren_rebuilds (hw : cfg.subtreeWidth = 6) (h : SummedTree cfg σ T)
    (hF : σ.files F = some d) (hroot : F.isRootFile = false)
    (hint : NoLeaves d) :
    FileData.initializeFromChildren (fun i => σ.files (F.childId i)) = .ok d := by
  have hlook : ∀ p : ShortId, σ.lookup F p = d.nodeCache[p]? := fun p => by
    rw [Store.lookup, hF]
    rfl
  have hnode : ∀ (p : ShortId) n, d.nodeCache[p]? = some n →
      ∃ π : Path, π.length ≤ maxDepth ∧ F = fileOf cfg π ∧ p = shortOf cfg π ∧
        nodeAt cfg σ π = some n := by
    intro p n hp
    obtain ⟨π, hπ, rfl, rfl⟩ := h.shape.stores.only F p (by rw [hlook, hp]; rfl)
    exact ⟨π, hπ, rfl, rfl, by rw [nodeAt, if_pos hπ, hlook, hp]⟩
  refine initializeFromChildren_eq (fun i => ?_)
    (families_familyAt hw h.shape h.linked hF hroot hint) (fun p => ?_) fun p n kids hp hkids => ?_
  · -- the byte of child files
    rw [Bool.eq_iff_iff]
    constructor
    · intro hbit
      obtain ⟨g, hg, hsome⟩ := h.shape.digits F d i hF hbit
      unfold LongId.getChild at hg
      split_ifs at hg
      rwa [Except.ok.inj hg]
    · intro hsome
      obtain ⟨ρ, hρ, hfile⟩ := h.shape.named _ hsome
      obtain ⟨c, π, rfl, rfl, hwπ, rfl⟩ := h.shape.below (by rw [hF]; rfl) hρ hfile
      rw [h.shape.stores.child π c d (by simpa using hρ) hwπ hF, ← hfile]
      exact hsome
  · rw [Bool.eq_iff_iff, Option.isSome_iff_exists, Option.isSome_iff_exists]
    constructor
    · rintro ⟨kids, hkids⟩
      obtain ⟨π, hV, hπ, rfl, rfl, -⟩ := exists_of_familyAt hkids
      obtain ⟨n, hn⟩ := Option.isSome_iff_exists.1 hV
      exact ⟨n, by rw [← hlook, (nodeAt_eq_some.1 hn).2]⟩
    · rintro ⟨n, hn⟩
      obtain ⟨π, hπ, rfl, rfl, hV⟩ := hnode p n hn
      exact ⟨_, familyAt_shortOf (by rw [hV]; rfl) hπ⟩
  · obtain ⟨π, hπ, rfl, rfl, hV⟩ := hnode p n hp
    rw [familyAt_shortOf (by rw [hV]; rfl) hπ] at hkids
    rw [← Option.some.inj hkids, ← childrenOf_eq h.shape h.linked hV]
    exact h.interior π n hV (hint _ _ hp)

/-! ### The trees of insertions -/

/-- Every run that creates a tree and inserts points leaves such a tree. -/
theorem summedTree_addPoints {pts : List (Vec × Vec)}
    (hrun : Prog.Exec Store.step (do newTree cfg; addPoints cfg pts) .init (.ret ()) σ) :
    ∃ T, SummedTree cfg σ T := by
  have hshape : Spec (do newTree cfg; addPoints cfg pts)
      (fun _ σ => ∃ T, Shape cfg σ T ∧ Linked T) (fun _ => True) .init := by
    refine wp_of_upTo similarity_sameShape (Prog.wp_bind.2 (shape_newTree fun σ T hS hT hb hL => ?_))
    refine Prog.wp_mono (shape_addPoints hS hT hL hb) ?_ fun _ => id
    rintro - σ' ⟨T', h⟩
    exact ⟨T', h.shape, h.linked⟩
  obtain ⟨T, hS, hT⟩ := Prog.wp_exec hshape hrun
  obtain ⟨u, V, -, h, -⟩ := Prog.wp_exec (wp_newTree_addPoints pts) hrun
  refine ⟨T, hS, hT, fun π n hn hleaf => ?_⟩
  rw [h.stores.nodeAt_eq] at hn ⊢
  refine h.summarised.interior π n hn fun h0 => ?_
  rw [Node.isLeaf_iff.2 h0] at hleaf
  cases hleaf

/-- A tree with files of six levels and small cells. -/
def Config.deep : Config := .sixLevels { Config.sample with minCellSize := 1 / 256 }

/-- Two points that only the ninth level separates. -/
def closePair : List (Vec × Vec) := [(fun _ => 1 / 128, fun _ => 0), (fun _ => 3 / 128, fun _ => 0)]

/-- A tree with a file without leaves, which is rebuilt from the file below it. -/
theorem initializeFromChildren_rebuilds_closePair : ∃ (σ : Store) (d : FileData),
    Prog.Exec Store.step (do newTree .deep; addPoints .deep closePair) .init (.ret ()) σ ∧
      σ.files rootId = some d ∧ d.nodeCache.size = 1 ∧
      FileData.initializeFromChildren (fun i => σ.files (rootId.childId i)) = .ok d := by
  obtain ⟨⟨⟩, σ, hrun, hf⟩ := Prog.exists_exec (h := Store.step) (c := Choice.plain)
    (f := fun x => (x.2.files rootId).any fun d => d.nodeCache.size == 1 &&
      d.nodeCache.toList.all fun x => !x.2.isLeaf) (p := do newTree .deep; addPoints .deep closePair)
      (s := .init) (by decide +kernel)
  obtain ⟨d, hd, hall⟩ := (Option.any_eq_true _ _).1 hf
  obtain ⟨hsize, hleaf⟩ := Bool.and_eq_true_iff.1 hall
  obtain ⟨T, hT⟩ := summedTree_addPoints hrun
  refine ⟨σ, d, hrun, hd, by simpa using hsize,
    initializeFromChildren_rebuilds rfl hT hd rfl fun s n hn => ?_⟩
  have hmem := Std.ExtTreeMap.mem_toList_iff_getElem?_eq_some.2 hn
  simpa using List.all_eq_true.1 hleaf _ hmem

end MegaTree
