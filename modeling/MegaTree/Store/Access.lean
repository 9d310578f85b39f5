import MegaTree.Store.View

/-!
# Node access on the store

What the functions of `NodeHandle` and `megatree.cpp` do on the store, in terms of paths: the handle
of the node at a path is `handleAt`, and each function gets one rule that says which nodes it reads
or writes and which tokens it takes and leaves.
-/

namespace MegaTree

open Effect

variable (cfg : Config)

/-- The handle of the node at a path. -/
def handleAt (π : Path) (m : Bool) : NodeHandle :=
  ⟨some (fileOf cfg π, shortOf cfg π), geomOf cfg.rootGeometry π, idOf π, some (fileOf cfg π), m⟩

/-- The token of the handle of the node at a path, in a loaded file. -/
def tok (π : Path) (m : Bool) : Token := ⟨fileOf cfg π, m, true, false⟩

/-- Some token in `L` allows to read the file `f`. -/
def Reads (L : List Token) (f : LongId) : Prop := ∃ t ∈ L, t.file = f ∧ t.loaded = true

variable {cfg} {π : Path} {c : ChildNr} {m : Bool} {σ : Store} {V : Path → Option Node}
  {L : List Token} {n n' : Node} {f : LongId} {X : Err → Prop}

theorem Reads.head {t : Token} (h : t.loaded = true) : Reads (t :: L) t.file :=
  ⟨t, List.mem_cons_self, rfl, h⟩

theorem Reads.tail {t : Token} (h : Reads L f) : Reads (t :: L) f :=
  let ⟨u, hu, h'⟩ := h
  ⟨u, List.mem_cons_of_mem _ hu, h'⟩

theorem Reads.tok : Reads (tok cfg π m :: L) (fileOf cfg π) := Reads.head rfl

/-! ### Handles -/

theorem get_handleAt : (handleAt cfg π m).get = perform (.getNode (fileOf cfg π) (shortOf cfg π)) :=
  rfl

theorem wp_get_nodeAt {Q : Node → Store → Prop} (hL : Live σ L) (hr : Reads L (fileOf cfg π))
    (hn : nodeAt cfg σ π = some n) (hQ : Q n σ) : Spec (handleAt cfg π m).get Q X σ := by
  obtain ⟨t, ht, hf, hl⟩ := hr
  rw [get_handleAt, ← hf]
  refine wp_getNode hL ht hl ?_ hQ
  rw [hf, (nodeAt_eq_some.1 hn).2]

theorem wp_get {Q : Node → Store → Prop} (hS : Stores cfg σ V) (hL : Live σ L)
    (hr : Reads L (fileOf cfg π)) (hn : V π = some n) (hQ : Q n σ) :
    Spec (handleAt cfg π m).get Q X σ :=
  wp_get_nodeAt hL hr (hS.nodeAt_eq ▸ hn) hQ

theorem wp_modify {Q : NodeHandle → Store → Prop} (hS : Stores cfg σ V)
    (hL : Live σ (tok cfg π m :: L)) (hn : V π = some n)
    (hQ : ∀ σ', Stores cfg σ' (Function.update V π (some n')) → Live σ' (tok cfg π true :: L) →
      Q (handleAt cfg π true) σ') : Spec ((handleAt cfg π m).modify n') Q X σ := by
  obtain ⟨d, hd, hs⟩ := hS.file_of_node hn
  change Spec ((perform (.setNode (fileOf cfg π) (shortOf cfg π) n'
    (if m then .again else .first))).bind fun _ => Prog.ret (handleAt cfg π true)) Q X σ
  refine Prog.wp_bind.2 (wp_setNode (t := tok cfg π m) hL rfl hd hs fun σ' hf hL' => ?_)
  exact hQ σ' (hS.setNode (hS.length_le hn) hd hf) hL'

theorem wp_overwrite {Q : Unit → Store → Prop} {w : Write} {t : Token} (hS : Stores cfg σ V)
    (hL : Live σ L) (ht : t ∈ L) (hl : t.loaded = true) (hf : t.file = fileOf cfg π)
    (hn : V π = some n) (hw : w = .copy ∧ t.dirty = true ∨ w = .merge)
    (hQ : ∀ σ', Stores cfg σ' (Function.update V π (some n')) → Live σ' L → Q () σ') :
    Spec ((handleAt cfg π m).overwrite n' w) Q X σ := by
  obtain ⟨d, hd, hs⟩ := hS.file_of_node hn
  unfold NodeHandle.overwrite
  change Spec (perform (.setNode (fileOf cfg π) (shortOf cfg π) n' w)) Q X σ
  rw [← hf] at hd ⊢
  refine wp_setNode_bare hL ht hl hd hs hw fun σ' hf' hL' => ?_
  rw [hf] at hd hf'
  exact hQ σ' (hS.setNode (hS.length_le hn) hd hf') hL'

theorem wp_setChild {Q : NodeHandle → Store → Prop} (hS : Stores cfg σ V)
    (hL : Live σ (tok cfg π m :: L)) (hn : V π = some n)
    (hQ : ∀ σ', Stores cfg σ' (Function.update V π (some (n.setChild c))) →
      Live σ' (tok cfg π true :: L) → Q (handleAt cfg π true) σ') :
    Spec ((handleAt cfg π m).setChild c) Q X σ :=
  Prog.wp_bind.2 (wp_get hS hL .tok hn (wp_modify hS hL hn hQ))

theorem wp_isValid {Q : Bool → Store → Prop} (hL : Live σ L) (hr : Reads L (fileOf cfg π))
    (hQ : Q true σ) : Spec (handleAt cfg π m).isValid Q X σ := by
  obtain ⟨t, ht, hf, hl⟩ := hr
  have hv : (idOf π).isValid = true := by rw [LongId.isValid, idOf_idLevel]; rfl
  unfold NodeHandle.isValid
  refine Prog.wp_bind.2 ?_
  change Spec (perform (.isLoaded (fileOf cfg π))) _ X σ
  rw [← hf]
  refine wp_isLoaded_of_loaded hL ht hl ?_
  change Q (true && (idOf π).isValid) σ
  rw [hv]
  exact hQ

/-- The reply for a handle whose file may be loaded or not. -/
theorem wp_isValid_any {Q : Bool → Store → Prop} {l d : Bool}
    (hL : Live σ (⟨fileOf cfg π, m, l, d⟩ :: L))
    (hQ : ∀ b σ', σ'.files = σ.files → Live σ' (⟨fileOf cfg π, m, l || b, d⟩ :: L) → Q b σ') :
    Spec (handleAt cfg π m).isValid Q X σ := by
  have hv : (idOf π).isValid = true := by rw [LongId.isValid, idOf_idLevel]; rfl
  refine Prog.wp_bind.2 (wp_isLoaded hL fun b σ' h hL' => ?_)
  change Q (b && (idOf π).isValid) σ'
  rw [hv, Bool.and_true]
  exact hQ b σ' h hL'

theorem wp_isValid_null {Q : Bool → Store → Prop} (hQ : Q false σ) :
    Spec NodeHandle.null.isValid Q X σ := hQ

/-! ### Files and nodes -/

theorem wp_releaseNode_handleAt {Q : NodeHandle → Store → Prop} {l d : Bool}
    (hL : Live σ (⟨fileOf cfg π, m, l, d⟩ :: L))
    (hQ : ∀ σ', σ'.files = σ.files → Live σ' L → Q (handleAt cfg π m).invalidate σ') :
    Spec (releaseNode (handleAt cfg π m)) Q X σ :=
  Prog.wp_bind.2 (wp_releaseNode hL hQ)

theorem wp_openChildFile {Q : Unit → Store → Prop} {d : Bool} (hS : Stores cfg σ V)
    (hL : Live σ (⟨fileOf cfg π, false, true, d⟩ :: L)) (hπ : π.length + 1 ≤ maxDepth)
    (hQ : ∀ σ', Stores cfg σ' V →
      Live σ' (⟨fileOf cfg (c :: π), false, true, false⟩ :: ⟨fileOf cfg π, false, true, false⟩ :: L) →
      Q () σ') : Spec (openChildFile (fileOf cfg π) (fileOf cfg (c :: π))) Q X σ := by
  have hf := hL.stored _ List.mem_cons_self
  obtain ⟨e, he⟩ := Option.isSome_iff_exists.1 hf
  unfold openChildFile
  refine Prog.wp_bind.2 (wp_hasChildFile hL List.mem_cons_self rfl he ?_)
  by_cases hw : cfg.subtreeWidth ≤ π.length + 1
  · rw [isRootFile_fileOf_cons hw, Bool.false_or, hS.child π c e hπ hw he]
    cases hs : σ.files (fileOf cfg (c :: π)) with
    | some e' =>
      refine Prog.wp_bind.2 (wp_getNodeFile hL (by rw [hs]; rfl) fun σ₁ h₁ hL₁ => ?_)
      refine wp_waitUntilLoaded hL₁ fun σ₂ h₂ hL₂ => ?_
      exact hQ σ₂ (hS.congr (h₂.trans h₁)) hL₂.swap.forget.swap
    | none =>
      unfold createNodeFile
      refine Prog.wp_bind.2 (Prog.wp_bind.2 (wp_createNodeFile hL hs fun σ₁ h₁ hL₁ => ?_))
      refine wp_cacheMaintenance hL₁ ?_
      have he₁ : σ₁.files (fileOf cfg π) = some e := by
        rw [h₁, Function.update_of_ne (fileOf_cons_ne hπ hw).symm, he]
      refine wp_setChildFile hL₁.swap rfl he₁ fun σ₂ h₂ hL₂ => ?_
      rw [h₁] at h₂
      exact hQ σ₂ (hS.newFile hπ hw he hs h₂) hL₂.forget.swap.forget
  · -- the child is in the first file, and so is its parent
    have hroot : fileOf cfg (c :: π) = .ofValue 0 := fileOf_cons_root (by omega)
    have hsame : fileOf cfg π = .ofValue 0 := fileOf_of_lt (by omega)
    have hf' : (σ.files (fileOf cfg (c :: π))).isSome := by rw [hroot, ← hsame]; exact hf
    have hr : (fileOf cfg (c :: π)).isRootFile = true := by rw [hroot]; rfl
    rw [hr, Bool.true_or]
    refine Prog.wp_bind.2 (wp_getNodeFile hL hf' fun σ₁ h₁ hL₁ => ?_)
    refine wp_waitUntilLoaded hL₁ fun σ₂ h₂ hL₂ => ?_
    exact hQ σ₂ (hS.congr (h₂.trans h₁)) hL₂.swap.forget.swap

theorem wp_createChildNode {Q : NodeHandle × NodeHandle → Store → Prop} (hS : Stores cfg σ V)
    (hL : Live σ (tok cfg π m :: L)) (hn : V π = some n) (hc : n.hasChild c = false)
    (hv : V (c :: π) = none) (hX : π.length = maxDepth → X .depthLimit)
    (hQ : π.length < maxDepth → ∀ (stale : Node) σ',
      Stores cfg σ' (Function.update (Function.update V π (some (n.setChild c))) (c :: π)
        (some stale.reset)) →
      Live σ' (⟨fileOf cfg (c :: π), false, true, true⟩ :: tok cfg π true :: L) →
      Q (handleAt cfg π true, handleAt cfg (c :: π) false) σ') :
    Spec (createChildNode cfg (handleAt cfg π m) c) Q X σ := by
  have hπ := hS.length_le hn
  unfold createChildNode
  refine Prog.wp_bind.2 (wp_get hS hL .tok hn ?_)
  simp only [Prog.bind_eq, Prog.pure_eq, hc, Bool.not_false, Prog.ensure, if_true, Prog.ret_bind]
  by_cases hd : π.length = maxDepth
  · have h42 : 42 ≤ (handleAt cfg π m).id.idLevel := by
      simp only [handleAt, idOf_idLevel, hd, maxDepth]; omega
    rw [LongId.getChild_of_le h42]
    exact hX hd
  have hlt : π.length + 1 ≤ maxDepth := by omega
  have hid : (handleAt cfg π m).id.idLevel < 42 := by
    simp only [handleAt, idOf_idLevel]; simp only [maxDepth] at hlt; omega
  rw [LongId.getChild_of_lt hid]
  simp only [Prog.lift, Prog.ret_bind]
  have e₁ : getFileId cfg (handleAt cfg π m).id = fileOf cfg π := getFileId_idOf hπ
  have e₂ : getFileId cfg ((handleAt cfg π m).id.childId c) = fileOf cfg (c :: π) :=
    getFileId_idOf (π := c :: π) (by simpa using hlt)
  rw [e₁, e₂]
  have hf := hS.file_isSome hn
  -- the file of the parent is pinned while the file of the child is opened
  refine Prog.wp_bind.2 (wp_getNodeFile hL hf fun σ₁ h₁ hL₁ => ?_)
  refine Prog.wp_bind.2 (wp_waitUntilLoaded hL₁ fun σ₂ h₂ hL₂ => ?_)
  refine Prog.wp_bind.2 (wp_isLoaded_of_loaded hL₂ List.mem_cons_self rfl ?_)
  simp only [if_true, Prog.ret_bind]
  have h₂ := h₂.trans h₁
  refine Prog.wp_bind.2 (wp_openChildFile (hS.congr h₂) hL₂ hlt fun σ₃ hS₃ hL₃ => ?_)
  refine Prog.wp_bind.2 (wp_removeUser hL₃.swap rfl fun σ₄ h₄ hL₄ => ?_)
  have hS₄ := hS₃.congr h₄
  refine Prog.wp_bind.2 (wp_setChild (c := c) hS₄ hL₄.swap hn fun σ₅ hS₅ hL₅ => ?_)
  have hmem : (⟨fileOf cfg (c :: π), false, true, false⟩ : Token) ∈
      tok cfg π true :: ⟨fileOf cfg (c :: π), false, true, false⟩ :: L := by simp
  obtain ⟨d, hd₅⟩ := Option.isSome_iff_exists.1 (hL₅.stored _ hmem)
  have hlen : (c :: π).length ≤ maxDepth := by simpa using hlt
  have hnew : d.nodeCache[shortOf cfg (c :: π)]? = none := by
    have h := hS₅.nodes (c :: π) hlen
    rw [Function.update_of_ne (List.cons_ne_self c π), hv, Store.lookup, hd₅] at h
    exact h
  refine Prog.wp_bind.2 (wp_createNode hL₅ hmem rfl hd₅ hnew fun stale σ₆ h₆ hL₆ => ?_)
  refine Prog.wp_bind.2 (wp_countNode hL₆ ?_)
  have hL₆' := hL₆.perm (List.Perm.swap _ _ _ |>.trans (.cons _ (.swap _ _ _)) |>.trans (.swap _ _ _))
  refine Prog.wp_bind.2 (wp_removeUser hL₆' rfl fun σ₇ h₇ hL₇ => ?_)
  exact hQ (by omega) stale σ₇ ((hS₅.setNode hlen hd₅ h₆).congr h₇) hL₇.swap

/-- The id of a child that exists. -/
theorem getChild_id (h : (c :: π).length ≤ maxDepth) :
    (handleAt cfg π m).id.getChild c = .ok (idOf (c :: π)) := by
  simp only [List.length_cons, maxDepth] at h
  exact LongId.getChild_of_lt (by simp only [handleAt, idOf_idLevel]; omega) c

theorem wp_getChildNode_nodeAt {Q : NodeHandle → Store → Prop} (hL : Live σ L)
    (hr : Reads L (fileOf cfg π)) (hn : nodeAt cfg σ π = some n) (hc : n.hasChild c = true)
    (hv : nodeAt cfg σ (c :: π) = some n')
    (hQ : ∀ σ', σ'.files = σ.files → Live σ' (⟨fileOf cfg (c :: π), false, false, false⟩ :: L) →
      Q (handleAt cfg (c :: π) false) σ') :
    Spec (getChildNode cfg (handleAt cfg π m) c) Q X σ := by
  have hlen := (nodeAt_eq_some.1 hv).1
  unfold getChildNode
  refine Prog.wp_bind.2 (wp_get_nodeAt hL hr hn ?_)
  simp only [Prog.bind_eq, Prog.pure_eq, hc, Prog.ensure, if_true, Prog.ret_bind,
    getChild_id hlen, Prog.lift]
  rw [getFileId_idOf hlen]
  refine Prog.wp_bind.2 (wp_getNodeFile hL (file_isSome_of_nodeAt hv) fun σ₁ h₁ hL₁ => ?_)
  rw [← nodeAt_congr h₁] at hv
  refine Prog.wp_bind.2 (wp_readNode hL₁ List.mem_cons_self (nodeAt_eq_some.1 hv).2
    fun σ₂ h₂ hL₂ => ?_)
  refine Prog.wp_bind.2 (wp_removeUser hL₂.swap rfl fun σ₃ h₃ hL₃ => ?_)
  exact hQ σ₃ (h₃.trans (h₂.trans h₁)) hL₃

theorem wp_getChildNode {Q : NodeHandle → Store → Prop} (hS : Stores cfg σ V) (hL : Live σ L)
    (hr : Reads L (fileOf cfg π)) (hn : V π = some n) (hc : n.hasChild c = true)
    (hv : V (c :: π) = some n')
    (hQ : ∀ σ', σ'.files = σ.files → Live σ' (⟨fileOf cfg (c :: π), false, false, false⟩ :: L) →
      Q (handleAt cfg (c :: π) false) σ') :
    Spec (getChildNode cfg (handleAt cfg π m) c) Q X σ := by
  rw [← hS.nodeAt_eq] at hn hv
  exact wp_getChildNode_nodeAt hL hr hn hc hv hQ

/-- The first user of a new tree creates the root. -/
theorem wp_newTree {Q : Unit → Store → Prop}
    (hQ : ∀ (stale : Node) σ', Stores cfg σ' (Function.update (fun _ => none) [] (some stale.reset)) →
      Live σ' [] → Q () σ') : Spec (newTree cfg) Q X .init := by
  have hroot : getFileId cfg rootId = fileOf cfg [] := getFileId_idOf (π := []) (Nat.zero_le _)
  unfold newTree createRoot createNodeFile
  rw [hroot]
  refine Prog.wp_bind.2 (Prog.wp_bind.2 (Prog.wp_bind.2 ?_))
  refine wp_createNodeFile Live.init rfl fun σ₁ h₁ hL₁ => ?_
  refine wp_cacheMaintenance hL₁ ?_
  have hd : σ₁.files (fileOf cfg []) = some .empty := by rw [h₁, Function.update_self]
  refine Prog.wp_bind.2 (wp_createNode hL₁ List.mem_cons_self rfl hd (by simp [FileData.empty])
    fun stale σ₂ h₂ hL₂ => ?_)
  refine Prog.wp_bind.2 (wp_countNode hL₂ ?_)
  refine Prog.wp_bind.2 (wp_removeUser hL₂.swap rfl fun σ₃ h₃ hL₃ => ?_)
  refine Prog.wp_bind.2 (?_ : Spec (releaseNode (handleAt cfg [] false)) _ X σ₃)
  refine wp_releaseNode_handleAt hL₃ fun σ₄ h₄ hL₄ => ?_
  refine hQ stale σ₄ (Stores.root ?_) hL₄
  rw [h₄, h₃, h₂, h₁, Function.update_idem]
  rfl

theorem wp_getRoot_nodeAt {Q : NodeHandle → Store → Prop} (hL : Live σ L)
    (hn : nodeAt cfg σ [] = some n)
    (hQ : ∀ σ', σ'.files = σ.files → Live σ' (tok cfg [] false :: L) →
      Q (handleAt cfg [] false) σ') : Spec (getRoot cfg) Q X σ := by
  have hroot : getFileId cfg rootId = fileOf cfg [] := getFileId_idOf (π := []) (Nat.zero_le _)
  unfold getRoot
  rw [hroot]
  refine Prog.wp_bind.2 (wp_getNodeFile hL (file_isSome_of_nodeAt hn) fun σ₁ h₁ hL₁ => ?_)
  refine Prog.wp_bind.2 (wp_waitUntilLoaded hL₁ fun σ₂ h₂ hL₂ => ?_)
  have h₂ := h₂.trans h₁
  rw [← nodeAt_congr h₂] at hn
  refine Prog.wp_bind.2 (wp_readNode hL₂ List.mem_cons_self (nodeAt_eq_some.1 hn).2
    fun σ₃ h₃ hL₃ => ?_)
  refine Prog.wp_bind.2 (wp_removeUser hL₃.swap rfl fun σ₄ h₄ hL₄ => ?_)
  exact hQ σ₄ (h₄.trans (h₃.trans h₂)) hL₄

theorem wp_getRoot {Q : NodeHandle → Store → Prop} (hS : Stores cfg σ V) (hL : Live σ L)
    (hn : V [] = some n)
    (hQ : ∀ σ', σ'.files = σ.files → Live σ' (tok cfg [] false :: L) →
      Q (handleAt cfg [] false) σ') : Spec (getRoot cfg) Q X σ :=
  wp_getRoot_nodeAt hL (hS.nodeAt_eq ▸ hn) hQ

/-! ### The children of a node -/

variable (cfg) in
/-- The handles that a `ChildIterator` holds. -/
def kidsAt (π : Path) (n : Node) (is : List ChildNr) (i : ChildNr) : NodeHandle :=
  if i ∈ is ∧ n.hasChild i = true then handleAt cfg (i :: π) false else .null

variable (cfg) in
/-- The tokens of the handles that a `ChildIterator` holds. -/
def kidToks (π : Path) (n : Node) (is : List ChildNr) : List Token :=
  (is.filter n.hasChild).map fun i => tok cfg (i :: π) false

/-- All children of a node are in one file. -/
theorem fileOf_siblings (i j : ChildNr) : fileOf cfg (i :: π) = fileOf cfg (j :: π) := by
  have hd : (i :: π).drop cfg.subtreeWidth = (j :: π).drop cfg.subtreeWidth := by
    obtain ⟨w, hw⟩ := Nat.exists_eq_succ_of_ne_zero (Nat.ne_of_gt cfg.width_pos)
    rw [hw, List.drop_succ_cons, List.drop_succ_cons]
  unfold fileOf
  rw [hd]
  rfl

theorem kidToks_cons_of_pos {i : ChildNr} {is : List ChildNr} (h : n.hasChild i = true) :
    kidToks cfg π n (i :: is) = tok cfg (i :: π) false :: kidToks cfg π n is := by
  simp [kidToks, h]

theorem kidToks_cons_of_neg {i : ChildNr} {is : List ChildNr} (h : n.hasChild i = false) :
    kidToks cfg π n (i :: is) = kidToks cfg π n is := by
  simp [kidToks, h]

theorem Reads.kidToks {is : List ChildNr} {i : ChildNr} (hi : i ∈ is) (h : n.hasChild i = true) :
    Reads (kidToks cfg π n is ++ L) (fileOf cfg (i :: π)) :=
  ⟨MegaTree.tok cfg (i :: π) false, by simp only [MegaTree.kidToks]; grind, rfl, rfl⟩

theorem wp_load {Q : (ChildNr → NodeHandle) → Store → Prop} {j : ChildNr}
    (hS : Stores cfg σ V) (hn : V π = some n) (hk : ∀ i, n.hasChild i = true → (V (i :: π)).isSome)
    (hr : Reads L (fileOf cfg π)) (is : List ChildNr) (ch : ChildNr → NodeHandle)
    (hL : Live σ (⟨fileOf cfg (j :: π), false, true, false⟩ :: L))
    (hQ : ∀ σ', σ'.files = σ.files →
      Live σ' (⟨fileOf cfg (j :: π), false, true, false⟩ :: (kidToks cfg π n is ++ L)) →
      Q (fun i => if i ∈ is ∧ n.hasChild i = true then handleAt cfg (i :: π) false else ch i) σ') :
    Spec (ChildIterator.load cfg (handleAt cfg π m) (fileOf cfg (j :: π)) is ch) Q X σ := by
  induction is generalizing σ L ch with
  | nil =>
    change Q ch σ
    simpa [kidToks] using hQ σ rfl (by simpa [kidToks] using hL)
  | cons i is ih =>
    refine Prog.wp_bind.2 (wp_get hS hL hr.tail hn ?_)
    cases hc : n.hasChild i with
    | false =>
      refine ih hS hr ch hL fun σ' h' hL' => ?_
      rw [kidToks_cons_of_neg hc] at hQ
      convert hQ σ' h' hL' using 2 with k
      by_cases hki : k = i
      · simp [hki, hc]
      · simp [hki]
    | true =>
      obtain ⟨k, hv⟩ := Option.isSome_iff_exists.1 (hk i hc)
      have hlen := hS.length_le hv
      simp only [if_true, getChild_id hlen, Prog.lift, Prog.bind_eq, Prog.ret_bind]
      have hlook : σ.lookup (fileOf cfg (j :: π)) (shortOf cfg (i :: π)) = some k := by
        rw [fileOf_siblings j i, hS.nodes _ hlen, hv]
      refine Prog.wp_bind.2 (wp_readNode hL List.mem_cons_self hlook fun σ₁ h₁ hL₁ => ?_)
      have hi : handleAt cfg (i :: π) false = .initialized
          (some (fileOf cfg (j :: π), shortOf cfg (i :: π))) (idOf (i :: π)) (fileOf cfg (j :: π))
          ((handleAt cfg π m).nodeGeom.getChild i) := by
        rw [fileOf_siblings j i]; rfl
      have hL₁ := hL₁.swap
      rw [fileOf_siblings j i] at hL₁
      refine ih (hS.congr h₁) (L := tok cfg (i :: π) false :: L) hr.tail _
        (by rw [fileOf_siblings j i]; exact hL₁) fun σ₂ h₂ hL₂ => ?_
      have hp := hL₂.perm (.cons _ List.perm_middle)
      rw [kidToks_cons_of_pos hc] at hQ
      convert hQ σ₂ (h₂.trans h₁) hp using 2 with l
      by_cases hli : l = i
      · subst hli
        simp only [List.mem_cons, true_or, hc, and_self, if_true, Function.update_self, hi]
        split_ifs <;> rfl
      · simp [hli]

theorem wp_createIterator {Q : (ChildNr → NodeHandle) → Store → Prop} (hS : Stores cfg σ V)
    (hL : Live σ L) (hr : Reads L (fileOf cfg π)) (hn : V π = some n)
    (hk : ∀ i, n.hasChild i = true → (V (i :: π)).isSome) (hc : ∃ i, n.hasChild i = true)
    (hQ : ∀ σ', σ'.files = σ.files → Live σ' (kidToks cfg π n (List.finRange 8) ++ L) →
      Q (kidsAt cfg π n (List.finRange 8)) σ') :
    Spec (ChildIterator.create cfg (handleAt cfg π m) none) Q X σ := by
  obtain ⟨i, hi⟩ := hc
  obtain ⟨k, hv⟩ := Option.isSome_iff_exists.1 (hk i hi)
  have hlen := hS.length_le hv
  have hlen0 : ((0 : ChildNr) :: π).length ≤ maxDepth := hlen
  have hf : (σ.files (fileOf cfg ((0 : ChildNr) :: π))).isSome := by
    rw [fileOf_siblings 0 i]; exact hS.file_isSome hv
  unfold ChildIterator.create
  simp only [getChild_id hlen0, Prog.lift, Prog.bind_eq, Prog.ret_bind]
  rw [getFileId_idOf hlen0]
  refine Prog.wp_bind.2 (wp_getNodeFile hL hf fun σ₁ h₁ hL₁ => ?_)
  refine Prog.wp_bind.2 (wp_waitUntilLoaded hL₁ fun σ₂ h₂ hL₂ => ?_)
  have h₂ := h₂.trans h₁
  refine Prog.wp_bind.2 (wp_load (hS.congr h₂) hn hk hr _ _ hL₂ fun σ₃ h₃ hL₃ => ?_)
  refine Prog.wp_bind.2 (wp_removeUser hL₃ rfl fun σ₄ h₄ hL₄ => ?_)
  exact hQ σ₄ (h₄.trans (h₃.trans h₂)) hL₄

theorem wp_destroyIterator {Q : Unit → Store → Prop} (all is : List ChildNr)
    (hsub : ∀ i ∈ is, i ∈ all) (hL : Live σ (kidToks cfg π n is ++ L))
    (hQ : ∀ σ', σ'.files = σ.files → Live σ' L → Q () σ') :
    Spec (ChildIterator.destroy (kidsAt cfg π n all) is) Q X σ := by
  induction is generalizing σ with
  | nil => exact hQ σ rfl hL
  | cons i is ih =>
    have hmem := hsub i List.mem_cons_self
    have hsub' : ∀ j ∈ is, j ∈ all := fun j hj => hsub j (List.mem_cons_of_mem _ hj)
    unfold ChildIterator.destroy
    cases hc : n.hasChild i with
    | false =>
      have hnull : kidsAt cfg π n all i = .null := by simp [kidsAt, hc]
      rw [hnull]
      refine Prog.wp_bind.2 (wp_isValid_null ?_)
      rw [kidToks_cons_of_neg hc] at hL
      exact ih hsub' hL hQ
    | true =>
      have hh : kidsAt cfg π n all i = handleAt cfg (i :: π) false := by simp [kidsAt, hc, hmem]
      rw [hh]
      rw [kidToks_cons_of_pos hc] at hL
      refine Prog.wp_bind.2 (wp_isValid hL .tok ?_)
      refine Prog.wp_bind.2 (wp_releaseNode_handleAt hL fun σ₁ h₁ hL₁ => ?_)
      exact ih hsub' hL₁ fun σ₂ h₂ => hQ σ₂ (h₂.trans h₁)

theorem wp_childNodes {Q : (ChildNr → Option Node) → Store → Prop} (all is : List ChildNr)
    (nodes : ChildNr → Option Node) (hS : Stores cfg σ V) (hL : Live σ L)
    (hsub : ∀ i ∈ is, i ∈ all)
    (hk : ∀ i, n.hasChild i = true → (V (i :: π)).isSome)
    (hr : ∀ i ∈ is, n.hasChild i = true → Reads L (fileOf cfg (i :: π)))
    (hQ : Q (fun i => if i ∈ is then if n.hasChild i then V (i :: π) else none else nodes i) σ) :
    Spec (NodeHandle.childNodes (kidsAt cfg π n all) is nodes) Q X σ := by
  induction is generalizing nodes with
  | nil =>
    change Q nodes σ
    simpa using hQ
  | cons i is ih =>
    have hmem := hsub i List.mem_cons_self
    have hsub' : ∀ j ∈ is, j ∈ all := fun j hj => hsub j (List.mem_cons_of_mem _ hj)
    have hr' : ∀ j ∈ is, n.hasChild j = true → Reads L (fileOf cfg (j :: π)) := fun j hj =>
      hr j (List.mem_cons_of_mem _ hj)
    unfold NodeHandle.childNodes
    cases hc : n.hasChild i with
    | false =>
      have hnull : kidsAt cfg π n all i = .null := by simp [kidsAt, hc]
      rw [hnull]
      refine Prog.wp_bind.2 (wp_isValid_null ?_)
      refine ih _ hsub' hr' ?_
      convert hQ using 2 with j
      by_cases hj : j = i
      · simp [hj, hc]
      · simp [hj]
    | true =>
      obtain ⟨k, hv⟩ := Option.isSome_iff_exists.1 (hk i hc)
      have hh : kidsAt cfg π n all i = handleAt cfg (i :: π) false := by simp [kidsAt, hc, hmem]
      have hri := hr i List.mem_cons_self hc
      rw [hh]
      refine Prog.wp_bind.2 (wp_isValid hL hri ?_)
      refine Prog.wp_bind.2 (wp_get hS hL hri hv ?_)
      refine ih _ hsub' hr' ?_
      convert hQ using 2 with j
      by_cases hj : j = i
      · simp [hj, hc, hv]
      · simp [hj]

/-- The nodes under the existing children of a node. -/
def childrenOf (V : Path → Option Node) (π : Path) (n : Node) (i : ChildNr) : Option Node :=
  if n.hasChild i then V (i :: π) else none

theorem wp_copyFromChildNodes {Q : NodeHandle → Store → Prop} (hS : Stores cfg σ V)
    (hL : Live σ (kidToks cfg π n (List.finRange 8) ++ tok cfg π m :: L)) (hn : V π = some n)
    (hk : ∀ i, n.hasChild i = true → (V (i :: π)).isSome)
    (hX : ∀ e, Node.copyFromChildNodes (childrenOf V π n) = .error e → X e)
    (hQ : ∀ n' σ', Node.copyFromChildNodes (childrenOf V π n) = .ok n' →
      Stores cfg σ' (Function.update V π (some n')) →
      Live σ' (kidToks cfg π n (List.finRange 8) ++ tok cfg π true :: L) →
      Q (handleAt cfg π true) σ') :
    Spec ((handleAt cfg π m).copyFromChildNodes (kidsAt cfg π n (List.finRange 8))) Q X σ := by
  unfold NodeHandle.copyFromChildNodes
  have hr : ∀ i ∈ List.finRange 8, n.hasChild i = true →
      Reads (kidToks cfg π n (List.finRange 8) ++ tok cfg π m :: L) (fileOf cfg (i :: π)) :=
    fun i hi hc => .kidToks hi hc
  refine Prog.wp_bind.2 (wp_childNodes _ _ _ hS hL (fun _ h => h) hk hr ?_)
  have he : (fun i => if i ∈ List.finRange 8 then if n.hasChild i then V (i :: π) else none
      else none) = childrenOf V π n := by
    funext i; simp [childrenOf]
  rw [he]
  refine Prog.wp_bind.2 (Prog.wp_lift.2 ⟨fun n' hok => ?_, hX⟩)
  refine wp_modify hS (hL.perm List.perm_middle) hn fun σ' hS' hL' => ?_
  exact hQ n' σ' hok hS' (hL'.perm List.perm_middle.symm)

end MegaTree
