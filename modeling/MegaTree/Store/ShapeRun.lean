import MegaTree.Store.Shape
import MegaTree.Tree.Session

/-!
# Insertions keep the bits exact

The rules of `MegaTree.Store.Shape` for node access, for both insertion algorithms and for sessions
of a client that inserts: whatever the counts, positions and colors are, every function leaves a
store with a `Shape` that is `Linked`.

* `shape_createChildNode` : the only function that adds a node.
* `shape_addPoint`, `shape_fastAddPoint` : the two insertion algorithms.
* `shape_life` : a session of insertions on a new tree.
-/

namespace MegaTree

open Effect

variable {cfg : Config} {σ σ' : Store} {T T' : Bits} {L : List Token} {π : Path} {c : ChildNr}
  {m : Bool} {b : ChildNr → Bool} {n : Node} {f : LongId} {t : Token}

/-- The store has a linked shape with at least the nodes of `T`. -/
structure Extends (cfg : Config) (T : Bits) (σ : Store) (T' : Bits) (L : List Token) : Prop where
  shape : Shape cfg σ T'
  linked : Linked T'
  grows : Grows T T'
  live : Live σ L

theorem Extends.rebase {T'' : Bits} (h : Extends cfg T' σ T'' L) (hg : Grows T T') :
    Extends cfg T σ T'' L :=
  ⟨h.shape, h.linked, hg.trans h.grows, h.live⟩

/-! ### Node access -/

theorem shape_createChildNode {Q : NodeHandle × NodeHandle → Store → Prop} (hS : Shape cfg σ T)
    (hT : Linked T) (hL : Live σ (tok cfg π m :: L)) (hb : T π = some b)
    (hQ : ∀ σ' T', T' (c :: π) = some (fun _ => false) → Extends cfg T σ' T'
      (⟨fileOf cfg (c :: π), false, true, true⟩ :: tok cfg π true :: L) →
      Q (handleAt cfg π true, handleAt cfg (c :: π) false) σ') :
    ShapeSpec (createChildNode cfg (handleAt cfg π m) c) Q σ := by
  have hπ := hS.length_le hb
  refine Prog.wp_bind.2 (shape_get hS hL .tok hb fun n σ₁ hn hS₁ hL₁ => ?_)
  refine Prog.wp_bind.2 (Prog.wp_ensure.2 ?_)
  rw [hn]
  cases hc : b c with
  | true => exact trivial
  | false =>
    by_cases hd : π.length = maxDepth
    · have h42 : 42 ≤ (handleAt cfg π m).id.idLevel := by
        simp only [handleAt, idOf_idLevel, hd, maxDepth]; omega
      rw [LongId.getChild_of_le h42]
      exact trivial
    have hlt : π.length + 1 ≤ maxDepth := by omega
    have hlen : (c :: π).length ≤ maxDepth := by simpa using hlt
    rw [getChild_id hlen]
    have e₁ : getFileId cfg (handleAt cfg π m).id = fileOf cfg π := getFileId_idOf hπ
    have e₂ : getFileId cfg (idOf (c :: π)) = fileOf cfg (c :: π) := getFileId_idOf hlen
    simp only [Prog.lift, Prog.bind_eq, Prog.ret_bind, Bool.not_false, if_true]
    rw [e₁, e₂]
    -- the file of the parent is pinned while the file of the child is opened
    refine Prog.wp_bind.2 (shape_getNodeFile hS₁ hL₁ (hS₁.file_isSome hb) fun σ₂ hS₂ hL₂ => ?_)
    refine Prog.wp_bind.2 (shape_waitUntilLoaded hS₂ hL₂ fun σ₃ hS₃ hL₃ => ?_)
    refine Prog.wp_bind.2 (shape_isLoaded hS₃ hL₃ List.mem_cons_self rfl fun σ₄ hS₄ hL₄ => ?_)
    simp only [Prog.ensure, if_true, Prog.ret_bind]
    refine Prog.wp_bind.2 (shape_openChildFile hS₄ hL₄ hlt fun σ₅ hS₅ hL₅ => ?_)
    refine Prog.wp_bind.2 (shape_removeUser hS₅ hL₅.swap rfl fun σ₆ hS₆ hL₆ => ?_)
    refine Prog.wp_bind.2 (shape_setChild (c := c) hS₆ hL₆.swap hb fun σ₇ hS₇ hL₇ => ?_)
    have hnone : Function.update T π (some fun j => decide (j = c) || b j) (c :: π) = none := by
      rw [Function.update_of_ne (List.cons_ne_self c π), ← Option.not_isSome_iff_eq_none,
        ← hT.bits π b hb c, hc]
      exact Bool.false_ne_true
    refine Prog.wp_bind.2 (shape_createNode (t := ⟨fileOf cfg (c :: π), false, true, false⟩) hS₇ hL₇
      (by simp) rfl rfl hlen hnone fun σ₈ hS₈ hL₈ => ?_)
    refine Prog.wp_bind.2 (shape_countNode hS₈ hL₈ fun σ₉ hS₉ hL₉ => ?_)
    have hL₉ := hL₉.perm
      (List.Perm.swap _ _ _ |>.trans (.cons _ (.swap _ _ _)) |>.trans (.swap _ _ _))
    refine Prog.wp_bind.2 (shape_removeUser hS₉ hL₉ rfl fun σ₁₀ hS₁₀ hL₁₀ => ?_)
    exact hQ _ _ (Function.update_self ..) ⟨hS₁₀, hT.addChild hb hc,
      Grows.update.trans Grows.update, hL₁₀.swap⟩

theorem shape_getChildNode {Q : NodeHandle → Store → Prop} (hS : Shape cfg σ T) (hT : Linked T)
    (hL : Live σ L) (hr : Reads L (fileOf cfg π)) (hb : T π = some b)
    (hQ : ∀ σ', Shape cfg σ' T → (T (c :: π)).isSome →
      Live σ' (⟨fileOf cfg (c :: π), false, false, false⟩ :: L) →
      Q (handleAt cfg (c :: π) false) σ') :
    ShapeSpec (getChildNode cfg (handleAt cfg π m) c) Q σ := by
  refine Prog.wp_bind.2 (shape_get hS hL hr hb fun n σ₁ hn hS₁ hL₁ => ?_)
  refine Prog.wp_bind.2 (Prog.wp_ensure.2 ?_)
  rw [hn]
  cases hc : b c with
  | false => exact trivial
  | true =>
    obtain ⟨b', hb'⟩ := Option.isSome_iff_exists.1 ((hT.bits π b hb c).symm.trans hc)
    have hlen := hS.length_le hb'
    rw [getChild_id hlen]
    simp only [Prog.lift, Prog.bind_eq, Prog.ret_bind, if_true]
    rw [getFileId_idOf hlen]
    refine Prog.wp_bind.2 (shape_getNodeFile hS₁ hL₁ (hS₁.file_isSome hb') fun σ₂ hS₂ hL₂ => ?_)
    refine Prog.wp_bind.2 (shape_readNode hS₂ hL₂ List.mem_cons_self rfl hb' fun σ₃ hS₃ hL₃ => ?_)
    refine Prog.wp_bind.2 (shape_removeUser hS₃ hL₃.swap rfl fun σ₄ hS₄ hL₄ => ?_)
    exact hQ σ₄ hS₄ (by rw [hb']; rfl) hL₄

/-- The first user of a new tree creates the root. -/
theorem shape_newTree {Q : Unit → Store → Prop}
    (hQ : ∀ σ' T', Shape cfg σ' T' → Linked T' → (T' []).isSome → Live σ' [] → Q () σ') :
    ShapeSpec (newTree cfg) Q .init := by
  have hroot : getFileId cfg rootId = fileOf cfg [] := getFileId_idOf (π := []) (Nat.zero_le _)
  -- the only file stays empty until it gets the root
  have hempty : ∀ {σ : Store} (δ : Change SameShape),
      σ.files = Function.update (fun _ => none) (fileOf cfg []) (some .empty) →
      (σ.change δ).files = Function.update (fun _ => none) (fileOf cfg []) (some .empty) := by
    intro σ δ hf
    funext g
    simp only [Store.change, hf]
    by_cases hg : g = fileOf cfg []
    · rw [hg, Function.update_self, Option.map_some, eq_empty_of_sameShape (δ.rel _ .empty)]
    · rw [Function.update_of_ne hg]
      rfl
  have hlinked : Linked (Function.update (fun _ => none) [] (some fun _ => false)) := by
    constructor
    · intro ρ b hb c
      rw [Function.update_of_ne (List.cons_ne_nil c ρ)]
      by_cases hρ : ρ = []
      · rw [hρ, Function.update_self] at hb
        rw [← Option.some.inj hb]
        rfl
      · rw [Function.update_of_ne hρ] at hb
        cases hb
    · intro ρ c h
      rw [Function.update_of_ne (List.cons_ne_nil c ρ)] at h
      cases h
  unfold newTree createRoot createNodeFile
  rw [hroot]
  refine Prog.wp_bind.2 (Prog.wp_bind.2 (Prog.wp_bind.2 (wpUpTo_op fun δ₀ => ⟨trivial, ?_⟩)))
  refine wp_createNodeFile (Live.init.change δ₀) rfl fun σ₁ h₁ hL₁ => ?_
  refine wpUpTo_op fun δ₁ => ⟨trivial, wp_cacheMaintenance (hL₁.change δ₁) ?_⟩
  refine Prog.wp_bind.2 (wpUpTo_op fun δ₂ => ⟨trivial, ?_⟩)
  have h₂ := hempty δ₂ (hempty δ₁ h₁)
  have hL₂ := (hL₁.change δ₁).change δ₂
  have hd : ((σ₁.change δ₁).change δ₂).files (fileOf cfg []) = some .empty := by
    rw [h₂, Function.update_self]
  refine wp_createNode hL₂ List.mem_cons_self rfl hd (by simp [FileData.empty])
    fun stale σ₃ h₃ hL₃ => ?_
  rw [h₂, Function.update_idem] at h₃
  have hS₃ : Shape cfg σ₃ _ := .root h₃
  have hreset : stale.reset.hasChild = fun _ => false := funext fun i => Node.hasChild_reset i
  rw [hreset] at hS₃
  refine Prog.wp_bind.2 (shape_countNode hS₃ hL₃ fun σ₄ hS₄ hL₄ => ?_)
  refine Prog.wp_bind.2 (shape_removeUser hS₄ hL₄.swap rfl fun σ₅ hS₅ hL₅ => ?_)
  refine Prog.wp_bind.2 (?_ : ShapeSpec (releaseNode (handleAt cfg [] false)) _ σ₅)
  exact shape_releaseNode hS₅ hL₅ fun σ₆ hS₆ hL₆ =>
    hQ σ₆ _ hS₆ hlinked (by rw [Function.update_self]; rfl) hL₆

theorem shape_getRoot {Q : NodeHandle → Store → Prop} (hS : Shape cfg σ T) (hL : Live σ L)
    (hb : T [] = some b)
    (hQ : ∀ σ', Shape cfg σ' T → Live σ' (tok cfg [] false :: L) → Q (handleAt cfg [] false) σ') :
    ShapeSpec (getRoot cfg) Q σ := by
  have hroot : getFileId cfg rootId = fileOf cfg [] := getFileId_idOf (π := []) (Nat.zero_le _)
  unfold getRoot
  rw [hroot]
  refine Prog.wp_bind.2 (shape_getNodeFile hS hL (hS.file_isSome hb) fun σ₁ hS₁ hL₁ => ?_)
  refine Prog.wp_bind.2 (shape_waitUntilLoaded hS₁ hL₁ fun σ₂ hS₂ hL₂ => ?_)
  refine Prog.wp_bind.2 (shape_readNode (π := []) hS₂ hL₂ List.mem_cons_self rfl hb
    fun σ₃ hS₃ hL₃ => ?_)
  refine Prog.wp_bind.2 (shape_removeUser hS₃ hL₃.swap rfl fun σ₄ hS₄ hL₄ => ?_)
  exact hQ σ₄ hS₄ hL₄

/-! ### The children of a node -/

theorem shape_load {Q : (ChildNr → NodeHandle) → Store → Prop} {j : ChildNr}
    (hT : Linked T) (hb : T π = some n.hasChild) (hr : Reads L (fileOf cfg π)) (is : List ChildNr)
    (ch : ChildNr → NodeHandle) (hS : Shape cfg σ T)
    (hL : Live σ (⟨fileOf cfg (j :: π), false, true, false⟩ :: L))
    (hQ : ∀ σ', Shape cfg σ' T →
      Live σ' (⟨fileOf cfg (j :: π), false, true, false⟩ :: (kidToks cfg π n is ++ L)) →
      Q (fun i => if i ∈ is ∧ n.hasChild i = true then handleAt cfg (i :: π) false else ch i) σ') :
    ShapeSpec (ChildIterator.load cfg (handleAt cfg π m) (fileOf cfg (j :: π)) is ch) Q σ := by
  induction is generalizing σ L ch with
  | nil =>
    change Q ch σ
    simpa [kidToks] using hQ σ hS (by simpa [kidToks] using hL)
  | cons i is ih =>
    refine Prog.wp_bind.2 (shape_get hS hL hr.tail hb fun n' σ₁ hn hS₁ hL₁ => ?_)
    rw [hn]
    cases hc : n.hasChild i with
    | false =>
      refine ih hr ch hS₁ hL₁ fun σ' hS' hL' => ?_
      rw [kidToks_cons_of_neg hc] at hQ
      convert hQ σ' hS' hL' using 2 with k
      by_cases hki : k = i
      · simp [hki, hc]
      · simp [hki]
    | true =>
      obtain ⟨b', hb'⟩ := Option.isSome_iff_exists.1 ((hT.bits π _ hb i).symm.trans hc)
      have hlen := hS.length_le hb'
      simp only [if_true, getChild_id hlen, Prog.lift, Prog.bind_eq, Prog.ret_bind]
      refine Prog.wp_bind.2 (shape_readNode hS₁ hL₁ List.mem_cons_self (fileOf_siblings j i) hb'
        fun σ₂ hS₂ hL₂ => ?_)
      have hi : handleAt cfg (i :: π) false = .initialized
          (some (fileOf cfg (j :: π), shortOf cfg (i :: π))) (idOf (i :: π)) (fileOf cfg (j :: π))
          ((handleAt cfg π m).nodeGeom.getChild i) := by
        rw [fileOf_siblings j i]; rfl
      have hL₂ := hL₂.swap
      rw [fileOf_siblings j i] at hL₂
      refine ih (L := tok cfg (i :: π) false :: L) hr.tail _ hS₂
        (by rw [fileOf_siblings j i]; exact hL₂) fun σ₃ hS₃ hL₃ => ?_
      have hp := hL₃.perm (.cons _ List.perm_middle)
      rw [kidToks_cons_of_pos hc] at hQ
      convert hQ σ₃ hS₃ hp using 2 with l
      by_cases hli : l = i
      · subst hli
        simp only [List.mem_cons, true_or, hc, and_self, if_true, Function.update_self, hi]
        split_ifs <;> rfl
      · simp [hli]

/-- A node with a child has its children in a file that exists. -/
theorem shape_createIterator {Q : (ChildNr → NodeHandle) → Store → Prop} (hS : Shape cfg σ T)
    (hT : Linked T) (hL : Live σ L) (hr : Reads L (fileOf cfg π)) (hb : T π = some n.hasChild)
    (hc : n.hasChild c = true)
    (hQ : ∀ σ', Shape cfg σ' T → Live σ' (kidToks cfg π n (List.finRange 8) ++ L) →
      Q (kidsAt cfg π n (List.finRange 8)) σ') :
    ShapeSpec (ChildIterator.create cfg (handleAt cfg π m) none) Q σ := by
  obtain ⟨b', hb'⟩ := Option.isSome_iff_exists.1 ((hT.bits π _ hb c).symm.trans hc)
  have hlen := hS.length_le hb'
  have hlen0 : ((0 : ChildNr) :: π).length ≤ maxDepth := hlen
  have hf : (σ.files (fileOf cfg ((0 : ChildNr) :: π))).isSome := by
    rw [fileOf_siblings 0 c]; exact hS.file_isSome hb'
  unfold ChildIterator.create
  simp only [getChild_id hlen0, Prog.lift, Prog.bind_eq, Prog.ret_bind]
  rw [getFileId_idOf hlen0]
  refine Prog.wp_bind.2 (shape_getNodeFile hS hL hf fun σ₁ hS₁ hL₁ => ?_)
  refine Prog.wp_bind.2 (shape_waitUntilLoaded hS₁ hL₁ fun σ₂ hS₂ hL₂ => ?_)
  refine Prog.wp_bind.2 (shape_load hT hb hr _ _ hS₂ hL₂ fun σ₃ hS₃ hL₃ => ?_)
  exact Prog.wp_bind.2 (shape_removeUser hS₃ hL₃ rfl fun σ₄ hS₄ hL₄ => hQ σ₄ hS₄ hL₄)

theorem shape_destroyIterator {Q : Unit → Store → Prop} (all is : List ChildNr)
    (hsub : ∀ i ∈ is, i ∈ all) (hS : Shape cfg σ T) (hL : Live σ (kidToks cfg π n is ++ L))
    (hQ : ∀ σ', Shape cfg σ' T → Live σ' L → Q () σ') :
    ShapeSpec (ChildIterator.destroy (kidsAt cfg π n all) is) Q σ := by
  induction is generalizing σ with
  | nil => exact hQ σ hS hL
  | cons i is ih =>
    have hmem := hsub i List.mem_cons_self
    have hsub' : ∀ j ∈ is, j ∈ all := fun j hj => hsub j (List.mem_cons_of_mem _ hj)
    unfold ChildIterator.destroy
    cases hc : n.hasChild i with
    | false =>
      have hnull : kidsAt cfg π n all i = .null := by simp [kidsAt, hc]
      rw [hnull]
      rw [kidToks_cons_of_neg hc] at hL
      exact ih hsub' hS hL
    | true =>
      have hh : kidsAt cfg π n all i = handleAt cfg (i :: π) false := by simp [kidsAt, hc, hmem]
      rw [hh]
      rw [kidToks_cons_of_pos hc] at hL
      refine Prog.wp_bind.2 (shape_isValid hS hL .tok fun σ₁ hS₁ hL₁ => ?_)
      refine Prog.wp_bind.2 (shape_releaseNode hS₁ hL₁ fun σ₂ hS₂ hL₂ => ?_)
      exact ih hsub' hS₂ hL₂

theorem shape_childNodes {Q : (ChildNr → Option Node) → Store → Prop} (all is : List ChildNr)
    (nodes : ChildNr → Option Node) (hT : Linked T) (hb : T π = some n.hasChild)
    (hS : Shape cfg σ T) (hL : Live σ L) (hsub : ∀ i ∈ is, i ∈ all)
    (hr : ∀ i ∈ is, n.hasChild i = true → Reads L (fileOf cfg (i :: π)))
    (hQ : ∀ nodes' σ', (∀ i, (nodes' i).isSome = if i ∈ is then n.hasChild i else (nodes i).isSome) →
      Shape cfg σ' T → Live σ' L → Q nodes' σ') :
    ShapeSpec (NodeHandle.childNodes (kidsAt cfg π n all) is nodes) Q σ := by
  induction is generalizing σ nodes with
  | nil => exact hQ nodes σ (fun i => by simp) hS hL
  | cons i is ih =>
    have hmem := hsub i List.mem_cons_self
    have hsub' : ∀ j ∈ is, j ∈ all := fun j hj => hsub j (List.mem_cons_of_mem _ hj)
    have hr' : ∀ j ∈ is, n.hasChild j = true → Reads L (fileOf cfg (j :: π)) := fun j hj =>
      hr j (List.mem_cons_of_mem _ hj)
    have step : ∀ x : Option Node, x.isSome = n.hasChild i → ∀ σ₁, Shape cfg σ₁ T → Live σ₁ L →
        ShapeSpec (NodeHandle.childNodes (kidsAt cfg π n all) is (Function.update nodes i x)) Q σ₁ := by
      intro x hx σ₁ hS₁ hL₁
      refine ih _ hS₁ hL₁ hsub' hr' fun nodes' σ₂ hn => hQ nodes' σ₂ fun j => ?_
      rw [hn j]
      by_cases hj : j = i
      · simp [hj, hx]
      · simp [hj]
    unfold NodeHandle.childNodes
    cases hc : n.hasChild i with
    | false =>
      have hnull : kidsAt cfg π n all i = .null := by simp [kidsAt, hc]
      rw [hnull]
      exact step none (by rw [hc]; rfl) σ hS hL
    | true =>
      obtain ⟨b', hb'⟩ := Option.isSome_iff_exists.1 ((hT.bits π _ hb i).symm.trans hc)
      have hh : kidsAt cfg π n all i = handleAt cfg (i :: π) false := by simp [kidsAt, hc, hmem]
      have hri := hr i List.mem_cons_self hc
      rw [hh]
      refine Prog.wp_bind.2 (shape_isValid hS hL hri fun σ₁ hS₁ hL₁ => ?_)
      refine Prog.wp_bind.2 (shape_get hS₁ hL₁ hri hb' fun n' σ₂ _ hS₂ hL₂ => ?_)
      exact step (some n') (by rw [hc]; rfl) σ₂ hS₂ hL₂

/-- The summary of a node has the bits of its children, whatever they contain. -/
theorem shape_copyFromChildNodes {Q : NodeHandle → Store → Prop} (hS : Shape cfg σ T)
    (hT : Linked T) (hL : Live σ (kidToks cfg π n (List.finRange 8) ++ tok cfg π m :: L))
    (hb : T π = some n.hasChild)
    (hQ : ∀ σ', Shape cfg σ' T →
      Live σ' (kidToks cfg π n (List.finRange 8) ++ tok cfg π true :: L) →
      Q (handleAt cfg π true) σ') :
    ShapeSpec ((handleAt cfg π m).copyFromChildNodes (kidsAt cfg π n (List.finRange 8))) Q σ := by
  refine Prog.wp_bind.2 (shape_childNodes _ _ _ hT hb hS hL (fun _ h => h)
    (fun i hi hc => .kidToks hi hc) fun nodes σ₁ hn hS₁ hL₁ => ?_)
  refine Prog.wp_bind.2 (Prog.wp_lift.2 ⟨fun n' hok => ?_, fun _ _ => trivial⟩)
  have hbits : n'.hasChild = n.hasChild := by
    funext i
    rw [Node.hasChild_of_copyFromChildNodes hok, hn i]
    simp
  refine shape_modify hS₁ (hL₁.perm List.perm_middle) hb fun σ₂ hS₂ hL₂ => ?_
  rw [hbits, ← hb, Function.update_eq_self] at hS₂
  exact hQ σ₂ hS₂ (hL₂.perm List.perm_middle.symm)

/-! ### Inserting points -/

theorem shape_splitLeaf {Q : NodeHandle → Store → Prop} (hS : Shape cfg σ T) (hT : Linked T)
    (hL : Live σ (tok cfg π m :: L)) (hb : T π = some b)
    (hQ : ∀ m' σ' T', Extends cfg T σ' T' (tok cfg π m' :: L) → Q (handleAt cfg π m') σ') :
    ShapeSpec (splitLeaf cfg (handleAt cfg π m)) Q σ := by
  refine Prog.wp_bind.2 (shape_get hS hL .tok hb fun n σ₁ hn hS₁ hL₁ => ?_)
  refine Prog.wp_ite (fun _ => ?_) fun _ => hQ m σ₁ T ⟨hS₁, hT, .refl, hL₁⟩
  refine Prog.wp_bind.2 (shape_createChildNode hS₁ hT hL₁ hb fun σ₂ T₂ hc h₂ => ?_)
  obtain ⟨b₂, hb₂⟩ := Option.isSome_iff_exists.1 (h₂.grows π (by rw [hb]; rfl))
  refine Prog.wp_bind.2 (shape_get h₂.shape h₂.live (Reads.tok.tail) hb₂ fun n₃ σ₃ _ hS₃ hL₃ => ?_)
  refine Prog.wp_bind.2 (shape_get hS₃ hL₃ (Reads.head rfl) hc fun c₄ σ₄ hc₄ hS₄ hL₄ => ?_)
  refine Prog.wp_bind.2 (Prog.wp_lift.2 ⟨fun c' hok => ?_, fun _ _ => trivial⟩)
  have hbits : c'.hasChild = c₄.hasChild := by
    unfold Node.copyToChildNode at hok
    split_ifs at hok
    rw [← Except.ok.inj hok]
    rfl
  refine Prog.wp_bind.2 (shape_overwrite hS₄ hL₄ List.mem_cons_self rfl rfl (by rw [hc, hbits, hc₄])
    (.inl ⟨rfl, rfl⟩) fun σ₅ hS₅ hL₅ => ?_)
  refine Prog.wp_bind.2 (shape_releaseNode hS₅ hL₅ fun σ₆ hS₆ hL₆ => ?_)
  exact hQ true σ₆ T₂ ⟨hS₆, h₂.linked, h₂.grows, hL₆⟩

theorem shape_openChild {Q : NodeHandle × NodeHandle → Store → Prop} (hS : Shape cfg σ T)
    (hT : Linked T) (hL : Live σ (tok cfg π m :: L)) (hb : T π = some b)
    (hQ : ∀ m' σ' T', (T' (c :: π)).isSome →
      Extends cfg T σ' T' (tok cfg (c :: π) false :: tok cfg π m' :: L) →
      Q (handleAt cfg π m', handleAt cfg (c :: π) false) σ') :
    ShapeSpec (openChild cfg (handleAt cfg π m) c) Q σ := by
  refine Prog.wp_bind.2 (shape_get hS hL .tok hb fun n σ₁ hn hS₁ hL₁ => ?_)
  refine Prog.wp_ite (fun _ => ?_) fun _ => ?_
  · refine Prog.wp_bind.2 (shape_getChildNode hS₁ hT hL₁ .tok hb fun σ₂ hS₂ hc hL₂ => ?_)
    refine Prog.wp_bind.2 (shape_waitUntilLoaded hS₂ hL₂ fun σ₃ hS₃ hL₃ => ?_)
    exact hQ m σ₃ T hc ⟨hS₃, hT, .refl, hL₃⟩
  · exact shape_createChildNode hS₁ hT hL₁ hb fun σ₂ T₂ hc h₂ =>
      hQ true σ₂ T₂ (by rw [hc]; rfl) ⟨h₂.shape, h₂.linked, h₂.grows, h₂.live.forget⟩

/-- A write of a node that keeps its bits. -/
theorem shape_write {Q : NodeHandle → Store → Prop} {f : Node → Except Err Node}
    (hf : ∀ n n', f n = .ok n' → n'.hasChild = n.hasChild) (hS : Shape cfg σ T)
    (hL : Live σ (tok cfg π m :: L)) (hb : T π = some b)
    (hQ : ∀ σ', Shape cfg σ' T → Live σ' (tok cfg π true :: L) → Q (handleAt cfg π true) σ') :
    ShapeSpec (do
      let n ← (handleAt cfg π m).get
      let n' ← Prog.lift (f n)
      (handleAt cfg π m).modify n') Q σ := by
  refine Prog.wp_bind.2 (shape_get hS hL .tok hb fun n σ₁ hn hS₁ hL₁ => ?_)
  refine Prog.wp_bind.2 (Prog.wp_lift.2 ⟨fun n' hok => ?_, fun _ _ => trivial⟩)
  refine shape_modify hS₁ hL₁ hb fun σ₂ hS₂ hL₂ => hQ σ₂ ?_ hL₂
  rwa [hf n n' hok, hn, ← hb, Function.update_eq_self] at hS₂

theorem hasChild_setPoint {g : NodeGeometry} {pt col : Vec} (n n' : Node)
    (h : n.setPoint g pt col = .ok n') : n'.hasChild = n.hasChild := by
  unfold Node.setPoint at h
  split_ifs at h
  rw [← Except.ok.inj h]
  rfl

theorem hasChild_addPoint {g : NodeGeometry} {pt col : Vec} (n n' : Node)
    (h : n.addPoint g pt col = .ok n') : n'.hasChild = n.hasChild := by
  simp only [Node.addPoint] at h
  split_ifs at h
  rw [← Except.ok.inj h]
  rfl

theorem shape_addPointRecursive {Q : NodeHandle → Store → Prop} {pt col : Vec} {a : ℚ} {fuel : ℕ}
    (hS : Shape cfg σ T) (hT : Linked T) (hL : Live σ (tok cfg π m :: L)) (hb : T π = some b)
    (hQ : ∀ m' σ' T', Extends cfg T σ' T' (tok cfg π m' :: L) → Q (handleAt cfg π m') σ') :
    ShapeSpec (addPointRecursive cfg pt col a fuel (handleAt cfg π m)) Q σ := by
  induction fuel generalizing σ T L π m b Q with
  | zero => exact trivial
  | succ fuel ih =>
    have hwrite : ∀ σ', Shape cfg σ' T → Live σ' (tok cfg π true :: L) →
        Q (handleAt cfg π true) σ' := fun σ' hS' hL' => hQ true σ' T ⟨hS', hT, .refl, hL'⟩
    refine Prog.wp_bind.2 (shape_get hS hL .tok hb fun n σ₁ hn hS₁ hL₁ => ?_)
    refine Prog.wp_ite (fun _ => shape_write hasChild_setPoint hS₁ hL₁ hb hwrite) fun _ => ?_
    refine Prog.wp_ite (fun _ => shape_write hasChild_addPoint hS₁ hL₁ hb hwrite) fun _ => ?_
    refine Prog.wp_bind.2 (shape_splitLeaf hS₁ hT hL₁ hb fun m₂ σ₂ T₂ h₂ => ?_)
    obtain ⟨b₂, hb₂⟩ := Option.isSome_iff_exists.1 (h₂.grows π (by rw [hb]; rfl))
    refine Prog.wp_bind.2 (shape_openChild h₂.shape h₂.linked h₂.live hb₂
      fun m₃ σ₃ T₃ hc₃ h₃ => ?_)
    obtain ⟨b₃, hb₃⟩ := Option.isSome_iff_exists.1 hc₃
    refine Prog.wp_bind.2 (ih h₃.shape h₃.linked h₃.live hb₃ fun m₄ σ₄ T₄ h₄ => ?_)
    have h₄' := (h₄.rebase h₃.grows).rebase h₂.grows
    refine Prog.wp_bind.2 (shape_releaseNode h₄.shape h₄.live fun σ₅ hS₅ hL₅ => ?_)
    -- the node has the child that was just visited, so there is something to iterate over
    obtain ⟨b₅, hb₅⟩ := Option.isSome_iff_exists.1 (h₄'.grows π (by rw [hb]; rfl))
    obtain ⟨n₅, -, rfl⟩ := hS₅.exists_node hb₅
    have hchild : n₅.hasChild ((handleAt cfg π m₂).nodeGeom.whichChild pt) = true := by
      rw [h₄.linked.bits π _ hb₅]
      exact h₄.grows _ (by rw [hb₃]; rfl)
    refine Prog.wp_bind.2 (shape_createIterator hS₅ h₄.linked hL₅ .tok hb₅ hchild
      fun σ₆ hS₆ hL₆ => ?_)
    refine Prog.wp_bind.2 (shape_copyFromChildNodes hS₆ h₄.linked hL₆ hb₅ fun σ₇ hS₇ hL₇ => ?_)
    refine Prog.wp_bind.2 (shape_destroyIterator _ _ (fun _ h => h) hS₇ hL₇ fun σ₈ hS₈ hL₈ => ?_)
    exact hQ true σ₈ T₄ ⟨hS₈, h₄.linked, h₄'.grows, hL₈⟩

theorem shape_addPoint {Q : Unit → Store → Prop} {pt col : Vec} (hS : Shape cfg σ T)
    (hT : Linked T) (hL : Live σ L) (hb : (T []).isSome)
    (hQ : ∀ σ' T', Extends cfg T σ' T' L → Q () σ') : ShapeSpec (addPoint cfg pt col) Q σ := by
  obtain ⟨b, hb⟩ := Option.isSome_iff_exists.1 hb
  refine Prog.wp_ite (fun _ => ?_) fun _ => hQ σ T ⟨hS, hT, .refl, hL⟩
  refine Prog.wp_bind.2 (shape_getRoot hS hL hb fun σ₁ hS₁ hL₁ => ?_)
  refine Prog.wp_bind.2 (shape_addPointRecursive hS₁ hT hL₁ hb fun m σ₂ T₂ h₂ => ?_)
  refine Prog.wp_bind.2 (shape_releaseNode h₂.shape h₂.live fun σ₃ hS₃ hL₃ => ?_)
  exact hQ σ₃ T₂ ⟨hS₃, h₂.linked, h₂.grows, hL₃⟩

/-- A sequence of insertions into a new tree. -/
theorem shape_addPoints {pts : List (Vec × Vec)} (hS : Shape cfg σ T) (hT : Linked T)
    (hL : Live σ []) (hb : (T []).isSome) :
    ShapeSpec (addPoints cfg pts) (fun _ σ' => ∃ T', Extends cfg T σ' T' []) σ := by
  induction pts generalizing σ T with
  | nil => exact ⟨T, hS, hT, .refl, hL⟩
  | cons p pts ih =>
    refine Prog.wp_bind.2 (shape_addPoint hS hT hL hb fun σ₁ T₁ h₁ => ?_)
    refine Prog.wp_mono (ih h₁.shape h₁.linked h₁.live (h₁.grows [] hb)) ?_ fun _ => id
    rintro - σ₂ ⟨T₂, h₂⟩
    exact ⟨T₂, h₂.rebase h₁.grows⟩

/-! ### Fast insertion -/

/-- An open node: its handle is the handle of a node that exists. -/
def IsOpen (cfg : Config) (T : Bits) (nc : NodeCache) : Prop :=
  ∃ π m, nc.nh = handleAt cfg π m ∧ (T π).isSome

/-- The tokens of a stack of open nodes. -/
def stackToks (nodes : List NodeCache) : List Token :=
  nodes.map fun nc => ⟨nc.nh.nodeFile.getD (.ofValue 0), nc.nh.modified, true, false⟩

theorem IsOpen.grow {nc : NodeCache} (h : IsOpen cfg T nc) (hg : Grows T T') :
    IsOpen cfg T' nc := by
  obtain ⟨π, m, hnc, hπ⟩ := h
  exact ⟨π, m, hnc, hg π hπ⟩

theorem stackToks_cons {nc : NodeCache} {nodes : List NodeCache} (h : nc.nh = handleAt cfg π m) :
    stackToks (nc :: nodes) = tok cfg π m :: stackToks nodes := by
  rw [stackToks, List.map_cons, h]
  rfl

variable {nc : NodeCache} {nodes : List NodeCache}

theorem shape_createNodeCache {Q : NodeCache → Store → Prop} (hS : Shape cfg σ T) (hL : Live σ L)
    (hr : Reads L (fileOf cfg π)) (hb : T π = some b)
    (hQ : ∀ nc σ', nc.nh = handleAt cfg π m → Shape cfg σ' T → Live σ' L → Q nc σ') :
    ShapeSpec (NodeCache.create (handleAt cfg π m)) Q σ :=
  Prog.wp_bind.2 (shape_get hS hL hr hb fun _ σ₁ _ hS₁ hL₁ => hQ _ σ₁ rfl hS₁ hL₁)

theorem shape_create {Q : List NodeCache → Store → Prop} (hS : Shape cfg σ T) (hL : Live σ L)
    (hb : (T []).isSome)
    (hQ : ∀ nodes σ', (∀ nc ∈ nodes, IsOpen cfg T nc) → Shape cfg σ' T →
      Live σ' (stackToks nodes ++ L) → Q nodes σ') : ShapeSpec (FastCache.create cfg) Q σ := by
  obtain ⟨b, hb'⟩ := Option.isSome_iff_exists.1 hb
  refine Prog.wp_bind.2 (shape_getRoot hS hL hb' fun σ₁ hS₁ hL₁ => ?_)
  refine Prog.wp_bind.2 (shape_createNodeCache hS₁ hL₁ .tok hb' fun nc σ₂ hnc hS₂ hL₂ => ?_)
  refine hQ [nc] σ₂ (fun nc' hnc' => ?_) hS₂ (by rw [stackToks_cons hnc]; exact hL₂)
  rw [List.mem_singleton.1 hnc']
  exact ⟨[], false, hnc, hb⟩

/-- A merge keeps the bits, and the closed node is released. -/
theorem shape_pop {Q : Unit → Store → Prop} (hS : Shape cfg σ T)
    (hopen : ∀ x ∈ nc :: nodes, IsOpen cfg T x) (hL : Live σ (stackToks (nc :: nodes) ++ L))
    (hQ : ∀ σ', Shape cfg σ' T → Live σ' (stackToks nodes ++ L) → Q () σ') :
    ShapeSpec (FastCache.pop nc nodes) Q σ := by
  obtain ⟨π, m, hnc, hπ⟩ := hopen nc List.mem_cons_self
  obtain ⟨b, hb⟩ := Option.isSome_iff_exists.1 hπ
  have hrelease : ∀ σ', Shape cfg σ' T → Live σ' (stackToks (nc :: nodes) ++ L) →
      ShapeSpec nc.release Q σ' := by
    intro σ' hS' hL'
    rw [stackToks_cons hnc] at hL'
    unfold NodeCache.release
    rw [hnc]
    exact Prog.wp_bind.2 (shape_releaseNode hS' hL' fun σ₂ hS₂ hL₂ => hQ σ₂ hS₂ hL₂)
  cases nodes with
  | nil => exact hrelease σ hS hL
  | cons parent nodes =>
    obtain ⟨ρ, k, hparent, hρ⟩ := hopen parent (List.mem_cons_of_mem _ List.mem_cons_self)
    obtain ⟨b', hb'⟩ := Option.isSome_iff_exists.1 hρ
    have hmem : tok cfg ρ k ∈ stackToks (nc :: parent :: nodes) ++ L := by
      rw [stackToks_cons hnc, stackToks_cons hparent]
      simp
    have hr : Reads (stackToks (nc :: parent :: nodes) ++ L) (fileOf cfg π) := by
      rw [stackToks_cons hnc]
      exact Reads.tok
    refine Prog.wp_bind.2 (?_ : ShapeSpec (NodeCache.mergeChild parent nc) _ σ)
    unfold NodeCache.mergeChild
    rw [hnc, hparent]
    refine Prog.wp_bind.2 (shape_get hS hL hr hb fun x σ₁ _ hS₁ hL₁ => ?_)
    refine Prog.wp_bind.2 (shape_get hS₁ hL₁ ⟨_, hmem, rfl, rfl⟩ hb' fun n σ₂ hn hS₂ hL₂ => ?_)
    refine Prog.wp_bind.2 (Prog.wp_lift.2 ⟨fun n' hok => ?_, fun _ _ => trivial⟩)
    have hbits : n'.hasChild = n.hasChild := by
      unfold NodeCache.mergedNode at hok
      split_ifs at hok
      rw [← Except.ok.inj hok]
      rfl
    exact shape_overwrite hS₂ hL₂ hmem rfl rfl (by rw [hb', hbits, hn]) (.inr rfl)
      fun σ₃ hS₃ hL₃ => hrelease σ₃ hS₃ hL₃

theorem shape_destroy {Q : Unit → Store → Prop} (hS : Shape cfg σ T)
    (hopen : ∀ x ∈ nodes, IsOpen cfg T x) (hL : Live σ (stackToks nodes ++ L))
    (hQ : ∀ σ', Shape cfg σ' T → Live σ' L → Q () σ') :
    ShapeSpec (FastCache.destroy nodes) Q σ := by
  induction nodes generalizing σ with
  | nil => exact hQ σ hS hL
  | cons nc nodes ih =>
    exact Prog.wp_bind.2 (shape_pop hS hopen hL fun σ₁ hS₁ hL₁ =>
      ih hS₁ (fun x hx => hopen x (List.mem_cons_of_mem _ hx)) hL₁)

theorem shape_clear {Q : List NodeCache → Store → Prop} (hS : Shape cfg σ T)
    (hopen : ∀ x ∈ nodes, IsOpen cfg T x) (hL : Live σ (stackToks nodes ++ L))
    (hb : (T []).isSome)
    (hQ : ∀ nodes' σ', (∀ nc ∈ nodes', IsOpen cfg T nc) → Shape cfg σ' T →
      Live σ' (stackToks nodes' ++ L) → Q nodes' σ') :
    ShapeSpec (FastCache.clear cfg nodes) Q σ :=
  Prog.wp_bind.2 (shape_destroy hS hopen hL fun _ hS₁ hL₁ => shape_create hS₁ hL₁ hb hQ)

theorem shape_popOutside {Q : List NodeCache → Store → Prop} {pt : Vec} (hS : Shape cfg σ T)
    (hopen : ∀ x ∈ nodes, IsOpen cfg T x) (hL : Live σ (stackToks nodes ++ L))
    (hQ : ∀ nodes' σ', (∀ nc ∈ nodes', IsOpen cfg T nc) → Shape cfg σ' T →
      Live σ' (stackToks nodes' ++ L) → Q nodes' σ') :
    ShapeSpec (FastCache.popOutside pt nodes) Q σ := by
  induction nodes generalizing σ with
  | nil => exact trivial
  | cons nc nodes ih =>
    refine Prog.wp_ite (fun _ => hQ _ σ hopen hS hL) fun _ => ?_
    exact Prog.wp_bind.2 (shape_pop hS hopen hL fun σ₁ hS₁ hL₁ =>
      ih hS₁ (fun x hx => hopen x (List.mem_cons_of_mem _ hx)) hL₁)

/-- The top of the stack is replaced by handles of the same node. -/
theorem forall_isOpen_cons (hg : Grows T T') (hopen : ∀ x ∈ nodes, IsOpen cfg T x)
    (h : IsOpen cfg T' nc) : ∀ x ∈ nc :: nodes, IsOpen cfg T' x := by
  intro x hx
  rcases List.mem_cons.1 hx with rfl | hx
  · exact h
  · exact (hopen x hx).grow hg

theorem shape_fastAddPointRecursive {Q : List NodeCache → Store → Prop} {pt col : Vec} {a : ℚ}
    {fuel : ℕ} (hS : Shape cfg σ T) (hT : Linked T) (hopen : ∀ x ∈ nodes, IsOpen cfg T x)
    (hL : Live σ (stackToks nodes ++ L))
    (hQ : ∀ nodes' σ' T', (∀ nc ∈ nodes', IsOpen cfg T' nc) →
      Extends cfg T σ' T' (stackToks nodes' ++ L) → Q nodes' σ') :
    ShapeSpec (FastCache.addPointRecursive cfg pt col a fuel nodes) Q σ := by
  induction fuel generalizing σ T nodes Q with
  | zero => exact trivial
  | succ fuel ih =>
    cases nodes with
    | nil => exact trivial
    | cons nc nodes =>
      obtain ⟨π, m, hnc, hπ⟩ := hopen nc List.mem_cons_self
      obtain ⟨b, hb⟩ := Option.isSome_iff_exists.1 hπ
      have htail : ∀ x ∈ nodes, IsOpen cfg T x := fun x hx => hopen x (List.mem_cons_of_mem _ hx)
      rw [stackToks_cons hnc] at hL
      have hwrite : ∀ σ', Shape cfg σ' T → Live σ' (tok cfg π true :: (stackToks nodes ++ L)) →
          Q ({ nc with nh := handleAt cfg π true } :: nodes) σ' := fun σ' hS' hL' =>
        hQ _ σ' T (forall_isOpen_cons .refl htail ⟨π, true, rfl, hπ⟩) ⟨hS', hT, .refl, hL'⟩
      unfold FastCache.addPointRecursive
      simp only [hnc]
      refine Prog.wp_bind.2 (shape_get hS hL .tok hb fun n σ₁ hn hS₁ hL₁ => ?_)
      refine Prog.wp_ite (fun _ => Prog.wp_bind.2
        (shape_write hasChild_setPoint hS₁ hL₁ hb hwrite)) fun _ => ?_
      refine Prog.wp_ite (fun _ => Prog.wp_bind.2
        (shape_write hasChild_addPoint hS₁ hL₁ hb hwrite)) fun _ => ?_
      refine Prog.wp_bind.2 (shape_splitLeaf hS₁ hT hL₁ hb fun m₂ σ₂ T₂ h₂ => ?_)
      obtain ⟨b₂, hb₂⟩ := Option.isSome_iff_exists.1 (h₂.grows π hπ)
      refine Prog.wp_bind.2 (shape_openChild h₂.shape h₂.linked h₂.live hb₂
        fun m₃ σ₃ T₃ hc₃ h₃ => ?_)
      obtain ⟨b₃, hb₃⟩ := Option.isSome_iff_exists.1 hc₃
      have hg := h₂.grows.trans h₃.grows
      refine Prog.wp_bind.2 (shape_createNodeCache h₃.shape h₃.live .tok hb₃
        fun nc' σ₄ hnc' hS₄ hL₄ => ?_)
      refine ih hS₄ h₃.linked (forall_isOpen_cons .refl (forall_isOpen_cons hg htail
        ⟨π, m₃, rfl, hg π hπ⟩) ⟨_, _, hnc', hc₃⟩) ?_ fun nodes' σ₅ T₅ ho h₅ =>
          hQ nodes' σ₅ T₅ ho (h₅.rebase hg)
      rw [stackToks_cons hnc', stackToks_cons (π := π) (m := m₃) rfl]
      exact hL₄

theorem shape_fastAddPoint {Q : List NodeCache → Store → Prop} {pt col : Vec}
    (hS : Shape cfg σ T) (hT : Linked T) (hopen : ∀ x ∈ nodes, IsOpen cfg T x)
    (hL : Live σ (stackToks nodes ++ L))
    (hQ : ∀ nodes' σ' T', (∀ nc ∈ nodes', IsOpen cfg T' nc) →
      Extends cfg T σ' T' (stackToks nodes' ++ L) → Q nodes' σ') :
    ShapeSpec (FastCache.addPoint cfg pt col nodes) Q σ :=
  Prog.wp_bind.2 (shape_popOutside hS hopen hL fun _ _ ho hS₁ hL₁ =>
    shape_fastAddPointRecursive hS₁ hT ho hL₁ hQ)

/-! ### Sessions -/

/-- The calls that insert points, with or without a `TreeFastCache`. -/
def Call.inserts : Call → Bool
  | .addPoint _ _ | .openCache | .fastAddPoint _ _ _ | .clearCache _ | .closeCache _ => true
  | _ => false

/-- A client that only has `TreeFastCache`s, on a store with a linked shape. -/
structure Inserting (cfg : Config) (T : Bits) (s : Client) (σ : Store) : Prop where
  shape : Shape cfg σ T
  linked : Linked T
  root : (T []).isSome
  isOpen : ∀ nodes ∈ s.caches, ∀ nc ∈ nodes, IsOpen cfg T nc
  live : Live σ (s.caches.flatMap stackToks)

theorem shape_call {s : Client} {x : Call} (hx : x.inserts = true) (h : Inserting cfg T s σ) :
    ShapeSpec (x.run cfg s) (fun s' σ' => ∃ T', Inserting cfg T' s' σ') σ := by
  obtain ⟨hS, hT, hroot, hopen, hL⟩ := h
  have hself : ∃ T', Inserting cfg T' s σ := ⟨T, hS, hT, hroot, hopen, hL⟩
  have grow : ∀ {T'} {xs : List (List NodeCache)}, Grows T T' →
      (∀ nodes ∈ xs, ∀ nc ∈ nodes, IsOpen cfg T nc) →
        ∀ nodes ∈ xs, ∀ nc ∈ nodes, IsOpen cfg T' nc :=
    fun hg ho nodes hn nc hnc => (ho nodes hn nc hnc).grow hg
  -- one of the caches is replaced
  have put : ∀ {k nodes nodes' σ' T'}, s.caches[k]? = some nodes →
    (∀ nc ∈ nodes', IsOpen cfg T' nc) →
      Extends cfg T σ' T' (stackToks nodes' ++ (s.caches.eraseIdx k).flatMap stackToks) →
      ∃ T', Inserting cfg T' { s with caches := s.caches.set k nodes' } σ' := by
    intro k nodes nodes' σ' T' hk ho h'
    exact ⟨T', h'.shape, h'.linked, h'.grows [] hroot, forall_mem_set (grow h'.grows hopen) ho,
      h'.live.perm (flatMap_set_perm hk).symm⟩
  cases x with
  | addPoint pt col =>
    exact Prog.wp_bind.2 (shape_addPoint hS hT hL hroot fun σ₁ T₁ h₁ =>
      ⟨T₁, h₁.shape, h₁.linked, h₁.grows [] hroot, grow h₁.grows hopen, h₁.live⟩)
  | openCache =>
    refine Prog.wp_bind.2 (shape_create hS hL hroot fun nodes σ₁ ho hS₁ hL₁ =>
      ⟨T, hS₁, hT, hroot, forall_mem_concat hopen ho, hL₁.perm ?_⟩)
    rw [List.flatMap_append, List.flatMap_singleton]
    exact List.perm_append_comm
  | fastAddPoint k pt col =>
    simp only [Call.run]
    cases hk : s.caches[k]? with
    | none => exact hself
    | some nodes =>
      exact Prog.wp_bind.2 (shape_fastAddPoint hS hT (hopen nodes (List.mem_of_getElem? hk))
        (hL.perm (flatMap_perm_eraseIdx hk)) fun nodes' σ₁ T₁ ho h₁ => put hk ho h₁)
  | clearCache k =>
    simp only [Call.run]
    cases hk : s.caches[k]? with
    | none => exact hself
    | some nodes =>
      exact Prog.wp_bind.2 (shape_clear hS (hopen nodes (List.mem_of_getElem? hk))
        (hL.perm (flatMap_perm_eraseIdx hk)) hroot fun nodes' σ₁ ho hS₁ hL₁ =>
          put hk ho ⟨hS₁, hT, .refl, hL₁⟩)
  | closeCache k =>
    simp only [Call.run]
    cases hk : s.caches[k]? with
    | none => exact hself
    | some nodes =>
      exact Prog.wp_bind.2 (shape_destroy hS (hopen nodes (List.mem_of_getElem? hk))
        (hL.perm (flatMap_perm_eraseIdx hk)) fun σ₁ hS₁ hL₁ => ⟨T, hS₁, hT, hroot,
          fun x hx => hopen x (List.mem_of_mem_eraseIdx hx), hL₁⟩)
  | _ => cases hx

theorem shape_session {calls : List Call} {s : Client} (hx : ∀ x ∈ calls, x.inserts = true)
    (h : Inserting cfg T s σ) :
    ShapeSpec (session cfg calls s) (fun s' σ' => ∃ T', Inserting cfg T' s' σ') σ := by
  induction calls generalizing s σ T with
  | nil => exact ⟨T, h⟩
  | cons x xs ih =>
    refine Prog.wp_bind.2 (Prog.wp_mono (shape_call (hx x List.mem_cons_self) h) ?_ fun _ => id)
    rintro s' σ' ⟨T', h'⟩
    exact ih (fun y hy => hx y (List.mem_cons_of_mem _ hy)) h'

/-- After every insertion on a new tree all bits are exact. -/
theorem shape_life {calls : List Call} (hx : ∀ x ∈ calls, x.inserts = true) :
    ShapeSpec (life cfg true calls) (fun s' σ' => ∃ T', Inserting cfg T' s' σ') .init :=
  Prog.wp_bind.2 (shape_newTree fun _ _ hS hT hroot hL =>
    shape_session hx ⟨hS, hT, hroot, fun _ h => (nomatch h), hL⟩)

end MegaTree
