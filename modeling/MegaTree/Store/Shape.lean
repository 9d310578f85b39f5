import MegaTree.Store.Access
import MegaTree.Store.Address
import MegaTree.Store.UpTo

/-!
# The shape of a stored tree

Which nodes and files exist, and what the nodes and files say about their children, does not depend
on counts, positions and colors.  Contents of the `SameShape` differ only in these, and the rules
here hold for a store whose contents may change so at any time (`ShapeSpec`).

* `Shape cfg σ T` : the store holds exactly the nodes of `T`, with the bits that `T` gives, and the
  bits of the files tell which child files exist.
* `Linked T` : every bit of a node tells whether the child exists.
* `shape_openChildFile` : the file of a new child, created and announced where it does not exist.

The `shape_` lemmas are the rules for the operations and for handles.
-/

namespace MegaTree

open Effect

/-- The contents differ at most in counts, positions and colors. -/
def SameShape (d d' : FileData) : Prop :=
  d'.childFiles = d.childFiles ∧
    ∀ s : ShortId, (d'.nodeCache[s]?).map Node.hasChild = (d.nodeCache[s]?).map Node.hasChild

theorem similarity_sameShape : Similarity SameShape where
  refl _ := ⟨rfl, fun _ => rfl⟩
  symm h := ⟨h.1.symm, fun s => (h.2 s).symm⟩
  trans h h' := ⟨h'.1.trans h.1, fun s => (h'.2 s).trans (h.2 s)⟩
  nodes h s := by
    have := congrArg Option.isSome (h.2 s)
    simpa using this

/-- The bits of the nodes that exist. -/
abbrev Bits := Path → Option (ChildNr → Bool)

/-- The store holds the nodes of `T`, and the bits of the files tell which child files exist. -/
structure Shape (cfg : Config) (σ : Store) (T : Bits) : Prop where
  stores : Stores cfg σ (nodeAt cfg σ)
  bits : ∀ π, (nodeAt cfg σ π).map Node.hasChild = T π
  named : ∀ f, (σ.files f).isSome → ∃ π : Path, π.length ≤ maxDepth ∧ f = fileOf cfg π
  digits : ∀ f d k, σ.files f = some d → d.hasChildFile k = true →
    ∃ g, f.getChild k = .ok g ∧ (σ.files g).isSome

/-- Every bit of a node tells whether the child exists, and every node is a child. -/
structure Linked (T : Bits) : Prop where
  bits : ∀ π b, T π = some b → ∀ c, b c = (T (c :: π)).isSome
  parent : ∀ π c, (T (c :: π)).isSome → (T π).isSome

/-- No node is lost. -/
def Grows (T T' : Bits) : Prop := ∀ π, (T π).isSome → (T' π).isSome

variable {cfg : Config} {σ σ' : Store} {T T' : Bits} {L : List Token} {π : Path} {c : ChildNr}
  {m : Bool} {b b' : ChildNr → Bool} {n : Node} {d : FileData} {f : LongId} {t : Token}
  {s : ShortId}

theorem Grows.refl : Grows T T := fun _ h => h

theorem Grows.trans {T'' : Bits} (h : Grows T T') (h' : Grows T' T'') : Grows T T'' :=
  fun π hπ => h' π (h π hπ)

theorem Grows.update : Grows T (Function.update T π (some b)) := by
  intro ρ hρ
  by_cases hρπ : ρ = π
  · rw [hρπ, Function.update_self]; rfl
  · rwa [Function.update_of_ne hρπ]

/-- A file that is the child of another one has nodes whose parents are in that one. -/
theorem getChild_fileOf {ξ ρ : Path} {k : ChildNr} (hρ : ρ.length ≤ maxDepth)
    (h : (fileOf cfg ξ).getChild k = .ok (fileOf cfg ρ)) :
    ∃ c π, ρ = c :: π ∧ cfg.subtreeWidth ≤ π.length + 1 ∧ fileOf cfg π = fileOf cfg ξ ∧
      (fileOf cfg ρ).getChildNr = k := by
  have hid : (fileOf cfg ξ).idLevel < 42 ∧ fileOf cfg ρ = (fileOf cfg ξ).childId k := by
    unfold LongId.getChild at h
    split_ifs at h with hl
    exact ⟨hl, (Except.ok.inj h).symm⟩
  obtain ⟨-, hid⟩ := hid
  have hlevel := congrArg LongId.idLevel hid
  rw [LongId.childId_idLevel] at hlevel
  have hw : cfg.subtreeWidth ≤ ρ.length := by
    by_contra hlt
    rw [fileOf_of_lt (not_le.1 hlt)] at hlevel
    cases hlevel
  obtain ⟨c, π, rfl⟩ : ∃ c π, ρ = c :: π := by
    cases ρ with
    | nil => exact absurd cfg.width_pos (by simp only [List.length_nil] at hw; omega)
    | cons c π => exact ⟨c, π, rfl⟩
  have hlen : π.length + 1 ≤ maxDepth := by simpa using hρ
  have hwπ : cfg.subtreeWidth ≤ π.length + 1 := by simpa using hw
  refine ⟨c, π, rfl, hwπ, ?_⟩
  rw [getChildNr_fileOf_cons hwπ hlen]
  rw [fileOf_of_le hw] at hid hlevel
  rw [idOf_idLevel] at hlevel
  have htail := drop_cons_tail (c := c) (π := π) cfg.subtreeWidth
  rcases Nat.lt_or_ge ξ.length cfg.subtreeWidth with hlt | hge
  · -- the file above is the first file, so the file is the one below it
    rw [fileOf_of_lt hlt] at hid hlevel ⊢
    have hnil : (c :: π).drop cfg.subtreeWidth = [] := List.eq_nil_of_length_eq_zero (by
      change _ + 1 = 0 + 1 at hlevel
      omega)
    have hπ : π.length < cfg.subtreeWidth := by
      have := congrArg List.length hnil
      simp only [List.length_drop, List.length_cons, List.length_nil] at this
      omega
    rw [hnil] at hid ⊢
    refine ⟨fileOf_of_lt hπ, ?_⟩
    have hnr : ∀ k : ChildNr, idOf [] = (LongId.ofValue 0).childId k → (1 : ChildNr) = k := by
      decide
    exact hnr k hid
  · rw [fileOf_of_le hge] at hid hlevel ⊢
    rw [idOf_idLevel] at hlevel
    have hle : ((c :: π).drop cfg.subtreeWidth).length ≤ maxDepth := by
      rw [List.length_drop]
      omega
    have hdrop : (c :: π).drop cfg.subtreeWidth = k :: ξ.drop cfg.subtreeWidth :=
      idOf_injective hle (by rw [List.length_cons]; omega) hid
    have hπ : cfg.subtreeWidth ≤ π.length := by
      have := congrArg List.length hdrop
      simp only [List.length_drop, List.length_cons] at this
      omega
    rw [hdrop] at htail ⊢
    exact ⟨by rw [fileOf_of_le hπ, ← htail]; rfl, rfl⟩

namespace Shape

theorem exists_node (h : Shape cfg σ T) (hb : T π = some b) :
    ∃ n, nodeAt cfg σ π = some n ∧ n.hasChild = b :=
  Option.map_eq_some_iff.1 ((h.bits π).trans hb)

theorem length_le (h : Shape cfg σ T) (hb : T π = some b) : π.length ≤ maxDepth := by
  obtain ⟨n, hn, -⟩ := h.exists_node hb
  exact h.stores.length_le hn

theorem file_isSome (h : Shape cfg σ T) (hb : T π = some b) :
    (σ.files (fileOf cfg π)).isSome := by
  obtain ⟨n, hn, -⟩ := h.exists_node hb
  exact h.stores.file_isSome hn

theorem congr (h : Shape cfg σ T) (hf : σ'.files = σ.files) : Shape cfg σ' T := by
  have hn : nodeAt cfg σ' = nodeAt cfg σ := by
    funext π
    rw [nodeAt, nodeAt, Store.lookup, Store.lookup, hf]
  exact ⟨hn ▸ h.stores.congr hf, fun π => by rw [hn, h.bits], by rw [hf]; exact h.named,
    by rw [hf]; exact h.digits⟩

/-- The shape does not see changes of counts, positions and colors. -/
theorem change (h : Shape cfg σ T) (δ : Change SameShape) : Shape cfg (σ.change δ) T := by
  have hlook : ∀ f s, ((σ.change δ).lookup f s).map Node.hasChild =
      (σ.lookup f s).map Node.hasChild := by
    intro f s
    change (((σ.files f).map (δ.run f)).bind fun d => d.nodeCache[s]?).map Node.hasChild = _
    rw [Store.lookup]
    cases σ.files f with
    | none => rfl
    | some d => exact (δ.rel f d).2 s
  have hsome : ∀ f s, ((σ.change δ).lookup f s).isSome = (σ.lookup f s).isSome := fun f s => by
    simpa using congrArg Option.isSome (hlook f s)
  have hbits : ∀ {f d'}, (σ.change δ).files f = some d' →
      ∃ d, σ.files f = some d ∧ ∀ k, d'.hasChildFile k = d.hasChildFile k := by
    intro f d' hd
    obtain ⟨d, hd₀, rfl⟩ := Option.map_eq_some_iff.1 hd
    exact ⟨d, hd₀, fun k => by rw [FileData.hasChildFile, (δ.rel f d).1, FileData.hasChildFile]⟩
  refine ⟨⟨fun π hπ => ?_, fun π hπ => ?_, fun f s hs => ?_, fun π c d hπ hw hd => ?_,
    fun π c hπ hs => ?_⟩, fun π => ?_, fun f hs => ?_, fun f d k hd hk => ?_⟩
  · rw [nodeAt, if_pos hπ]
  · exact if_neg (not_le.2 hπ)
  · exact h.stores.only f s (hsome f s ▸ hs)
  · obtain ⟨d', hd', hk⟩ := hbits hd
    rw [hk, isSome_change]
    exact h.stores.child π c d' hπ hw hd'
  · rw [isSome_change] at hs ⊢
    exact h.stores.parent π c hπ hs
  · rw [← h.bits π, nodeAt, nodeAt]
    split_ifs
    · exact hlook _ _
    · rfl
  · exact h.named f (isSome_change σ δ f ▸ hs)
  · obtain ⟨d', hd', hk'⟩ := hbits hd
    obtain ⟨g, hg, hs⟩ := h.digits f d' k hd' (hk' k ▸ hk)
    exact ⟨g, hg, (isSome_change ..).trans hs⟩

/-- A node is written or created in a file that exists. -/
theorem setNode (h : Shape cfg σ T) (hπ : π.length ≤ maxDepth)
    (hd : σ.files (fileOf cfg π) = some d)
    (hf : σ'.files = Function.update σ.files (fileOf cfg π) (some (d.setNode (shortOf cfg π) n))) :
    Shape cfg σ' (Function.update T π (some n.hasChild)) := by
  have hS := h.stores.setNode (n := n) hπ hd hf
  have hn := hS.nodeAt_eq
  have files : ∀ g, (σ'.files g).isSome = (σ.files g).isSome := by
    intro g
    rw [hf]
    by_cases hg : g = fileOf cfg π
    · rw [hg, Function.update_self, hd]; rfl
    · rw [Function.update_of_ne hg]
  refine ⟨hn ▸ hS, fun ρ => ?_, fun g hs => h.named g (files g ▸ hs), fun g e k he hk => ?_⟩
  · rw [hn]
    by_cases hρ : ρ = π
    · rw [hρ, Function.update_self, Function.update_self]; rfl
    · rw [Function.update_of_ne hρ, Function.update_of_ne hρ, h.bits]
  · rw [hf] at he
    have hold : ∃ e', σ.files g = some e' ∧ e'.hasChildFile k = true := by
      by_cases hg : g = fileOf cfg π
      · rw [hg, Function.update_self] at he
        obtain rfl := Option.some.inj he
        exact ⟨d, hg ▸ hd, hk⟩
      · rw [Function.update_of_ne hg] at he
        exact ⟨e, he, hk⟩
    obtain ⟨e', he', hk'⟩ := hold
    obtain ⟨g', hg', hs⟩ := h.digits g e' k he' hk'
    exact ⟨g', hg', (files g').trans hs⟩

/-- A file is created and announced in the file above it. -/
theorem newFile (h : Shape cfg σ T) (hπ : π.length + 1 ≤ maxDepth)
    (hw : cfg.subtreeWidth ≤ π.length + 1) (hd : σ.files (fileOf cfg π) = some d)
    (hn : σ.files (fileOf cfg (c :: π)) = none)
    (hf : σ'.files = Function.update
      (Function.update σ.files (fileOf cfg (c :: π)) (some .empty)) (fileOf cfg π)
      (some (d.setChildFile (fileOf cfg (c :: π)).getChildNr))) : Shape cfg σ' T := by
  have hS := h.stores.newFile hπ hw hd hn hf
  have hne : fileOf cfg (c :: π) ≠ fileOf cfg π := fileOf_cons_ne hπ hw
  have files : ∀ g, (σ'.files g).isSome =
      (decide (g = fileOf cfg (c :: π)) || (σ.files g).isSome) := by
    intro g
    rw [hf]
    by_cases h₁ : g = fileOf cfg π
    · rw [h₁, Function.update_self, hd]; simp
    · by_cases h₂ : g = fileOf cfg (c :: π)
      · rw [Function.update_of_ne h₁, h₂, Function.update_self]; simp
      · rw [Function.update_of_ne h₁, Function.update_of_ne h₂]; simp [h₂]
  refine ⟨hS.nodeAt_eq ▸ hS, fun ρ => by rw [hS.nodeAt_eq, h.bits], fun g hs => ?_,
    fun g e k he hk => ?_⟩
  · rw [files, Bool.or_eq_true, decide_eq_true_eq] at hs
    rcases hs with rfl | hs
    · exact ⟨c :: π, by simpa using hπ, rfl⟩
    · exact h.named g hs
  · have hsome : ∀ g', (σ.files g').isSome → (σ'.files g').isSome := fun g' hs => by
      rw [files, hs, Bool.or_true]
    rw [hf] at he
    by_cases h₁ : g = fileOf cfg π
    · rw [h₁, Function.update_self] at he
      obtain rfl := Option.some.inj he
      rw [FileData.hasChildFile_setChildFile, Bool.or_eq_true, decide_eq_true_eq] at hk
      rcases hk with rfl | hk
      · refine ⟨fileOf cfg (c :: π), h₁ ▸ (fileOf_child hπ).resolve_left hne, ?_⟩
        rw [files]; simp
      · obtain ⟨g', hg', hs⟩ := h.digits _ d k hd hk
        exact ⟨g', h₁ ▸ hg', hsome g' hs⟩
    · rw [Function.update_of_ne h₁] at he
      by_cases h₂ : g = fileOf cfg (c :: π)
      · rw [h₂, Function.update_self] at he
        obtain rfl := Option.some.inj he
        rw [FileData.hasChildFile_empty] at hk
        cases hk
      · rw [Function.update_of_ne h₂] at he
        obtain ⟨g', hg', hs⟩ := h.digits g e k he hk
        exact ⟨g', hg', hsome g' hs⟩

/-- The first file and the root are created. -/
theorem root (hf : σ'.files = Function.update (fun _ => none) (fileOf cfg [])
      (some (FileData.empty.setNode (shortOf cfg []) n))) :
    Shape cfg σ' (Function.update (fun _ => none) [] (some n.hasChild)) := by
  have hS := Stores.root hf
  refine ⟨hS.nodeAt_eq ▸ hS, fun ρ => ?_, fun g hs => ?_, fun g e k he hk => ?_⟩
  · rw [hS.nodeAt_eq]
    by_cases hρ : ρ = []
    · rw [hρ, Function.update_self, Function.update_self]; rfl
    · rw [Function.update_of_ne hρ, Function.update_of_ne hρ]; rfl
  · rw [hf] at hs
    by_cases hg : g = fileOf cfg []
    · exact ⟨[], Nat.zero_le _, hg⟩
    · rw [Function.update_of_ne hg] at hs
      cases hs
  · rw [hf] at he
    by_cases hg : g = fileOf cfg []
    · rw [hg, Function.update_self] at he
      obtain rfl := Option.some.inj he
      rw [FileData.hasChildFile_setNode, FileData.hasChildFile_empty] at hk
      cases hk
    · rw [Function.update_of_ne hg] at he
      cases he

/-- The bits of a file tell exactly which child files exist, at every digit. -/
theorem hasChildFile_iff (h : Shape cfg σ T) (hd : σ.files f = some d) (k : ChildNr) :
    d.hasChildFile k = true ↔ ∃ g, f.getChild k = .ok g ∧ (σ.files g).isSome := by
  refine ⟨h.digits f d k hd, ?_⟩
  rintro ⟨g, hg, hs⟩
  obtain ⟨ρ, hρ, rfl⟩ := h.named g hs
  obtain ⟨ξ, -, rfl⟩ := h.named f (by rw [hd]; rfl)
  obtain ⟨c, π, rfl, hw, hfile, rfl⟩ := getChild_fileOf hρ hg
  rw [h.stores.child π c d (by simpa using hρ) hw (hfile ▸ hd)]
  exact hs

end Shape

/-! ### Rules for the operations -/

/-- `p` misuses no operation of a store whose counts, positions and colors may change. -/
abbrev ShapeSpec {α : Type} (p : TreeM α) (Q : α → Store → Prop) (σ : Store) : Prop :=
  p.wp (Store.stepUpTo SameShape) Q (fun _ => True) σ

section Rules

variable {Q : Unit → Store → Prop}

theorem shape_getNodeFile (hS : Shape cfg σ T) (hL : Live σ L) (hf : (σ.files f).isSome)
    (hQ : ∀ σ', Shape cfg σ' T → Live σ' (⟨f, false, false, false⟩ :: L) → Q () σ') :
    ShapeSpec (perform (.getNodeFile f)) Q σ :=
  wpUpTo_op fun δ => ⟨trivial, wp_getNodeFile (hL.change δ) ((isSome_change ..).trans hf)
    fun _ h hL' => hQ _ ((hS.change δ).congr h) hL'⟩

theorem shape_countNode (hS : Shape cfg σ T) (hL : Live σ L)
    (hQ : ∀ σ', Shape cfg σ' T → Live σ' L → Q () σ') : ShapeSpec (perform .countNode) Q σ :=
  wpUpTo_op fun δ => ⟨trivial, wp_countNode (hL.change δ) (hQ _ (hS.change δ) (hL.change δ))⟩

theorem shape_waitUntilLoaded (hS : Shape cfg σ T) (hL : Live σ (t :: L))
    (hQ : ∀ σ', Shape cfg σ' T → Live σ' (⟨t.file, t.modified, true, t.dirty⟩ :: L) → Q () σ') :
    ShapeSpec (perform (.waitUntilLoaded t.file)) Q σ :=
  wpUpTo_op fun δ => ⟨trivial, wp_waitUntilLoaded (hL.change δ)
    fun _ h hL' => hQ _ ((hS.change δ).congr h) hL'⟩

theorem shape_isLoaded {Q : Bool → Store → Prop} (hS : Shape cfg σ T) (hL : Live σ L) (ht : t ∈ L)
    (hl : t.loaded = true) (hQ : ∀ σ', Shape cfg σ' T → Live σ' L → Q true σ') :
    ShapeSpec (perform (.isLoaded t.file)) Q σ :=
  wpUpTo_op fun δ => ⟨trivial, wp_isLoaded_of_loaded (hL.change δ) ht hl
    (hQ _ (hS.change δ) (hL.change δ))⟩

theorem shape_readNode {Q : Bool → Store → Prop} (hS : Shape cfg σ T) (hL : Live σ L) (ht : t ∈ L)
    (hf : t.file = fileOf cfg π) (hb : T π = some b)
    (hQ : ∀ σ', Shape cfg σ' T → Live σ' (⟨t.file, false, t.loaded, t.dirty⟩ :: L) → Q true σ') :
    ShapeSpec (perform (.readNode t.file (shortOf cfg π))) Q σ := by
  refine wpUpTo_op fun δ => ⟨trivial, ?_⟩
  obtain ⟨n, hn, -⟩ := (hS.change δ).exists_node hb
  refine wp_readNode (n := n) (hL.change δ) ht ?_ fun _ h hL' => hQ _ ((hS.change δ).congr h) hL'
  rw [hf, (hS.change δ).stores.nodes π (hS.length_le hb), hn]

theorem shape_createNode (hS : Shape cfg σ T) (hL : Live σ L) (ht : t ∈ L) (hl : t.loaded = true)
    (hf : t.file = fileOf cfg π) (hπ : π.length ≤ maxDepth) (hb : T π = none)
    (hQ : ∀ σ', Shape cfg σ' (Function.update T π (some fun _ => false)) →
      Live σ' (⟨t.file, false, true, true⟩ :: L) → Q () σ') :
    ShapeSpec (perform (.createNode t.file (shortOf cfg π))) Q σ := by
  refine wpUpTo_op fun δ => ⟨trivial, ?_⟩
  have hS' := hS.change δ
  have hL' := hL.change δ
  obtain ⟨d, hd⟩ := Option.isSome_iff_exists.1 (hL'.stored t ht)
  have hnew : d.nodeCache[shortOf cfg π]? = none := by
    have hn := hS'.stores.nodes π hπ
    have hbits := hS'.bits π
    rw [hb, Option.map_eq_none_iff] at hbits
    rw [hbits, Store.lookup, ← hf, hd] at hn
    exact hn
  refine wp_createNode hL' ht hl hd hnew fun stale σ' h hL'' => hQ _ ?_ hL''
  have hreset : stale.reset.hasChild = fun _ => false := funext fun i => Node.hasChild_reset i
  rw [hf] at hd h
  exact hreset ▸ hS'.setNode hπ hd h

theorem shape_removeUser (hS : Shape cfg σ T) (hL : Live σ (t :: L)) (hm : t.modified = false)
    (hQ : ∀ σ', Shape cfg σ' T → Live σ' L → Q () σ') :
    ShapeSpec (perform (.removeUser t.file)) Q σ :=
  wpUpTo_op fun δ => ⟨trivial, wp_removeUser (hL.change δ) hm
    fun _ h hL' => hQ _ ((hS.change δ).congr h) hL'⟩

theorem shape_releaseNode_op (hS : Shape cfg σ T) (hL : Live σ (t :: L))
    (hQ : ∀ σ', Shape cfg σ' T → Live σ' L → Q () σ') :
    ShapeSpec (perform (.releaseNode t.file t.modified)) Q σ :=
  wpUpTo_op fun δ => ⟨trivial, wp_releaseNode (hL.change δ)
    fun _ h hL' => hQ _ ((hS.change δ).congr h) hL'⟩

end Rules

/-! ### Handles -/

theorem shape_get {Q : Node → Store → Prop} (hS : Shape cfg σ T) (hL : Live σ L)
    (hr : Reads L (fileOf cfg π)) (hb : T π = some b)
    (hQ : ∀ n σ', n.hasChild = b → Shape cfg σ' T → Live σ' L → Q n σ') :
    ShapeSpec (handleAt cfg π m).get Q σ := by
  refine wpUpTo_op fun δ => ⟨trivial, ?_⟩
  obtain ⟨n, hn, hbits⟩ := (hS.change δ).exists_node hb
  exact wp_get (m := m) (hS.change δ).stores (hL.change δ) hr hn
    (hQ n _ hbits (hS.change δ) (hL.change δ))

/-- Where the file of a node is. -/
theorem Shape.file_of_node (hS : Shape cfg σ T) (hb : T π = some b) :
    ∃ d n, σ.files (fileOf cfg π) = some d ∧ d.nodeCache[shortOf cfg π]? = some n ∧
      n.hasChild = b := by
  obtain ⟨n, hn, hbits⟩ := hS.exists_node hb
  obtain ⟨d, hd, hs⟩ := hS.stores.file_of_node hn
  exact ⟨d, n, hd, hs, hbits⟩

theorem shape_modify {Q : NodeHandle → Store → Prop} (hS : Shape cfg σ T)
    (hL : Live σ (tok cfg π m :: L)) (hb : T π = some b)
    (hQ : ∀ σ', Shape cfg σ' (Function.update T π (some n.hasChild)) →
      Live σ' (tok cfg π true :: L) → Q (handleAt cfg π true) σ') :
    ShapeSpec ((handleAt cfg π m).modify n) Q σ := by
  change ShapeSpec ((perform (.setNode (fileOf cfg π) (shortOf cfg π) n
    (if m then .again else .first))).bind fun _ => Prog.ret (handleAt cfg π true)) Q σ
  refine Prog.wp_bind.2 (wpUpTo_op fun δ => ⟨by cases m <;> trivial, ?_⟩)
  obtain ⟨d, n', hd, hs, -⟩ := (hS.change δ).file_of_node hb
  exact wp_setNode (t := tok cfg π m) (hL.change δ) rfl hd hs fun σ' hf hL' =>
    hQ σ' ((hS.change δ).setNode (hS.length_le hb) hd hf) hL'

theorem shape_overwrite {Q : Unit → Store → Prop} {w : Write} (hS : Shape cfg σ T)
    (hL : Live σ L) (ht : t ∈ L) (hl : t.loaded = true) (hf : t.file = fileOf cfg π)
    (hb : T π = some n.hasChild) (hw : w = .copy ∧ t.dirty = true ∨ w = .merge)
    (hQ : ∀ σ', Shape cfg σ' T → Live σ' L → Q () σ') :
    ShapeSpec ((handleAt cfg π m).overwrite n w) Q σ := by
  refine wpUpTo_op fun δ => ?_
  have hS' := hS.change δ
  obtain ⟨d, n', hd, hs, hbits⟩ := hS'.file_of_node hb
  refine ⟨?_, ?_⟩
  · -- the bits of the node stay as they are
    rcases hw with ⟨rfl, -⟩ | rfl
    · trivial
    · intro d' hd'
      obtain rfl := Option.some.inj (hd.symm.trans hd')
      refine ⟨rfl, fun s => ?_⟩
      rw [FileData.getElem?_setNode]
      split_ifs with hse
      · rw [← hse, hs, Option.map_some, Option.map_some, hbits]
      · rfl
  · rw [← hf] at hd ⊢
    refine wp_setNode_bare (hL.change δ) ht hl hd hs hw fun σ' hf' hL' => ?_
    rw [hf] at hd hf'
    have := hS'.setNode (n := n) (hS.length_le hb) hd hf'
    rw [← hb, Function.update_eq_self] at this
    exact hQ σ' this hL'

theorem shape_isValid {Q : Bool → Store → Prop} (hS : Shape cfg σ T) (hL : Live σ L)
    (hr : Reads L (fileOf cfg π)) (hQ : ∀ σ', Shape cfg σ' T → Live σ' L → Q true σ') :
    ShapeSpec (handleAt cfg π m).isValid Q σ := by
  obtain ⟨t, ht, hf, hl⟩ := hr
  have hv : (idOf π).isValid = true := by rw [LongId.isValid, idOf_idLevel]; rfl
  refine Prog.wp_bind.2 (show ShapeSpec (perform (.isLoaded (fileOf cfg π))) _ σ from ?_)
  rw [← hf]
  refine shape_isLoaded hS hL ht hl fun σ' hS' hL' => ?_
  change Q (true && (idOf π).isValid) σ'
  rw [hv]
  exact hQ σ' hS' hL'

theorem shape_releaseNode {Q : NodeHandle → Store → Prop} {l d : Bool} (hS : Shape cfg σ T)
    (hL : Live σ (⟨fileOf cfg π, m, l, d⟩ :: L))
    (hQ : ∀ σ', Shape cfg σ' T → Live σ' L → Q (handleAt cfg π m).invalidate σ') :
    ShapeSpec (releaseNode (handleAt cfg π m)) Q σ :=
  Prog.wp_bind.2 (shape_releaseNode_op hS hL hQ)

/-! ### New children -/

theorem shape_setChild {Q : NodeHandle → Store → Prop} (hS : Shape cfg σ T)
    (hL : Live σ (tok cfg π m :: L)) (hb : T π = some b)
    (hQ : ∀ σ', Shape cfg σ' (Function.update T π (some fun j => decide (j = c) || b j)) →
      Live σ' (tok cfg π true :: L) → Q (handleAt cfg π true) σ') :
    ShapeSpec ((handleAt cfg π m).setChild c) Q σ := by
  refine Prog.wp_bind.2 (shape_get hS hL .tok hb fun n σ₁ hn hS₁ hL₁ => ?_)
  have hbits : (n.setChild c).hasChild = fun j => decide (j = c) || b j := by
    funext j
    rw [Node.hasChild_setChild, hn]
  exact shape_modify hS₁ hL₁ hb fun σ₂ hS₂ => hQ σ₂ (hbits ▸ hS₂)

/-- A file without nodes and child files does not change. -/
theorem eq_empty_of_sameShape (h : SameShape .empty d) : d = .empty := by
  obtain ⟨files, nodes⟩ := d
  obtain rfl : files = 0 := h.1
  have hn : nodes = ∅ := by
    refine Std.ExtTreeMap.ext_getElem? fun s => ?_
    have := h.2 s
    simpa [FileData.empty] using this
  rw [hn]
  rfl

/-- A new file that is not announced yet. -/
structure Unannounced (cfg : Config) (σ : Store) (T : Bits) (f : LongId) : Prop where
  old : ∃ σ₀, Shape cfg σ₀ T ∧ σ₀.files f = none ∧
    σ.files = Function.update σ₀.files f (some .empty)

theorem Unannounced.change (h : Unannounced cfg σ T f) (δ : Change SameShape) :
    Unannounced cfg (σ.change δ) T f := by
  obtain ⟨σ₀, hS, hn, hf⟩ := h.old
  refine ⟨σ₀.change δ, hS.change δ, by simp [Store.change, hn], ?_⟩
  funext g
  simp only [Store.change, hf]
  by_cases hg : g = f
  · rw [hg, Function.update_self, Function.update_self, Option.map_some,
      eq_empty_of_sameShape (δ.rel f .empty)]
  · rw [Function.update_of_ne hg, Function.update_of_ne hg]

theorem shape_hasChildFile {Q : Bool → Store → Prop} (hS : Shape cfg σ T) (hL : Live σ L)
    (ht : t ∈ L) (hl : t.loaded = true) (hf : t.file = fileOf cfg π) (hπ : π.length + 1 ≤ maxDepth)
    (hQ : ∀ known σ', Shape cfg σ' T → Live σ' L → (cfg.subtreeWidth ≤ π.length + 1 →
      known = (σ'.files (fileOf cfg (c :: π))).isSome) → Q known σ') :
    ShapeSpec (perform (.hasChildFile t.file (fileOf cfg (c :: π)).getChildNr)) Q σ := by
  refine wpUpTo_op fun δ => ⟨trivial, ?_⟩
  obtain ⟨d, hd⟩ := Option.isSome_iff_exists.1 ((hL.change δ).stored t ht)
  refine wp_hasChildFile (hL.change δ) ht hl hd (hQ _ _ (hS.change δ) (hL.change δ) fun hw => ?_)
  exact (hS.change δ).stores.child π c d hπ hw (hf ▸ hd)

theorem shape_openChildFile {Q : Unit → Store → Prop} {dirty : Bool} (hS : Shape cfg σ T)
    (hL : Live σ (⟨fileOf cfg π, false, true, dirty⟩ :: L)) (hπ : π.length + 1 ≤ maxDepth)
    (hQ : ∀ σ', Shape cfg σ' T →
      Live σ' (⟨fileOf cfg (c :: π), false, true, false⟩ :: ⟨fileOf cfg π, false, true, false⟩ :: L) →
      Q () σ') : ShapeSpec (openChildFile (fileOf cfg π) (fileOf cfg (c :: π))) Q σ := by
  refine Prog.wp_bind.2 (shape_hasChildFile (c := c) hS hL List.mem_cons_self rfl rfl hπ
    fun known σ₁ hS₁ hL₁ hk => ?_)
  have hopen : (σ₁.files (fileOf cfg (c :: π))).isSome →
      ShapeSpec (do perform (.getNodeFile (fileOf cfg (c :: π)))
                    perform (.waitUntilLoaded (fileOf cfg (c :: π)))) Q σ₁ := fun hf => by
    refine Prog.wp_bind.2 (shape_getNodeFile hS₁ hL₁ hf fun σ₂ hS₂ hL₂ => ?_)
    exact shape_waitUntilLoaded hS₂ hL₂ fun σ₃ hS₃ hL₃ => hQ σ₃ hS₃ hL₃.swap.forget.swap
  by_cases hw : cfg.subtreeWidth ≤ π.length + 1
  · rw [isRootFile_fileOf_cons hw, Bool.false_or, hk hw]
    cases hs : σ₁.files (fileOf cfg (c :: π)) with
    | some e => exact hopen (by rw [hs]; rfl)
    | none =>
      refine Prog.wp_bind.2 (Prog.wp_bind.2 (wpUpTo_op fun δ => ⟨trivial, ?_⟩))
      refine wp_createNodeFile (hL₁.change δ) (by simp [Store.change, hs]) fun σ₂ h₂ hL₂ => ?_
      have hnew : Unannounced cfg σ₂ T (fileOf cfg (c :: π)) :=
        ⟨σ₁.change δ, hS₁.change δ, by simp [Store.change, hs], h₂⟩
      refine wpUpTo_op fun δ₃ => ⟨trivial, wp_cacheMaintenance (hL₂.change δ₃) ?_⟩
      have hnew := hnew.change δ₃
      have hL₃ := hL₂.change δ₃
      refine wpUpTo_op fun δ₄ => ⟨trivial, ?_⟩
      obtain ⟨σ₀, hS₀, hn, hf⟩ := (hnew.change δ₄).old
      have hL₄ := hL₃.change δ₄
      obtain ⟨e, he⟩ := Option.isSome_iff_exists.1
        (hL₄.stored _ (List.mem_cons_of_mem _ List.mem_cons_self))
      refine wp_setChildFile hL₄.swap rfl he fun σ₅ h₅ hL₅ => ?_
      rw [hf] at h₅
      rw [hf, Function.update_of_ne (fileOf_cons_ne hπ hw).symm] at he
      exact hQ σ₅ (hS₀.newFile hπ hw he hn h₅) hL₅.forget.swap.forget
  · -- the child is in the first file, and so is its parent
    have hroot : fileOf cfg (c :: π) = .ofValue 0 := fileOf_cons_root (by omega)
    have hsame : fileOf cfg π = .ofValue 0 := fileOf_of_lt (by omega)
    have hr : (fileOf cfg (c :: π)).isRootFile = true := by rw [hroot]; rfl
    rw [hr, Bool.true_or]
    refine hopen ?_
    rw [hroot, ← hsame]
    exact hL₁.stored _ List.mem_cons_self

/-- A linked tree stays linked when a node gets a child without bits. -/
theorem Linked.addChild (hT : Linked T) (hb : T π = some b) (hc : b c = false) :
    Linked (Function.update (Function.update T π (some fun j => decide (j = c) || b j)) (c :: π)
      (some fun _ => false)) := by
  have hnone : T (c :: π) = none := by
    rw [← Option.not_isSome_iff_eq_none, ← hT.bits π b hb c, hc]
    exact Bool.false_ne_true
  have hsome : ∀ ρ, (Function.update (Function.update T π (some fun j => decide (j = c) || b j))
      (c :: π) (some fun _ => false) ρ).isSome = (decide (ρ = c :: π) || (T ρ).isSome) := by
    intro ρ
    by_cases hρ : ρ = c :: π
    · rw [hρ, Function.update_self]; simp
    · rw [Function.update_of_ne hρ]
      by_cases hρπ : ρ = π
      · rw [hρπ, Function.update_self, hb]; simp
      · rw [Function.update_of_ne hρπ]; simp [hρ]
  constructor
  · intro ρ b' hb' j
    rw [hsome]
    by_cases hρ : ρ = c :: π
    · -- the new node has no children
      subst hρ
      rw [Function.update_self] at hb'
      obtain rfl := Option.some.inj hb'
      have hj : ¬ (T (j :: c :: π)).isSome := fun h => by
        have := hT.parent _ j h
        rw [hnone] at this
        cases this
      simp [hj]
    · rw [Function.update_of_ne hρ] at hb'
      by_cases hρπ : ρ = π
      · subst hρπ
        rw [Function.update_self] at hb'
        obtain rfl := Option.some.inj hb'
        simp [hT.bits ρ b hb j]
      · rw [Function.update_of_ne hρπ] at hb'
        simp [hT.bits ρ b' hb' j, hρπ]
  · intro ρ j hj
    rw [hsome, Bool.or_eq_true, decide_eq_true_eq] at hj ⊢
    rcases hj with hj | hj
    · rw [(List.cons.inj hj).2, hb]
      exact .inr rfl
    · exact .inr (hT.parent ρ j hj)

end MegaTree
