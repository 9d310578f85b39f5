import MegaTree.Core.NodeFile

/-!
# A file from its child files

`initializeFromChildren` rebuilds a lost file from the up to eight files below it.  The short id of
a node loses its last digit, which says which child of its parent the node is, and gets the number
of its file in front.  All nodes are put into groups of siblings first, and then every group is
condensed into one node.

* `ParentGrouping.place` : one node is put into the group of its parent.
* `groupChildren_eq` : which families the nodes end up in, whatever the order of the nodes is.
* `initializeFromChildren_eq` : what it takes to get a given file back.
-/

namespace MegaTree

open Std

/-- `ParentGrouping`: the eight children by the short id of their parent. -/
abbrev ParentGrouping := ExtTreeMap ShortId (ChildNr → Option Node) compare

/-- `parent_short_id`, for a node in the child file with number `i`. -/
def parentShortId (i : ChildNr) (shortId : ShortId) : ShortId :=
  (UInt32.ofNat i.val <<< (5 * 3)) + (shortId >>> 3)

/-- `which_child` -/
def whichChildId (shortId : ShortId) : ChildNr := ⟨(shortId &&& 7).toNat, by
  have : (shortId &&& 7).toNat ≤ 7 := by
    rw [UInt32.toNat_and]
    exact Nat.and_le_right
  omega⟩

theorem whichChildId_val (shortId : ShortId) : (whichChildId shortId).val = shortId.toNat % 8 := by
  change (shortId &&& 7).toNat = _
  rw [UInt32.toNat_and]
  exact Nat.and_two_pow_sub_one_eq_mod _ 3

theorem toNat_shiftRight_three (shortId : ShortId) : (shortId >>> 3).toNat = shortId.toNat / 8 := by
  rw [UInt32.toNat_shiftRight, Nat.shiftRight_eq_div_pow]
  rfl

/-- Put a node of the child file with number `i` into its group; a new group has no children. -/
def ParentGrouping.place (i : ChildNr) (g : ParentGrouping) (x : ShortId × Node) : ParentGrouping :=
  g.insert (parentShortId i x.1) (Function.update (g.getD (parentShortId i x.1) fun _ => none)
    (whichChildId x.1) (some x.2))

/-- The first loop of `initializeFromChildren`: file by file, and in each by short ids. -/
def groupChildren (children : ChildNr → Option FileData) : ParentGrouping :=
  (List.finRange 8).foldl (fun g i => match children i with
    | some f => f.nodeCache.toList.foldl (ParentGrouping.place i) g
    | none => g) ∅

/-- `child_files` of the new file. -/
def childFileMask (children : ChildNr → Option FileData) : UInt8 :=
  (List.finRange 8).foldl (fun m i => match children i with
    | some _ => m ||| Node.childBit i
    | none => m) 0

/-- The second loop: every group becomes one node. -/
def condense : List (ShortId × (ChildNr → Option Node)) → NodeMap → Except Err NodeMap
  | [], cache => .ok cache
  | (p, kids) :: gs, cache => do
    let parentNode ← Node.copyFromChildNodes kids
    condense gs (cache.insertIfNew p parentNode)

/-- `initializeFromChildren(path, children)` -/
def FileData.initializeFromChildren (children : ChildNr → Option FileData) :
    Except Err FileData := do
  let cache ← condense (groupChildren children).toList ∅
  .ok ⟨childFileMask children, cache⟩

variable {children : ChildNr → Option FileData} {K : ShortId → Option (ChildNr → Option Node)}
  {i c : ChildNr} {s p : ShortId} {n : Node} {f : FileData}

/-! ### The byte of child files -/

theorem childFileMask_foldl (l : List ChildNr) (m : UInt8) (j : ChildNr) :
    FileData.hasChildFile ⟨l.foldl (fun m i => match children i with
      | some _ => m ||| Node.childBit i
      | none => m) m, ∅⟩ j =
      (FileData.hasChildFile ⟨m, ∅⟩ j || decide (j ∈ l ∧ (children j).isSome)) := by
  induction l generalizing m with
  | nil => simp
  | cons i l ih =>
    rw [List.foldl_cons, ih]
    cases hi : children i with
    | none =>
      by_cases hj : j = i
      · simp [hj, hi]
      · simp [hj]
    | some f =>
      have hset := FileData.hasChildFile_setChildFile ⟨m, ∅⟩ i j
      rw [FileData.setChildFile] at hset
      rw [hset]
      by_cases hj : j = i
      · simp [hj, hi]
      · simp [hj]

/-- The bits say which files were given. -/
theorem hasChildFile_childFileMask (cache : NodeMap) (j : ChildNr) :
    FileData.hasChildFile ⟨childFileMask children, cache⟩ j = (children j).isSome := by
  change FileData.hasChildFile ⟨childFileMask children, ∅⟩ j = _
  rw [childFileMask, childFileMask_foldl]
  have h0 : FileData.hasChildFile ⟨0, ∅⟩ j = false := FileData.hasChildFile_empty j
  simp [h0]

theorem childFiles_ext {a b : FileData} (h : ∀ j, a.hasChildFile j = b.hasChildFile j) :
    a.childFiles = b.childFiles := by
  refine Node.children_ext fun j => ?_
  have ha := Node.hasChild_eq ⟨0, fun _ => 0, fun _ => 0, a.childFiles⟩ j
  have hb := Node.hasChild_eq ⟨0, fun _ => 0, fun _ => 0, b.childFiles⟩ j
  rw [← ha, ← hb]
  exact h j

/-! ### Families -/

/-- The families that the nodes of the child files belong to: every node is a child in the family
of its parent, and the families have no other children. -/
structure Families (children : ChildNr → Option FileData)
    (K : ShortId → Option (ChildNr → Option Node)) : Prop where
  sound : ∀ i f s n, children i = some f → f.nodeCache[s]? = some n →
    ∃ kids, K (parentShortId i s) = some kids ∧ kids (whichChildId s) = some n
  complete : ∀ p kids c n, K p = some kids → kids c = some n →
    ∃ i f s, children i = some f ∧ f.nodeCache[s]? = some n ∧ parentShortId i s = p ∧
      whichChildId s = c
  nonempty : ∀ p kids, K p = some kids → ∃ c n, kids c = some n

/-- The groups are parts of the families. -/
def Within (g : ParentGrouping) (K : ShortId → Option (ChildNr → Option Node)) : Prop :=
  ∀ p ks, g[p]? = some ks → ∃ kids, K p = some kids ∧ ∀ c n, ks c = some n → kids c = some n

/-- The node has its place in the groups. -/
def Placed (g : ParentGrouping) (i : ChildNr) (x : ShortId × Node) : Prop :=
  ∃ ks, g[parentShortId i x.1]? = some ks ∧ ks (whichChildId x.1) = some x.2

theorem getElem?_place (g : ParentGrouping) (x : ShortId × Node) (p : ShortId) :
    (g.place i x)[p]? = if parentShortId i x.1 = p then
      some (Function.update (g.getD p fun _ => none) (whichChildId x.1) (some x.2)) else g[p]? := by
  rw [ParentGrouping.place, ExtTreeMap.getElem?_insert]
  by_cases h : parentShortId i x.1 = p <;> simp [h]

theorem Within.place {g : ParentGrouping} {x : ShortId × Node} (h : Within g K)
    (hx : ∃ kids, K (parentShortId i x.1) = some kids ∧ kids (whichChildId x.1) = some x.2) :
    Within (g.place i x) K := by
  intro p ks hp
  rw [getElem?_place] at hp
  split_ifs at hp with he
  · subst he
    obtain ⟨kids, hK, hkid⟩ := hx
    refine ⟨kids, hK, fun c n hc => ?_⟩
    rw [← Option.some.inj hp] at hc
    by_cases hcw : c = whichChildId x.1
    · rw [hcw, Function.update_self] at hc
      rw [hcw, hkid, hc]
    · rw [Function.update_of_ne hcw, ExtTreeMap.getD_eq_getD_getElem?] at hc
      cases hg : g[parentShortId i x.1]? with
      | none => rw [hg] at hc; cases hc
      | some ks' =>
        rw [hg] at hc
        obtain ⟨kids', hK', hsub⟩ := h _ _ hg
        rw [hK] at hK'
        rw [Option.some.inj hK']
        exact hsub c n hc
  · exact h p ks hp

theorem placed_self {g : ParentGrouping} {x : ShortId × Node} : Placed (g.place i x) i x :=
  ⟨_, by rw [getElem?_place, if_pos rfl], Function.update_self ..⟩

/-- A later node takes the place of an earlier one only if it is equal. -/
theorem Placed.place {g : ParentGrouping} {j : ChildNr} {x y : ShortId × Node} (h : Placed g j y)
    (hxy : parentShortId i x.1 = parentShortId j y.1 → whichChildId x.1 = whichChildId y.1 →
      x.2 = y.2) : Placed (g.place i x) j y := by
  obtain ⟨ks, hg, hks⟩ := h
  by_cases hp : parentShortId i x.1 = parentShortId j y.1
  · refine ⟨_, by rw [getElem?_place, if_pos hp], ?_⟩
    rw [ExtTreeMap.getD_eq_getD_getElem?, hg, Option.getD_some]
    by_cases hc : whichChildId x.1 = whichChildId y.1
    · rw [hc, Function.update_self, hxy hp hc]
    · rw [Function.update_of_ne (Ne.symm hc), hks]
  · exact ⟨ks, by rw [getElem?_place, if_neg hp, hg], hks⟩

/-- A node of a child file. -/
def IsEntry (children : ChildNr → Option FileData) (i : ChildNr) (x : ShortId × Node) : Prop :=
  ∃ f, children i = some f ∧ f.nodeCache[x.1]? = some x.2

theorem Families.family (h : Families children K) {x : ShortId × Node} (hx : IsEntry children i x) :
    ∃ kids, K (parentShortId i x.1) = some kids ∧ kids (whichChildId x.1) = some x.2 := by
  obtain ⟨f, hf, hn⟩ := hx
  exact h.sound i f x.1 x.2 hf hn

theorem Families.eq_of_slot (h : Families children K) {j : ChildNr} {x y : ShortId × Node}
    (hx : IsEntry children i x) (hy : IsEntry children j y)
    (hp : parentShortId i x.1 = parentShortId j y.1)
    (hc : whichChildId x.1 = whichChildId y.1) : x.2 = y.2 := by
  obtain ⟨kx, hKx, hkx⟩ := h.family hx
  obtain ⟨ky, hKy, hky⟩ := h.family hy
  rw [hp, hKy] at hKx
  rw [← Option.some.inj hKx, hc, hky] at hkx
  exact (Option.some.inj hkx).symm

/-- The groups hold parts of the families, and all nodes of the files in `done`. -/
structure Grouped (children : ChildNr → Option FileData)
    (K : ShortId → Option (ChildNr → Option Node)) (done : ChildNr → ShortId × Node → Prop)
    (g : ParentGrouping) : Prop where
  within : Within g K
  entries : ∀ i x, done i x → IsEntry children i x
  placed : ∀ i x, done i x → Placed g i x

theorem Grouped.congr {done done' : ChildNr → ShortId × Node → Prop} {g : ParentGrouping}
    (h : Grouped children K done g) (hd : ∀ i x, done' i x ↔ done i x) :
    Grouped children K done' g :=
  ⟨h.within, fun i x hx => h.entries i x ((hd i x).1 hx),
    fun i x hx => h.placed i x ((hd i x).1 hx)⟩

theorem Grouped.place {done : ChildNr → ShortId × Node → Prop} {g : ParentGrouping}
    {x : ShortId × Node} (hK : Families children K) (h : Grouped children K done g)
    (hx : IsEntry children i x) :
    Grouped children K (fun j y => done j y ∨ (j = i ∧ y = x)) (g.place i x) where
  within := h.within.place (hK.family hx)
  entries := by
    rintro j y (hy | ⟨rfl, rfl⟩)
    · exact h.entries j y hy
    · exact hx
  placed := by
    rintro j y (hy | ⟨rfl, rfl⟩)
    · exact (h.placed j y hy).place fun hp hc => hK.eq_of_slot hx (h.entries j y hy) hp hc
    · exact placed_self

/-- The nodes of one file. -/
theorem Grouped.file {done : ChildNr → ShortId × Node → Prop} {g : ParentGrouping}
    (hK : Families children K) (l : List (ShortId × Node)) (h : Grouped children K done g)
    (hl : ∀ x ∈ l, IsEntry children i x) :
    Grouped children K (fun j y => done j y ∨ (j = i ∧ y ∈ l)) (l.foldl (ParentGrouping.place i) g) := by
  induction l generalizing done g with
  | nil => exact h.congr fun j y => by simp
  | cons x l ih =>
    have hrest := ih (h.place hK (hl x List.mem_cons_self))
      fun y hy => hl y (List.mem_cons_of_mem _ hy)
    exact hrest.congr fun j y => by simp only [List.mem_cons, and_or_left, or_assoc]

/-- The files one after the other. -/
theorem Grouped.files {done : ChildNr → ShortId × Node → Prop} {g : ParentGrouping}
    (hK : Families children K) (l : List ChildNr) (h : Grouped children K done g) :
    Grouped children K (fun j y => done j y ∨ (j ∈ l ∧ IsEntry children j y))
      (l.foldl (fun g i => match children i with
        | some f => f.nodeCache.toList.foldl (ParentGrouping.place i) g
        | none => g) g) := by
  induction l generalizing done g with
  | nil => exact h.congr fun j y => by simp
  | cons i l ih =>
    have hfile : Grouped children K (fun j y => done j y ∨ (j = i ∧ IsEntry children j y))
        (match children i with
          | some f => f.nodeCache.toList.foldl (ParentGrouping.place i) g
          | none => g) := by
      cases hi : children i with
      | none =>
        refine h.congr fun j y => or_iff_left_iff_imp.2 ?_
        rintro ⟨rfl, f, hf, -⟩
        rw [hi] at hf
        cases hf
      | some f =>
        have hmem : ∀ y, y ∈ f.nodeCache.toList ↔ IsEntry children i y := by
          intro y
          rw [ExtTreeMap.mem_toList_iff_getElem?_eq_some]
          exact ⟨fun hy => ⟨f, hi, hy⟩, fun ⟨f', hf', hy⟩ => by
            rw [hi] at hf'
            rw [Option.some.inj hf']
            exact hy⟩
        refine (h.file hK f.nodeCache.toList fun y hy => (hmem y).1 hy).congr fun j y => ?_
        constructor
        · rintro (hd | ⟨rfl, hy⟩)
          · exact .inl hd
          · exact .inr ⟨rfl, (hmem y).2 hy⟩
        · rintro (hd | ⟨rfl, hy⟩)
          · exact .inl hd
          · exact .inr ⟨rfl, (hmem y).1 hy⟩
    exact (ih hfile).congr fun j y => by simp only [List.mem_cons, or_and_right, or_assoc]

/-- The groups are the families. -/
theorem groupChildren_eq (hK : Families children K) (p : ShortId) :
    (groupChildren children)[p]? = K p := by
  have h : Grouped children K (fun j y => False ∨ (j ∈ List.finRange 8 ∧ IsEntry children j y))
      (groupChildren children) :=
    Grouped.files hK _ ⟨fun p ks hp => by simp at hp, fun _ _ h => h.elim, fun _ _ h => h.elim⟩
  have hplaced : ∀ i x, IsEntry children i x → Placed (groupChildren children) i x := fun i x hx =>
    h.placed i x (.inr ⟨List.mem_finRange i, hx⟩)
  cases hg : (groupChildren children)[p]? with
  | none =>
    cases hKp : K p with
    | none => rfl
    | some kids =>
      obtain ⟨c, n, hc⟩ := hK.nonempty p kids hKp
      obtain ⟨i, f, s, hf, hn, rfl, rfl⟩ := hK.complete p kids c n hKp hc
      obtain ⟨ks, hks, -⟩ := hplaced i (s, n) ⟨f, hf, hn⟩
      rw [hg] at hks
      cases hks
  | some ks =>
    obtain ⟨kids, hKp, hsub⟩ := h.within p ks hg
    rw [hKp]
    congr 1
    funext c
    cases hc : ks c with
    | some n => exact (hsub c n hc).symm
    | none =>
      cases hkc : kids c with
      | none => rfl
      | some n =>
        obtain ⟨i, f, s, hf, hn, rfl, rfl⟩ := hK.complete p kids c n hKp hkc
        obtain ⟨ks', hks', hc'⟩ := hplaced i (s, n) ⟨f, hf, hn⟩
        rw [hg] at hks'
        rw [← Option.some.inj hks', hc] at hc'
        cases hc'

/-! ### The new file -/

theorem condense_eq (l : List (ShortId × (ChildNr → Option Node))) (cache : NodeMap)
    {r : ShortId → Node} (hl : l.Pairwise fun a b => a.1 ≠ b.1) (hc : ∀ x ∈ l, cache[x.1]? = none)
    (hr : ∀ x ∈ l, Node.copyFromChildNodes x.2 = .ok (r x.1)) :
    ∃ m, condense l cache = .ok m ∧ ∀ p : ShortId,
      m[p]? = if (∃ x ∈ l, x.1 = p) then some (r p) else cache[p]? := by
  induction l generalizing cache with
  | nil => exact ⟨cache, rfl, fun p => by simp⟩
  | cons x l ih =>
    obtain ⟨hx, hl⟩ := List.pairwise_cons.1 hl
    have hcache : ∀ p : ShortId, (cache.insertIfNew x.1 (r x.1))[p]? =
        if x.1 = p then some (r p) else cache[p]? := by
      intro p
      have hnew : ¬ x.1 ∈ cache := by
        rw [← ExtTreeMap.isSome_getElem?_iff_mem, hc x List.mem_cons_self]
        exact Bool.false_ne_true
      rw [ExtTreeMap.getElem?_insertIfNew]
      by_cases h : x.1 = p
      · subst h
        simp [hnew]
      · simp [h]
    obtain ⟨m, hm, hget⟩ := ih (cache.insertIfNew x.1 (r x.1)) hl (fun y hy => by
      rw [hcache, if_neg (hx y hy), hc y (List.mem_cons_of_mem _ hy)])
      fun y hy => hr y (List.mem_cons_of_mem _ hy)
    refine ⟨m, ?_, fun p => ?_⟩
    · rw [← hm]
      change (Node.copyFromChildNodes x.2 >>= _) = _
      rw [hr x List.mem_cons_self]
      rfl
    · rw [hget, hcache]
      by_cases hp : ∃ y ∈ l, y.1 = p
      · have hp' : ∃ y ∈ x :: l, y.1 = p := by
          obtain ⟨y, hy, he⟩ := hp
          exact ⟨y, List.mem_cons_of_mem _ hy, he⟩
        rw [if_pos hp, if_pos hp']
      · rw [if_neg hp]
        by_cases hxp : x.1 = p
        · rw [if_pos hxp, if_pos ⟨x, List.mem_cons_self, hxp⟩]
        · have hp' : ¬ ∃ y ∈ x :: l, y.1 = p := by
            rintro ⟨y, hy, he⟩
            rcases List.mem_cons.1 hy with rfl | hy
            · exact hxp he
            · exact hp ⟨y, hy, he⟩
          rw [if_neg hxp, if_neg hp']

/-- A file comes back if its bits say which child files exist and the families of its nodes, and
no others, are in these. -/
theorem initializeFromChildren_eq (hbits : ∀ i, f.hasChildFile i = (children i).isSome)
    (hK : Families children K) (hsome : ∀ p : ShortId, (K p).isSome = f.nodeCache[p]?.isSome)
    (hcopy : ∀ p n kids, f.nodeCache[p]? = some n → K p = some kids →
      Node.copyFromChildNodes kids = .ok n) :
    FileData.initializeFromChildren children = .ok f := by
  set g := groupChildren children with hg
  have hmem : ∀ x, x ∈ g.toList ↔ K x.1 = some x.2 := by
    rintro ⟨p, kids⟩
    rw [ExtTreeMap.mem_toList_iff_getElem?_eq_some, hg, groupChildren_eq hK]
  obtain ⟨m, hm, hget⟩ := condense_eq g.toList ∅ (r := fun p => (f.nodeCache[p]?).getD .new)
    (ExtTreeMap.ordered_keys_toList.imp fun h => UInt32.ne_of_lt (Std.compare_eq_lt.1 h))
    (fun _ _ => by simp) fun x hx => by
      have hx := (hmem x).1 hx
      obtain ⟨n, hn⟩ := Option.isSome_iff_exists.1
        ((hsome x.1).symm.trans (by rw [hx]; rfl))
      rw [hn, Option.getD_some]
      exact hcopy _ _ _ hn hx
  have hcache : m = f.nodeCache := by
    refine ExtTreeMap.ext_getElem? fun p => ?_
    rw [hget]
    cases hf : f.nodeCache[p]? with
    | some n =>
      obtain ⟨kids, hkids⟩ := Option.isSome_iff_exists.1 ((hsome p).trans (by rw [hf]; rfl))
      rw [if_pos ⟨(p, kids), (hmem _).2 hkids, rfl⟩]
      rfl
    | none =>
      rw [if_neg]
      · simp
      · rintro ⟨x, hx, rfl⟩
        have := hsome x.1
        rw [(hmem x).1 hx, hf] at this
        cases this
  unfold FileData.initializeFromChildren
  rw [← hg, hm, hcache]
  have hmask : childFileMask children = f.childFiles :=
    childFiles_ext (a := ⟨childFileMask children, ∅⟩) (b := f) fun j => by
      rw [hasChildFile_childFileMask, hbits]
  rw [hmask]
  rfl

end MegaTree
