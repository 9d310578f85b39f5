import MegaTree.Viz.Cell
import Mathlib.Data.List.Nodup

/-!
# Cell objects of the viewer

The cells that the viewer shares between its queries: their ids, the fields that a frustum query
sets, the tests of a query, and the cache that keeps them.

* `text_injective` : different cells have different ids.
* `lookup_touch`, `mem_of_mem_put` : the cache keeps what it has, and gets only what is put into it.
* `testBit_hide` : the bits of `show_children`.
-/

namespace MegaTree.Web

/-! ### Ids -/

/-- `cell.id`: the root of a tree, `name + "/f1"`, and one digit for every level below it. -/
structure CellId where
  tree : List Char
  path : Path
deriving DecidableEq

namespace CellId

/-- `tree_info.root` of the tree with this name. -/
def root (name : List Char) : CellId := ⟨name, []⟩

/-- `cell.id + child` -/
def child (id : CellId) (child : ChildNr) : CellId := ⟨id.tree, child :: id.path⟩

/-- The digit of a child. -/
def digit (child : ChildNr) : Char := Char.ofNat (48 + child)

/-- The id as a string. -/
def text (id : CellId) : List Char := id.tree ++ "/f1".toList ++ id.path.reverse.map digit

/-- `which_child`: the last digit of the id. -/
def whichChild (id : CellId) : ChildNr := id.path.headD 1

@[simp] theorem whichChild_child (id : CellId) (c : ChildNr) : (id.child c).whichChild = c := rfl

theorem child_injective {id id' : CellId} {c c' : ChildNr} (h : id.child c = id'.child c') :
    id = id' ∧ c = c' := by
  simp only [child, mk.injEq, List.cons.injEq] at h
  exact ⟨congrArg₂ mk h.1 h.2.2, h.2.1⟩

theorem child_ne (id : CellId) (c : ChildNr) : id.child c ≠ id := fun h =>
  absurd (congrArg (fun x => x.path.length) h) (by simp [child])

theorem child_ne_root (id : CellId) (c : ChildNr) (name : List Char) : id.child c ≠ root name :=
  fun h => absurd (congrArg path h) (by simp [child, root])

theorem text_child (id : CellId) (c : ChildNr) : (id.child c).text = id.text ++ [digit c] := by
  simp [text, child]

theorem digit_injective : Function.Injective digit := by decide

/-- Only the text of a root has an `f` in the second place from the end. -/
theorem text_root_ne (name name' : List Char) (c : ChildNr) (π : Path) :
    (root name).text ≠ (child ⟨name', π⟩ c).text := by
  intro h
  have hdigit : ∀ d : ChildNr, digit d ≠ 'f' := by decide
  rw [text_child, text, ← List.reverse_inj] at h
  cases π with
  | nil => simp [root, text] at h
  | cons d π =>
    change _ = ((child ⟨name', π⟩ d).text ++ [digit c]).reverse at h
    rw [text_child] at h
    simp only [root, List.reverse_append, List.reverse_singleton, List.singleton_append] at h
    exact hdigit d (List.cons.inj (List.cons.inj h).2).1.symm

theorem eq_of_text_eq {name name' : List Char} {π π' : Path}
    (h : text ⟨name, π⟩ = text ⟨name', π'⟩) :
    name = name' ∧ π = π' := by
  induction π generalizing π' with
  | nil =>
    cases π' with
    | nil => exact ⟨by simpa [text] using h, rfl⟩
    | cons c π' => exact absurd h (text_root_ne name name' c π')
  | cons c π ih =>
    cases π' with
    | nil => exact absurd h.symm (text_root_ne name' name c π)
    | cons d π' =>
      change (child ⟨name, π⟩ c).text = (child ⟨name', π'⟩ d).text at h
      rw [text_child, text_child] at h
      obtain ⟨htext, hdigit⟩ := List.append_inj' h rfl
      obtain ⟨hname, hπ⟩ := ih htext
      exact ⟨hname, by rw [hπ, digit_injective (List.cons.inj hdigit).1]⟩

/-- Different cells have different ids. -/
theorem text_injective : Function.Injective text := by
  rintro ⟨name, π⟩ ⟨name', π'⟩ h
  obtain ⟨rfl, rfl⟩ := eq_of_text_eq h
  rfl

end CellId

/-! ### Cells -/

/-- The object that a variable refers to. -/
abbrev Ref := ℕ

/-- `Cell`, with the fields that a frustum query uses. -/
structure CellObject extends Cell where
  id : CellId
  overrideColor : Vec
  parentCell : Option Ref
  insideFrustum : ℤ

/-- `ROOT3`: the `double` next to the square root of three. -/
def root3 : ℚ := 7800463371553962 / 2 ^ 52

namespace CellObject

/-- `new Cell(id, geometry, buffer)` -/
def new (id : CellId) (geometry : NodeGeometry) (buffer : ByteVec) : CellObject where
  toCell := .new geometry buffer
  id := id
  overrideColor := ![-1, 0, 0]
  parentCell := none
  insideFrustum := -1

variable (cell : CellObject)

/-- `hasChild(child)` -/
def hasChild (child : ChildNr) : Bool := decide (0 < (1 <<< child.val) &&& cell.children.toNat)

/-- `isLeaf()` -/
def isLeaf : Bool := cell.children == 0

/-- `node_size` -/
def nodeSize : ℚ := cell.scale / 2 ^ 6

/-- `radius` -/
def radius : ℚ := cell.scale / 2 * root3

/-- `getCenter()` -/
def getCenter : Vec := fun i => cell.offset i + cell.scale / 2

/-- `show_children = getChildren()` -/
def showAll : CellObject := { cell with showChildren := cell.children.toNat }

/-- `show_children &= ~(1 << child)` -/
def hide (child : ChildNr) : CellObject :=
  { cell with showChildren := Nat.ldiff cell.showChildren (1 <<< child.val) }

/-- The bit of a child in `show_children`. -/
def shows (child : ChildNr) : Bool := cell.showChildren.testBit child

variable {cell}

theorem testBit_one_shiftLeft (c d : ChildNr) :
    (1 <<< c.val : ℕ).testBit d = decide (c = d) := by
  rw [Nat.one_shiftLeft, Nat.testBit_two_pow, decide_eq_decide, Fin.ext_iff]

@[simp] theorem shows_hide (c d : ChildNr) : (cell.hide c).shows d = (cell.shows d && !decide (c = d)) := by
  rw [shows, hide, Nat.testBit_ldiff, testBit_one_shiftLeft, shows]

theorem hasChild_eq_testBit (c : ChildNr) : cell.hasChild c = cell.children.toNat.testBit c := by
  have hbit := Nat.testBit_and (1 <<< c.val) cell.children.toNat c
  rw [testBit_one_shiftLeft, decide_eq_true rfl, Bool.true_and] at hbit
  rw [hasChild, ← hbit]
  cases h : ((1 <<< c.val) &&& cell.children.toNat).testBit c with
  | true =>
    refine decide_eq_true (Nat.pos_of_ne_zero fun h0 => ?_)
    rw [h0, Nat.zero_testBit] at h
    cases h
  | false =>
    refine decide_eq_false (Nat.not_lt.mpr (Nat.le_zero.mpr (Nat.eq_of_testBit_eq fun i => ?_)))
    rw [Nat.zero_testBit]
    by_cases hi : c.val = i
    · rwa [← hi]
    · rw [Nat.testBit_and, Nat.one_shiftLeft, Nat.testBit_two_pow, decide_eq_false hi,
        Bool.false_and]

@[simp] theorem shows_showAll (c : ChildNr) : cell.showAll.shows c = cell.hasChild c :=
  (hasChild_eq_testBit c).symm

end CellObject

/-! ### The tests of a query -/

/-- The indices of a matrix. -/
scoped instance instNeZeroMatrix : NeZero 16 := ⟨by decide⟩

/-- `V3.mul4x4(m, v)` -/
def mul4x4 (m : Fin 16 → ℚ) (v : Vec) : Vec :=
  let w := v 0 * m 3 + v 1 * m 7 + v 2 * m 11 + m 15
  ![(v 0 * m 0 + v 1 * m 4 + v 2 * m 8 + m 12) / w, (v 0 * m 1 + v 1 * m 5 + v 2 * m 9 + m 13) / w,
    (v 0 * m 2 + v 1 * m 6 + v 2 * m 10 + m 14) / w]

/-- `V3.lengthSquared(a)` -/
def lengthSquared (a : Vec) : ℚ := a 0 * a 0 + a 1 * a 1 + a 2 * a 2

/-- `isInsideFrustum(frustum_planes, cell_radius, pnt)`, with `min_n` from the planes before. -/
def insideLoop (frustumPlanes : ℕ → ℚ) (cellRadius : ℚ) (pnt : Vec) : List ℕ → ℚ → ℤ
  | [], minN => if minN > cellRadius then 1 else 0
  | i :: is, minN =>
    let n := frustumPlanes i * pnt 0 + frustumPlanes (i + 1) * pnt 1 +
      frustumPlanes (i + 2) * pnt 2 + frustumPlanes (i + 3)
    if n < -cellRadius then -1 else insideLoop frustumPlanes cellRadius pnt is (min minN n)

/-- `isInsideFrustum(frustum_planes, cell_radius, pnt)` -/
def isInsideFrustum (frustumPlanes : ℕ → ℚ) (cellRadius : ℚ) (pnt : Vec) : ℤ :=
  insideLoop frustumPlanes cellRadius pnt [0, 4, 8, 12, 16, 20] (2 * cellRadius)

/-- The camera and the resolution of a query. -/
structure View where
  cameraMatrix : Fin 16 → ℚ
  frustumPlanes : ℕ → ℚ
  correctedGM : ℚ

namespace View

variable (view : View) (cell : CellObject)

/-- A cell is small enough for its distance. -/
def smallEnough : Bool :=
  decide (cell.nodeSize * cell.nodeSize ≤
    view.correctedGM * view.correctedGM * lengthSquared (mul4x4 view.cameraMatrix cell.getCenter))

/-- `child_in_frustum` of a child. -/
def testChild (child : ChildNr) : ℤ :=
  if cell.insideFrustum < 1 then
    isInsideFrustum view.frustumPlanes (cell.radius / 2)
      (mul4x4 view.cameraMatrix (cell.geometry.getChild child).getCenter)
  else cell.insideFrustum

/-- The child is inside the frustum, so it is loaded. -/
def wants (child : ChildNr) : Bool :=
  decide (cell.insideFrustum > 0 ∨ view.testChild cell child > -1)

/-- The children of a cell are looked at. -/
def Expands : Prop := cell.isLeaf = false ∧ view.smallEnough cell = false

/-- A child is culled as outside the frustum. -/
def Culls (child : ChildNr) : Prop :=
  view.Expands cell ∧ cell.hasChild child = true ∧ view.wants cell child = false

end View

/-- Two cell objects that a query treats alike. -/
structure Alike (cell cell' : CellObject) : Prop where
  id : cell.id = cell'.id
  geometry : cell.geometry = cell'.geometry
  children : cell.children = cell'.children
  insideFrustum : cell.insideFrustum = cell'.insideFrustum

namespace Alike

variable {cell cell' : CellObject} {view : View}

theorem refl (cell : CellObject) : Alike cell cell := ⟨rfl, rfl, rfl, rfl⟩

theorem trans {cell'' : CellObject} (h : Alike cell cell') (h' : Alike cell' cell'') :
    Alike cell cell'' :=
  ⟨h.id.trans h'.id, h.geometry.trans h'.geometry, h.children.trans h'.children,
    h.insideFrustum.trans h'.insideFrustum⟩

/-- A change of one object that a query does not see. -/
theorem update {cells : Ref → CellObject} {r : Ref} (h : Alike cell (cells r)) (r' : Ref) :
    Alike (Function.update cells r cell r') (cells r') := by
  rw [Function.update_apply]
  split_ifs with heq
  · rw [heq]
    exact h
  · exact .refl _

theorem showAll (cell : CellObject) : Alike cell.showAll cell := ⟨rfl, rfl, rfl, rfl⟩

theorem hide (cell : CellObject) (c : ChildNr) : Alike (cell.hide c) cell := ⟨rfl, rfl, rfl, rfl⟩

theorem hasChild (h : Alike cell cell') (c : ChildNr) : cell.hasChild c = cell'.hasChild c := by
  rw [CellObject.hasChild, h.children, CellObject.hasChild]

theorem isLeaf (h : Alike cell cell') : cell.isLeaf = cell'.isLeaf := by
  rw [CellObject.isLeaf, h.children, CellObject.isLeaf]

theorem smallEnough (h : Alike cell cell') : view.smallEnough cell = view.smallEnough cell' := by
  have hcenter : cell.getCenter = cell'.getCenter := by
    funext i
    simp only [CellObject.getCenter, Cell.offset, Cell.scale, h.geometry]
  have hsize : cell.nodeSize = cell'.nodeSize := by
    simp only [CellObject.nodeSize, Cell.scale, h.geometry]
  rw [View.smallEnough, View.smallEnough, hsize, hcenter]

theorem testChild (h : Alike cell cell') (c : ChildNr) :
    view.testChild cell c = view.testChild cell' c := by
  simp only [View.testChild, CellObject.radius, Cell.scale, h.geometry, h.insideFrustum]

theorem wants (h : Alike cell cell') (c : ChildNr) : view.wants cell c = view.wants cell' c := by
  rw [View.wants, View.wants, h.testChild, h.insideFrustum]

theorem expands (h : Alike cell cell') : view.Expands cell ↔ view.Expands cell' := by
  rw [View.Expands, View.Expands, h.isLeaf, h.smallEnough]

theorem culls (h : Alike cell cell') (c : ChildNr) : view.Culls cell c ↔ view.Culls cell' c := by
  rw [View.Culls, View.Culls, h.expands, h.hasChild, h.wants]

end Alike

/-! ### The cache -/

section LRUCache

variable {K V : Type} [DecidableEq K]

/-- The entry that `get(id)` finds is used last. -/
def touch (cache : List (K × V)) (id : K) : List (K × V) :=
  match cache.lookup id with
  | some item => (id, item) :: cache.filter (·.1 ≠ id)
  | none => cache

/-- `put(id, item)`: what was not used for the longest time makes room for it. -/
def put (maxSize : ℕ) (cache : List (K × V)) (id : K) (item : V) : List (K × V) :=
  match cache.lookup id with
  | some _ => (id, item) :: cache.filter (·.1 ≠ id)
  | none => ((id, item) :: cache).take maxSize

variable {cache : List (K × V)} {id : K} {x : K × V}

theorem mem_of_lookup {item : V} (h : cache.lookup id = some item) : (id, item) ∈ cache := by
  induction cache with
  | nil => cases h
  | cons y cache ih =>
    rw [List.lookup_cons] at h
    split at h
    · next heq =>
      obtain rfl := Option.some.inj h
      obtain rfl := beq_iff_eq.mp heq
      exact List.mem_cons_self
    · exact List.mem_cons_of_mem _ (ih h)

theorem mem_of_mem_touch (h : x ∈ touch cache id) : x ∈ cache := by
  unfold touch at h
  split at h
  · next hlook =>
    rcases List.mem_cons.mp h with rfl | h
    · exact mem_of_lookup hlook
    · exact List.mem_of_mem_filter h
  · exact h

theorem mem_of_mem_put {maxSize : ℕ} {item : V} (h : x ∈ put maxSize cache id item) :
    x = (id, item) ∨ x ∈ cache := by
  unfold put at h
  split at h
  · rcases List.mem_cons.mp h with rfl | h
    · exact .inl rfl
    · exact .inr (List.mem_of_mem_filter h)
  · exact List.mem_cons.mp (List.mem_of_mem_take h)

theorem lookup_filter_ne {id' : K} (h : id' ≠ id) :
    (cache.filter (·.1 ≠ id)).lookup id' = cache.lookup id' := by
  induction cache with
  | nil => rfl
  | cons y cache ih =>
    by_cases hy : y.1 = id
    · rw [List.filter_cons_of_neg (by simpa using hy), ih, List.lookup_cons, hy, beq_false_of_ne h]
    · rw [List.filter_cons_of_pos (by simpa using hy), List.lookup_cons, List.lookup_cons, ih]

/-- `get` moves an entry, and finds every entry again. -/
theorem lookup_touch (id' : K) : (touch cache id).lookup id' = cache.lookup id' := by
  unfold touch
  split
  · next item hlook =>
    rw [List.lookup_cons]
    split
    · next heq => rw [beq_iff_eq.mp heq, hlook]
    · next heq => exact lookup_filter_ne (ne_of_beq_false heq)
  · rfl

end LRUCache

end MegaTree.Web
