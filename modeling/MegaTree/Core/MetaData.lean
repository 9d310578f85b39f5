import MegaTree.Core.Node
import MegaTree.Text.ConfigFile
import MegaTree.Text.Decimal

/-!
# The metadata of a tree

`MetaData`, the text that `serialize` makes of it and the options that `deserialize` reads, and the
parameters of a `MegaTree` that are kept in the file `metadata.ini`: made by a constructor, changed
by `recenter`, written by `writeMetaData` and loaded by the constructor of an existing tree.

* `deserialize_serialize` : what is read back of the metadata, six digits of every number.
* `loadedFrom_iff` : when a tree is the same after it is loaded again.
-/

namespace MegaTree

open Decimal ConfigFile

/-- `MetaData` -/
structure MetaData where
  version : UInt32
  subtreeWidth : UInt32
  subfolderDepth : UInt32
  minCellSize : ℚ
  rootSize : ℚ
  rootCenter : Vec

namespace MetaData

/-- `value<unsigned>` and `value<double>` -/
inductive ValueType
  | unsigned
  | double
  deriving DecidableEq

/-- `descr`: the options that the file may have. -/
def descr : List (List Char × ValueType) :=
  [("version".toList, .unsigned), ("min_cell_size".toList, .double),
    ("subtree_width".toList, .unsigned), ("subfolder_depth".toList, .unsigned),
    ("tree_center_x".toList, .double), ("tree_center_y".toList, .double),
    ("tree_center_z".toList, .double), ("tree_size".toList, .double),
    ("default_camera_center_x".toList, .double), ("default_camera_center_y".toList, .double),
    ("default_camera_center_z".toList, .double), ("default_camera_distance".toList, .double),
    ("default_camera_pitch".toList, .double), ("default_camera_yaw".toList, .double)]

/-- The value of an `unsigned` option. -/
def readUnsigned (text : List Char) : Option UInt32 :=
  (readNat text).bind fun n => if n < 2 ^ 32 then some (.ofNat n) else none

/-- The text of an option is a value of its type. -/
def ValueType.accepts (text : List Char) : ValueType → Bool
  | unsigned => (readUnsigned text).isSome
  | double => (readDouble text).isSome

/-- `store(parse_config_file(..))` does not throw: every option is in `descr`, with a value of its
type, and is there once. -/
def store (options : List (List Char × List Char)) : Bool :=
  (options.all fun (name, value) => (descr.lookup name).any (·.accepts value)) &&
    decide (options.map Prod.fst).Nodup

/-- `deserialize(data)`, and `none` where it throws or an assertion fails. -/
def deserialize (data : List Char) : Option MetaData := do
  let vm ← parseConfig data
  guard (store vm)
  let version ← vm.lookup "version".toList
  let minCellSize ← vm.lookup "min_cell_size".toList
  let subtreeWidth ← vm.lookup "subtree_width".toList
  let subfolderDepth ← vm.lookup "subfolder_depth".toList
  let x ← vm.lookup "tree_center_x".toList
  let y ← vm.lookup "tree_center_y".toList
  let z ← vm.lookup "tree_center_z".toList
  let treeSize ← vm.lookup "tree_size".toList
  some
    { version := ← readUnsigned version
      minCellSize := ← readDouble minCellSize
      rootSize := ← readDouble treeSize
      rootCenter := ![← readDouble x, ← readDouble y, ← readDouble z]
      subtreeWidth := ← readUnsigned subtreeWidth
      subfolderDepth := ← readUnsigned subfolderDepth }

/-- The options that `serialize` writes. -/
def options (m : MetaData) : List (List Char × List Char) :=
  [("version".toList, showNat m.version.toNat), ("min_cell_size".toList, showDouble m.minCellSize),
    ("subtree_width".toList, showNat m.subtreeWidth.toNat),
    ("subfolder_depth".toList, showNat m.subfolderDepth.toNat),
    ("tree_center_x".toList, showDouble (m.rootCenter 0)),
    ("tree_center_y".toList, showDouble (m.rootCenter 1)),
    ("tree_center_z".toList, showDouble (m.rootCenter 2)),
    ("tree_size".toList, showDouble m.rootSize)]

/-- `serialize(data)` -/
def serialize (m : MetaData) : List Char := showConfig m.options

theorem readUnsigned_showNat (n : UInt32) : readUnsigned (showNat n.toNat) = some n := by
  rw [readUnsigned, readNat_showNat, Option.bind_some, if_pos n.toNat_lt, UInt32.ofNat_toNat]

/-- No character of a number means anything else on the line of an option. -/
theorem plain_of_numeral {text : List Char} (h : Numeral text) : Plain text := by
  refine ⟨h.1, fun c hc => ?_⟩
  have hnum := h.2 c hc
  refine ⟨Bool.eq_false_iff.mpr fun hblank => ?_, ?_, ?_⟩
  · simp only [isBlank, Bool.or_eq_true, beq_iff_eq] at hblank
    rcases hblank with ((rfl | rfl) | rfl) | rfl <;> exact absurd hnum (by decide)
  · rintro rfl
    exact absurd hnum (by decide)
  · rintro rfl
    exact absurd hnum (by decide)

theorem plain_options (m : MetaData) : ∀ x ∈ m.options, Plain x.1 ∧ Plain x.2 := by
  simp only [options, List.forall_mem_cons, List.not_mem_nil, false_implies, implies_true, and_true]
  have hnat := fun n => plain_of_numeral (numeral_showNat n)
  have hdouble := fun q => plain_of_numeral (numeral_showDouble q)
  exact ⟨⟨by decide, hnat _⟩, ⟨by decide, hdouble _⟩, ⟨by decide, hnat _⟩, ⟨by decide, hnat _⟩,
    ⟨by decide, hdouble _⟩, ⟨by decide, hdouble _⟩, ⟨by decide, hdouble _⟩,
    ⟨by decide, hdouble _⟩⟩

theorem store_options (m : MetaData) : store m.options = true := by
  have hnodup : (m.options.map Prod.fst).Nodup := by
    simp only [options, List.map_cons, List.map_nil]
    decide
  have haccepts : m.options.all
      (fun (name, value) => (descr.lookup name).any (·.accepts value)) = true := by
    have hnat : ∀ n : UInt32, ValueType.unsigned.accepts (showNat n.toNat) = true := fun n => by
      rw [ValueType.accepts, readUnsigned_showNat, Option.isSome_some]
    have hdouble : ∀ q, ValueType.double.accepts (showDouble q) = true := fun q => by
      rw [ValueType.accepts, readDouble_showDouble, Option.isSome_some]
    simp only [options, List.all_cons, List.all_nil, Bool.and_true, Bool.and_eq_true]
    exact ⟨hnat _, hdouble _, hnat _, hnat _, hdouble _, hdouble _, hdouble _, hdouble _⟩
  rw [store, haccepts, decide_eq_true hnodup, Bool.and_self]

theorem lookup_options (m : MetaData) :
    m.options.lookup "version".toList = some (showNat m.version.toNat) ∧
      m.options.lookup "min_cell_size".toList = some (showDouble m.minCellSize) ∧
      m.options.lookup "subtree_width".toList = some (showNat m.subtreeWidth.toNat) ∧
      m.options.lookup "subfolder_depth".toList = some (showNat m.subfolderDepth.toNat) ∧
      m.options.lookup "tree_center_x".toList = some (showDouble (m.rootCenter 0)) ∧
      m.options.lookup "tree_center_y".toList = some (showDouble (m.rootCenter 1)) ∧
      m.options.lookup "tree_center_z".toList = some (showDouble (m.rootCenter 2)) ∧
      m.options.lookup "tree_size".toList = some (showDouble m.rootSize) :=
  ⟨rfl, rfl, rfl, rfl, rfl, rfl, rfl, rfl⟩

/-- What is read back of the metadata. -/
theorem deserialize_serialize (m : MetaData) :
    deserialize m.serialize = some
      { m with
        minCellSize := sixDigitValue m.minCellSize
        rootSize := sixDigitValue m.rootSize
        rootCenter := fun i => sixDigitValue (m.rootCenter i) } := by
  have hcenter : (fun i => sixDigitValue (m.rootCenter i)) =
      ![sixDigitValue (m.rootCenter 0), sixDigitValue (m.rootCenter 1),
        sixDigitValue (m.rootCenter 2)] := by
    funext i
    fin_cases i <;> rfl
  obtain ⟨hversion, hcell, hwidth, hdepth, hx, hy, hz, hsize⟩ := m.lookup_options
  rw [deserialize, serialize, parseConfig_showConfig m.plain_options, hcenter]
  change (guard (store m.options) : Option Unit).bind _ = _
  rw [store_options, hversion, hcell, hwidth, hdepth, hx, hy, hz, hsize]
  change (readUnsigned (showNat m.version.toNat)).bind _ = _
  rw [readUnsigned_showNat]
  simp only [readDouble_showDouble, readUnsigned_showNat]
  rfl

end MetaData

/-- `version` -/
def version : UInt32 := 11

/-- The tree properties of a `MegaTree`. -/
structure TreeProperties where
  minCellSize : ℚ
  rootGeometry : NodeGeometry
  subtreeWidth : UInt32
  subfolderDepth : UInt32
  readOnly : Bool

namespace TreeProperties

/-- `initTree(..)` -/
def initTree (cellCenter : Vec) (cellSize : ℚ) (subtreeWidth subfolderDepth : UInt32)
    (minCellSize : ℚ) (readOnly : Bool) : TreeProperties where
  minCellSize := minCellSize
  rootGeometry := .ofCenter cellCenter cellSize
  subtreeWidth := subtreeWidth
  subfolderDepth := subfolderDepth
  readOnly := readOnly

/-- `writeMetaData()`: what it puts into `metadata.ini`, and `none` where it aborts. -/
def writeMetaData (t : TreeProperties) : Option (List Char) :=
  if t.readOnly then none
  else
    some <| MetaData.serialize
      { version := version
        subtreeWidth := t.subtreeWidth
        subfolderDepth := t.subfolderDepth
        minCellSize := t.minCellSize
        rootSize := t.rootGeometry.getSize
        rootCenter := fun i => (t.rootGeometry.hi i + t.rootGeometry.lo i) / 2 }

/-- `MegaTree(storage, cell_center, cell_size, ..)`: a new tree, and its `metadata.ini`. -/
def create (cellCenter : Vec) (cellSize : ℚ) (subtreeWidth subfolderDepth : UInt32)
    (minCellSize : ℚ) : Option (TreeProperties × List Char) :=
  let t := initTree cellCenter cellSize subtreeWidth subfolderDepth minCellSize false
  t.writeMetaData.map fun data => (t, data)

/-- `MegaTree(storage, cache_size, read_only)`: the tree with this `metadata.ini`. -/
def load (data : List Char) (readOnly : Bool) : Option TreeProperties := do
  let metadata ← MetaData.deserialize data
  guard (metadata.version = version)
  some (initTree metadata.rootCenter metadata.rootSize metadata.subtreeWidth metadata.subfolderDepth
    metadata.minCellSize readOnly)

/-- `recenter(x, y, z)` of a tree with so many points: the tree, and its `metadata.ini`. -/
def recenter (t : TreeProperties) (numPoints : ℕ) (newCenter : Vec) :
    Option (TreeProperties × List Char) := do
  guard (numPoints = 0)
  let t := { t with rootGeometry := .ofCenter newCenter t.rootGeometry.getSize }
  let data ← t.writeMetaData
  some (t, data)

/-- The tree properties, and the `metadata.ini` in the storage, after any of the constructors and
`recenter`. -/
inductive Stored : TreeProperties → List Char → Prop
  | create (cellCenter : Vec) (cellSize : ℚ) (subtreeWidth subfolderDepth : UInt32)
      (minCellSize : ℚ) {t : TreeProperties} {data : List Char} :
      create cellCenter cellSize subtreeWidth subfolderDepth minCellSize = some (t, data) →
      Stored t data
  | load {t t' : TreeProperties} {data : List Char} (readOnly : Bool) :
      Stored t data → load data readOnly = some t' → Stored t' data
  | recenter {t t' : TreeProperties} {data data' : List Char} (numPoints : ℕ) (newCenter : Vec) :
      Stored t data → t.recenter numPoints newCenter = some (t', data') → Stored t' data'

/-- A tree that is loaded from a `metadata.ini` has the properties of this one, and its nodes have
their points where they were. -/
def LoadedFrom (t : TreeProperties) (data : List Char) : Prop :=
  ∀ readOnly, ∃ t', load data readOnly = some t' ∧
    t'.rootGeometry.lo = t.rootGeometry.lo ∧ t'.rootGeometry.hi = t.rootGeometry.hi ∧
    t'.rootGeometry.getSize = t.rootGeometry.getSize ∧ t'.minCellSize = t.minCellSize ∧
    t'.subtreeWidth = t.subtreeWidth ∧ t'.subfolderDepth = t.subfolderDepth ∧
    ∀ π ptFixed, fixedToFloat (geomOf t'.rootGeometry π) ptFixed =
      fixedToFloat (geomOf t.rootGeometry π) ptFixed

/-- The numbers in the metadata of a tree have six digits. -/
def SixDigits (t : TreeProperties) : Prop :=
  (∀ i, HasSixDigits (t.rootGeometry.getCenter i)) ∧ HasSixDigits t.rootGeometry.getSize ∧
    HasSixDigits t.minCellSize

/-- The tree with six digits of its numbers. -/
def rounded (t : TreeProperties) (readOnly : Bool) : TreeProperties :=
  initTree (fun i => sixDigitValue (t.rootGeometry.getCenter i))
    (sixDigitValue t.rootGeometry.getSize) t.subtreeWidth t.subfolderDepth
    (sixDigitValue t.minCellSize) readOnly

theorem load_writeMetaData {t : TreeProperties} {data : List Char}
    (h : t.writeMetaData = some data) (readOnly : Bool) :
    load data readOnly = some (t.rounded readOnly) := by
  rw [writeMetaData] at h
  split_ifs at h
  rw [← Option.some.inj h, load, MetaData.deserialize_serialize]
  simp only [Option.bind_eq_bind, Option.bind_some, guard_true, Option.pure_def, rounded,
    NodeGeometry.getCenter, add_comm]

theorem getCenter_ofCenter (c : Vec) (s : ℚ) : (NodeGeometry.ofCenter c s).getCenter = c := by
  funext i
  simp only [NodeGeometry.getCenter, NodeGeometry.ofCenter]
  ring

theorem getSize_ofCenter (c : Vec) (s : ℚ) : (NodeGeometry.ofCenter c s).getSize = s := by
  simp only [NodeGeometry.getSize, NodeGeometry.ofCenter]
  ring

theorem rounded_initTree (c : Vec) (s : ℚ) (w d : UInt32) (m : ℚ) (readOnly readOnly' : Bool) :
    (initTree c s w d m readOnly).rounded readOnly' =
      initTree (fun i => sixDigitValue (c i)) (sixDigitValue s) w d (sixDigitValue m) readOnly' := by
  simp only [rounded, initTree, getCenter_ofCenter, getSize_ofCenter]

/-- The numbers of a loaded tree have six digits already. -/
theorem rounded_rounded (t : TreeProperties) (readOnly readOnly' : Bool) :
    (t.rounded readOnly).rounded readOnly' = t.rounded readOnly' := by
  have h := rounded_initTree (fun i => sixDigitValue (t.rootGeometry.getCenter i))
    (sixDigitValue t.rootGeometry.getSize) t.subtreeWidth t.subfolderDepth
    (sixDigitValue t.minCellSize) readOnly readOnly'
  simp only [sixDigitValue_sixDigitValue] at h
  exact h

/-- The root cell is a cube around its center, and the `metadata.ini` is the one of the tree. -/
theorem Stored.load_eq {t : TreeProperties} {data : List Char} (h : Stored t data) :
    t.rootGeometry = .ofCenter t.rootGeometry.getCenter t.rootGeometry.getSize ∧
      ∀ readOnly, TreeProperties.load data readOnly = some (t.rounded readOnly) := by
  have cube : ∀ c s, NodeGeometry.ofCenter c s = .ofCenter (NodeGeometry.ofCenter c s).getCenter
      (NodeGeometry.ofCenter c s).getSize := fun c s => by
    rw [getCenter_ofCenter, getSize_ofCenter]
  induction h with
  | create c s w d m h =>
    rw [TreeProperties.create, Option.map_eq_some_iff] at h
    obtain ⟨data, hw, heq⟩ := h
    obtain ⟨rfl, rfl⟩ := Prod.mk.inj heq
    exact ⟨cube c s, load_writeMetaData hw⟩
  | load readOnly _ h ih =>
    obtain rfl := Option.some.inj ((ih.2 readOnly).symm.trans h)
    exact ⟨cube _ _, fun readOnly' => by rw [rounded_rounded, ih.2]⟩
  | @recenter t _ _ _ n c _ h ih =>
    unfold TreeProperties.recenter at h
    by_cases hn : n = 0
    · simp only [hn, guard_true, Option.bind_eq_bind, Option.pure_def, Option.bind_some] at h
      obtain ⟨data, hw, heq⟩ := Option.bind_eq_some_iff.mp h
      obtain ⟨rfl, rfl⟩ := Prod.mk.inj (Option.some.inj heq)
      exact ⟨cube c _, load_writeMetaData hw⟩
    · simp [hn] at h

theorem SixDigits.rounded_eq {t : TreeProperties} (h : t.SixDigits)
    (ht : t.rootGeometry = .ofCenter t.rootGeometry.getCenter t.rootGeometry.getSize)
    (readOnly : Bool) : t.rounded readOnly = { t with readOnly := readOnly } := by
  obtain ⟨hcenter, hsize, hcell⟩ := h
  simp only [rounded, initTree, (sixDigitValue_eq_iff _).mpr (hcenter _),
    (sixDigitValue_eq_iff _).mpr hsize, (sixDigitValue_eq_iff _).mpr hcell]
  rw [← ht]

/-- A tree can be loaded again, and it is the same tree exactly if six digits are enough for all
numbers of its metadata. -/
theorem loadedFrom_iff {t : TreeProperties} {data : List Char} (h : Stored t data) :
    t.LoadedFrom data ↔ t.SixDigits := by
  obtain ⟨hcube, hload⟩ := h.load_eq
  constructor
  · intro hloaded
    obtain ⟨t', ht', hlo, hhi, hsize, hcell, -⟩ := hloaded t.readOnly
    obtain rfl := Option.some.inj ((hload t.readOnly).symm.trans ht')
    have hcenter : (t.rounded t.readOnly).rootGeometry.getCenter = t.rootGeometry.getCenter := by
      funext i
      rw [NodeGeometry.getCenter, NodeGeometry.getCenter, hlo, hhi]
    rw [rounded, initTree, getCenter_ofCenter] at hcenter
    rw [rounded, initTree, getSize_ofCenter] at hsize
    exact ⟨fun i => (sixDigitValue_eq_iff _).mp (congrFun hcenter i),
      (sixDigitValue_eq_iff _).mp hsize, (sixDigitValue_eq_iff _).mp hcell⟩
  · intro hsix readOnly
    refine ⟨_, hload readOnly, ?_⟩
    rw [hsix.rounded_eq hcube]
    exact ⟨rfl, rfl, rfl, rfl, rfl, rfl, fun _ _ => rfl⟩

/-- The tree of `create`, and its `metadata.ini`. -/
theorem stored_create (c : Vec) (s : ℚ) (w d : UInt32) (m : ℚ) :
    ∃ data, Stored (initTree c s w d m false) data :=
  ⟨_, .create c s w d m rfl⟩

/-- A tree of half a million meters, and cells of a millimeter. -/
theorem loadedFrom_iff_create : ∃ data,
    (initTree ![500000, 0, -250] 1000 3 2 (1 / 1000) false).LoadedFrom data ∧
      Stored (initTree ![500000, 0, -250] 1000 3 2 (1 / 1000) false) data := by
  obtain ⟨data, hdata⟩ := stored_create ![500000, 0, -250] 1000 3 2 (1 / 1000)
  refine ⟨data, (loadedFrom_iff hdata).mpr ⟨fun i => ?_, ?_, ?_⟩, hdata⟩
  · rw [initTree, getCenter_ofCenter]
    fin_cases i
    · exact ⟨5, 5, by norm_num, by norm_num⟩
    · exact ⟨0, 0, by norm_num, by norm_num⟩
    · exact ⟨-25, 1, by norm_num, by norm_num⟩
  · rw [initTree, getSize_ofCenter]
    exact ⟨1, 3, by norm_num, by norm_num⟩
  · exact ⟨1, -3, by norm_num, by norm_num [initTree]⟩

/-- A tree that is half a meter away after it is loaded again. -/
theorem not_loadedFrom : ¬ ∀ t data, Stored t data → t.LoadedFrom data := by
  intro h
  obtain ⟨data, hdata⟩ := stored_create ![763241.5, 0, 0] 1000 3 2 (1 / 1000)
  obtain ⟨t', ht', hlo, -⟩ := h _ data hdata false
  obtain rfl := Option.some.inj ((hdata.load_eq.2 false).symm.trans ht')
  rw [rounded_initTree] at hlo
  have hx : sixDigitValue 763241.5 = 763242 := by decide +kernel
  have hs : sixDigitValue 1000 = 1000 := by decide +kernel
  have hlo₀ : sixDigitValue 763241.5 - sixDigitValue 1000 / 2 = (763241.5 - 1000 / 2 : ℚ) :=
    congrFun hlo 0
  rw [hx, hs] at hlo₀
  norm_num at hlo₀

end TreeProperties

end MegaTree
