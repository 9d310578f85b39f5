import MegaTree.Cache.Ledger
import MegaTree.Cache.Maintenance

/-!
# The size counters are exact

Six functions change `current_cache_size` and `current_write_size`.  Each of them changes one file
and the counters together, so the counters keep the numbers that they are meant to have.

* `Accounted m b` : the counters are exact, except for a node that was created and has yet to be
  counted if `b` is set; and a file that is being written keeps its nodes.
* `Accounted.client`, `Accounted.env` : every step keeps the accounts, so that no subtraction from
  a counter wraps around.
-/

namespace MegaTree

open Effect

variable {cfg : Config} {m m' : CacheState} {f g : LongId} {file : NodeFile} {data : ByteVec}
  {w b b' : Bool}

/-! ### Writes -/

/-- An eviction writes the data to the file. -/
def IsWritten (pending : Multiset (LongId × Request)) (f : LongId) (data : ByteVec) : Prop :=
  ∃ w, (f, .evict data w) ∈ pending

section Writes

variable {pending : Multiset (LongId × Request)} {r : Request}

theorem isWritten_cons (hr : r.isEvict = false) :
    IsWritten ((f, r) ::ₘ pending) g data ↔ IsWritten pending g data := by
  refine exists_congr fun w => Multiset.mem_cons.trans (or_iff_right fun h => ?_)
  obtain ⟨-, rfl⟩ := Prod.mk.inj h
  cases hr

theorem isWritten_erase (hr : r.isEvict = false) :
    IsWritten (pending.erase (f, r)) g data ↔ IsWritten pending g data := by
  refine exists_congr fun w => Multiset.mem_erase_of_ne fun h => ?_
  obtain ⟨-, rfl⟩ := Prod.mk.inj h
  cases hr

theorem isWritten_cons_of_ne (hg : g ≠ f) :
    IsWritten ((f, r) ::ₘ pending) g data ↔ IsWritten pending g data :=
  exists_congr fun _ => Multiset.mem_cons.trans (or_iff_right fun h => hg (Prod.mk.inj h).1)

theorem isWritten_erase_of_ne (hg : g ≠ f) :
    IsWritten (pending.erase (f, r)) g data ↔ IsWritten pending g data :=
  exists_congr fun _ => Multiset.mem_erase_of_ne fun h => hg (Prod.mk.inj h).1

/-- The storage completes an eviction write. -/
theorem isWritten_complete (hp : (f, .evict data false) ∈ pending) {data' : ByteVec} :
    IsWritten ((f, .evict data true) ::ₘ pending.erase (f, .evict data false)) g data' ↔
      IsWritten pending g data' := by
  by_cases hd : g = f ∧ data' = data
  · obtain ⟨rfl, rfl⟩ := hd
    exact ⟨fun _ => ⟨_, hp⟩, fun _ => ⟨_, Multiset.mem_cons_self ..⟩⟩
  · have hne : ∀ w w', (g, Request.evict data' w) ≠ (f, .evict data w') := by
      rintro w w' h
      obtain ⟨hg, he⟩ := Prod.mk.inj h
      exact hd ⟨hg, (Request.evict.inj he).1⟩
    exact exists_congr fun w => Multiset.mem_cons.trans <| (or_iff_right (hne w true)).trans <|
      Multiset.mem_erase_of_ne (hne w false)

theorem CacheState.isWriting_iff : m.isWriting f = true ↔ ∃ data, IsWritten m.pending f data := by
  rw [isWriting, decide_eq_true_eq, Multiset.countP_pos]
  constructor
  · rintro ⟨r, hr, hev⟩
    cases r with
    | evict data w => exact ⟨data, w, mem_inFlight.1 hr⟩
    | read buffer => cases hev
    | flush data w => cases hev
  · rintro ⟨data, w, hp⟩
    exact ⟨_, mem_inFlight.2 hp, rfl⟩

end Writes

/-! ### The share of one file -/

namespace CacheState

/-- The state of a file and the number of its nodes. -/
def shape (m : CacheState) (f : LongId) : Option (NodeState × ℕ) :=
  (m.files f).map fun file => (file.nodeState, file.data.nodeCache.size)

/-- What a file counts for in `current_cache_size`. -/
def countedSize (m : CacheState) (f : LongId) : ℕ := if m.isCounted f then m.sizeOf f else 0

/-- What a file counts for in `current_write_size`. -/
def writtenSize (m : CacheState) (f : LongId) : ℕ := if m.isWriting f then m.sizeOf f else 0

theorem sizes_filter (p : LongId → Bool) (fs : List LongId) :
    m.sizes (fs.filter p) = (fs.map fun f => if p f then m.sizeOf f else 0).sum := by
  induction fs with
  | nil => rfl
  | cons f fs ih =>
    rw [List.map_cons, List.sum_cons, ← ih, List.filter_cons]
    split_ifs
    · exact sizes_cons
    · exact (Nat.zero_add _).symm

theorem cachedNodes_eq : m.cachedNodes = (m.order.map m.countedSize).sum := sizes_filter _ _

theorem writingNodes_eq : m.writingNodes = (m.order.map m.writtenSize).sum := sizes_filter _ _

theorem sizeOf_of_none (hf : m.files f = none) : m.sizeOf f = 0 := by
  rw [sizeOf, hf]
  rfl

theorem countedSize_of_none (hf : m.files f = none) : m.countedSize f = 0 := by
  rw [countedSize, sizeOf_of_none hf, ite_self]

theorem writtenSize_of_none (hf : m.files f = none) : m.writtenSize f = 0 := by
  rw [writtenSize, sizeOf_of_none hf, ite_self]

theorem countedSize_of_ready (hf : m.files f = some file) (hs : file.nodeState ≠ .loading) :
    m.countedSize f = file.cacheSize.toNat := by
  rw [countedSize, sizeOf_of_some hf, if_pos]
  simp [isCounted, hf, hs]

theorem countedSize_of_written (hf : m.files f = some file) (hw : IsWritten m.pending f data) :
    m.countedSize f = file.cacheSize.toNat := by
  rw [countedSize, sizeOf_of_some hf, if_pos]
  simp [isCounted, hf, isWriting_iff.2 ⟨data, hw⟩]

theorem countedSize_of_reading (hf : m.files f = some file) (hs : file.nodeState = .loading)
    (hw : ∀ data, ¬ IsWritten m.pending f data) : m.countedSize f = 0 := by
  have hno : m.isWriting f = false := Bool.eq_false_iff.2 fun h => by
    obtain ⟨data, hd⟩ := isWriting_iff.1 h
    exact hw data hd
  simp [countedSize, isCounted, hf, hs, hno]

theorem writtenSize_of_written (hf : m.files f = some file) (hw : IsWritten m.pending f data) :
    m.writtenSize f = file.cacheSize.toNat := by
  rw [writtenSize, sizeOf_of_some hf, if_pos (isWriting_iff.2 ⟨data, hw⟩)]

theorem writtenSize_of_not (hw : ∀ data, ¬ IsWritten m.pending f data) : m.writtenSize f = 0 := by
  rw [writtenSize, if_neg]
  intro h
  obtain ⟨data, hd⟩ := isWriting_iff.1 h
  exact hw data hd

theorem isWriting_congr (hw : ∀ data, IsWritten m'.pending f data ↔ IsWritten m.pending f data) :
    m'.isWriting f = m.isWriting f := by
  rw [Bool.eq_iff_iff, isWriting_iff, isWriting_iff]
  exact exists_congr hw

theorem sizeOf_congr (hs : m'.shape f = m.shape f) : m'.sizeOf f = m.sizeOf f := by
  have h : ∀ m : CacheState, m.sizeOf f = ((m.shape f).map fun x =>
    (UInt32.ofNat x.2).toNat).getD 0 := by
    intro m
    rw [sizeOf, shape, Option.map_map]
    rfl
  rw [h, h, hs]

theorem isCounted_congr (hs : m'.shape f = m.shape f)
    (hw : ∀ data, IsWritten m'.pending f data ↔ IsWritten m.pending f data) :
    m'.isCounted f = m.isCounted f := by
  have h : ∀ m : CacheState, m.isCounted f = (m.shape f).any fun x =>
    x.1 != .loading || m.isWriting f := by
    intro m
    rw [isCounted, shape, Option.any_map]
  rw [h, h, hs, isWriting_congr hw]

end CacheState

open CacheState

/-- A change at one point changes a sum by the difference there. -/
theorem sum_map_update {α : Type} [DecidableEq α] {l l' : List α} (w w' : α → ℕ) {a : α}
    (hnd : l.Nodup) (he : l'.erase a = l.erase a) (hw : ∀ x, x ≠ a → w' x = w x)
    (h : a ∉ l → w a = 0) (h' : a ∉ l' → w' a = 0) :
    (l'.map w').sum + w a = (l.map w).sum + w' a := by
  have split : ∀ (l : List α) (w : α → ℕ), (a ∉ l → w a = 0) →
      (l.map w).sum = w a + ((l.erase a).map w).sum := by
    intro l w hz
    by_cases ha : a ∈ l
    · exact (List.sum_map_erase w ha).symm
    · rw [List.erase_of_not_mem ha, hz ha, Nat.zero_add]
  have hrest : (l.erase a).map w' = (l.erase a).map w :=
    List.map_congr_left fun x hx => hw x (hnd.mem_erase_iff.1 hx).1
  rw [split l w h, split l' w' h', he, hrest]
  omega

/-! ### The accounts -/

/-- A callback of an eviction waits for a mutex that it owns. -/
def Stuck (m : CacheState) : Prop := ∃ f, m.owner .fileCacheMutex = some (.evictNodeFileCb f)

/-- The counters are exact, up to a node that has yet to be counted if `b` is set, and a file that is
being written still has the nodes that were written.  A callback that gets stuck does not come to
what it would take from `current_write_size`. -/
structure Accounted (m : CacheState) (b : Bool) : Prop where
  nodup : m.order.Nodup
  mem : ∀ f, f ∈ m.order ↔ (m.files f).isSome
  cache : m.currentCacheSize + .ofNat b.toNat = .ofNat m.cachedNodes
  write : ¬ Stuck m → m.currentWriteSize = .ofNat m.writingNodes
  frozen : ¬ Stuck m → ∀ f data, IsWritten m.pending f data →
    ∃ file, m.files f = some file ∧ data.length = 1 + file.data.nodeCache.size * nodeSize

/-- Nothing happened to the sizes. -/
structure SameSizes (m m' : CacheState) : Prop where
  stuck : Stuck m → Stuck m'
  order : m'.order = m.order
  cache : m'.currentCacheSize = m.currentCacheSize
  write : m'.currentWriteSize = m.currentWriteSize
  shape : ∀ f, m'.shape f = m.shape f
  written : ∀ f data, IsWritten m'.pending f data ↔ IsWritten m.pending f data

namespace SameSizes

theorem refl (m : CacheState) : SameSizes m m :=
  ⟨id, rfl, rfl, rfl, fun _ => rfl, fun _ _ => .rfl⟩

/-- A step that changes neither the state nor the number of nodes of a file. -/
theorem of_file {file' : NodeFile} (hf : m.files f = some file)
    (hm : m'.files = Function.update m.files f (some file')) (hs : file'.nodeState = file.nodeState)
    (hn : file'.data.nodeCache.size = file.data.nodeCache.size) (hl : m'.owner = m.owner)
    (ho : m'.order = m.order) (hp : m'.pending = m.pending)
    (hc : m'.currentCacheSize = m.currentCacheSize)
    (hw : m'.currentWriteSize = m.currentWriteSize) : SameSizes m m' := by
  refine ⟨fun ⟨g, hg⟩ => ⟨g, hl ▸ hg⟩, ho, hc, hw, fun g => ?_, fun _ _ => by rw [hp]⟩
  rw [CacheState.shape, CacheState.shape, hm]
  by_cases hg : g = f
  · rw [hg, Function.update_self, hf, Option.map_some, Option.map_some, hs, hn]
  · rw [Function.update_of_ne hg]

end SameSizes

namespace Accounted

theorem opened (storage : LongId → Option ByteVec) : Accounted (.opened storage) false where
  nodup := List.nodup_nil
  mem _ := ⟨fun h => (nomatch h), fun h => (nomatch h)⟩
  cache := rfl
  write _ := rfl
  frozen _ _ _ := fun ⟨_, h⟩ => absurd h (Multiset.notMem_zero _)

theorem same (h : Accounted m b) (hs : SameSizes m m') : Accounted m' b where
  nodup := hs.order ▸ h.nodup
  mem f := by
    have hsome : ∀ m : CacheState, (m.files f).isSome = (m.shape f).isSome := fun m =>
      Option.isSome_map.symm
    rw [hs.order, h.mem, hsome, hsome, hs.shape]
  cache := by
    have : m'.countedSize = m.countedSize := by
      funext f
      rw [countedSize, countedSize, isCounted_congr (hs.shape f) (hs.written f),
        sizeOf_congr (hs.shape f)]
    rw [hs.cache, h.cache, cachedNodes_eq, cachedNodes_eq, hs.order, this]
  write hst := by
    have : m'.writtenSize = m.writtenSize := by
      funext f
      rw [writtenSize, writtenSize, isWriting_congr (hs.written f), sizeOf_congr (hs.shape f)]
    rw [hs.write, h.write (mt hs.stuck hst), writingNodes_eq, writingNodes_eq, hs.order, this]
  frozen hst f data hw := by
    obtain ⟨file, hf, hlen⟩ := h.frozen (mt hs.stuck hst) f data ((hs.written f data).1 hw)
    have hshape := hs.shape f
    rw [CacheState.shape, CacheState.shape, hf, Option.map_some, Option.map_eq_some_iff] at hshape
    obtain ⟨file', hf', he⟩ := hshape
    exact ⟨file', hf', by rw [hlen, (Prod.mk.inj he).2]⟩

/-- A step that changes one file, its place in the list and the counters. -/
theorem update (h : Accounted m b) (f : LongId) (hst : Stuck m → Stuck m') (hnd : m'.order.Nodup)
    (hmem : f ∈ m'.order ↔ (m'.files f).isSome) (herase : m'.order.erase f = m.order.erase f)
    (hfiles : ∀ g, g ≠ f → m'.files g = m.files g)
    (hwritten : ∀ g, g ≠ f → ∀ data, IsWritten m'.pending g data ↔ IsWritten m.pending g data)
    (hcache : m'.currentCacheSize + .ofNat b'.toNat + .ofNat (m.countedSize f) =
      m.currentCacheSize + .ofNat b.toNat + .ofNat (m'.countedSize f))
    (hwrite : ¬ Stuck m' → m'.currentWriteSize + .ofNat (m.writtenSize f) =
      m.currentWriteSize + .ofNat (m'.writtenSize f))
    (hfrozen : ¬ Stuck m' → ∀ data, IsWritten m'.pending f data → ∃ file, m'.files f = some file ∧
      data.length = 1 + file.data.nodeCache.size * nodeSize) : Accounted m' b' := by
  have hshape : ∀ g, g ≠ f → m'.shape g = m.shape g := fun g hg => by
    rw [CacheState.shape, CacheState.shape, hfiles g hg]
  have hgone : ∀ {m : CacheState}, (f ∈ m.order ↔ (m.files f).isSome) → f ∉ m.order →
      m.files f = none := fun hm hno => Option.isNone_iff_eq_none.1 (by simpa [hm] using hno)
  refine ⟨hnd, fun g => ?_, ?_, fun hno => ?_, fun hno g data hw => ?_⟩
  · by_cases hg : g = f
    · rw [hg, hmem]
    · rw [hfiles g hg, ← h.mem, ← List.mem_erase_of_ne hg, herase, List.mem_erase_of_ne hg]
  · have hsum := sum_map_update m.countedSize m'.countedSize h.nodup herase
      (fun g hg => by
        rw [countedSize, countedSize, isCounted_congr (hshape g hg) (hwritten g hg),
          sizeOf_congr (hshape g hg)])
      (fun hno => countedSize_of_none (hgone (h.mem f) hno))
      (fun hno => countedSize_of_none (hgone hmem hno))
    rw [← cachedNodes_eq, ← cachedNodes_eq] at hsum
    have hcast := congrArg UInt32.ofNat hsum
    rw [UInt32.ofNat_add, UInt32.ofNat_add, ← h.cache, ← hcache] at hcast
    exact (UInt32.add_left_inj _).1 hcast.symm
  · have hsum := sum_map_update m.writtenSize m'.writtenSize h.nodup herase
      (fun g hg => by
        rw [writtenSize, writtenSize, isWriting_congr (hwritten g hg), sizeOf_congr (hshape g hg)])
      (fun hno => writtenSize_of_none (hgone (h.mem f) hno))
      (fun hno => writtenSize_of_none (hgone hmem hno))
    rw [← writingNodes_eq, ← writingNodes_eq] at hsum
    have hcast := congrArg UInt32.ofNat hsum
    rw [UInt32.ofNat_add, UInt32.ofNat_add, ← h.write (mt hst hno), ← hwrite hno] at hcast
    exact (UInt32.add_left_inj _).1 hcast.symm
  · by_cases hg : g = f
    · subst hg
      exact hfrozen hno data hw
    · rw [hfiles g hg]
      exact h.frozen (mt hst hno) g data ((hwritten g hg data).1 hw)

end Accounted

theorem Flights.not_written_of_loaded (hfl : Flights m) (hf : m.files f = some file)
    (hs : file.nodeState = .loaded) (data : ByteVec) : ¬ IsWritten m.pending f data := by
  rintro ⟨w, hp⟩
  have hflight := hfl.file f
  rw [CacheState.state, hf, Option.map_some, hs] at hflight
  cases hflight.of_loaded _ (mem_inFlight.2 hp)

theorem Flights.not_written_of_none (hfl : Flights m) (hf : m.files f = none) (data : ByteVec) :
    ¬ IsWritten m.pending f data := by
  rintro ⟨w, hp⟩
  have hmem := mem_inFlight.2 hp
  rw [hfl.inFlight_of_none hf] at hmem
  exact Multiset.notMem_zero _ hmem

theorem Flights.not_written_of_read (hfl : Flights m) {buffer : Option ByteVec}
    (hp : (f, .read buffer) ∈ m.pending) (data : ByteVec) : ¬ IsWritten m.pending f data := by
  rintro ⟨w, hw⟩
  have hmem := mem_inFlight.2 hw
  rw [((hfl.file f).of_read (mem_inFlight.2 hp)).2, Multiset.mem_singleton] at hmem
  cases hmem

namespace Accounted

/-! ### Eviction -/

theorem dropFile (h : Accounted m b) (hfl : Flights m) (hf : m.files f = some file)
    (hs : file.nodeState = .loaded) : Accounted (m.dropFile f file) b := by
  have hno := hfl.not_written_of_loaded hf hs
  have hnone : (m.dropFile f file).files f = none := Function.update_self ..
  refine h.update f id (h.nodup.erase f) ?_ ?_ (fun g hg => Function.update_of_ne hg ..)
    (fun _ _ _ => .rfl) ?_ (fun _ => ?_) fun _ data hw => absurd hw (hno data)
  · rw [hnone]
    exact iff_of_false h.nodup.not_mem_erase Bool.false_ne_true
  · exact List.erase_of_not_mem h.nodup.not_mem_erase
  · rw [countedSize_of_none hnone, countedSize_of_ready hf (by rw [hs]; exact fun h => by cases h),
      UInt32.ofNat_toNat]
    change m.currentCacheSize - file.cacheSize + _ + _ = _
    grind
  · rw [writtenSize_of_none hnone, writtenSize_of_not hno]
    rfl

theorem startEvict (h : Accounted m b) (hfl : Flights m) (hf : m.files f = some file)
    (hs : file.nodeState = .loaded) : Accounted (m.startEvict f file) b := by
  have hno := hfl.not_written_of_loaded hf hs
  have hsome : (m.startEvict f file).files f = some { file with nodeState := .evicting } :=
    Function.update_self ..
  have hw : IsWritten (m.startEvict f file).pending f (serialize file.data) :=
    ⟨false, Multiset.mem_cons_self ..⟩
  refine h.update f id h.nodup ?_ rfl (fun g hg => Function.update_of_ne hg ..)
    (fun g hg data => isWritten_cons_of_ne hg) ?_ (fun _ => ?_) fun _ data ⟨w, hp⟩ => ?_
  · rw [hsome]
    exact iff_of_true ((h.mem f).2 (by rw [hf]; rfl)) rfl
  · rw [countedSize_of_written hsome hw, countedSize_of_ready hf (by rw [hs]; exact fun h => by cases h)]
    rfl
  · rw [writtenSize_of_written hsome hw, writtenSize_of_not hno, UInt32.ofNat_toNat]
    exact UInt32.add_zero _
  · rcases Multiset.mem_cons.1 hp with hp | hp
    · obtain ⟨-, hp⟩ := Prod.mk.inj hp
      rw [(Request.evict.inj hp).1]
      exact ⟨_, hsome, length_serialize _⟩
    · exact absurd ⟨w, hp⟩ (hno data)

theorem maintenance {busy : LongId → Bool} (h : Accounted m b) (hfl : Flights m)
    (hc : m.cacheMaintenance cfg busy = some m') : Accounted m' b := by
  refine (cacheMaintenance_induct (P := fun m => Accounted m b ∧ Flights m ∧
    m.owner .fileCacheMutex = none) ?_ ?_ hc ⟨h, hfl, Flights.free_of_maintenance hc⟩).1
  · rintro m f file ⟨h, hfl, ho⟩ hf hs - -
    exact ⟨h.dropFile hfl hf hs, hfl.dropFile ho hf hs, ho⟩
  · rintro m f file ⟨h, hfl, ho⟩ hf hs - -
    exact ⟨h.startEvict hfl hf hs, hfl.startEvict ho hf hs, ho⟩

/-! ### The client -/

/-- A step that puts an object in the place of one file, and may move the file to the front. -/
theorem put {file' : NodeFile} (h : Accounted m b) (f : LongId) (hst : Stuck m → Stuck m')
    (hm : m'.files = Function.update m.files f (some file'))
    (ho : m'.order = f :: m.order.erase f ∨ (m.files f).isSome ∧ m'.order = m.order)
    (hwritten : ∀ g, g ≠ f → ∀ data, IsWritten m'.pending g data ↔ IsWritten m.pending g data)
    (hcache : m'.currentCacheSize + .ofNat b'.toNat + .ofNat (m.countedSize f) =
      m.currentCacheSize + .ofNat b.toNat + .ofNat (m'.countedSize f))
    (hwrite : ¬ Stuck m' → m'.currentWriteSize + .ofNat (m.writtenSize f) =
      m.currentWriteSize + .ofNat (m'.writtenSize f))
    (hfrozen : ¬ Stuck m' → ∀ data, IsWritten m'.pending f data →
      data.length = 1 + file'.data.nodeCache.size * nodeSize) : Accounted m' b' := by
  have hsome : m'.files f = some file' := by rw [hm, Function.update_self]
  refine h.update f hst ?_ ?_ ?_ (fun g hg => by rw [hm, Function.update_of_ne hg]) hwritten hcache
    hwrite fun hno data hw => ⟨file', hsome, hfrozen hno data hw⟩
  · rcases ho with ho | ⟨-, ho⟩ <;> rw [ho]
    · exact List.nodup_cons.2 ⟨h.nodup.not_mem_erase, h.nodup.erase f⟩
    · exact h.nodup
  · rw [hsome]
    refine iff_of_true ?_ rfl
    rcases ho with ho | ⟨hf, ho⟩ <;> rw [ho]
    · exact List.mem_cons_self
    · exact (h.mem f).2 hf
  · rcases ho with ho | ⟨-, ho⟩ <;> rw [ho]
    exact List.erase_cons_head ..

/-- A file gets a user and moves to the front. -/
theorem found {file' : NodeFile} (h : Accounted m b) (hfl : Flights m) (hf : m.files f = some file)
    (hm : m'.files = Function.update m.files f (some file')) (hl : m'.owner = m.owner)
    (ho : m'.order = f :: m.order.erase f) (hp : m'.pending = m.pending)
    (hc : m'.currentCacheSize = m.currentCacheSize)
    (hw : m'.currentWriteSize = m.currentWriteSize)
    (hs : file'.nodeState = if file.nodeState = .evicting then .loading else file.nodeState)
    (hd : file'.data = file.data) : Accounted m' b := by
  have hsome : m'.files f = some file' := by rw [hm, Function.update_self]
  have hsize : file'.cacheSize = file.cacheSize := by rw [NodeFile.cacheSize, hd]; rfl
  have hiff : ∀ g data, IsWritten m'.pending g data ↔ IsWritten m.pending g data :=
    fun _ _ => by rw [hp]
  have hcounted : m'.countedSize f = m.countedSize f := by
    by_cases he : file.nodeState = .evicting
    · -- it still counts, because it is being written
      have hflight := hfl.file f
      rw [CacheState.state, hf, Option.map_some, he] at hflight
      obtain ⟨data, w, rest, hr, -⟩ := hflight.of_evicting
      have hw : IsWritten m.pending f data := ⟨w, mem_inFlight.1 (hr ▸ Multiset.mem_cons_self ..)⟩
      rw [countedSize_of_written hsome ((hiff f data).2 hw), countedSize_of_written hf hw, hsize]
    · rw [if_neg he] at hs
      rw [countedSize, countedSize, isCounted_congr ?_ (hiff f), sizeOf_of_some hsome,
        sizeOf_of_some hf, hsize]
      rw [CacheState.shape, CacheState.shape, hsome, hf, Option.map_some, Option.map_some, hs, hd]
  have hwriting : m'.writtenSize f = m.writtenSize f := by
    rw [writtenSize, writtenSize, isWriting_congr (hiff f), sizeOf_of_some hsome, sizeOf_of_some hf,
      hsize]
  have hst : Stuck m ↔ Stuck m' := by rw [Stuck, Stuck, hl]
  refine h.put f hst.1 hm (.inl ho) (fun g _ => hiff g) (by rw [hcounted, hc])
    (fun _ => by rw [hwriting, hw]) fun hno data hdata => ?_
  obtain ⟨x, hx, hlen⟩ := h.frozen (mt hst.1 hno) f data ((hiff f data).1 hdata)
  obtain rfl := Option.some.inj (hf.symm.trans hx)
  rw [hd, hlen]

/-- A new object has no nodes. -/
theorem fresh {file' : NodeFile} (h : Accounted m b) (hfl : Flights m) (hf : m.files f = none)
    (hm : m'.files = Function.update m.files f (some file')) (hd : file'.data = .empty)
    (hl : m'.owner = m.owner) (ho : m'.order = f :: m.order)
    (hp : ∀ g data, IsWritten m'.pending g data ↔ IsWritten m.pending g data)
    (hc : m'.currentCacheSize = m.currentCacheSize)
    (hw : m'.currentWriteSize = m.currentWriteSize) : Accounted m' b := by
  have hsome : m'.files f = some file' := by rw [hm, Function.update_self]
  have hno := hfl.not_written_of_none hf
  have hzero : m'.sizeOf f = 0 := by
    rw [sizeOf_of_some hsome, NodeFile.cacheSize, hd]
    rfl
  have horder : m.order.erase f = m.order := List.erase_of_not_mem fun hmem => by
    rw [h.mem, hf] at hmem
    cases hmem
  refine h.put f (fun hg => hg.imp fun _ => (hl ▸ ·)) hm (.inl (ho.trans (by rw [horder])))
    (fun g _ => hp g) ?_ (fun _ => ?_) fun _ data hdata => absurd ((hp f data).1 hdata) (hno data)
  · rw [countedSize_of_none hf, countedSize, hzero, ite_self, hc]
  · rw [writtenSize_of_none hf, writtenSize, hzero, ite_self, hw]

/-- A file that is not being written gets more nodes, which count unless it is being read. -/
theorem grow {file' : NodeFile} (h : Accounted m b) (hno : ∀ data, ¬ IsWritten m.pending f data)
    (hf : m.files f = some file) (hm : m'.files = Function.update m.files f (some file'))
    (hl : m'.owner = m.owner) (ho : m'.order = m.order)
    (hp : ∀ g data, IsWritten m'.pending g data ↔ IsWritten m.pending g data)
    (hc : m'.currentCacheSize + .ofNat b'.toNat + .ofNat (m.countedSize f) =
      m.currentCacheSize + .ofNat b.toNat + .ofNat (m'.countedSize f))
    (hw : m'.currentWriteSize = m.currentWriteSize) : Accounted m' b' := by
  have hno' : ∀ data, ¬ IsWritten m'.pending f data := fun data hd => hno data ((hp f data).1 hd)
  refine h.put f (fun hg => hg.imp fun _ => (hl ▸ ·)) hm (.inr ⟨by rw [hf]; rfl, ho⟩) (fun g _ => hp g) hc
    (fun _ => ?_) fun _ data hd => absurd hd (hno' data)
  rw [writtenSize_of_not hno, writtenSize_of_not hno', hw]

/-- A file that is being read gets a node for which its contents are yet to come. -/
theorem placeholder {file' : NodeFile} (h : Accounted m b)
    (hno : ∀ data, ¬ IsWritten m.pending f data) (hf : m.files f = some file)
    (hs : file.nodeState = .loading) (hm : m'.files = Function.update m.files f (some file'))
    (hs' : file'.nodeState = .loading) (hl : m'.owner = m.owner) (ho : m'.order = m.order)
    (hp : m'.pending = m.pending) (hc : m'.currentCacheSize = m.currentCacheSize)
    (hw : m'.currentWriteSize = m.currentWriteSize) : Accounted m' b := by
  have hsome : m'.files f = some file' := by rw [hm, Function.update_self]
  refine h.grow hno hf hm hl ho (fun _ _ => by rw [hp]) ?_ hw
  rw [countedSize_of_reading hf hs hno, countedSize_of_reading hsome hs' (hp ▸ hno), hc]

end Accounted

/-- What the comments of `createChildNode` and `readNode` ask: a node is created where there is none,
and read where there is one, also in a file that was requested again during its eviction. -/
def Proper (m : CacheState) : CacheOp → Prop
  | .createNode f s => ∀ file, m.files f = some file → file.data.nodeCache[s]? = none
  | .readNode f s => ∀ file, m.files f = some file → file.nodeState = .loading →
      (∃ data, IsWritten m.pending f data) → (file.data.nodeCache[s]?).isSome
  | _ => True

theorem size_setNode_of_none {d : FileData} {s : ShortId} {n : Node} (h : d.nodeCache[s]? = none) :
    (d.setNode s n).nodeCache.size = d.nodeCache.size + 1 := by
  rw [FileData.setNode, Std.ExtTreeMap.size_insert, if_neg]
  simpa using h

theorem size_setNode_of_isSome {d : FileData} {s : ShortId} {n : Node}
    (h : (d.nodeCache[s]?).isSome) : (d.setNode s n).nodeCache.size = d.nodeCache.size := by
  rw [FileData.setNode, Std.ExtTreeMap.size_insert, if_pos]
  simpa using h

namespace Accounted

theorem createNode {c : CacheChoice} {s : ShortId} {r : Unit} (h : Accounted m false)
    (hfl : Flights m) (hf : m.files f = some file) (hs : file.nodeState = .loaded)
    (hok : Proper m (.createNode f s))
    (hc : CacheState.client cfg c (.createNode f s) m = some (r, m')) : Accounted m' true := by
  simp only [CacheState.client, hf, Option.map_some, hok file hf, Option.isSome_none,
    Bool.false_eq_true, if_false] at hc
  obtain ⟨-, rfl⟩ := Prod.mk.inj (Option.some.inj hc)
  have hsome := Function.update_self f (some { file with
    data := file.data.setNode s c.stale.reset
    useCount := file.useCount + 1
    isModified := true }) m.files
  refine h.grow (hfl.not_written_of_loaded hf hs) hf rfl rfl rfl (fun _ _ => .rfl) ?_ rfl
  rw [countedSize_of_ready hf (by rw [hs]; exact fun h => by cases h), countedSize_of_ready hsome
    (by simp only [hs]; exact fun h => by cases h), UInt32.ofNat_toNat, UInt32.ofNat_toNat, NodeFile.cacheSize,
    NodeFile.cacheSize, size_setNode_of_none (hok file hf), UInt32.ofNat_add]
  change m.currentCacheSize + 1 + _ = m.currentCacheSize + 0 + _
  grind

theorem countNode {c : CacheChoice} {r : Unit} (h : Accounted m true)
    (hc : CacheState.client cfg c .countNode m = some (r, m')) : Accounted m' false := by
  obtain ⟨-, rfl⟩ := Prod.mk.inj (Option.some.inj hc)
  refine ⟨h.nodup, h.mem, ?_, h.write, h.frozen⟩
  exact (UInt32.add_zero _).trans h.cache

theorem readNode {c : CacheChoice} {s : ShortId} {r : Bool} (h : Accounted m b)
    (hok : Proper m (.readNode f s))
    (hc : CacheState.client cfg c (.readNode f s) m = some (r, m')) : Accounted m' b := by
  obtain ⟨file, hf, ⟨-, -, rfl⟩ | ⟨hn, hs, -, rfl⟩ | ⟨-, -, rfl⟩⟩ := readNode_cases hc
  · exact h.same (.of_file hf rfl rfl rfl rfl rfl rfl rfl rfl)
  · -- a file that is written has the node
    have hno : ∀ data, ¬ IsWritten m.pending f data := fun data hd => by
      have := hok file hf hs ⟨data, hd⟩
      rw [hn] at this
      cases this
    exact h.placeholder hno hf hs rfl hs rfl rfl rfl rfl rfl
  · exact h

end Accounted

/-- The operations that work on files without changing their sizes. -/
def CacheOp.KeepsSizes : CacheOp → Prop
  | .getNodeFile _ | .createNodeFile _ | .cacheMaintenance | .readNode _ _ | .createNode _ _
  | .countNode => False
  | _ => True

theorem SameSizes.of_client {c : CacheChoice} {o : CacheOp} {r : o.Res}
    (hc : CacheState.client cfg c o m = some (r, m')) (ho : o.KeepsSizes) : SameSizes m m' := by
  cases o with
  | getNodeFile f => exact ho.elim
  | createNodeFile f => exact ho.elim
  | cacheMaintenance => exact ho.elim
  | readNode f s => exact ho.elim
  | createNode f s => exact ho.elim
  | countNode => exact ho.elim
  | waitUntilLoaded f =>
    obtain ⟨file, hf, hc⟩ := Option.bind_eq_some_iff.1 hc
    split_ifs at hc
    obtain ⟨-, rfl⟩ := Prod.mk.inj (Option.some.inj hc)
    exact .refl m
  | isLoaded f =>
    obtain ⟨file, hf, hc⟩ := Option.map_eq_some_iff.1 hc
    obtain ⟨-, rfl⟩ := Prod.mk.inj hc
    exact .refl m
  | hasChildFile f child =>
    obtain ⟨file, hf, hc⟩ := Option.map_eq_some_iff.1 hc
    obtain ⟨-, rfl⟩ := Prod.mk.inj hc
    exact .refl m
  | setChildFile f child =>
    obtain ⟨file, hf, hc⟩ := Option.map_eq_some_iff.1 hc
    obtain ⟨-, rfl⟩ := Prod.mk.inj hc
    exact .of_file hf rfl rfl rfl rfl rfl rfl rfl rfl
  | removeUser f =>
    obtain ⟨file, hf, -, rfl⟩ := removeUser_cases hc
    exact .of_file hf rfl rfl rfl rfl rfl rfl rfl rfl
  | getNode f s =>
    obtain ⟨file, hf, hc⟩ := Option.bind_eq_some_iff.1 hc
    obtain ⟨n, hn, hc⟩ := Option.map_eq_some_iff.1 hc
    obtain ⟨-, rfl⟩ := Prod.mk.inj hc
    exact .refl m
  | setNode f s n w =>
    obtain ⟨file, hf, hn, rfl⟩ := setNode_cases hc
    exact .of_file hf rfl rfl (size_setNode_of_isSome hn) rfl rfl rfl rfl rfl
  | releaseNode f modified =>
    obtain ⟨-, file, hf, -, rfl⟩ := releaseNode_cases hc
    exact .of_file hf rfl rfl rfl rfl rfl rfl rfl rfl
  | flushBegin =>
    obtain ⟨hfree, -, rfl⟩ := flushBegin_cases hc
    refine ⟨fun ⟨g, hg⟩ => ?_, rfl, rfl, rfl, fun _ => rfl, fun _ _ => .rfl⟩
    rw [hfree] at hg
    cases hg
  | flushFile f =>
    obtain ⟨-, file, -, ⟨-, -, rfl⟩ | ⟨-, rfl⟩⟩ := flushFile_cases hc
    · exact ⟨id, rfl, rfl, rfl, fun _ => rfl, fun _ _ => isWritten_cons rfl⟩
    · exact .refl _
  | flushWait =>
    obtain ⟨hclient, -, rfl⟩ := flushWait_cases hc
    refine ⟨fun ⟨g, hg⟩ => ?_, rfl, rfl, rfl, fun _ => rfl, fun _ _ => .rfl⟩
    rw [hclient] at hg
    cases hg

namespace Accounted

variable {σ : PinState} {o : CacheOp}

/-- The client keeps the accounts, if it creates nodes in files that it has seen loaded and counts
each of them at once. -/
theorem client {c : CacheChoice} {r : o.Res} (h : Accounted m b) (hfl : Flights m)
    (hpin : PinSim m σ) (hok : Proper m o) (hb : Ledger.uncounted o σ b = some b')
    (hstep : (PinState.step .plain o σ).isSome)
    (hc : CacheState.client cfg c o m = some (r, m')) : Accounted m' b' := by
  have hsettled : (if b = false then some false else none) = some b' → Accounted m b' := by
    intro hb
    obtain ⟨rfl, hb⟩ := Option.ite_none_right_eq_some.1 hb
    exact Option.some.inj hb ▸ h
  cases o with
  | getNodeFile f =>
    have h := hsettled hb
    obtain ⟨-, ⟨file, hf, rfl⟩ | ⟨hf, rfl⟩⟩ := getNodeFile_cases hc
    · exact h.found hfl hf rfl rfl rfl rfl rfl rfl rfl rfl
    · exact h.fresh hfl hf rfl rfl rfl rfl (fun _ _ => isWritten_cons rfl) rfl rfl
  | createNodeFile f =>
    have h := hsettled hb
    obtain ⟨-, hf, rfl⟩ := createNodeFile_cases hc
    exact h.fresh hfl hf rfl rfl rfl rfl (fun _ _ => .rfl) rfl rfl
  | cacheMaintenance =>
    obtain ⟨m₁, hm, he⟩ := Option.map_eq_some_iff.1 hc
    obtain ⟨-, rfl⟩ := Prod.mk.inj he
    exact (hsettled hb).maintenance hfl hm
  | readNode f s => exact (hsettled hb).readNode hok hc
  | createNode f s =>
    obtain ⟨⟨rfl, hready⟩, he⟩ := Option.ite_none_right_eq_some.1 hb
    obtain rfl := Option.some.inj he
    -- the file was seen loaded and has had users since
    have hpos : 0 < σ.users f := by
      by_contra hno
      rw [PinState.step, PinState.pinned, if_neg hno] at hstep
      cases hstep
    obtain ⟨file, hf, -⟩ := hpin.file_of_pos hpos
    exact h.createNode hfl hf ((hpin f).loaded file hf hpos hready) hok hc
  | countNode =>
    obtain ⟨rfl, he⟩ := Option.ite_none_right_eq_some.1 hb
    obtain rfl := Option.some.inj he
    exact h.countNode hc
  | _ => exact (hsettled hb).same (.of_client hc trivial)

end Accounted

/-! ### The environment -/

namespace Accounted

/-- A file is loaded for the first time. -/
theorem loaded {buffer : Option ByteVec} {file' : NodeFile} (h : Accounted m b) (hfl : Flights m)
    (hread : (f, .read buffer) ∈ m.pending) (hf : m.files f = some file)
    (hm : m'.files = Function.update m.files f (some file')) (hs' : file'.nodeState = .loaded)
    (hl : m'.owner = m.owner) (ho : m'.order = m.order)
    (hp : m'.pending = m.pending.erase (f, .read buffer))
    (hc : m'.currentCacheSize = m.currentCacheSize + file'.cacheSize)
    (hw : m'.currentWriteSize = m.currentWriteSize) : Accounted m' b := by
  have hsome : m'.files f = some file' := by rw [hm, Function.update_self]
  have hno := hfl.not_written_of_read hread
  have hs : file.nodeState = .loading := by
    have hstate := ((hfl.file f).of_read (mem_inFlight.2 hread)).1
    rw [CacheState.state, hf] at hstate
    exact Option.some.inj hstate
  refine h.grow hno hf hm hl ho (fun _ _ => by rw [hp]; exact isWritten_erase rfl) ?_ hw
  rw [countedSize_of_reading hf hs hno, countedSize_of_ready hsome (by rw [hs']; exact fun h => by cases h),
    UInt32.ofNat_toNat, hc]
  change _ + 0 = _
  grind

/-- A file is gone after its eviction write. -/
theorem evicted (h : Accounted m b) (hfl : Flights m) (hwrite : (f, .evict data w) ∈ m.pending)
    (hf : m.files f = some file) (hs : file.nodeState = .evicting)
    (hm : m'.files = Function.update m.files f none) (hl : m'.owner = m.owner)
    (ho : m'.order = m.order.erase f) (hp : m'.pending = m.pending.erase (f, .evict data w))
    (hc : m'.currentCacheSize = m.currentCacheSize - file.cacheSize)
    (hw : m'.currentWriteSize = m.currentWriteSize - file.cacheSize) : Accounted m' b := by
  have hnone : m'.files f = none := by rw [hm, Function.update_self]
  have hno : ∀ data', ¬ IsWritten m'.pending f data' := by
    rintro data' ⟨w', hmem⟩
    rw [hp] at hmem
    exact hfl.evict_unique hwrite (mem_inFlight.2 hmem)
  refine h.update f (fun hg => hg.imp fun _ => (hl ▸ ·)) (ho ▸ h.nodup.erase f) ?_ ?_
    (fun g hg => by rw [hm, Function.update_of_ne hg])
    (fun g hg data' => by rw [hp]; exact isWritten_erase_of_ne hg) ?_ (fun _ => ?_)
    fun _ data' hd => absurd hd (hno data')
  · rw [hnone, ho]
    exact iff_of_false h.nodup.not_mem_erase Bool.false_ne_true
  · rw [ho, List.erase_of_not_mem h.nodup.not_mem_erase]
  · rw [countedSize_of_none hnone, countedSize_of_ready hf (by rw [hs]; exact fun h => by cases h),
      UInt32.ofNat_toNat, hc]
    change _ = _ + 0
    grind
  · rw [writtenSize_of_none hnone, writtenSize_of_written hf ⟨w, hwrite⟩, UInt32.ofNat_toNat, hw]
    change _ = _ + 0
    grind

/-- A file that was requested again is `LOADED` after its eviction write, and the callback waits for
itself. -/
theorem reloaded {file' : NodeFile} (h : Accounted m b) (hst : Stuck m')
    (hwrite : (f, .evict data w) ∈ m.pending) (hf : m.files f = some file)
    (hm : m'.files = Function.update m.files f (some file')) (hs' : file'.nodeState = .loaded)
    (hd : file'.data = file.data) (ho : m'.order = m.order)
    (hp : m'.pending = m.pending.erase (f, .evict data w))
    (hc : m'.currentCacheSize = m.currentCacheSize) : Accounted m' b := by
  have hsome : m'.files f = some file' := by rw [hm, Function.update_self]
  refine h.put f (fun _ => hst) hm (.inr ⟨by rw [hf]; rfl, ho⟩)
    (fun g hg data' => by rw [hp]; exact isWritten_erase_of_ne hg) ?_ (absurd hst) (absurd hst)
  rw [countedSize_of_written hf ⟨w, hwrite⟩, countedSize_of_ready hsome (by rw [hs']; exact fun h => by cases h),
    NodeFile.cacheSize, NodeFile.cacheSize, hd, hc]

/-- The environment keeps the accounts. -/
theorem env (h : Accounted m b) (hfl : Flights m) (hs : EnvStep cfg m m') : Accounted m' b := by
  cases hs with
  | completeRead f buffer hp hst =>
    refine h.same ⟨id, rfl, rfl, rfl, fun _ => rfl, fun _ _ => ?_⟩
    exact (isWritten_cons rfl).trans (isWritten_erase rfl)
  | completeEvict f data hp =>
    exact h.same ⟨id, rfl, rfl, rfl, fun _ => rfl, fun _ _ => isWritten_complete hp⟩
  | completeFlush f data hp =>
    refine h.same ⟨id, rfl, rfl, rfl, fun _ => rfl, fun _ _ => ?_⟩
    exact (isWritten_cons rfl).trans (isWritten_erase rfl)
  | readCb f buffer file data hp hf hd => exact h.loaded hfl hp hf rfl rfl rfl rfl rfl rfl rfl
  | evicted f data file hp ho hf hm hs => exact h.evicted hfl hp hf hs rfl rfl rfl rfl rfl rfl
  | reloaded f data file owner hp ho ho' hf hm hs =>
    exact h.reloaded ⟨f, ho'⟩ hp hf rfl rfl rfl rfl rfl rfl
  | stuck f data owner hp ho ho' =>
    -- a worker that waits for itself has no request in flight
    rcases ho with ho | ⟨ho, hf⟩
    · exact absurd hp (hfl.locks.dead f data true ho)
    · exact absurd (hfl.fileMutex_free f ho) hf
  | flushCb f data file hp hf =>
    have hsame : SameSizes m { m with
        files := Function.update m.files f (some { file with isModified := false }) } :=
      .of_file hf rfl rfl rfl rfl rfl rfl rfl rfl
    exact h.same ⟨id, rfl, rfl, rfl, hsame.shape, fun _ _ => isWritten_erase rfl⟩
  | maintenance busy _ hl hc =>
    have hfl' : Flights { m with loaders := m.loaders - 1 } := hfl.congr (fun _ => rfl) rfl rfl rfl
    have h' : Accounted { m with loaders := m.loaders - 1 } b :=
      ⟨h.nodup, h.mem, h.cache, h.write, h.frozen⟩
    exact h'.maintenance hfl' hc

end Accounted

/-! ### Runs -/

/-- The accounts of a cache whose client has the pins and the uncounted node of a ledger. -/
structure Audited (m : CacheState) (x : Ledger) : Prop where
  pins : PinSim m x.1
  flights : Flights m
  accounts : Accounted m x.2

theorem Audited.opened (storage : LongId → Option ByteVec) :
    Audited (.opened storage) (.init, false) :=
  ⟨PinSim.opened storage, Flights.opened storage, Accounted.opened storage⟩

theorem audited_simulates (cfg : Config) :
    (cacheMachine cfg).Simulates Proper Ledger.step Audited where
  client {m m' x o r} c h hok hc ho := by
    obtain ⟨b', hb⟩ : ∃ b', Ledger.uncounted o x.1 x.2 = some b' := by
      obtain ⟨y, hy⟩ := Option.isSome_iff_exists.1 (ho .plain)
      obtain ⟨b', hb, -⟩ := Option.bind_eq_some_iff.1 hy
      exact ⟨b', hb⟩
    have hpins : ∀ c', (PinState.step c' o x.1).isSome := fun c' => by
      have := ho c'
      rwa [Ledger.step, hb, Option.bind_some, Option.isSome_map] at this
    obtain ⟨c', σ', hstep, hpin⟩ := h.pins.client hc hpins
    exact ⟨c', (σ', b'), by rw [Ledger.step, hb, Option.bind_some, hstep]; rfl, hpin,
      h.flights.client (.of_client hc), h.accounts.client h.flights h.pins hok hb (hpins .plain) hc⟩
  env {m m' x} d h hd :=
    ⟨h.pins.env (.of_env hd), h.flights.env (.of_env hd), h.accounts.env h.flights (.of_env hd)⟩

end MegaTree
