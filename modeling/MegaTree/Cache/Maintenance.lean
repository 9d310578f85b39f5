import MegaTree.Cache.Sizes
import MegaTree.Tree.Session
import MegaTree.Store.View

/-!
# How much `cacheMaintenance` evicts

`cacheMaintenance` goes through the files from the back of the LRU list and evicts those that it
can, until it has evicted `number_to_evict` nodes.  At the end of the list it aborts if it has not
evicted *more* than that.

* `Maintained`, `evict` : the loop with the ways it ends; `evictLoop_eq` relates it to the cache.
* `Evicts` : what the cache looks like after some files were evicted.
* `evict_eq` : the files that the loop meets, and how it ends.
* `justEnough_iff` : when a call evicts just enough, and aborts only when it must.
-/

namespace MegaTree

/-- How `cacheMaintenance` ends. -/
inductive Maintained
  /-- It returned. -/
  | finished (m : CacheState)
  /-- It aborted: there is no space in the cache and nothing more to evict. -/
  | outOfSpace (m : CacheState)
  /-- It aborted: a file of a read-only tree would have to be written. -/
  | readOnly (m : CacheState)

/-- The state of a cache that goes on. -/
def Maintained.toOption : Maintained → Option CacheState
  | finished m => some m
  | _ => none

namespace CacheState

/-- The branch of `cacheMaintenance` that a file of the tree takes when it can be evicted. -/
def evictFile (m : CacheState) (f : LongId) (file : NodeFile) : CacheState :=
  if file.isModified then m.startEvict f file else m.dropFile f file

/-- The loop of `cacheMaintenance` with the message before each `abort()`. -/
def evict (cfg : Config) (busy : LongId → Bool) (numberToEvict : Int32) :
    List LongId → Int32 → CacheState → Maintained
  | [], numberEvicted, m =>
    if numberEvicted ≤ numberToEvict then .outOfSpace m else .finished m
  | f :: fs, numberEvicted, m =>
    if numberEvicted < numberToEvict then
      match m.files f with
      | none => evict cfg busy numberToEvict fs numberEvicted m
      | some file =>
        if busy f || file.nodeState != .loaded || decide (0 < file.useCount) then
          evict cfg busy numberToEvict fs numberEvicted m
        else if file.isModified && cfg.readOnly then .readOnly m
        else
          evict cfg busy numberToEvict fs (numberEvicted + file.cacheSize.toInt32)
            (m.evictFile f file)
    else .finished m

/-- `number_to_evict` -/
def numberToEvict (cfg : Config) (m : CacheState) : Int32 :=
  (m.currentCacheSize - cfg.maxCacheSize - m.currentWriteSize).toInt32

/-- `cacheMaintenance()`, for a thread that has got `file_cache_mutex`. -/
def maintain (cfg : Config) (busy : LongId → Bool) (m : CacheState) : Maintained :=
  evict cfg busy (m.numberToEvict cfg) m.order.reverse 0 m

variable {cfg : Config} {busy : LongId → Bool} {t e : Int32} {m m' m₀ : CacheState} {f g : LongId}
  {file : NodeFile} {fs l taken : List LongId}

theorem evictLoop_eq : evictLoop cfg busy t fs e m = (evict cfg busy t fs e m).toOption := by
  induction fs generalizing e m with
  | nil => rw [evictLoop, evict]; split_ifs <;> rfl
  | cons f fs ih =>
    rw [evictLoop, evict]
    by_cases he : e < t
    · rw [if_pos he, if_pos he]
      cases m.files f with
      | none => exact ih
      | some file =>
        simp only
        by_cases hskip : (busy f || file.nodeState != .loaded || decide (0 < file.useCount)) = true
        · rw [if_pos hskip, if_pos hskip]
          exact ih
        · rw [if_neg hskip, if_neg hskip, ih, ih, evictFile]
          cases file.isModified <;> cases cfg.readOnly <;> rfl
    · rw [if_neg he, if_neg he]
      rfl

/-- What the machine sees of a call. -/
theorem cacheMaintenance_eq (ho : m.owner .fileCacheMutex = none) :
    m.cacheMaintenance cfg busy = (m.maintain cfg busy).toOption := by
  rw [cacheMaintenance, if_pos ho, evictLoop_eq]
  rfl

/-! ### The files that can be evicted -/

/-- The file is lockable, `LOADED` and unused. -/
def isEvictable (m : CacheState) (busy : LongId → Bool) (f : LongId) : Bool :=
  !busy f && (m.files f).any fun file => file.nodeState == .loaded && file.useCount == 0

/-- `isModified()` of the object of a file. -/
def isDirty (m : CacheState) (f : LongId) : Bool := (m.files f).any NodeFile.isModified

/-- The files that can be evicted, the least recently used first. -/
def candidates (m : CacheState) (busy : LongId → Bool) : List LongId :=
  m.order.reverse.filter (m.isEvictable busy)

/-- The write that the eviction of a modified file starts. -/
def evictionWrite (m : CacheState) (f : LongId) : Option (LongId × Request) :=
  (m.files f).bind fun file =>
    if file.isModified then some (f, .evict (serialize file.data) false) else none

/-- The files `taken` were evicted: the unmodified ones are deleted, one write is in flight for each
of the others, and nothing else has changed. -/
structure Evicts (m : CacheState) (taken : List LongId) (m' : CacheState) : Prop where
  kept : ∀ f, f ∉ taken → m'.files f = m.files f
  deleted : ∀ f ∈ taken, m.isDirty f = false → m'.files f = none
  started : ∀ f ∈ taken, ∀ file, m.files f = some file → file.isModified = true →
    m'.files f = some { file with nodeState := .evicting }
  order : m'.order = m.order.filter fun f => !(decide (f ∈ taken) && !m.isDirty f)
  writes : m'.pending = ↑(taken.filterMap m.evictionWrite) + m.pending
  cacheSize : m'.currentCacheSize =
    m.currentCacheSize - .ofNat (m.sizes (taken.filter fun f => !m.isDirty f))
  writeSize : m'.currentWriteSize =
    m.currentWriteSize + .ofNat (m.sizes (taken.filter fun f => m.isDirty f))
  storage : m'.storage = m.storage
  loaders : m'.loaders = m.loaders
  remaining : m'.remaining = m.remaining
  owner : m'.owner = m.owner
  marked : m'.marked = m.marked

theorem isEvictable_iff : m.isEvictable busy f = true ↔
    busy f = false ∧ ∃ file, m.files f = some file ∧ file.nodeState = .loaded ∧
    file.useCount = 0 := by
  simp [isEvictable, Option.any_eq_true]

theorem isDirty_of_some (hf : m.files f = some file) : m.isDirty f = file.isModified := by
  rw [isDirty, hf]
  rfl

theorem Evicts.refl : Evicts m [] m where
  kept _ _ := rfl
  deleted _ h := by cases h
  started _ h := by cases h
  order := by simp
  writes := by simp
  cacheSize := by simp
  writeSize := by simp
  storage := rfl
  loaders := rfl
  remaining := rfl
  owner := rfl
  marked := rfl

theorem files_startEvict : (m.startEvict f file).files =
    Function.update m.files f (some { file with nodeState := .evicting }) := rfl

theorem files_dropFile : (m.dropFile f file).files = Function.update m.files f none := rfl

/-- One more file is written. -/
theorem Evicts.start (h : Evicts m taken m') (hg : g ∉ taken) (hf : m.files g = some file)
    (hm : file.isModified = true) : Evicts m (taken ++ [g]) (m'.startEvict g file) := by
  have hdirty : m.isDirty g = true := by rw [isDirty_of_some hf, hm]
  have hsize := sizeOf_of_some hf
  have hne : ∀ f ∈ taken, f ≠ g := fun f hft e => hg (e ▸ hft)
  refine ⟨fun f hft => ?_, fun f hft hd => ?_, fun f hft file' hfile hd => ?_, ?_, ?_, ?_, ?_,
    h.storage, h.loaders, h.remaining, h.owner, h.marked⟩
  · rw [List.mem_append, List.mem_singleton, not_or] at hft
    rw [files_startEvict, Function.update_of_ne hft.2, h.kept f hft.1]
  · rcases List.mem_append.1 hft with hft | hft
    · rw [files_startEvict, Function.update_of_ne (hne f hft), h.deleted f hft hd]
    · rw [List.mem_singleton.1 hft, hdirty] at hd
      cases hd
  · rcases List.mem_append.1 hft with hft | hft
    · rw [files_startEvict, Function.update_of_ne (hne f hft), h.started f hft file' hfile hd]
    · obtain rfl := List.mem_singleton.1 hft
      rw [hf] at hfile
      rw [files_startEvict, Function.update_self, Option.some.inj hfile]
  · change m'.order = _
    rw [h.order]
    refine List.filter_congr fun f _ => ?_
    by_cases hfg : f = g
    · simp [hfg, hdirty]
    · simp [hfg]
  · change (g, Request.evict (serialize file.data) false) ::ₘ m'.pending = _
    have hw : m.evictionWrite g = some (g, .evict (serialize file.data) false) := by
      simp [evictionWrite, hf, hm]
    rw [h.writes, List.filterMap_append, ← Multiset.coe_add, List.filterMap_cons_some hw,
      List.filterMap_nil, Multiset.coe_singleton, add_right_comm,
        ← Multiset.singleton_add, add_comm]
  · change m'.currentCacheSize = _
    rw [h.cacheSize, List.filter_append]
    simp [hdirty]
  · change m'.currentWriteSize + file.cacheSize = _
    rw [h.writeSize, List.filter_append]
    simp [hdirty, hsize, UInt32.ofNat_add, UInt32.add_assoc]

/-- One more file is deleted. -/
theorem Evicts.drop (h : Evicts m taken m') (hnd : m.order.Nodup) (hg : g ∉ taken)
    (hf : m.files g = some file) (hm : file.isModified = false) :
    Evicts m (taken ++ [g]) (m'.dropFile g file) := by
  have hdirty : m.isDirty g = false := by rw [isDirty_of_some hf, hm]
  have hsize := sizeOf_of_some hf
  refine ⟨fun f hft => ?_, fun f hft hd => ?_, fun f hft file' hfile hd => ?_, ?_, ?_, ?_, ?_,
    h.storage, h.loaders, h.remaining, h.owner, h.marked⟩
  · rw [List.mem_append, List.mem_singleton, not_or] at hft
    rw [files_dropFile, Function.update_of_ne hft.2, h.kept f hft.1]
  · by_cases hfg : f = g
    · rw [hfg, files_dropFile, Function.update_self]
    · have hft : f ∈ taken := (List.mem_append.1 hft).resolve_right fun h =>
        hfg (List.mem_singleton.1 h)
      rw [files_dropFile, Function.update_of_ne hfg, h.deleted f hft hd]
  · have hne : f ≠ g := by
      rintro rfl
      rw [hf] at hfile
      rw [← Option.some.inj hfile, hm] at hd
      cases hd
    have hft : f ∈ taken := (List.mem_append.1 hft).resolve_right fun h =>
      hne (List.mem_singleton.1 h)
    rw [files_dropFile, Function.update_of_ne hne, h.started f hft file' hfile hd]
  · change m'.order.erase g = _
    rw [h.order, (hnd.filter _).erase_eq_filter, List.filter_filter]
    refine List.filter_congr fun f _ => ?_
    by_cases hfg : f = g
    · simp [hfg, hdirty]
    · simp [hfg]
  · change m'.pending = _
    have hw : m.evictionWrite g = none := by simp [evictionWrite, hf, hm]
    rw [h.writes, List.filterMap_append]
    simp [hw]
  · change m'.currentCacheSize - file.cacheSize = _
    have hsizes : m.sizes ((taken ++ [g]).filter fun f => !m.isDirty f) =
        m.sizes (taken.filter fun f => !m.isDirty f) + file.cacheSize.toNat := by
      rw [List.filter_append, sizes_append]
      simp [hdirty, hsize]
    rw [h.cacheSize, hsizes, UInt32.ofNat_add, UInt32.ofNat_toNat]
    simp only [UInt32.sub_eq_add_neg, UInt32.neg_add, UInt32.add_assoc]
  · change m'.currentWriteSize = _
    rw [h.writeSize, List.filter_append]
    simp [hdirty]

/-- One more file is evicted. -/
theorem Evicts.evictFile (h : Evicts m taken m') (hnd : m.order.Nodup) (hg : g ∉ taken)
    (hf : m.files g = some file) : Evicts m (taken ++ [g]) (m'.evictFile g file) := by
  cases hm : file.isModified with
  | true =>
    rw [CacheState.evictFile, if_pos hm]
    exact h.start hg hf hm
  | false =>
    rw [CacheState.evictFile, hm, if_neg Bool.false_ne_true]
    exact h.drop hnd hg hf hm

/-! ### The loop -/

/-- A file that cannot be evicted is skipped. -/
theorem evict_skip (he : e < t) (hf : m.isEvictable busy f = false) :
    evict cfg busy t (f :: fs) e m = evict cfg busy t fs e m := by
  rw [evict, if_pos he]
  cases hfile : m.files f with
  | none => rfl
  | some file =>
    simp only
    rw [if_pos]
    by_contra hskip
    simp only [Bool.or_eq_true, bne_iff_ne, decide_eq_true_eq, not_or, not_not,
      Bool.not_eq_true] at hskip
    have := isEvictable_iff.2 ⟨hskip.1.1, file, hfile, hskip.1.2, by omega⟩
    rw [hf] at this
    cases this

/-- A file that can be evicted is evicted, unless it would have to be written and must not be. -/
theorem evict_take (he : e < t) (hf : m.isEvictable busy f = true) (hfile : m.files f = some file) :
    evict cfg busy t (f :: fs) e m =
      if file.isModified && cfg.readOnly then .readOnly m
      else evict cfg busy t fs (e + file.cacheSize.toInt32) (m.evictFile f file) := by
  obtain ⟨hbusy, file', hfile', hs, hu⟩ := isEvictable_iff.1 hf
  obtain rfl := Option.some.inj (hfile.symm.trans hfile')
  rw [evict, if_pos he, hfile]
  simp [hbusy, hs, hu]

theorem ofNat_toNat (x : UInt32) : Int32.ofNat x.toNat = x.toInt32 :=
  Int32.toBitVec_inj.1 (by simp)

/-- The loop goes through a first part of the list, and counts what it evicts there. -/
structure Scanned (cfg : Config) (busy : LongId → Bool) (t : Int32) (m : CacheState)
    (done : List LongId) (m' : CacheState) : Prop where
  evicts : Evicts m (done.filter (m.isEvictable busy)) m'
  tested : ∀ l f, l ++ [f] <+: done →
    Int32.ofNat (m.sizes (l.filter (m.isEvictable busy))) < t
  writable : cfg.readOnly = true → ∀ f ∈ done.filter (m.isEvictable busy), m.isDirty f = false

theorem Scanned.nil : Scanned cfg busy t m [] m where
  evicts := .refl
  tested l f h := by simp at h
  writable _ f h := by cases h

/-- One more file was tested. -/
theorem Scanned.concat {done : List LongId} (h : Scanned cfg busy t m done m')
    (ht : Int32.ofNat (m.sizes (done.filter (m.isEvictable busy))) < t)
    (hev : Evicts m ((done ++ [f]).filter (m.isEvictable busy)) m₀)
    (hw : cfg.readOnly = true → m.isEvictable busy f = true → m.isDirty f = false) :
    Scanned cfg busy t m (done ++ [f]) m₀ where
  evicts := hev
  tested l g hl := by
    rcases List.prefix_concat_iff.1 (by simpa using hl) with he | he
    · obtain ⟨rfl, -⟩ := List.append_inj' he rfl
      exact ht
    · exact h.tested l g he
  writable hr g hg := by
    rw [List.filter_append, List.mem_append] at hg
    rcases hg with hg | hg
    · exact h.writable hr g hg
    · obtain ⟨hgf, hgev⟩ := List.mem_filter.1 hg
      obtain rfl := List.mem_singleton.1 hgf
      exact hw hr hgev

/-- How the loop ends after a part of the list: at the end of the list, or because it has evicted
enough, or because a file of a read-only tree would have to be written. -/
inductive Ends (cfg : Config) (busy : LongId → Bool) (t : Int32) (m : CacheState)
    (done rest : List LongId) (m' : CacheState) : Maintained → Prop
  | outOfSpace (hr : rest = [])
      (h : Int32.ofNat (m.sizes (done.filter (m.isEvictable busy))) ≤ t) :
      Ends cfg busy t m done rest m' (.outOfSpace m')
  | finished (h : t ≤ Int32.ofNat (m.sizes (done.filter (m.isEvictable busy))))
      (hr : rest = [] → t < Int32.ofNat (m.sizes (done.filter (m.isEvictable busy)))) :
      Ends cfg busy t m done rest m' (.finished m')
  | readOnly (f : LongId) (hf : [f] <+: rest) (hev : m.isEvictable busy f = true)
      (hd : m.isDirty f = true) (hro : cfg.readOnly = true)
      (h : Int32.ofNat (m.sizes (done.filter (m.isEvictable busy))) < t) :
      Ends cfg busy t m done rest m' (.readOnly m')

/-- What the loop does. -/
theorem evict_eq {done : List LongId} (hnd : m.order.Nodup) (hfs : (done ++ fs).Nodup)
    (h : Scanned cfg busy t m done m') : ∃ done' rest m'', done' ++ rest = done ++ fs ∧
      Scanned cfg busy t m done' m'' ∧ Ends cfg busy t m done' rest m''
        (evict cfg busy t fs (.ofNat (m.sizes (done.filter (m.isEvictable busy)))) m') := by
  induction fs generalizing done m' with
  | nil =>
    refine ⟨done, [], m', rfl, h, ?_⟩
    rw [evict]
    split_ifs with hle
    · exact .outOfSpace rfl hle
    · exact .finished (Int32.le_of_lt (Int32.not_le.1 hle)) fun _ => Int32.not_le.1 hle
  | cons f fs ih =>
    by_cases ht : Int32.ofNat (m.sizes (done.filter (m.isEvictable busy))) < t
    · have hfdone : f ∉ done := fun hmem =>
        (List.nodup_append.1 hfs).2.2 f hmem f List.mem_cons_self rfl
      have hftaken : f ∉ done.filter (m.isEvictable busy) := fun hmem =>
        hfdone (List.mem_of_mem_filter hmem)
      have happ : done ++ f :: fs = (done ++ [f]) ++ fs := by simp
      have hkept := h.evicts.kept f hftaken
      have hsame : m'.isEvictable busy f = m.isEvictable busy f := by
        rw [isEvictable, isEvictable, hkept]
      cases hev : m.isEvictable busy f with
      | false =>
        rw [evict_skip ht (hsame.trans hev)]
        have hfilter : (done ++ [f]).filter (m.isEvictable busy) =
            done.filter (m.isEvictable busy) := by
          rw [List.filter_append]
          simp [hev]
        rw [happ, ← hfilter]
        refine ih (happ ▸ hfs) (h.concat ht (hfilter ▸ h.evicts) fun _ hev' => ?_)
        rw [hev] at hev'
        cases hev'
      | true =>
        obtain ⟨-, file, hfile, -, -⟩ := isEvictable_iff.1 hev
        have hdirty := isDirty_of_some hfile
        rw [evict_take ht (hsame.trans hev) (hkept.trans hfile)]
        split_ifs with hro
        · obtain ⟨hm, hro⟩ := Bool.and_eq_true_iff.1 hro
          exact ⟨done, f :: fs, m', rfl, h, .readOnly f (by simp) hev (hdirty.trans hm) hro ht⟩
        · have hfilter : (done ++ [f]).filter (m.isEvictable busy) =
              done.filter (m.isEvictable busy) ++ [f] := by
            rw [List.filter_append]
            simp [hev]
          have hsum : Int32.ofNat (m.sizes ((done ++ [f]).filter (m.isEvictable busy))) =
              Int32.ofNat (m.sizes (done.filter (m.isEvictable busy))) + file.cacheSize.toInt32 := by
            rw [hfilter, sizes_append, sizes_cons, sizes_nil, Nat.add_zero, sizeOf_of_some hfile,
              Int32.ofNat_add, ofNat_toNat]
          rw [happ, ← hsum]
          refine ih (happ ▸ hfs) (h.concat ht ?_ fun hr _ => ?_)
          · rw [hfilter]
            exact h.evicts.evictFile hnd hftaken hfile
          · rw [hdirty]
            simpa [hr] using hro
    · refine ⟨done, f :: fs, m', rfl, h, ?_⟩
      rw [evict, if_neg ht]
      exact .finished (Int32.not_lt.1 ht) fun h => by cases h

/-! ### Exactly enough -/

/-- No file was evicted after the number was reached. -/
def Needed (m : CacheState) (number : ℤ) (taken : List LongId) : Prop :=
  ∀ l f, l ++ [f] <+: taken → (m.sizes l : ℤ) < number

/-- A call evicts just enough and aborts for lack of space only when it must: it evicts a first part
of the files that can be evicted, starting at the back, until the number is reached; and it aborts
for lack of space when all of them are not enough.  A read-only tree stops at a file that has to be
written. -/
def JustEnough (cfg : Config) (busy : LongId → Bool) (m : CacheState) : Maintained → Prop
  | .finished m' => ∃ taken, taken <+: m.candidates busy ∧ Evicts m taken m' ∧
      Needed m (m.numberToEvict cfg).toInt taken ∧ (m.numberToEvict cfg).toInt ≤ m.sizes taken
  | .outOfSpace m' => Evicts m (m.candidates busy) m' ∧
      m.sizes (m.candidates busy) < (m.numberToEvict cfg).toInt
  | .readOnly m' => cfg.readOnly = true ∧ ∃ taken f, taken ++ [f] <+: m.candidates busy ∧
      m.isDirty f = true ∧ Evicts m taken m' ∧ m.sizes taken < (m.numberToEvict cfg).toInt

/-- A read-only tree has a modified file among those that have to be evicted. -/
def Refused (cfg : Config) (busy : LongId → Bool) (m : CacheState) : Prop :=
  cfg.readOnly = true ∧ ∃ l f, l ++ [f] <+: m.candidates busy ∧ m.isDirty f = true ∧
    m.sizes l < (m.numberToEvict cfg).toInt

/-- The files that have to be evicted are counted without overflow of an `int`. -/
def Fits (cfg : Config) (busy : LongId → Bool) (m : CacheState) : Prop :=
  ∀ l f, l ++ [f] <+: m.candidates busy → m.sizes l < (m.numberToEvict cfg).toInt →
    m.sizes (l ++ [f]) < 2 ^ 31

/-- All files that can be evicted have exactly as many nodes as have to be evicted, and the most
recently used file, if there is one, has some of them. -/
def UsesUp (cfg : Config) (busy : LongId → Bool) (m : CacheState) : Prop :=
  m.sizes (m.candidates busy) = (m.numberToEvict cfg).toInt ∧
    ∀ f, m.order.head? = some f → m.isEvictable busy f = true ∧ 0 < m.sizeOf f

section Lists

variable {α : Type} {p : α → Bool} {xs ys zs : List α} {x : α}

theorem exists_prefix_of_filter (h : ys ++ [x] <+: xs.filter p) :
    ∃ zs, zs ++ [x] <+: xs ∧ zs.filter p = ys := by
  obtain ⟨rest, hrest⟩ := h
  rw [List.append_assoc, eq_comm, List.filter_eq_append_iff] at hrest
  obtain ⟨l₁, l₂, rfl, rfl, h₂⟩ := hrest
  rw [List.singleton_append, List.filter_eq_cons_iff] at h₂
  obtain ⟨l₃, l₄, rfl, hno, -, -⟩ := h₂
  refine ⟨l₁ ++ l₃, ⟨l₄, by simp⟩, ?_⟩
  rw [List.filter_append, List.filter_eq_nil_iff.2 hno, List.append_nil]

/-- Of two beginnings of a list one is a beginning of the other. -/
theorem concat_isPrefix_or (h₁ : ys <+: xs) (h₂ : zs ++ [x] <+: xs) :
    zs ++ [x] <+: ys ∨ ys <+: zs := by
  rcases List.prefix_or_prefix_of_prefix h₁ h₂ with h | h
  · rcases List.prefix_concat_iff.1 (by simpa using h) with he | he
    · exact .inl ⟨[], by simp [he]⟩
    · exact .inr he
  · exact .inl h

end Lists

/-- An evicted file is no longer as it was. -/
theorem Evicts.files_ne (h : Evicts m taken m') (hf : f ∈ taken)
    (hev : m.isEvictable busy f = true) : m'.files f ≠ m.files f := by
  obtain ⟨-, file, hfile, hs, -⟩ := isEvictable_iff.1 hev
  have hdirty := isDirty_of_some hfile
  cases hm : file.isModified with
  | false =>
    rw [h.deleted f hf (hdirty.trans hm), hfile]
    exact nofun
  | true =>
    rw [h.started f hf file hfile hm, hfile]
    intro he
    have := congrArg NodeFile.nodeState (Option.some.inj he)
    rw [hs] at this
    cases this

/-- The cache shows which files were evicted. -/
theorem Evicts.unique {taken' : List LongId} (hnd : m.order.Nodup)
    (ht : taken <+: m.candidates busy) (ht' : taken' <+: m.candidates busy)
    (h : Evicts m taken m') (h' : Evicts m taken' m') : taken = taken' := by
  have hcs : (m.candidates busy).Nodup := (List.nodup_reverse.2 hnd).filter _
  have eq_of_isPrefix : ∀ {xs ys : List LongId}, ys <+: m.candidates busy → Evicts m xs m' →
      Evicts m ys m' → xs <+: ys → xs = ys := by
    rintro xs ys hys hxs' hys' ⟨rest, rfl⟩
    cases rest with
    | nil => simp
    | cons f rest =>
      have hf : f ∉ xs := fun hmem =>
        (List.nodup_append.1 (hcs.sublist hys.sublist)).2.2 f hmem f List.mem_cons_self rfl
      have hmem : f ∈ xs ++ f :: rest := by simp
      have hev := (List.mem_filter.1 (hys.subset hmem)).2
      exact absurd (hxs'.kept f hf) (hys'.files_ne hmem hev)
  rcases List.prefix_or_prefix_of_prefix ht ht' with hle | hle
  · exact eq_of_isPrefix ht' h h' hle
  · exact (eq_of_isPrefix ht h' h hle).symm

/-- With exact counters the nodes that can be evicted count. -/
theorem SizesExact.candidates_le (h : m.SizesExact) (busy : LongId → Bool) :
    m.sizes (m.candidates busy) ≤ m.currentCacheSize.toNat := by
  have hsub : (m.order.filter (m.isEvictable busy)).Sublist (m.order.filter m.isCounted) := by
    have himp : ∀ f, m.isEvictable busy f = true → m.isCounted f = true := by
      intro f hf
      obtain ⟨-, file, hfile, hs, -⟩ := isEvictable_iff.1 hf
      rw [isCounted, hfile]
      simp [hs]
    rw [show m.order.filter (m.isEvictable busy) =
        (m.order.filter m.isCounted).filter (m.isEvictable busy) by
      rw [List.filter_filter]
      refine List.filter_congr fun f _ => ?_
      cases hf : m.isEvictable busy f with
      | false => rfl
      | true => simp [himp f hf]]
    exact List.filter_sublist
  calc m.sizes (m.candidates busy)
      = m.sizes (m.order.filter (m.isEvictable busy)) :=
        sizes_perm ((List.reverse_perm _).filter _)
    _ ≤ m.cachedNodes := sizes_sublist hsub
    _ = m.currentCacheSize.toNat := h.cache.symm

/-- They fit in an `unsigned`. -/
theorem SizesExact.candidates_lt (h : m.SizesExact) (busy : LongId → Bool) :
    m.sizes (m.candidates busy) < 2 ^ 32 :=
  (h.candidates_le busy).trans_lt m.currentCacheSize.toNat_lt

/-- A number of nodes as an `int`. -/
theorem toInt_ofNat_le {x : ℕ} (hx : x < 2 ^ 32) : (Int32.ofNat x).toInt ≤ x ∧
    (x < 2 ^ 31 → (Int32.ofNat x).toInt = x) ∧ (2 ^ 31 ≤ x → (Int32.ofNat x).toInt < 0) := by
  rw [Int32.toInt_ofNat', Int.bmod_def]
  simp only [Int32.size]
  refine ⟨?_, fun h => ?_, fun h => ?_⟩ <;> split <;> omega

namespace Scanned

variable {done rest : List LongId}

/-- The files that were evicted are a first part of those that can be. -/
theorem taken_isPrefix (busy : LongId → Bool) (hlist : done ++ rest = m.order.reverse) :
    done.filter (m.isEvictable busy) <+: m.candidates busy := by
  rw [candidates, ← hlist, List.filter_append]
  exact List.prefix_append _ _

theorem tested_taken (h : Scanned cfg busy t m done m')
    (hl : l ++ [f] <+: done.filter (m.isEvictable busy)) : Int32.ofNat (m.sizes l) < t := by
  obtain ⟨zs, hzs, rfl⟩ := exists_prefix_of_filter hl
  exact h.tested zs f hzs

/-- Without overflow the loop stops as soon as enough is evicted. -/
theorem needed (h : Scanned cfg busy (m.numberToEvict cfg) m done m')
    (hlist : done ++ rest = m.order.reverse) (hsz : m.SizesExact) (hfit : Fits cfg busy m) :
    Needed m (m.numberToEvict cfg).toInt (done.filter (m.isEvictable busy)) := by
  intro l f hl
  have ht := Int32.lt_iff_toInt_lt.1 (h.tested_taken hl)
  have hcs := hl.trans (taken_isPrefix busy hlist)
  have hlt : m.sizes l < 2 ^ 32 :=
    (sizes_sublist ((List.prefix_append l [f]).trans hcs).sublist).trans_lt (hsz.candidates_lt busy)
  -- the sum before the last file did not overflow, since the number was not reached before it
  have h31 : m.sizes l < 2 ^ 31 := by
    induction l using List.reverseRecOn generalizing f with
    | nil => simp
    | append_singleton l g ih =>
      have hl' : l ++ [g] <+: done.filter (m.isEvictable busy) := (List.prefix_append _ _).trans hl
      have hcs' := hl'.trans (taken_isPrefix busy hlist)
      have hlt' : m.sizes l < 2 ^ 32 :=
        (sizes_sublist ((List.prefix_append l [g]).trans hcs').sublist).trans_lt
          (hsz.candidates_lt busy)
      have ht' := Int32.lt_iff_toInt_lt.1 (h.tested_taken hl')
      refine hfit l g hcs' ?_
      rw [(toInt_ofNat_le hlt').2.1 (ih g hl' ht' hcs' hlt')] at ht'
      exact ht'
  rwa [(toInt_ofNat_le hlt).2.1 h31] at ht

theorem taken_lt (busy : LongId → Bool) (hlist : done ++ rest = m.order.reverse)
    (hsz : m.SizesExact) :
    m.sizes (done.filter (m.isEvictable busy)) < 2 ^ 32 :=
  (sizes_sublist (taken_isPrefix busy hlist).sublist).trans_lt (hsz.candidates_lt busy)

/-- Without overflow the evicted files are counted exactly. -/
theorem taken_fits (h : Scanned cfg busy (m.numberToEvict cfg) m done m')
    (hlist : done ++ rest = m.order.reverse) (hsz : m.SizesExact) (hfit : Fits cfg busy m) :
    m.sizes (done.filter (m.isEvictable busy)) < 2 ^ 31 := by
  have hneeded := h.needed hlist hsz hfit
  have hpre := taken_isPrefix busy hlist
  rcases List.eq_nil_or_concat (done.filter (m.isEvictable busy)) with he | ⟨l, f, he⟩
  · rw [he]
    simp
  · rw [List.concat_eq_append] at he
    rw [he] at hpre ⊢
    exact hfit l f hpre (hneeded l f (by rw [he]))

/-- A read-only tree was not refused a write as long as the loop went on. -/
theorem not_mem_dirty (h : Scanned cfg busy t m done m') (hro : cfg.readOnly = true)
    (hl : l ++ [f] <+: done.filter (m.isEvictable busy)) : m.isDirty f = false :=
  h.writable hro f (hl.subset (by simp))

end Scanned

section Verdict

variable {done rest : List LongId}

/-- The nodes that can be evicted, without and with the most recently used file. -/
theorem sizes_candidates (busy : LongId → Bool) {order : List LongId}
    (hord : m.order = f :: order) :
    m.sizes (m.candidates busy) = m.sizes (order.reverse.filter (m.isEvictable busy)) +
      if m.isEvictable busy f = true then m.sizeOf f else 0 := by
  rw [candidates, hord, List.reverse_cons, List.filter_append, sizes_append]
  split_ifs with h <;> simp [h]

/-- When the call returns. -/
theorem justEnough_finished_iff (hnd : m.order.Nodup) (hsz : m.SizesExact)
    (hlist : done ++ rest = m.order.reverse)
    (h : Scanned cfg busy (m.numberToEvict cfg) m done m')
    (hle : m.numberToEvict cfg ≤ Int32.ofNat (m.sizes (done.filter (m.isEvictable busy))))
    (hrest : rest = [] →
      m.numberToEvict cfg < Int32.ofNat (m.sizes (done.filter (m.isEvictable busy)))) :
    JustEnough cfg busy m (.finished m') ↔
      Refused cfg busy m ∨ (Fits cfg busy m ∧ ¬ UsesUp cfg busy m) := by
  have hpre := Scanned.taken_isPrefix busy hlist
  have hlt := Scanned.taken_lt busy hlist hsz
  set taken := done.filter (m.isEvictable busy) with htaken
  rw [Int32.le_iff_toInt_le] at hle
  have hreached : (m.numberToEvict cfg).toInt ≤ m.sizes taken := hle.trans (toInt_ofNat_le hlt).1
  -- a file that has to be evicted was evicted
  have hmem : ∀ l f, l ++ [f] <+: m.candidates busy → m.sizes l < (m.numberToEvict cfg).toInt →
      l ++ [f] <+: taken := by
    intro l f hl hlt
    refine (concat_isPrefix_or hpre hl).resolve_right fun hle' => ?_
    have := sizes_sublist (m := m) hle'.sublist
    omega
  have hrefused : ¬ Refused cfg busy m := by
    rintro ⟨hro, l, f, hl, hd, hlt⟩
    rw [h.not_mem_dirty hro (hmem l f hl hlt)] at hd
    cases hd
  rw [or_iff_right hrefused]
  constructor
  · rintro ⟨taken', hpre', hev, hneeded, -⟩
    obtain rfl := Evicts.unique hnd hpre' hpre hev h.evicts
    have h31 : m.sizes taken < 2 ^ 31 := by
      by_contra hge
      have hneg := (toInt_ofNat_le hlt).2.2 (by omega)
      rcases List.eq_nil_or_concat taken with he | ⟨l, f, he⟩
      · rw [he] at hge
        simp at hge
      · rw [List.concat_eq_append] at he
        have := hneeded l f (by rw [he])
        omega
    refine ⟨fun l f hl hlt' => ?_, fun ⟨heq, hmru⟩ => ?_⟩
    · exact (sizes_sublist (hmem l f hl hlt').sublist).trans_lt h31
    · -- the last file would have to be missing
      have htail : m.sizes (m.candidates busy) = m.sizes taken := by
        have := sizes_sublist (m := m) hpre.sublist
        omega
      obtain ⟨tail, hcs⟩ := hpre
      have hexact := (toInt_ofNat_le hlt).2.1 h31
      by_cases hr : rest = []
      · have := Int32.lt_iff_toInt_lt.1 (hrest hr)
        omega
      · obtain ⟨f, order, hord⟩ : ∃ f order, m.order = f :: order := by
          cases hm : m.order with
          | nil =>
            rw [hm] at hlist
            exact absurd (List.append_eq_nil_iff.1 hlist).2 hr
          | cons f order => exact ⟨f, order, rfl⟩
        obtain ⟨hevf, hpos⟩ := hmru f (by rw [hord]; rfl)
        obtain ⟨init, g, hrest'⟩ := (List.eq_nil_or_concat rest).resolve_left hr
        rw [hrest', hord, List.reverse_cons, List.concat_eq_append, ← List.append_assoc] at hlist
        obtain ⟨hinit, -⟩ := List.append_inj' hlist rfl
        have hsum := sizes_candidates busy hord
        rw [← hinit, List.filter_append, sizes_append, if_pos hevf, ← htaken] at hsum
        omega
  · rintro ⟨hfit, -⟩
    exact ⟨taken, hpre, h.evicts, h.needed hlist hsz hfit, hreached⟩

/-- When the call aborts for lack of space. -/
theorem justEnough_outOfSpace_iff (hsz : m.SizesExact) (hlist : done = m.order.reverse)
    (h : Scanned cfg busy (m.numberToEvict cfg) m done m')
    (hle : Int32.ofNat (m.sizes (done.filter (m.isEvictable busy))) ≤ m.numberToEvict cfg) :
    JustEnough cfg busy m (.outOfSpace m') ↔
      Refused cfg busy m ∨ (Fits cfg busy m ∧ ¬ UsesUp cfg busy m) := by
  have hlist' : done ++ [] = m.order.reverse := (List.append_nil done).trans hlist
  have hall : done.filter (m.isEvictable busy) = m.candidates busy := by rw [hlist, candidates]
  have hlt := hsz.candidates_lt busy
  have hrefused : ¬ Refused cfg busy m := by
    rintro ⟨hro, l, f, hl, hd, -⟩
    rw [h.not_mem_dirty hro (hall ▸ hl)] at hd
    cases hd
  rw [or_iff_right hrefused]
  constructor
  · rintro ⟨-, hfew⟩
    refine ⟨fun l f hl _ => ?_, fun ⟨heq, _⟩ => by omega⟩
    have hmax := (m.numberToEvict cfg).toInt_lt
    have := sizes_sublist (m := m) hl.sublist
    omega
  · rintro ⟨hfit, hno⟩
    have h31 := h.taken_fits hlist' hsz hfit
    rw [Int32.le_iff_toInt_le, hall] at hle
    rw [hall] at h31
    rw [(toInt_ofNat_le hlt).2.1 h31] at hle
    refine ⟨hall ▸ h.evicts, lt_of_le_of_ne hle fun heq => hno ⟨heq, fun f hf => ?_⟩⟩
    -- the test before the most recently used file was passed
    obtain ⟨order, hord⟩ : ∃ order, m.order = f :: order := by
      cases hm : m.order with
      | nil => rw [hm] at hf; cases hf
      | cons g order =>
        rw [hm] at hf
        exact ⟨order, by rw [← Option.some.inj hf]⟩
    have hsum := sizes_candidates busy hord
    have htest := h.tested order.reverse f (by rw [hlist, hord, List.reverse_cons])
    rw [Int32.lt_iff_toInt_lt, (toInt_ofNat_le (by omega)).2.1 (by omega)] at htest
    by_cases hev : m.isEvictable busy f = true
    · rw [if_pos hev] at hsum
      exact ⟨hev, by omega⟩
    · rw [if_neg hev] at hsum
      omega

/-- When a read-only tree would have to be written. -/
theorem justEnough_readOnly_iff (hsz : m.SizesExact) (hlist : done ++ rest = m.order.reverse)
    (h : Scanned cfg busy (m.numberToEvict cfg) m done m') (hf : [f] <+: rest)
    (hev : m.isEvictable busy f = true) (hd : m.isDirty f = true) (hro : cfg.readOnly = true)
    (hlt : Int32.ofNat (m.sizes (done.filter (m.isEvictable busy))) < m.numberToEvict cfg) :
    JustEnough cfg busy m (.readOnly m') ↔
      Refused cfg busy m ∨ (Fits cfg busy m ∧ ¬ UsesUp cfg busy m) := by
  have hpre := Scanned.taken_isPrefix busy hlist
  have hnext : done.filter (m.isEvictable busy) ++ [f] <+: m.candidates busy := by
    obtain ⟨rest', rfl⟩ := hf
    rw [candidates, ← hlist, List.filter_append, List.filter_append]
    exact ⟨rest'.filter (m.isEvictable busy), by simp [hev]⟩
  constructor
  · rintro ⟨-, taken, g, hp, hdg, -, hfew⟩
    exact .inl ⟨hro, taken, g, hp, hdg, hfew⟩
  · intro hcond
    refine ⟨hro, _, f, hnext, hd, h.evicts, ?_⟩
    rcases hcond with ⟨-, l, g, hl, hdg, hfew⟩ | ⟨hfit, -⟩
    · rcases concat_isPrefix_or hpre hl with hle | hle
      · rw [h.not_mem_dirty hro hle] at hdg
        cases hdg
      · have := sizes_sublist (m := m) hle.sublist
        omega
    · rw [Int32.lt_iff_toInt_lt,
        (toInt_ofNat_le (Scanned.taken_lt busy hlist hsz)).2.1 (h.taken_fits hlist hsz hfit)] at hlt
      exact hlt

end Verdict

end CacheState

/-! ### A cache that is used up -/

/-- A cache of two nodes. -/
def Config.tight : Config := { Config.sample with maxCacheSize := 2 }

/-- A tree with two nodes in the first file and one in the file below it. -/
def twoFiles (f : LongId) : Option ByteVec :=
  if f = .ofValue 0 then
    some (serialize (((FileData.empty.setChildFile 1).setNode (shortOf .tight [])
      (Node.new.setChild 0)).setNode (shortOf .tight [0]) (Node.new.setChild 0)))
  else if f = rootId then some (serialize (FileData.empty.setNode (shortOf .tight [0, 0]) .new))
  else none

/-- The calls of a client that holds on to the nodes of the first file only. -/
def holdFirst : List Call := [.getRoot, .getChildNode 0 0, .getChildNode 1 0, .releaseNode 2]

open CacheState in
/-- Two nodes of a cache for two nodes are in use when a third one was read, and that one can be
evicted. -/
theorem exists_tight_run : ∃ s m, (cacheMachine .tight).Run (fun _ _ => True)
      (life .tight false holdFirst) (.opened twoFiles) (.ret s) m ∧ 0 < m.loaders ∧
    m.order.Nodup ∧ m.SizesExact ∧ UsesUp .tight (fun _ => false) m ∧
    ∃ m', m.maintain .tight (fun _ => false) = .outOfSpace m' := by
  let read (f : LongId) : List (CacheChoice ⊕ Event) :=
    [.inr (.complete f (.read none)), .inr (.callback f (.read (twoFiles f)))]
  let schedule : List (CacheChoice ⊕ Event) := .inl .plain :: read (.ofValue 0) ++
    .inr (.maintenance fun _ => false) :: List.replicate 12 (.inl .plain) ++ read rootId
  let usesUp (m : CacheState) : Bool :=
    decide ((m.sizes (m.candidates fun _ => false) : ℤ) = (m.numberToEvict .tight).toInt) &&
      m.order.head?.all fun f => m.isEvictable (fun _ => false) f && decide (0 < m.sizeOf f)
  let test (x : TreeM Client × CacheState) : Bool :=
    (match x.1 with | .ret _ => true | _ => false) && decide (0 < x.2.loaders) &&
      decide x.2.order.Nodup && decide (x.2.currentCacheSize.toNat = x.2.cachedNodes) &&
      decide (x.2.currentWriteSize.toNat = x.2.writingNodes) && usesUp x.2 &&
      (match x.2.maintain .tight fun _ => false with | .outOfSpace _ => true | _ => false)
  have hplay : ((cacheMachine .tight).play schedule (life .tight false holdFirst)
      (.opened twoFiles)).any test = true := by decide +kernel
  obtain ⟨⟨q, m⟩, hrun, htest⟩ := (Option.any_eq_true _ _).1 hplay
  simp only [test, usesUp, Bool.and_eq_true, decide_eq_true_eq] at htest
  obtain ⟨⟨⟨⟨⟨⟨hret, hload⟩, hnd⟩, hcache⟩, hwrite⟩, hsum, hmru⟩, hout⟩ := htest
  obtain ⟨s, rfl⟩ : ∃ s, q = .ret s := by
    cases q with
    | ret s => exact ⟨s, rfl⟩
    | fail e => cases hret
    | call o k => cases hret
  refine ⟨s, m, .of_play hrun, hload, hnd, ⟨hcache, hwrite⟩, ⟨hsum, fun f hf => ?_⟩, ?_⟩
  · rw [hf, Option.all_some, Bool.and_eq_true, decide_eq_true_eq] at hmru
    exact hmru
  · cases hm : m.maintain .tight fun _ => false with
    | outOfSpace m' => exact ⟨m', rfl⟩
    | finished m' => rw [hm] at hout; cases hout
    | readOnly m' => rw [hm] at hout; cases hout

end MegaTree
