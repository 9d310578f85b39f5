import MegaTree.Cache.Rounds
import MegaTree.Cache.Accounting

/-!
# What the storage has of a file

`Backed` is an invariant of the cache that does not mention what the client does with the tree.  A
file that is neither modified nor has a marked handle is in the storage as it is in memory, a write in
flight has the contents of a file that is not `LOADING`, and a file that is being read will be what is
stored.

* `AllBacked.client`, `AllBacked.env` : every step keeps it, as long as the client is `Careful`.
-/

namespace MegaTree

open Effect

variable {cfg : Config} {m m' : CacheState} {f g : LongId} {file file' : NodeFile} {data : ByteVec}
  {w : Bool} {v : FileView} {r : Request} {k : ℕ}

/-! ### One file -/

/-- What a request writes, and whether the write is complete. -/
def Request.write : Request → Option (ByteVec × Bool)
  | .read _ => none
  | .evict data w => some (data, w)
  | .flush data w => some (data, w)

/-- The storage has every node of a file that is being read. -/
def Covers (stored : Option ByteVec) (nodes : NodeMap) : Prop :=
  ∀ d, stored = some (serialize d) → ∀ s : ShortId, d.nodeCache[s]? = none → nodes[s]? = none

/-- What the storage has of a file, or will have. -/
structure Backed (v : FileView) : Prop where
  stored : ∀ b, v.stored = some b → ∃ d, b = serialize d
  writes : ∀ r ∈ v.requests, ∀ data w, r.write = some (data, w) →
    (∃ d, data = serialize d) ∧ (w = true → v.stored = some data)
  frozen : ∀ file, v.file = some file → file.nodeState ≠ .loading → ∀ r ∈ v.requests,
    ∀ data w, r.write = some (data, w) → data = serialize file.data
  clean : ∀ file, v.file = some file → file.nodeState ≠ .loading → file.isModified = false →
    v.marked = 0 → v.stored = some (serialize file.data)
  loading : ∀ file, v.file = some file → file.nodeState = .loading →
    ∀ r ∈ v.requests, r.isFlush = false
  reading : ∀ file buffer, v.file = some file → .read buffer ∈ v.requests →
    Covers v.stored file.data.nodeCache ∧ ∀ b, buffer = some b → v.stored = some b

theorem covers_empty (stored : Option ByteVec) : Covers stored ∅ :=
  fun _ _ _ _ => Std.ExtTreeMap.getElem?_empty

namespace Backed

/-- A file without requests. -/
theorem idle (hr : v.requests = 0) (hst : ∀ b, v.stored = some b → ∃ d, b = serialize d)
    (hc : ∀ file, v.file = some file → file.nodeState ≠ .loading → file.isModified = false →
      v.marked = 0 → v.stored = some (serialize file.data)) : Backed v := by
  have hno : ∀ {r}, r ∉ v.requests := fun {r} h => Multiset.notMem_zero r (hr ▸ h)
  exact ⟨hst, fun _ h => absurd h hno, fun _ _ _ _ h => absurd h hno, hc,
    fun _ _ _ _ h => absurd h hno, fun _ _ _ h => absurd h hno⟩

/-- An object is put in the place of another one, outside of `flushCache`. -/
theorem edit (h : Backed v) (hf : v.file = some file) (hflush : ∀ r ∈ v.requests, r.isFlush = false)
    (hwrite : file'.nodeState ≠ .loading → v.requests = 0)
    (hread : (∃ buffer, .read buffer ∈ v.requests) → Covers v.stored file.data.nodeCache →
      Covers v.stored file'.data.nodeCache)
    (hclean : file'.nodeState ≠ .loading → file'.isModified = false → k = 0 →
      v.stored = some (serialize file'.data)) :
    Backed ⟨some file', v.stored, v.requests, k⟩ where
  stored := h.stored
  writes := h.writes
  frozen x hx hs r hr := by
    obtain rfl := Option.some.inj hx
    change r ∈ v.requests at hr
    rw [hwrite hs] at hr
    exact absurd hr (Multiset.notMem_zero r)
  clean x hx := by
    obtain rfl := Option.some.inj hx
    exact hclean
  loading _ _ _ := hflush
  reading x buffer hx hr := by
    obtain rfl := Option.some.inj hx
    obtain ⟨hcov, hb⟩ := h.reading file buffer hf hr
    exact ⟨hread ⟨buffer, hr⟩ hcov, hb⟩

/-- A write is completed: it wrote what the object has, or the object is loading. -/
theorem complete {r' : Request} {rest : Multiset Request} (h : Backed v)
    (hr : v.requests = r ::ₘ rest)
    (hw : r.write = some (data, w)) (hw' : r'.write = some (data, true))
    (hflush : r'.isFlush = r.isFlush)
    (hother : ∀ r₁ ∈ rest, ∀ data' w', r₁.write = some (data', w') → data' = data)
    (hno : ∀ buffer, .read buffer ∉ rest) :
    Backed ⟨v.file, some data, r' ::ₘ rest, v.marked⟩ where
  stored b hb := by
    obtain rfl := Option.some.inj hb
    exact (h.writes r (hr ▸ Multiset.mem_cons_self ..) _ w hw).1
  writes r₁ hr₁ data' w' hw₁ := by
    rcases Multiset.mem_cons.1 hr₁ with rfl | hr₁
    · rw [hw'] at hw₁
      obtain ⟨rfl, rfl⟩ := Prod.mk.inj (Option.some.inj hw₁)
      exact ⟨(h.writes r (hr ▸ Multiset.mem_cons_self ..) _ w hw).1, fun _ => rfl⟩
    · have hmem : r₁ ∈ v.requests := hr ▸ Multiset.mem_cons_of_mem hr₁
      exact ⟨(h.writes r₁ hmem data' w' hw₁).1, fun _ => by rw [hother r₁ hr₁ data' w' hw₁]⟩
  frozen x hx hs r₁ hr₁ data' w' hw₁ := by
    have hdata := h.frozen x hx hs r (hr ▸ Multiset.mem_cons_self ..) data w hw
    rcases Multiset.mem_cons.1 hr₁ with rfl | hr₁
    · rw [hw'] at hw₁
      obtain ⟨rfl, rfl⟩ := Prod.mk.inj (Option.some.inj hw₁)
      exact hdata
    · exact h.frozen x hx hs r₁ (hr ▸ Multiset.mem_cons_of_mem hr₁) data' w' hw₁
  clean x hx hs hm hk := by
    rw [h.frozen x hx hs r (hr ▸ Multiset.mem_cons_self ..) data w hw]
  loading x hx hs r₁ hr₁ := by
    rcases Multiset.mem_cons.1 hr₁ with rfl | hr₁
    · rw [hflush]
      exact h.loading x hx hs r (hr ▸ Multiset.mem_cons_self ..)
    · exact h.loading x hx hs r₁ (hr ▸ Multiset.mem_cons_of_mem hr₁)
  reading x buffer hx hr₁ := by
    rcases Multiset.mem_cons.1 hr₁ with rfl | hr₁
    · cases hw'
    · exact absurd hr₁ (hno buffer)

end Backed

/-! ### All files -/

/-- The storage backs every file. -/
def AllBacked (m : CacheState) : Prop := ∀ f, Backed (m.view f)

namespace AllBacked

theorem opened {storage : LongId → Option ByteVec}
    (h : ∀ f b, storage f = some b → ∃ d, b = serialize d) :
    AllBacked (.opened storage) := fun f => .idle rfl (h f) fun _ hf => (nomatch hf)

/-- A step that concerns one file. -/
theorem update (h : AllBacked m) (f : LongId) (hm : ∀ g, g ≠ f → m'.view g = m.view g)
    (hf : Backed (m'.view f)) : AllBacked m' := by
  intro g
  by_cases hg : g = f
  · rw [hg]
    exact hf
  · rw [hm g hg]
    exact h g

/-! ### Eviction -/

theorem dropFile (h : AllBacked m) (hfl : Flights m) (ho : m.owner .fileCacheMutex = none)
    (hf : m.files f = some file) (hs : file.nodeState = .loaded) :
    AllBacked (m.dropFile f file) := by
  refine h.update f (fun g hg => ?_) (.idle (hfl.inFlight_of_loaded_file ho hf hs) (h f).stored ?_)
  · simp [CacheState.view, CacheState.dropFile, hg]
  · intro x hx
    rw [CacheState.view_file, CacheState.files_dropFile, Function.update_self] at hx
    cases hx

theorem startEvict (h : AllBacked m) (hfl : Flights m) (ho : m.owner .fileCacheMutex = none)
    (hf : m.files f = some file) (hs : file.nodeState = .loaded) (hm : file.isModified = true) :
    AllBacked (m.startEvict f file) := by
  have hreq : ((m.startEvict f file).view f).requests = {.evict (serialize file.data) false} :=
    inFlight_cons_self.trans (congrArg _ (hfl.inFlight_of_loaded_file ho hf hs))
  have hfile : ((m.startEvict f file).view f).file = some { file with nodeState := .evicting } :=
    Function.update_self ..
  have hwrite : ∀ r ∈ ((m.startEvict f file).view f).requests, r =
    .evict (serialize file.data) false :=
    fun r hr => Multiset.mem_singleton.1 (hreq ▸ hr)
  refine h.update f (fun g hg => ?_) ⟨(h f).stored, ?_, ?_, ?_, ?_, ?_⟩
  · simp [CacheState.view, CacheState.startEvict, inFlight_cons_of_ne hg, hg]
  · intro r hr data w hw
    rw [hwrite r hr] at hw
    obtain ⟨rfl, rfl⟩ := Prod.mk.inj (Option.some.inj hw)
    exact ⟨⟨_, rfl⟩, fun h => by cases h⟩
  · intro x hx _ r hr data w hw
    obtain rfl := Option.some.inj (hfile.symm.trans hx)
    rw [hwrite r hr] at hw
    exact (Prod.mk.inj (Option.some.inj hw)).1.symm
  · intro x hx _ hmod
    obtain rfl := Option.some.inj (hfile.symm.trans hx)
    exact absurd hm (by simp [show file.isModified = false from hmod])
  · intro x hx hl
    obtain rfl := Option.some.inj (hfile.symm.trans hx)
    cases hl
  · intro x buffer hx hr
    cases hwrite _ hr

theorem maintenance {busy : LongId → Bool} (h : AllBacked m) (hfl : Flights m)
    (hc : m.cacheMaintenance cfg busy = some m') : AllBacked m' := by
  refine (CacheState.cacheMaintenance_induct (P := fun m => AllBacked m ∧ Flights m ∧
    m.owner .fileCacheMutex = none) ?_ ?_ hc ⟨h, hfl, Flights.free_of_maintenance hc⟩).1
  · rintro m f file ⟨h, hfl, ho⟩ hf hs - -
    exact ⟨h.dropFile hfl ho hf hs, hfl.dropFile ho hf hs, ho⟩
  · rintro m f file ⟨h, hfl, ho⟩ hf hs - hm
    exact ⟨h.startEvict hfl ho hf hs hm, hfl.startEvict ho hf hs, ho⟩

/-! ### The environment -/

theorem completeRead (h : AllBacked m) (hfl : Flights m) {buffer : ByteVec}
    (hp : (f, .read none) ∈ m.pending) (hst : m.storage f = some buffer) : AllBacked { m with
      pending := (f, .read (some buffer)) ::ₘ m.pending.erase (f, .read none) } := by
  obtain ⟨-, hr⟩ := (hfl.file f).of_read (mem_inFlight.2 hp)
  have hreq : inFlight ((f, Request.read (some buffer)) ::ₘ m.pending.erase (f, .read none)) f =
      {.read (some buffer)} := by
    rw [inFlight_cons_self, inFlight_erase_self hp, hr, Multiset.erase_singleton]
    rfl
  have hread : ∀ r ∈ inFlight ((f, Request.read (some buffer)) ::ₘ m.pending.erase (f, .read none)) f,
      r = .read (some buffer) := fun r hr => Multiset.mem_singleton.1 (hreq ▸ hr)
  refine h.update f (fun g hg => ?_) ⟨(h f).stored, ?_, ?_, (h f).clean, ?_, ?_⟩
  · simp [CacheState.view, inFlight_cons_of_ne hg, inFlight_erase_of_ne hg]
  · intro r hr data w hw
    rw [hread r hr] at hw
    cases hw
  · intro x _ _ r hr data w hw
    rw [hread r hr] at hw
    cases hw
  · intro x _ _ r hr
    rw [hread r hr]
    rfl
  · intro x b hx hr
    refine ⟨((h f).reading x none hx (mem_inFlight.2 hp)).1, ?_⟩
    rintro b' rfl
    cases hread _ hr
    exact hst

theorem completeEvict (h : AllBacked m) (hfl : Flights m)
    (hp : (f, .evict data false) ∈ m.pending) :
    AllBacked { m with
      storage := Function.update m.storage f (some data)
      pending := (f, .evict data true) ::ₘ m.pending.erase (f, .evict data false) } := by
  obtain ⟨hs, rest, hr, hrest⟩ := (hfl.file f).of_evict (mem_inFlight.2 hp)
  obtain ⟨file, hf⟩ : ∃ file, m.files f = some file := by
    cases hf : m.files f with
    | some file => exact ⟨file, rfl⟩
    | none =>
      rw [CacheState.state, hf] at hs
      rcases hs with hs | hs <;> cases hs
  have hview : Backed ⟨m.files f, some data, .evict data true ::ₘ rest, m.marked f⟩ := by
    refine (h f).complete hr rfl rfl rfl (fun r₁ hr₁ data' w' hw₁ => ?_) fun buffer hb => by
      cases hrest _ hb
    -- another write is one of `flushCache`, which does not write a file that is loading
    have hmem : r₁ ∈ inFlight m.pending f := hr ▸ Multiset.mem_cons_of_mem hr₁
    have hne : file.nodeState ≠ .loading := fun hl => by
      have := (h f).loading file hf hl r₁ hmem
      rw [hrest r₁ hr₁] at this
      cases this
    rw [(h f).frozen file hf hne r₁ hmem data' w' hw₁,
      (h f).frozen file hf hne _ (mem_inFlight.2 hp) data false rfl]
  refine h.update f (fun g hg => ?_) ?_
  · simp [CacheState.view, inFlight_cons_of_ne hg, inFlight_erase_of_ne hg, hg]
  · rw [CacheState.view, inFlight_cons_self, inFlight_erase_self hp, hr, Multiset.erase_cons_head]
    simp only [Function.update_self]
    exact hview

/-- The object that a request of `flushCache` belongs to. -/
theorem file_of_flush (h : AllBacked m) (hfl : Flights m) (hp : (f, .flush data w) ∈ m.pending) :
    ∃ file, m.files f = some file ∧ file.nodeState ≠ .loading := by
  cases hf : m.files f with
  | none =>
    have hmem := mem_inFlight.2 hp
    rw [hfl.inFlight_of_none hf] at hmem
    exact absurd hmem (Multiset.notMem_zero _)
  | some file => exact ⟨file, rfl, fun hl => by cases (h f).loading file hf hl _ (mem_inFlight.2 hp)⟩

theorem no_read_of_flush (hfl : Flights m) (hp : (f, .flush data w) ∈ m.pending)
    (buffer : Option ByteVec) : .read buffer ∉ inFlight m.pending f := by
  intro hr
  have hmem := mem_inFlight.2 hp
  rw [((hfl.file f).of_read hr).2, Multiset.mem_singleton] at hmem
  cases hmem

theorem completeFlush (h : AllBacked m) (hfl : Flights m)
    (hp : (f, .flush data false) ∈ m.pending) :
    AllBacked { m with
      storage := Function.update m.storage f (some data)
      pending := (f, .flush data true) ::ₘ m.pending.erase (f, .flush data false) } := by
  obtain ⟨file, hf, hne⟩ := h.file_of_flush hfl hp
  have hr := inFlight_erase hp
  have hview : Backed ⟨m.files f, some data,
      .flush data true ::ₘ inFlight (m.pending.erase (f, .flush data false)) f, m.marked f⟩ := by
    refine (h f).complete hr rfl rfl rfl (fun r₁ hr₁ data' w' hw₁ => ?_) fun buffer hb =>
      no_read_of_flush hfl hp buffer (hr ▸ Multiset.mem_cons_of_mem hb)
    have hmem : r₁ ∈ inFlight m.pending f := hr ▸ Multiset.mem_cons_of_mem hr₁
    rw [(h f).frozen file hf hne r₁ hmem data' w' hw₁,
      (h f).frozen file hf hne _ (mem_inFlight.2 hp) data false rfl]
  refine h.update f (fun g hg => ?_) ?_
  · simp [CacheState.view, inFlight_cons_of_ne hg, inFlight_erase_of_ne hg, hg]
  · rw [CacheState.view, inFlight_cons_self]
    simp only [Function.update_self]
    exact hview

theorem readCb (h : AllBacked m) (hfl : Flights m) {buffer : ByteVec} {d : FileData} {size : UInt32}
    {loaders : ℕ} (hp : (f, .read (some buffer)) ∈ m.pending) (hf : m.files f = some file)
    (hd : deserialize buffer file.data.nodeCache = some d) : AllBacked { m with
      files := Function.update m.files f
        (some { file with nodeState := .loaded, data := d, isModified := false })
      pending := m.pending.erase (f, .read (some buffer))
      currentCacheSize := size
      loaders := loaders } := by
  obtain ⟨-, hr⟩ := (hfl.file f).of_read (mem_inFlight.2 hp)
  obtain ⟨hcov, hb⟩ := (h f).reading file (some buffer) hf (mem_inFlight.2 hp)
  have hst : m.storage f = some buffer := hb buffer rfl
  obtain ⟨d', rfl⟩ := (h f).stored buffer hst
  -- the placeholders are nodes of the file, so the object has what is stored
  obtain rfl : d' = d := Option.some.inj
    ((deserialize_serialize_of_covered (hcov d' hst)).symm.trans hd)
  refine h.update f (fun g hg => ?_) (.idle ?_ (h f).stored ?_)
  · simp [CacheState.view, inFlight_erase_of_ne hg, hg]
  · rw [CacheState.view_requests, inFlight_erase_self hp, hr, Multiset.erase_singleton]
  · intro x hx _ _ _
    simp only [CacheState.view_file, Function.update_self] at hx
    obtain rfl := Option.some.inj hx
    exact hst

theorem flushCb (h : AllBacked m) (hfl : Flights m) {remaining : ℕ}
    (hp : (f, .flush data true) ∈ m.pending) (hf : m.files f = some file) : AllBacked { m with
      files := Function.update m.files f (some { file with isModified := false })
      pending := m.pending.erase (f, .flush data true)
      remaining := remaining } := by
  have hne : file.nodeState ≠ .loading := fun hl => by
    cases (h f).loading file hf hl _ (mem_inFlight.2 hp)
  have hsub : ∀ {r}, r ∈ inFlight (m.pending.erase (f, .flush data true)) f →
      r ∈ inFlight m.pending f := fun hr => inFlight_erase hp ▸ Multiset.mem_cons_of_mem hr
  have hfile := Function.update_self f (some { file with isModified := false }) m.files
  refine h.update f (fun g hg => ?_) ⟨(h f).stored, fun r hr =>
    (h f).writes r (hsub hr), ?_, ?_, ?_, ?_⟩
  · simp [CacheState.view, inFlight_erase_of_ne hg, hg]
  · intro x hx hs r hr
    obtain rfl := Option.some.inj (hfile.symm.trans hx)
    exact (h f).frozen file hf hne r (hsub hr)
  · intro x hx _ _ _
    obtain rfl := Option.some.inj (hfile.symm.trans hx)
    have hdata := (h f).frozen file hf hne _ (mem_inFlight.2 hp) data true rfl
    exact hdata ▸ ((h f).writes _ (mem_inFlight.2 hp) data true rfl).2 rfl
  · intro x hx hl
    obtain rfl := Option.some.inj (hfile.symm.trans hx)
    exact absurd hl hne
  · intro x buffer _ hr
    exact absurd (hsub hr) (no_read_of_flush hfl hp buffer)

/-- The storage and its callbacks keep what the storage has, unless a callback gets stuck. -/
theorem env (h : AllBacked m) (hfl : Flights m) (hs : EnvStep cfg m m') :
    Stuck m' ∨ AllBacked m' := by
  cases hs with
  | completeRead f buffer hp hst => exact .inr (h.completeRead hfl hp hst)
  | completeEvict f data hp => exact .inr (h.completeEvict hfl hp)
  | completeFlush f data hp => exact .inr (h.completeFlush hfl hp)
  | readCb f buffer file data hp hf hd => exact .inr (h.readCb hfl hp hf hd)
  | evicted f data file hp ho hf hm hs =>
    refine .inr (h.update f (fun g hg => ?_) (.idle ?_ (h f).stored fun x hx => ?_))
    · simp [CacheState.view, inFlight_erase_of_ne hg, hg]
    · exact hfl.inFlight_erase_evict hp (by rw [ho]; exact fun h => by cases h)
    · simp only [CacheState.view_file, Function.update_self] at hx
      cases hx
  | reloaded f data file owner hp ho ho' hf hm hs => exact .inl ⟨f, ho'⟩
  | stuck f data owner hp ho ho' => exact .inl ⟨f, ho'⟩
  | flushCb f data file hp hf => exact .inr (h.flushCb hfl hp hf)
  | maintenance busy _ hl hc =>
    have h' : AllBacked { m with loaders := m.loaders - 1 } := h
    exact .inr (h'.maintenance (hfl.congr (fun _ => rfl) rfl rfl rfl) hc)

end AllBacked

/-! ### The client -/

/-- What the client has to keep to.  The fields of a node in a file that is not `LOADING` are only
written when the file is modified or has a marked handle, or gets one by this write; a node that a file
does not have is not requested while the file is read; and `flushCache` does not come across a file
that was requested again during its eviction and has not been written with its contents. -/
def Careful (m : CacheState) : CacheOp → Prop
  | .setNode f s n w => w ≠ .first → ∀ file, m.files f = some file → file.nodeState ≠ .loading →
      file.isModified = true ∨ 0 < m.marked f ∨ file.data.setNode s n = file.data
  | .readNode f s => ∀ file, m.files f = some file → file.data.nodeCache[s]? = none →
      (∃ buffer, (f, .read buffer) ∈ m.pending) →
      ∀ d, m.storage f = some (serialize d) → (d.nodeCache[s]?).isSome
  | .flushFile f => ∀ file, m.files f = some file → file.nodeState = .loading →
      ∀ data w, (f, .evict data w) ∈ m.pending → w = true ∧ data = serialize file.data
  | _ => True

theorem Flights.loaded_of_ne (h : Flights m) (hf : m.files f = some file)
    (hl : file.nodeState ≠ .loading) (he : file.nodeState ≠ .evicting) :
    file.nodeState = .loaded := by
  have hfl := h.file f
  rw [CacheState.state, hf, Option.map_some] at hfl
  cases hfl with
  | absent hs => cases hs
  | reading buffer hs => exact absurd (Option.some.inj hs) hl
  | loaded hs => exact Option.some.inj hs
  | evicting data w rest hs =>
    rcases hs with hs | hs
    · exact absurd (Option.some.inj hs) he
    · exact absurd (Option.some.inj hs) hl

namespace AllBacked

/-- The client changes an object that is not being written. -/
theorem edit (h : AllBacked m) (hfl : Flights m) (hidle : m.owner .fileCacheMutex ≠ some .client)
    (hf : m.files f = some file) (hm : m'.files = Function.update m.files f (some file'))
    (hst : m'.storage = m.storage) (hp : m'.pending = m.pending)
    (hk : ∀ g, g ≠ f → m'.marked g = m.marked g)
    (hs : file'.nodeState ≠ .loading → file.nodeState = .loaded)
    (hread : (∃ buffer, (f, .read buffer) ∈ m.pending) → Covers (m.storage f) file.data.nodeCache →
      Covers (m.storage f) file'.data.nodeCache)
    (hclean : file'.nodeState ≠ .loading → file'.isModified = false → m'.marked f = 0 →
      m.storage f = some (serialize file'.data)) : AllBacked m' := by
  refine h.update f (fun g hg => ?_) ?_
  · simp [CacheState.view, hm, hst, hp, hk g hg, hg]
  · have := (h f).edit (k := m'.marked f) hf (flushes_eq_zero.1 (hfl.idle hidle) f) (fun hl => ?_)
      (fun hb => hread (hb.imp fun _ => mem_inFlight.1)) hclean
    · simpa only [CacheState.view, hm, hst, hp, Function.update_self] using this
    · exact hfl.inFlight_of_loaded hidle (by rw [CacheState.state, hf, Option.map_some, hs hl])

/-- A new object without nodes. -/
theorem fresh (h : AllBacked m)
    (hm : m'.files = Function.update m.files f (some file')) (hst : m'.storage = m.storage)
    (hk : m'.marked = m.marked) (hd : file'.data = .empty) (hmod : file'.nodeState ≠ .loading →
      file'.isModified = true)
    (hp : ∀ g, g ≠ f → inFlight m'.pending g = inFlight m.pending g)
    (hr : inFlight m'.pending f = 0 ∨ inFlight m'.pending f = {.read none}) : AllBacked m' := by
  have hself : (m'.view f).file = some file' := by
    rw [CacheState.view_file, hm, Function.update_self]
  have hread : ∀ r ∈ (m'.view f).requests, r = .read none := by
    intro r hmem
    rcases hr with hr | hr
    · exact absurd hmem (by rw [CacheState.view_requests, hr]; exact Multiset.notMem_zero r)
    · exact Multiset.mem_singleton.1 (hr ▸ hmem)
  refine h.update f (fun g hg => ?_) ⟨?_, ?_, ?_, ?_, ?_, ?_⟩
  · simp [CacheState.view, hm, hst, hk, hp g hg, hg]
  · intro b hb
    exact (h f).stored b (by rw [← hb, CacheState.view_stored, CacheState.view_stored, hst])
  · intro r hmem data w hw
    rw [hread r hmem] at hw
    cases hw
  · intro x _ _ r hmem data w hw
    rw [hread r hmem] at hw
    cases hw
  · intro x hx hl hno
    obtain rfl := Option.some.inj (hself.symm.trans hx)
    rw [hmod hl] at hno
    cases hno
  · intro x _ _ r hmem
    rw [hread r hmem]
    rfl
  · intro x buffer hx hmem
    obtain rfl := Option.some.inj (hself.symm.trans hx)
    cases hread _ hmem
    rw [hd]
    exact ⟨covers_empty _, fun _ h => by cases h⟩

/-- A pinned object keeps its state and nodes, and becomes modified or has the same contents. -/
theorem work (h : AllBacked m) (hfl : Flights m) (hidle : m.owner .fileCacheMutex ≠ some .client)
    (hf : m.files f = some file) (he : file.nodeState ≠ .evicting)
    (hm : m'.files = Function.update m.files f (some file')) (hst : m'.storage = m.storage)
    (hp : m'.pending = m.pending) (hk : ∀ g, g ≠ f → m'.marked g = m.marked g)
    (hs : file'.nodeState = file.nodeState)
    (hn : ∀ s : ShortId, file.data.nodeCache[s]? = none → file'.data.nodeCache[s]? = none)
    (hd : file.nodeState ≠ .loading → file'.isModified = false → m'.marked f = 0 →
      file.isModified = false ∧ m.marked f = 0 ∧ file'.data = file.data) : AllBacked m' := by
  refine h.edit hfl hidle hf hm hst hp hk (fun hl => hfl.loaded_of_ne hf (hs ▸ hl) he)
    (fun _ hcov d hd s hno => hn s (hcov d hd s hno)) fun hl hmod hzero => ?_
  obtain ⟨hmod', hzero', hdata⟩ := hd (hs ▸ hl) hmod hzero
  rw [hdata]
  exact (h f).clean file hf (hs ▸ hl) hmod' hzero'

theorem setNode {s : ShortId} {n : Node} {wr : Write} {c : CacheChoice} {r : Unit} (h : AllBacked m)
    (hfl : Flights m) (hidle : m.owner .fileCacheMutex ≠ some .client)
    (hcare : Careful m (.setNode f s n wr)) (he : ∀ file, m.files f = some file → file.nodeState ≠ .evicting)
    (hc : CacheState.client cfg c (.setNode f s n wr) m = some (r, m')) : AllBacked m' := by
  obtain ⟨file, hf, hc⟩ := Option.bind_eq_some_iff.1 hc
  obtain ⟨hn, hc⟩ := Option.ite_none_right_eq_some.1 hc
  obtain ⟨-, rfl⟩ := Prod.mk.inj (Option.some.inj hc)
  refine h.work hfl hidle hf (he file hf) rfl rfl rfl (fun g hg => Function.update_of_ne hg ..) rfl
    (fun s' hs' => ?_) fun hl hmod hzero => ?_
  · rw [FileData.getElem?_setNode, if_neg]
    · exact hs'
    · rintro rfl
      rw [hs'] at hn
      cases hn
  · simp only [Function.update_self] at hzero
    have hwr : wr ≠ .first := fun hwr => by
      rw [if_pos hwr] at hzero
      omega
    rw [if_neg hwr] at hzero
    rcases hcare hwr file hf hl with hm | hk | hd
    · rw [show file.isModified = false from hmod] at hm
      cases hm
    · omega
    · exact ⟨hmod, hzero, hd⟩

theorem readNode {s : ShortId} {c : CacheChoice} {r : Bool} (h : AllBacked m) (hfl : Flights m)
    (hidle : m.owner .fileCacheMutex ≠ some .client) (hcare : Careful m (.readNode f s))
    (he : ∀ file, m.files f = some file → file.nodeState ≠ .evicting)
    (hc : CacheState.client cfg c (.readNode f s) m = some (r, m')) : AllBacked m' := by
  obtain ⟨file, hf, ⟨-, -, rfl⟩ | ⟨hn, hs, -, rfl⟩ | ⟨-, -, rfl⟩⟩ := CacheState.readNode_cases hc
  · exact h.work hfl hidle hf (he file hf) rfl rfl rfl (fun _ _ => rfl) rfl (fun _ => id)
      fun _ hmod hzero => ⟨hmod, hzero, rfl⟩
  · refine h.edit hfl hidle hf rfl rfl rfl (fun _ _ => rfl) (fun hl => absurd hs hl)
      (fun hread hcov d hd s' hs' => ?_) fun hl => absurd hs hl
    -- the new placeholder is a node that the storage has
    rw [FileData.getElem?_setNode, if_neg]
    · exact hcov d hd s' hs'
    · rintro rfl
      have := hcare file hf hn hread d hd
      rw [hs'] at this
      cases this
  · exact h

theorem flushFile {c : CacheChoice} {r : Unit} (h : AllBacked m) (hfl : Flights m)
    (hc : CacheState.client cfg c (.flushFile f) m = some (r, m')) : AllBacked m' := by
  obtain ⟨-, file, hf, ⟨hs, hm, rfl⟩ | ⟨-, rfl⟩⟩ := CacheState.flushFile_cases hc
  · have hsplit : ∀ {r}, r ∈ inFlight ((f, Request.flush (serialize file.data) false) ::ₘ m.pending) f →
        r = .flush (serialize file.data) false ∨ r ∈ inFlight m.pending f := fun hr =>
      Multiset.mem_cons.1 (inFlight_cons_self ▸ hr)
    refine h.update f (fun g hg => ?_) ⟨(h f).stored, ?_, ?_, (h f).clean, ?_, ?_⟩
    · simp [CacheState.view, inFlight_cons_of_ne hg]
    · intro r hr data w hw
      rcases hsplit hr with rfl | hr
      · obtain ⟨rfl, rfl⟩ := Prod.mk.inj (Option.some.inj hw)
        exact ⟨⟨_, rfl⟩, fun h => by cases h⟩
      · exact (h f).writes r hr data w hw
    · intro x hx hl r hr data w hw
      obtain rfl := Option.some.inj (hf.symm.trans hx)
      rcases hsplit hr with rfl | hr
      · exact (Prod.mk.inj (Option.some.inj hw)).1.symm
      · exact (h f).frozen file hf hl r hr data w hw
    · intro x hx hl
      obtain rfl := Option.some.inj (hf.symm.trans hx)
      exact absurd hl hs
    · intro x buffer hx hr
      rcases hsplit hr with hr | hr
      · cases hr
      · exact (h f).reading x buffer hx hr
  · exact h

/-- A careful client keeps what the storage has. -/
theorem client {σ : PinState} {b b' : Bool} {o : CacheOp} {c : CacheChoice} {r : o.Res}
    (h : AllBacked m) (hfl : Flights m) (hpin : PinSim m σ) (hcare : Careful m o)
    (hb : Ledger.uncounted o σ b = some b') (hstep : (PinState.step .plain o σ).isSome)
    (hidle : (∀ r, Round.todo none o r = some none) → m.owner .fileCacheMutex ≠ some .client)
    (hc : CacheState.client cfg c o m = some (r, m')) : AllBacked m' := by
  have hpos : ∀ {f : LongId} {α : Type} {x : α}, (σ.pinned f x).isSome → 0 < σ.users f := by
    intro f α x hx
    by_contra hn
    rw [PinState.pinned, if_neg hn] at hx
    cases hx
  -- a file with users is not being evicted
  have hkept : ∀ {f : LongId}, 0 < σ.users f →
      ∀ file, m.files f = some file → file.nodeState ≠ .evicting := by
    intro f hu file hf he
    have := (hpin f).evicting file hf he
    omega
  cases o with
  | getNodeFile f =>
    have hidle := hidle fun _ => rfl
    obtain ⟨-, ⟨file, hf, rfl⟩ | ⟨hf, rfl⟩⟩ := CacheState.getNodeFile_cases hc
    · -- a file that is requested again while it is being evicted is `LOADING`
      by_cases he : file.nodeState = .evicting
      · refine h.edit hfl hidle hf rfl rfl rfl (fun _ _ => rfl) (fun hl => ?_)
          (fun _ => id) fun hl => ?_
        · exact absurd (if_pos he) hl
        · exact absurd (if_pos he) hl
      · exact h.work hfl hidle hf he rfl rfl rfl (fun _ _ => rfl) (if_neg he) (fun _ => id)
          fun _ hmod hzero => ⟨hmod, hzero, rfl⟩
    · exact h.fresh (f := f) rfl rfl rfl rfl (fun hl => absurd rfl hl)
        (fun g hg => inFlight_cons_of_ne hg)
        (.inr (inFlight_cons_self.trans (congrArg _ (hfl.inFlight_of_none hf))))
  | createNodeFile f =>
    obtain ⟨-, hf, rfl⟩ := CacheState.createNodeFile_cases hc
    exact h.fresh (f := f) rfl rfl rfl rfl (fun _ => rfl) (fun _ _ => rfl)
      (.inl (hfl.inFlight_of_none hf))
  | cacheMaintenance =>
    obtain ⟨m₁, hm, he⟩ := Option.map_eq_some_iff.1 hc
    obtain ⟨-, rfl⟩ := Prod.mk.inj he
    exact h.maintenance hfl hm
  | waitUntilLoaded f =>
    obtain ⟨file, hf, hc⟩ := Option.bind_eq_some_iff.1 hc
    split_ifs at hc
    obtain ⟨-, rfl⟩ := Prod.mk.inj (Option.some.inj hc)
    exact h
  | isLoaded f =>
    obtain ⟨file, hf, hc⟩ := Option.map_eq_some_iff.1 hc
    obtain ⟨-, rfl⟩ := Prod.mk.inj hc
    exact h
  | hasChildFile f child =>
    obtain ⟨file, hf, hc⟩ := Option.map_eq_some_iff.1 hc
    obtain ⟨-, rfl⟩ := Prod.mk.inj hc
    exact h
  | setChildFile f child =>
    obtain ⟨file, hf, hc⟩ := Option.map_eq_some_iff.1 hc
    obtain ⟨-, rfl⟩ := Prod.mk.inj hc
    exact h.work hfl (hidle fun _ => rfl) hf (hkept (hpos hstep) file hf) rfl rfl rfl
      (fun _ _ => rfl) rfl (fun _ => id) fun _ hmod => by cases hmod
  | readNode f s => exact h.readNode hfl (hidle fun _ => rfl) hcare (hkept (hpos hstep)) hc
  | createNode f s =>
    obtain ⟨file, hf, he⟩ := Option.map_eq_some_iff.1 hc
    obtain ⟨-, rfl⟩ := Prod.mk.inj he
    obtain ⟨⟨-, hready⟩, -⟩ := Option.ite_none_right_eq_some.1 hb
    have hl := (hpin f).loaded file hf (hpos hstep) hready
    refine h.edit hfl (hidle fun _ => rfl) hf rfl rfl rfl (fun _ _ => rfl) (fun _ => hl)
      ?_ fun _ hmod => by cases hmod
    -- a loaded file is not read
    rintro ⟨buffer, hread⟩
    have hstate := ((hfl.file f).of_read (mem_inFlight.2 hread)).1
    rw [CacheState.state, hf, Option.map_some, hl] at hstate
    cases hstate
  | countNode =>
    obtain ⟨-, rfl⟩ := Prod.mk.inj (Option.some.inj hc)
    exact h
  | removeUser f =>
    obtain ⟨file, hf, -, rfl⟩ := CacheState.removeUser_cases hc
    exact h.work hfl (hidle fun _ => rfl) hf (hkept (hpos hstep) file hf) rfl rfl rfl
      (fun _ _ => rfl) rfl (fun _ => id) fun _ hmod hzero => ⟨hmod, hzero, rfl⟩
  | getNode f s =>
    obtain ⟨file, hf, hc⟩ := Option.bind_eq_some_iff.1 hc
    obtain ⟨n, hn, hc⟩ := Option.map_eq_some_iff.1 hc
    obtain ⟨-, rfl⟩ := Prod.mk.inj hc
    exact h
  | setNode f s n wr =>
    have hu : 0 < σ.users f := by
      by_contra hno
      cases hns : σ.nodes f s with
      | true => exact hno ((hpin f).nodes s hns).1
      | false =>
        simp only [PinState.step, hns] at hstep
        cases hstep
    exact h.setNode hfl (hidle fun _ => rfl) hcare (hkept hu) hc
  | releaseNode f modified =>
    obtain ⟨-, file, hf, -, rfl⟩ := CacheState.releaseNode_cases hc
    refine h.work hfl (hidle fun _ => rfl) hf (hkept (hpos hstep) file hf) rfl rfl rfl
      (fun g hg => Function.update_of_ne hg ..) rfl (fun _ => id) fun _ hmod hzero => ?_
    obtain ⟨hclean, rfl⟩ := Bool.or_eq_false_iff.1 hmod
    simp only [Function.update_self] at hzero
    exact ⟨hclean, by simpa using hzero, rfl⟩
  | flushBegin =>
    obtain ⟨-, -, rfl⟩ := CacheState.flushBegin_cases hc
    exact h
  | flushFile f => exact h.flushFile hfl hc
  | flushWait =>
    obtain ⟨-, -, rfl⟩ := CacheState.flushWait_cases hc
    exact h

end AllBacked

end MegaTree
