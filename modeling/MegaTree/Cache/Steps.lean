import MegaTree.Cache.Basic

/-!
# What the steps of the cache do

* `cacheMaintenance_induct` : the eviction loop drops files and starts evictions.
* `evictNodeFileCb_cases` : how the callback of an eviction ends.
* `ClientStep`, `EnvStep` : the steps of the client and of the environment with the states they lead
  to; `ClientStep.of_client` and `EnvStep.of_env` say that there are no others.
-/

namespace MegaTree

open Effect

namespace CacheState

variable {cfg : Config} {busy : LongId → Bool} {numberToEvict : Int32} {m m' : CacheState}
  {f : LongId}

/-! ### Eviction -/

theorem evictLoop_induct {P : CacheState → Prop} {fs : List LongId} {k : Int32}
    (hdrop : ∀ m f file, P m → m.files f = some file → file.nodeState = .loaded →
      file.useCount = 0 → file.isModified = false → P (m.dropFile f file))
    (hstart : ∀ m f file, P m → m.files f = some file → file.nodeState = .loaded →
      file.useCount = 0 → file.isModified = true → P (m.startEvict f file))
    (h : evictLoop cfg busy numberToEvict fs k m = some m') (hm : P m) : P m' := by
  induction fs generalizing k m with
  | nil =>
    rw [evictLoop] at h
    split_ifs at h
    exact Option.some.inj h ▸ hm
  | cons f fs ih =>
    rw [evictLoop] at h
    by_cases hk : k < numberToEvict
    · rw [if_pos hk] at h
      cases hf : m.files f with
      | none =>
        rw [hf] at h
        exact ih h hm
      | some file =>
        simp only [hf] at h
        split_ifs at h with hskip hclean
        · exact ih h hm
        · simp only [Bool.or_eq_true, bne_iff_ne, decide_eq_true_eq, not_or, not_not] at hskip
          exact ih h (hdrop m f file hm hf hskip.1.2 (by omega) (by simpa using hclean))
        · simp only [Bool.or_eq_true, bne_iff_ne, decide_eq_true_eq, not_or, not_not] at hskip
          exact ih h (hstart m f file hm hf hskip.1.2 (by omega) (by simpa using hclean))
    · rw [if_neg hk] at h
      exact Option.some.inj h ▸ hm

/-- What survives the two kinds of eviction survives `cacheMaintenance`. -/
theorem cacheMaintenance_induct {P : CacheState → Prop}
    (hdrop : ∀ m f file, P m → m.files f = some file → file.nodeState = .loaded →
      file.useCount = 0 → file.isModified = false → P (m.dropFile f file))
    (hstart : ∀ m f file, P m → m.files f = some file → file.nodeState = .loaded →
      file.useCount = 0 → file.isModified = true → P (m.startEvict f file))
    (h : m.cacheMaintenance cfg busy = some m') (hm : P m) : P m' := by
  unfold cacheMaintenance at h
  split_ifs at h
  exact evictLoop_induct hdrop hstart h hm

/-! ### The callback of an eviction -/

/-- A mutex that was free is free again after its scope. -/
theorem owner_restored {l₁ l₂ : Lock} {t : Thread} (h₁ : m.owner l₁ = none)
    (h₂ : m.owner l₂ = none) :
    Function.update (Function.update (Function.update (Function.update m.owner l₁ (some t)) l₂
      (some t)) l₂ none) l₁ none = m.owner := by
  rw [Function.update_idem]
  funext l
  by_cases h : l = l₁
  · rw [h, Function.update_self, h₁]
  · rw [Function.update_of_ne h]
    by_cases h' : l = l₂
    · rw [h', Function.update_self, h₂]
    · rw [Function.update_of_ne h', Function.update_of_ne h]

/-- The file is gone; or the callback waits for itself, after it has set the file to `LOADED` or at
once; or it waits for another thread, or an assertion failed. -/
theorem evictNodeFileCb_cases (m : CacheState) (f : LongId) :
    (∃ file, m.files f = some file ∧ file.isModified = true ∧ file.nodeState = .evicting ∧
      m.owner .fileCacheMutex = none ∧ m.evictNodeFileCb f = .finished { m with
        files := Function.update m.files f none
        order := m.order.erase f
        currentCacheSize := m.currentCacheSize - file.cacheSize
        currentWriteSize := m.currentWriteSize - file.cacheSize }) ∨
    (∃ file owner, m.files f = some file ∧ file.isModified = true ∧ file.nodeState = .loading ∧
      m.owner .fileCacheMutex = none ∧ owner .fileCacheMutex = some (.evictNodeFileCb f) ∧
      m.evictNodeFileCb f = .deadlocked { m with
        files := Function.update m.files f
          (some { file with nodeState := .loaded, isModified := false })
        owner := owner }) ∨
    (∃ owner, (m.owner .fileCacheMutex = some (.evictNodeFileCb f) ∨
        m.owner .fileCacheMutex = none ∧ m.owner (.fileMutex f) ≠ none) ∧
      owner .fileCacheMutex = some (.evictNodeFileCb f) ∧
      m.evictNodeFileCb f = .deadlocked { m with owner := owner }) ∨
    m.evictNodeFileCb f = .blocked ∨ m.evictNodeFileCb f = .aborted := by
  have hne : Lock.fileMutex f ≠ .fileCacheMutex := fun h => nomatch h
  have hne' : Lock.fileCacheMutex ≠ .fileMutex f := fun h => nomatch h
  unfold evictNodeFileCb
  cases h₁ : m.owner .fileCacheMutex with
  | some t =>
    simp only [lock, h₁]
    by_cases ht : t = .evictNodeFileCb f
    · rw [if_pos ht]
      exact .inr (.inr (.inl ⟨m.owner, .inl (by rw [ht]), ht ▸ h₁, rfl⟩))
    · rw [if_neg ht]
      exact .inr (.inr (.inr (.inl rfl)))
  | none =>
    simp only [lock, h₁, Function.update_of_ne hne]
    cases h₂ : m.owner (.fileMutex f) with
    | some t =>
      by_cases ht : t = .evictNodeFileCb f
      · simp only [if_pos ht]
        exact .inr (.inr (.inl ⟨_, .inr ⟨trivial, by simp⟩, Function.update_self .., rfl⟩))
      · simp only [if_neg ht]
        exact .inr (.inr (.inr (.inl trivial)))
    | none =>
      cases hf : m.files f with
      | none => exact .inr (.inr (.inr (.inr rfl)))
      | some file =>
        cases hm : file.isModified with
        | false =>
          simp only [hm]
          exact .inr (.inr (.inr (.inr rfl)))
        | true =>
          cases hs : file.nodeState with
          | evicting =>
            simp only [hm, hs, if_true, unlock, owner_restored h₁ h₂]
            exact .inl ⟨file, rfl, hm, hs, trivial, rfl⟩
          | loading =>
            simp only [hm, hs, if_true, setFile, Function.update_of_ne hne', Function.update_self]
            exact .inr (.inl ⟨file, _, rfl, hm, hs, trivial, by
              rw [Function.update_of_ne hne', Function.update_self], rfl⟩)
          | loaded =>
            simp only [hm, hs, if_true]
            exact .inr (.inr (.inr (.inr trivial)))
          | invalid =>
            simp only [hm, hs, if_true]
            exact .inr (.inr (.inr (.inr trivial)))

/-! ### The client -/

variable {c : CacheChoice} {s : ShortId}

/-- The file is in the cache, or the storage is asked for it. -/
theorem getNodeFile_cases {r : Unit} (h : client cfg c (.getNodeFile f) m = some (r, m')) :
    m.owner .fileCacheMutex = none ∧
      ((∃ file, m.files f = some file ∧ m' = { m.setFile f { file with
          nodeState := if file.nodeState = .evicting then .loading else file.nodeState
          useCount := file.useCount + 1 } with order := f :: m.order.erase f }) ∨
        (m.files f = none ∧ m' = { m.setFile f ⟨.loading, .empty, 1, c.modified⟩ with
          order := f :: m.order
          pending := (f, .read none) ::ₘ m.pending })) := by
  simp only [client] at h
  split_ifs at h with ho
  refine ⟨ho, ?_⟩
  cases hf : m.files f with
  | some file =>
    rw [hf] at h
    exact .inl ⟨file, rfl, (Prod.mk.inj (Option.some.inj h)).2.symm⟩
  | none =>
    rw [hf] at h
    exact .inr ⟨rfl, (Prod.mk.inj (Option.some.inj h)).2.symm⟩

theorem createNodeFile_cases {r : Unit} (h : client cfg c (.createNodeFile f) m = some (r, m')) :
    m.owner .fileCacheMutex = none ∧ m.files f = none ∧
      m' = { m.setFile f ⟨.loaded, .empty, 1, true⟩ with order := f :: m.order } := by
  simp only [client] at h
  split_ifs at h with hfree
  exact ⟨hfree.1, Option.isNone_iff_eq_none.1 hfree.2, (Prod.mk.inj (Option.some.inj h)).2.symm⟩

/-- The file has the node, or makes a placeholder for it while it is read, or does not have it. -/
theorem readNode_cases {r : Bool} (h : client cfg c (.readNode f s) m = some (r, m')) :
    ∃ file, m.files f = some file ∧
      (((file.data.nodeCache[s]?).isSome ∧ r = true ∧
          m' = m.setFile f { file with useCount := file.useCount + 1 }) ∨
        (file.data.nodeCache[s]? = none ∧ file.nodeState = .loading ∧ r = true ∧
          m' = m.setFile f { file with
            data := file.data.setNode s c.stale.reset
            useCount := file.useCount + 1 }) ∨
        (file.data.nodeCache[s]? = none ∧ r = false ∧ m' = m)) := by
  obtain ⟨file, hf, h⟩ := Option.bind_eq_some_iff.1 h
  refine ⟨file, hf, ?_⟩
  cases hn : file.data.nodeCache[s]? with
  | some n =>
    rw [hn] at h
    obtain ⟨rfl, rfl⟩ := Prod.mk.inj (Option.some.inj h)
    exact .inl ⟨rfl, rfl, rfl⟩
  | none =>
    simp only [hn] at h
    cases hs : file.nodeState with
    | loading =>
      simp only [hs] at h
      obtain ⟨rfl, rfl⟩ := Prod.mk.inj (Option.some.inj h)
      exact .inr (.inl ⟨rfl, rfl, rfl, rfl⟩)
    | evicting =>
      simp only [hs] at h
      cases h
    | loaded =>
      simp only [hs] at h
      obtain ⟨rfl, rfl⟩ := Prod.mk.inj (Option.some.inj h)
      exact .inr (.inr ⟨rfl, rfl, rfl⟩)
    | invalid =>
      simp only [hs] at h
      obtain ⟨rfl, rfl⟩ := Prod.mk.inj (Option.some.inj h)
      exact .inr (.inr ⟨rfl, rfl, rfl⟩)

theorem removeUser_cases {r : Unit} (h : client cfg c (.removeUser f) m = some (r, m')) :
    ∃ file, m.files f = some file ∧ 0 < file.useCount ∧
      m' = m.setFile f { file with useCount := file.useCount - 1 } := by
  obtain ⟨file, hf, h⟩ := Option.bind_eq_some_iff.1 h
  obtain ⟨hu, h⟩ := Option.ite_none_right_eq_some.1 h
  exact ⟨file, hf, hu, (Prod.mk.inj (Option.some.inj h)).2.symm⟩

theorem setNode_cases {r : Unit} {n : Node} {w : Write}
    (h : client cfg c (.setNode f s n w) m = some (r, m')) :
    ∃ file, m.files f = some file ∧ (file.data.nodeCache[s]?).isSome ∧
      m' = { m.setFile f { file with data := file.data.setNode s n } with
        marked := Function.update m.marked f (m.marked f + if w = .first then 1 else 0) } := by
  obtain ⟨file, hf, h⟩ := Option.bind_eq_some_iff.1 h
  obtain ⟨hn, h⟩ := Option.ite_none_right_eq_some.1 h
  exact ⟨file, hf, hn, (Prod.mk.inj (Option.some.inj h)).2.symm⟩

theorem releaseNode_cases {r : Unit} {modified : Bool}
    (h : client cfg c (.releaseNode f modified) m = some (r, m')) :
    m.owner (.fileMutex f) = none ∧ ∃ file, m.files f = some file ∧ 0 < file.useCount ∧
      m' = { m.setFile f { file with
          isModified := file.isModified || modified
          useCount := file.useCount - 1 } with
        marked := Function.update m.marked f (m.marked f - modified.toNat) } := by
  obtain ⟨ho, h⟩ := Option.ite_none_right_eq_some.1 h
  obtain ⟨file, hf, h⟩ := Option.bind_eq_some_iff.1 h
  obtain ⟨hu, h⟩ := Option.ite_none_right_eq_some.1 h
  exact ⟨ho, file, hf, hu, (Prod.mk.inj (Option.some.inj h)).2.symm⟩

theorem flushBegin_cases {r : List LongId} (h : client cfg c .flushBegin m = some (r, m')) :
    m.owner .fileCacheMutex = none ∧ r = m.order ∧
      m' = { m with
        owner := Function.update m.owner .fileCacheMutex (some .client)
        remaining := 0 } := by
  obtain ⟨ho, h⟩ := Option.ite_none_right_eq_some.1 h
  obtain ⟨rfl, rfl⟩ := Prod.mk.inj (Option.some.inj h)
  exact ⟨ho, rfl, rfl⟩

theorem flushWait_cases {r : Unit} (h : client cfg c .flushWait m = some (r, m')) :
    m.owner .fileCacheMutex = some .client ∧ m.remaining = 0 ∧ m' = m.unlock .fileCacheMutex := by
  obtain ⟨ho, h⟩ := Option.ite_none_right_eq_some.1 h
  exact ⟨ho.1, ho.2, (Prod.mk.inj (Option.some.inj h)).2.symm⟩

/-- A round starts a write, or skips a file that is not modified or not loaded. -/
theorem flushFile_cases {r : Unit}
    (h : client cfg c (.flushFile f) m = some (r, m')) : m.owner .fileCacheMutex = some .client ∧
      ∃ file, m.files f = some file ∧
        ((file.nodeState ≠ .loading ∧ file.isModified = true ∧ m' = { m with
            remaining := m.remaining + 1
            pending := (f, .flush (serialize file.data) false) ::ₘ m.pending }) ∨
          (¬(file.nodeState ≠ .loading ∧ file.isModified = true) ∧ m' = m)) := by
  rw [client] at h
  by_cases ho : m.owner .fileCacheMutex = some .client
  · rw [if_pos ho] at h
    obtain ⟨file, hf, h⟩ := Option.bind_eq_some_iff.1 h
    refine ⟨ho, file, hf, ?_⟩
    by_cases hw : file.nodeState ≠ .loading ∧ file.isModified = true
    · rw [if_pos hw] at h
      by_cases hr : cfg.readOnly = true
      · rw [if_pos hr] at h
        cases h
      · rw [if_neg hr] at h
        exact .inl ⟨hw.1, hw.2, (Prod.mk.inj (Option.some.inj h)).2.symm⟩
    · rw [if_neg hw] at h
      exact .inr ⟨hw, (Prod.mk.inj (Option.some.inj h)).2.symm⟩
  · rw [if_neg ho] at h
    cases h

/-- Apart from evictions the client only changes or adds one file. -/
theorem client_files {o : CacheOp} {r : o.Res}
    (h : client cfg c o m = some (r, m')) (ho : o ≠ .cacheMaintenance) :
    m'.files = m.files ∨ ∃ f file, m'.files = Function.update m.files f (some file) := by
  cases o with
  | cacheMaintenance => exact absurd rfl ho
  | flushFile f =>
    obtain ⟨-, file, -, ⟨-, -, rfl⟩ | ⟨-, rfl⟩⟩ := flushFile_cases h
    · exact .inl rfl
    · exact .inl rfl
  | getNodeFile f => grind [client, setFile, Option.bind_eq_some_iff, Option.map_eq_some_iff]
  | createNodeFile f => grind [client, setFile, Option.bind_eq_some_iff, Option.map_eq_some_iff]
  | waitUntilLoaded f => grind [client, setFile, Option.bind_eq_some_iff, Option.map_eq_some_iff]
  | isLoaded f => grind [client, setFile, Option.bind_eq_some_iff, Option.map_eq_some_iff]
  | hasChildFile f child => grind [client, setFile, Option.bind_eq_some_iff, Option.map_eq_some_iff]
  | setChildFile f child => grind [client, setFile, Option.bind_eq_some_iff, Option.map_eq_some_iff]
  | readNode f s => grind [client, setFile, Option.bind_eq_some_iff, Option.map_eq_some_iff]
  | createNode f s => grind [client, setFile, Option.bind_eq_some_iff, Option.map_eq_some_iff]
  | countNode => grind [client, setFile, Option.bind_eq_some_iff, Option.map_eq_some_iff]
  | removeUser f => grind [client, setFile, Option.bind_eq_some_iff, Option.map_eq_some_iff]
  | getNode f s => grind [client, setFile, Option.bind_eq_some_iff, Option.map_eq_some_iff]
  | setNode f s n w => grind [client, setFile, Option.bind_eq_some_iff, Option.map_eq_some_iff]
  | releaseNode f modified => grind [client, setFile, Option.bind_eq_some_iff,
    Option.map_eq_some_iff]
  | flushBegin => grind [client, setFile, Option.bind_eq_some_iff, Option.map_eq_some_iff]
  | flushWait => grind [client, setFile, unlock]

/-- Nothing happened but work on the contents and the users of the files in the cache. -/
structure Worked (m m' : CacheState) : Prop where
  pending : m'.pending = m.pending
  owner : m'.owner = m.owner
  remaining : m'.remaining = m.remaining
  gone : ∀ f, m.files f = none → m'.files f = none
  file : ∀ f file, m.files f = some file → ∃ file', m'.files f = some file' ∧
    file'.nodeState = file.nodeState ∧ (file.isModified = true → file'.isModified = true)

theorem Worked.refl (m : CacheState) : Worked m m :=
  ⟨rfl, rfl, rfl, fun _ => id, fun _ file hf => ⟨file, hf, rfl, id⟩⟩

/-- Work on one file. -/
theorem Worked.of_file {file file' : NodeFile} (hf : m.files f = some file)
    (hm : m'.files = Function.update m.files f (some file')) (hs : file'.nodeState = file.nodeState)
    (hd : file.isModified = true → file'.isModified = true) (hp : m'.pending = m.pending)
    (ho : m'.owner = m.owner) (hr : m'.remaining = m.remaining) : Worked m m' := by
  refine ⟨hp, ho, hr, fun g hg => ?_, fun g x hx => ?_⟩
  · have hne : g ≠ f := fun e => by rw [e, hf] at hg; cases hg
    rwa [hm, Function.update_of_ne hne]
  · by_cases hne : g = f
    · subst hne
      obtain rfl := Option.some.inj (hf.symm.trans hx)
      exact ⟨file', by rw [hm, Function.update_self], hs, hd⟩
    · exact ⟨x, by rw [hm, Function.update_of_ne hne, hx], rfl, id⟩

/-- The steps of the client. -/
inductive ClientStep (cfg : Config) (m : CacheState) : CacheOp → CacheState → Prop
  | worked (o : CacheOp) (m' : CacheState) (h : Worked m m') : ClientStep cfg m o m'
  | found (f : LongId) (file : NodeFile) (ho : m.owner .fileCacheMutex = none)
      (hf : m.files f = some file) : ClientStep cfg m (.getNodeFile f) { m with
        files := Function.update m.files f (some { file with
          nodeState := if file.nodeState = .evicting then .loading else file.nodeState
          useCount := file.useCount + 1 })
        order := f :: m.order.erase f }
  | opened (f : LongId) (modified : Bool) (ho : m.owner .fileCacheMutex = none)
      (hf : m.files f = none) : ClientStep cfg m (.getNodeFile f) { m with
        files := Function.update m.files f (some ⟨.loading, .empty, 1, modified⟩)
        order := f :: m.order
        pending := (f, .read none) ::ₘ m.pending }
  | created (f : LongId) (ho : m.owner .fileCacheMutex = none) (hf : m.files f = none) :
      ClientStep cfg m (.createNodeFile f) { m with
        files := Function.update m.files f (some ⟨.loaded, .empty, 1, true⟩)
        order := f :: m.order }
  | maintenance (busy : LongId → Bool) (m' : CacheState)
      (h : m.cacheMaintenance cfg busy = some m') : ClientStep cfg m .cacheMaintenance m'
  | flushBegin (ho : m.owner .fileCacheMutex = none) : ClientStep cfg m .flushBegin { m with
        owner := Function.update m.owner .fileCacheMutex (some .client)
        remaining := 0 }
  | flushFile (f : LongId) (file : NodeFile) (ho : m.owner .fileCacheMutex = some .client)
      (hf : m.files f = some file) (hs : file.nodeState ≠ .loading) (hm : file.isModified = true) :
      ClientStep cfg m (.flushFile f) { m with
        remaining := m.remaining + 1
        pending := (f, .flush (serialize file.data) false) ::ₘ m.pending }
  | flushWait (ho : m.owner .fileCacheMutex = some .client) (hr : m.remaining = 0) :
      ClientStep cfg m .flushWait { m with
        owner := Function.update m.owner .fileCacheMutex none }

/-- The client has no other steps. -/
theorem ClientStep.of_client {o : CacheOp} {r : o.Res}
    (h : client cfg c o m = some (r, m')) : ClientStep cfg m o m' := by
  cases o with
  | getNodeFile f =>
    obtain ⟨ho, ⟨file, hf, rfl⟩ | ⟨hf, rfl⟩⟩ := getNodeFile_cases h
    · exact .found f file ho hf
    · exact .opened f c.modified ho hf
  | createNodeFile f =>
    obtain ⟨ho, hf, rfl⟩ := createNodeFile_cases h
    exact .created f ho hf
  | cacheMaintenance =>
    obtain ⟨m₁, hm, he⟩ := Option.map_eq_some_iff.1 h
    obtain ⟨-, rfl⟩ := Prod.mk.inj he
    exact .maintenance c.busy m₁ hm
  | waitUntilLoaded f =>
    obtain ⟨file, hf, h⟩ := Option.bind_eq_some_iff.1 h
    split_ifs at h
    obtain ⟨-, rfl⟩ := Prod.mk.inj (Option.some.inj h)
    exact .worked _ _ (.refl m)
  | isLoaded f =>
    obtain ⟨file, hf, h⟩ := Option.map_eq_some_iff.1 h
    obtain ⟨-, rfl⟩ := Prod.mk.inj h
    exact .worked _ _ (.refl m)
  | hasChildFile f child =>
    obtain ⟨file, hf, h⟩ := Option.map_eq_some_iff.1 h
    obtain ⟨-, rfl⟩ := Prod.mk.inj h
    exact .worked _ _ (.refl m)
  | setChildFile f child =>
    obtain ⟨file, hf, h⟩ := Option.map_eq_some_iff.1 h
    obtain ⟨-, rfl⟩ := Prod.mk.inj h
    exact .worked _ _ (.of_file hf rfl rfl (fun _ => rfl) rfl rfl rfl)
  | readNode f s =>
    obtain ⟨file, hf, ⟨-, -, rfl⟩ | ⟨-, -, -, rfl⟩ | ⟨-, -, rfl⟩⟩ := readNode_cases h
    · exact .worked _ _ (.of_file hf rfl rfl id rfl rfl rfl)
    · exact .worked _ _ (.of_file hf rfl rfl id rfl rfl rfl)
    · exact .worked _ _ (.refl _)
  | createNode f s =>
    obtain ⟨file, hf, h⟩ := Option.map_eq_some_iff.1 h
    obtain ⟨-, rfl⟩ := Prod.mk.inj h
    exact .worked _ _ (.of_file hf rfl rfl (fun _ => rfl) rfl rfl rfl)
  | countNode =>
    obtain ⟨-, rfl⟩ := Prod.mk.inj (Option.some.inj h)
    exact .worked _ _ ⟨rfl, rfl, rfl, fun _ => id, fun _ file hf => ⟨file, hf, rfl, id⟩⟩
  | removeUser f =>
    obtain ⟨file, hf, -, rfl⟩ := removeUser_cases h
    exact .worked _ _ (.of_file hf rfl rfl id rfl rfl rfl)
  | getNode f s =>
    obtain ⟨file, hf, h⟩ := Option.bind_eq_some_iff.1 h
    obtain ⟨n, hn, h⟩ := Option.map_eq_some_iff.1 h
    obtain ⟨-, rfl⟩ := Prod.mk.inj h
    exact .worked _ _ (.refl m)
  | setNode f s n w =>
    obtain ⟨file, hf, -, rfl⟩ := setNode_cases h
    exact .worked _ _ (.of_file hf rfl rfl id rfl rfl rfl)
  | releaseNode f modified =>
    obtain ⟨-, file, hf, -, rfl⟩ := releaseNode_cases h
    exact .worked _ _ (.of_file hf rfl rfl (fun hd => by simp [hd]) rfl rfl rfl)
  | flushBegin =>
    obtain ⟨ho, -, rfl⟩ := flushBegin_cases h
    exact .flushBegin ho
  | flushFile f =>
    obtain ⟨ho, file, hf, ⟨hs, hm, rfl⟩ | ⟨-, rfl⟩⟩ := flushFile_cases h
    · exact .flushFile f file ho hf hs hm
    · exact .worked _ _ (.refl _)
  | flushWait =>
    obtain ⟨ho, hr, rfl⟩ := flushWait_cases h
    exact .flushWait ho hr

end CacheState

/-! ### The environment -/

/-- The steps of the storage and its callbacks. -/
inductive EnvStep (cfg : Config) (m : CacheState) : CacheState → Prop
  | completeRead (f : LongId) (buffer : ByteVec) (hp : (f, .read none) ∈ m.pending)
      (hs : m.storage f = some buffer) : EnvStep cfg m { m with
        pending := (f, .read (some buffer)) ::ₘ m.pending.erase (f, .read none) }
  | completeEvict (f : LongId) (data : ByteVec) (hp : (f, .evict data false) ∈ m.pending) :
      EnvStep cfg m { m with
        storage := Function.update m.storage f (some data)
        pending := (f, .evict data true) ::ₘ m.pending.erase (f, .evict data false) }
  | completeFlush (f : LongId) (data : ByteVec) (hp : (f, .flush data false) ∈ m.pending) :
      EnvStep cfg m { m with
        storage := Function.update m.storage f (some data)
        pending := (f, .flush data true) ::ₘ m.pending.erase (f, .flush data false) }
  | readCb (f : LongId) (buffer : ByteVec) (file : NodeFile) (data : FileData)
      (hp : (f, .read (some buffer)) ∈ m.pending) (hf : m.files f = some file)
      (hd : deserialize buffer file.data.nodeCache = some data) : EnvStep cfg m { m with
        files := Function.update m.files f
          (some { file with nodeState := .loaded, data := data, isModified := false })
        pending := m.pending.erase (f, .read (some buffer))
        currentCacheSize := m.currentCacheSize +
          NodeFile.cacheSize { file with nodeState := .loaded, data := data, isModified := false }
        loaders := m.loaders + 1 }
  | evicted (f : LongId) (data : ByteVec) (file : NodeFile)
      (hp : (f, .evict data true) ∈ m.pending) (ho : m.owner .fileCacheMutex = none)
      (hf : m.files f = some file) (hm : file.isModified = true)
      (hs : file.nodeState = .evicting) : EnvStep cfg m { m with
        files := Function.update m.files f none
        order := m.order.erase f
        pending := m.pending.erase (f, .evict data true)
        currentCacheSize := m.currentCacheSize - file.cacheSize
        currentWriteSize := m.currentWriteSize - file.cacheSize }
  | reloaded (f : LongId) (data : ByteVec) (file : NodeFile) (owner : Lock → Option Thread)
      (hp : (f, .evict data true) ∈ m.pending) (ho : m.owner .fileCacheMutex = none)
      (ho' : owner .fileCacheMutex = some (.evictNodeFileCb f)) (hf : m.files f = some file)
      (hm : file.isModified = true) (hs : file.nodeState = .loading) : EnvStep cfg m { m with
        files := Function.update m.files f
          (some { file with nodeState := .loaded, isModified := false })
        pending := m.pending.erase (f, .evict data true)
        owner := owner }
  | stuck (f : LongId) (data : ByteVec) (owner : Lock → Option Thread)
      (hp : (f, .evict data true) ∈ m.pending)
      (ho : m.owner .fileCacheMutex = some (.evictNodeFileCb f) ∨
        m.owner .fileCacheMutex = none ∧ m.owner (.fileMutex f) ≠ none)
      (ho' : owner .fileCacheMutex = some (.evictNodeFileCb f)) : EnvStep cfg m { m with
        pending := m.pending.erase (f, .evict data true)
        owner := owner }
  | flushCb (f : LongId) (data : ByteVec) (file : NodeFile)
      (hp : (f, .flush data true) ∈ m.pending) (hf : m.files f = some file) :
      EnvStep cfg m { m with
        files := Function.update m.files f (some { file with isModified := false })
        pending := m.pending.erase (f, .flush data true)
        remaining := m.remaining - 1 }
  | maintenance (busy : LongId → Bool) (m' : CacheState) (hl : 0 < m.loaders)
      (h : { m with loaders := m.loaders - 1 }.cacheMaintenance cfg busy = some m') :
      EnvStep cfg m m'

/-- The environment has no other steps. -/
theorem EnvStep.of_env {cfg : Config} {e : CacheState.Event} {m m' : CacheState}
    (h : CacheState.env cfg e m = some m') : EnvStep cfg m m' := by
  cases e with
  | complete f r =>
    simp only [CacheState.env] at h
    split_ifs at h with hp
    rcases r with (_ | b) | ⟨data, _ | _⟩ | ⟨data, _ | _⟩ <;> simp only at h
    · obtain ⟨b, hb, rfl⟩ := Option.map_eq_some_iff.1 h
      exact .completeRead f b hp hb
    · cases h
    · obtain rfl := Option.some.inj h
      exact .completeEvict f data hp
    · cases h
    · obtain rfl := Option.some.inj h
      exact .completeFlush f data hp
    · cases h
  | callback f r =>
    simp only [CacheState.env] at h
    split_ifs at h with hp
    rcases r with (_ | b) | ⟨data, _ | _⟩ | ⟨data, _ | _⟩ <;> simp only at h
    · cases h
    · simp only [CacheState.readNodeFileCb] at h
      split_ifs at h
      obtain ⟨file, hf, h⟩ := Option.bind_eq_some_iff.1 h
      obtain ⟨d, hd, rfl⟩ := Option.map_eq_some_iff.1 h
      exact .readCb f b file d hp hf hd
    · cases h
    · rcases CacheState.evictNodeFileCb_cases
        { m with pending := m.pending.erase (f, .evict data true) } f with
        ⟨file, hf, hm, hs, ho, hcb⟩ | ⟨file, owner, hf, hm, hs, ho, ho', hcb⟩ |
        ⟨owner, ho, ho', hcb⟩ | hcb | hcb <;> rw [hcb] at h
      · obtain rfl := Option.some.inj h
        exact .evicted f data file hp ho hf hm hs
      · obtain rfl := Option.some.inj h
        exact .reloaded f data file owner hp ho ho' hf hm hs
      · obtain rfl := Option.some.inj h
        exact .stuck f data owner hp ho ho'
      · cases h
      · cases h
    · cases h
    · simp only [CacheState.flushNodeFileCb] at h
      split_ifs at h
      obtain ⟨file, hf, rfl⟩ := Option.map_eq_some_iff.1 h
      exact .flushCb f data file hp hf
  | maintenance busy =>
    simp only [CacheState.env] at h
    split_ifs at h with hl
    exact .maintenance busy m' hl h

end MegaTree
