import MegaTree.Cache.Simulation
import MegaTree.Store.ShapeRun

/-!
# Existence bits are exact

`existence_bits_exact` : whatever is evicted and read again while a client inserts points into a new
tree, between two calls the bits of every node tell exactly which children are stored, the bits of
every file tell exactly which child files exist, and no file or node is ever created twice.

The cache may lose writes of `mergeChild`, so this goes through the store whose counts, positions
and colors may change at any time.
-/

namespace MegaTree

open Effect

/-- `getAsync` with `readNodeFileCb` -/
def Request.isRead : Request → Bool
  | .read _ => true
  | _ => false

namespace CacheState

variable (m : CacheState)

/-- The contents of a file: those of its object, unless that is still to be read. -/
def contents (f : LongId) : Option FileData :=
  let stored := (m.storage f).bind fun buffer => deserialize buffer ∅
  match m.files f with
  | some file => if ∀ r ∈ inFlight m.pending f, r.isRead = false then some file.data else stored
  | none => stored

/-- The node with an id, wherever its file is at the moment. -/
def storedNode (cfg : Config) (id : LongId) : Option Node :=
  (m.contents (getFileId cfg id)).bind fun d => d.nodeCache[getShortId cfg id]?

/-- The file exists in the cache or in the storage. -/
def fileExists (f : LongId) : Bool := (m.files f).isSome || (m.storage f).isSome

end CacheState

/-- The bits of the stored nodes and files tell exactly what exists. -/
structure ExactBits (cfg : Config) (m : CacheState) : Prop where
  /-- Every stored node has an id that is reached from the root. -/
  reached : ∀ f d s, m.contents f = some d → (d.nodeCache[s]?).isSome →
    ∃ id k, Descendant id k ∧ k ≤ 41 ∧ f = getFileId cfg id ∧ s = getShortId cfg id
  hasChild : ∀ id k n, Descendant id k → k ≤ 41 → m.storedNode cfg id = some n →
    ∀ c, n.hasChild c = true ↔ ∃ child, id.getChild c = .ok child ∧ (m.storedNode cfg child).isSome
  hasChildFile : ∀ f, m.fileExists f = true → ∃ d, m.contents f = some d ∧
    ∀ k, d.hasChildFile k = true ↔ ∃ g, f.getChild k = .ok g ∧ m.fileExists g = true

/-- The program `q` is not about to create a file or a node that exists. -/
structure CreatesNew (q : TreeM Client) (m : CacheState) : Prop where
  createNodeFile : ∀ f k, q = .call (.createNodeFile f) k → m.fileExists f = false
  createNode : ∀ f s k, q = .call (.createNode f s) k →
    ∃ d, m.contents f = some d ∧ d.nodeCache[s]? = none

variable {cfg : Config} {E : FileData → FileData → Prop} {m : CacheState} {σ : Store} {T : Bits}
  {f : LongId} {d : FileData} {q : TreeM Client} {π : Path}

/-! ### The cache and the store -/

theorem Sim.contents (h : Sim E m σ) (hd : σ.files f = some d) :
    ∃ d', m.contents f = some d' ∧ E d d' := by
  have stored : ∀ d', m.storage f = some (serialize d') →
      ((m.storage f).bind fun buffer => deserialize buffer ∅) = some d' := by
    intro d' hs
    rw [hs, Option.bind_some]
    exact deserialize_serialize_of_covered fun s _ => by simp
  have loaded : ∀ file, m.files f = some file →
      (∀ r ∈ inFlight m.pending f, r.isRead = false) → m.contents f = some file.data := by
    intro file hf hr
    simp only [CacheState.contents, hf]
    exact if_pos hr
  have notRead : ∀ {fl stored r}, IsFlush E fl stored d r → r.isRead = false := by
    rintro fl stored r ⟨d', w, -, rfl, -⟩
    rfl
  cases (h.file f).phase d hd with
  | absent hf hr hu hs =>
    obtain ⟨d', he, hs⟩ := hs
    rw [CacheState.view_file] at hf
    exact ⟨d', by simp only [CacheState.contents, hf]; exact stored d' hs, he⟩
  | reading data d' modified buffer he hf hr hu hdata hb hs =>
    rw [CacheState.view_file] at hf
    rw [CacheState.view_requests] at hr
    refine ⟨d', ?_, he⟩
    simp only [CacheState.contents, hf, hr]
    rw [if_neg (by simp [Request.isRead])]
    exact stored d' hs
  | loaded d' modified he hf hr hs hm =>
    exact ⟨d', loaded _ hf fun r hr' => notRead (hr r hr'), he⟩
  | evicting d' d'' state modified w rest he he' hf hr hrest hu hs =>
    refine ⟨d', loaded _ hf fun r hr' => ?_, he⟩
    rw [CacheState.view_requests] at hr
    rw [hr] at hr'
    rcases Multiset.mem_cons.1 hr' with rfl | hr'
    · rfl
    · exact notRead (hrest r hr')

theorem Sim.contents_none (h : Sim E m σ) (hd : σ.files f = none) : m.contents f = none := by
  obtain ⟨hf, -, -, hs⟩ := (h.file f).missing hd
  rw [CacheState.view_file] at hf
  rw [CacheState.view_stored] at hs
  simp [CacheState.contents, hf, hs]

theorem Sim.fileExists (h : Sim E m σ) : m.fileExists f = (σ.files f).isSome := by
  cases hd : σ.files f with
  | none =>
    obtain ⟨hf, -, -, hs⟩ := (h.file f).missing hd
    rw [CacheState.view_file] at hf
    rw [CacheState.view_stored] at hs
    simp [CacheState.fileExists, hf, hs]
  | some d =>
    obtain ⟨d', hc, -⟩ := h.contents hd
    cases hf : m.files f with
    | some file => simp [CacheState.fileExists, hf]
    | none =>
      cases hs : m.storage f with
      | some b => simp [CacheState.fileExists, hs]
      | none => simp [CacheState.contents, hf, hs] at hc

/-- The nodes of the cache have the bits of the nodes of the store. -/
theorem Sim.bits (h : Sim SameShape m σ) (f : LongId) (s : ShortId) :
    ((m.contents f).bind fun d => d.nodeCache[s]?).map Node.hasChild =
      (σ.lookup f s).map Node.hasChild := by
  cases hd : σ.files f with
  | none => rw [h.contents_none hd, Store.lookup, hd]
  | some d =>
    obtain ⟨d', hc, he⟩ := h.contents hd
    rw [hc, Store.lookup, hd]
    exact he.2 s

theorem Sim.storedNode (h : Sim SameShape m σ) (hS : Shape cfg σ T) (hπ : π.length ≤ maxDepth) :
    (m.storedNode cfg (idOf π)).map Node.hasChild = T π := by
  rw [CacheState.storedNode, getFileId_idOf hπ, h.bits, ← hS.bits π, nodeAt, if_pos hπ]
  rfl

/-- What the shape says of the store holds in the cache. -/
theorem Sim.exactBits (h : Sim SameShape m σ) (hS : Shape cfg σ T) (hT : Linked T) :
    ExactBits cfg m where
  reached f d s hc hs := by
    have hbits := h.bits f s
    rw [hc] at hbits
    have hsome : (σ.lookup f s).isSome := by
      rw [← Option.isSome_map, ← hbits, Option.isSome_map]
      exact hs
    obtain ⟨π, hπ, rfl, rfl⟩ := hS.stores.only f s hsome
    exact ⟨idOf π, π.length, .of_path π hπ, hπ, (getFileId_idOf hπ).symm, rfl⟩
  hasChild id k n hid hk hn c := by
    obtain ⟨π, rfl, rfl⟩ := hid.exists_path
    have hb : T π = some n.hasChild := by
      rw [← h.storedNode hS hk, hn]
      rfl
    rw [hT.bits π _ hb c]
    constructor
    · intro hc
      obtain ⟨b, hb'⟩ := Option.isSome_iff_exists.1 hc
      have hlen := hS.length_le hb'
      have hid : (handleAt cfg π false).id.getChild c = .ok (idOf (c :: π)) := getChild_id hlen
      refine ⟨idOf (c :: π), hid, ?_⟩
      rw [← Option.isSome_map (f := Node.hasChild), h.storedNode hS hlen]
      exact hc
    · rintro ⟨child, hchild, hs⟩
      have hlt : (idOf π).idLevel < 42 := by
        by_contra hge
        rw [LongId.getChild_of_le (not_lt.1 hge)] at hchild
        cases hchild
      rw [LongId.getChild_of_lt hlt] at hchild
      obtain rfl := Except.ok.inj hchild
      rw [idOf_idLevel] at hlt
      have hlen : (c :: π).length ≤ maxDepth := by
        simp only [List.length_cons, maxDepth]
        omega
      rw [← h.storedNode hS hlen, Option.isSome_map]
      exact hs
  hasChildFile f hf := by
    rw [h.fileExists] at hf
    obtain ⟨d, hd⟩ := Option.isSome_iff_exists.1 hf
    obtain ⟨d', hc, he⟩ := h.contents hd
    refine ⟨d', hc, fun k => ?_⟩
    have hk : d'.hasChildFile k = d.hasChildFile k := by
      rw [FileData.hasChildFile, he.1, FileData.hasChildFile]
    rw [hk, hS.hasChildFile_iff hd]
    simp only [h.fileExists]

theorem Sim.createsNew {Q : Client → Store → Prop} (h : Sim SameShape m σ) (hq : ShapeSpec q Q σ) :
    CreatesNew q m := by
  constructor
  · rintro f k rfl
    obtain ⟨r, σ', hr, -⟩ := hq (.plain, .id similarity_sameShape)
    have hn := (Store.of_check (Option.isSome_iff_exists.2 ⟨_, (Option.ite_none_right_eq_some.1 hr).2⟩)).2
    rw [h.fileExists, ← isSome_change σ (.id similarity_sameShape)]
    exact Option.not_isSome_iff_eq_none.2 (Option.isNone_iff_eq_none.1 hn) |> Bool.eq_false_iff.2
  · rintro f s k rfl
    obtain ⟨r, σ', hr, -⟩ := hq (.plain, .id similarity_sameShape)
    have hr := (Option.ite_none_right_eq_some.1 hr).2
    rw [change_id] at hr
    simp only [Store.step] at hr
    cases hd : σ.files f with
    | none => rw [hd] at hr; cases hr
    | some d =>
      rw [hd] at hr
      obtain ⟨-, hb⟩ := Store.of_check (Option.isSome_iff_exists.2 ⟨_, hr⟩)
      simp only [Bool.and_eq_true, Option.isNone_iff_eq_none] at hb
      obtain ⟨d', hc, he⟩ := h.contents hd
      refine ⟨d', hc, ?_⟩
      rw [← Option.not_isSome_iff_eq_none, similarity_sameShape.nodes he, hb.2]
      exact Bool.false_ne_true

end MegaTree
