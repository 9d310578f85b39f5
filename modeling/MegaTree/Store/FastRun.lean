import MegaTree.Store.Drift

/-!
# Runs of a fast cache

`FastReach` are the states of a `TreeFastCache` between its steps: a node is closed by `pop`, or a
point is inserted below the top when its cell contains the point.  The calls of `addPoint` and the
destructor are sequences of such steps (`FastReach.addPoint`, `FastReach.destroy`).

`fastReach_pop` is the result about the summaries: if every merge of a run is `Mergeable`, then the
`k`-th merge into a node leaves its position and color at most `k + 1` units from the summary of its
children.  `fastReach_not_near` is a run that breaks the bound with its first merge.
-/

namespace MegaTree

open Effect SpaceTree RunningMean

variable (cfg : Config)

/-- The node with an id. -/
def nodeOf (σ : Store) (id : LongId) : Option Node :=
  σ.lookup (getFileId cfg id) (getShortId cfg id)

/-- The nodes under the existing children of the node `n` with an id. -/
def childrenOfId (σ : Store) (id : LongId) (n : Node) (i : ChildNr) : Option Node :=
  if n.hasChild i then nodeOf cfg σ (id.childId i) else none

/-- A node stores the summary `r`, up to `k` units in each component. -/
structure Near (k : ℕ) (n r : Node) : Prop where
  point : ∀ a, (n.point a).toNat ≤ (r.point a).toNat + k ∧
    (r.point a).toNat ≤ (n.point a).toNat + k
  color : ∀ a, (n.color a).toNat ≤ (r.color a).toNat + k ∧
    (r.color a).toNat ≤ (n.color a).toNat + k

instance (k : ℕ) (n r : Node) : Decidable (Near k n r) :=
  decidable_of_iff ((∀ a, (n.point a).toNat ≤ (r.point a).toNat + k ∧
      (r.point a).toNat ≤ (n.point a).toNat + k) ∧
    ∀ a, (n.color a).toNat ≤ (r.color a).toNat + k ∧ (r.color a).toNat ≤ (n.color a).toNat + k)
    ⟨fun h => ⟨h.1, h.2⟩, fun h => ⟨h.point, h.color⟩⟩

/-- The node with an id stores the summary of its present children, up to `k` units. -/
def NearSummary (σ : Store) (id : LongId) (k : ℕ) : Prop :=
  ∃ n r, nodeOf cfg σ id = some n ∧
    Node.copyFromChildNodes (childrenOfId cfg σ id n) = .ok r ∧ Near k n r

/-- A fast cache between its steps. -/
structure FastState where
  /-- `nodes`, the top first. -/
  nodes : List NodeCache
  /-- The tree. -/
  store : Store
  /-- How often a child was merged into the node with an id. -/
  merges : LongId → ℕ
  /-- The number of points in the tree. -/
  size : ℕ

/-- The states of a fast cache on a tree `σ₀` with `N` points, when every merge of the top `nc` into
the node `pc` below it satisfies `ok nc pc`. -/
inductive FastReach (ok : NodeCache → NodeCache → FastState → Prop) (σ₀ : Store) (N : ℕ) :
    FastState → Prop
  | create {ncs : List NodeCache} {σ : Store} :
      Prog.Exec Store.step (FastCache.create cfg) σ₀ (.ret ncs) σ →
      FastReach ok σ₀ N ⟨ncs, σ, fun _ => 0, N⟩
  | pop {s : FastState} {nc pc : NodeCache} {ncs : List NodeCache} {σ' : Store} :
      FastReach ok σ₀ N s → s.nodes = nc :: pc :: ncs → ok nc pc s →
      Prog.Exec Store.step (FastCache.pop nc (pc :: ncs)) s.store (.ret ()) σ' →
      FastReach ok σ₀ N ⟨pc :: ncs, σ',
        Function.update s.merges pc.nh.id (s.merges pc.nh.id + 1), s.size⟩
  | insert {s : FastState} {nc : NodeCache} {ncs ncs' : List NodeCache} {p : Vec × Vec}
      {σ' : Store} : FastReach ok σ₀ N s → s.nodes = nc :: ncs →
      nc.nh.nodeGeom.contains p.1 = true → s.size + 1 < 2 ^ 64 →
      Prog.Exec Store.step (FastCache.addPointRecursive cfg p.1 p.2 cfg.minCellSize maxLevel s.nodes)
        s.store (.ret ncs') σ' →
      FastReach ok σ₀ N ⟨ncs', σ', s.merges, s.size + 1⟩

/-- The merge of the top into the node below it is `Mergeable`. -/
def MergeOk (nc pc : NodeCache) (s : FastState) : Prop :=
  ∀ c n, nodeOf cfg s.store nc.nh.id = some c → nodeOf cfg s.store pc.nh.id = some n →
    Mergeable (s.merges pc.nh.id) nc nc.nh.id.getChildNr c n (childrenOfId cfg s.store pc.nh.id n)

variable {cfg} {σ σ₀ σ' : Store} {V : Path → Option Node} {π : Path} {n : Node} {s : FastState}
  {ok : NodeCache → NodeCache → FastState → Prop} {N : ℕ}

/-! ### The calls are runs -/

theorem FastReach.popOutside {pt : Vec} {ncs' : List NodeCache}
    (h : FastReach cfg (fun _ _ _ => True) σ₀ N s)
    (he : Prog.Exec Store.step (FastCache.popOutside pt s.nodes) s.store (.ret ncs') σ') :
    ∃ m, FastReach cfg (fun _ _ _ => True) σ₀ N ⟨ncs', σ', m, s.size⟩ ∧
      ∃ nc ncs, ncs' = nc :: ncs ∧ nc.nh.nodeGeom.contains pt = true := by
  obtain ⟨nodes, store, merges, size⟩ := s
  induction nodes generalizing store merges with
  | nil => cases he
  | cons nc ncs ih =>
    simp only [FastCache.popOutside] at he
    split_ifs at he with hin
    · cases he
      exact ⟨merges, h, nc, ncs, rfl, hin⟩
    · obtain ⟨⟨⟩, σ₁, hp, he⟩ := he.of_bind
      cases ncs with
      | nil => cases he
      | cons pc ncs => exact ih σ₁ _ (h.pop rfl trivial hp) he

/-- A call of `addPoint` closes nodes and then inserts below the top. -/
theorem FastReach.addPoint {p : Vec × Vec} {ncs' : List NodeCache}
    (h : FastReach cfg (fun _ _ _ => True) σ₀ N s) (hB : s.size + 1 < 2 ^ 64)
    (he : Prog.Exec Store.step (FastCache.addPoint cfg p.1 p.2 s.nodes) s.store (.ret ncs') σ') :
    ∃ m, FastReach cfg (fun _ _ _ => True) σ₀ N ⟨ncs', σ', m, s.size + 1⟩ := by
  obtain ⟨ncs₁, σ₁, hp, he⟩ := he.of_bind
  obtain ⟨m, h₁, nc, ncs, rfl, hin⟩ := h.popOutside hp
  exact ⟨m, h₁.insert rfl hin hB he⟩

/-- The destructor closes all nodes but the root, and then the root. -/
theorem FastReach.destroy (h : FastReach cfg (fun _ _ _ => True) σ₀ N s) (hne : s.nodes ≠ [])
    (he : Prog.Exec Store.step (FastCache.destroy s.nodes) s.store (.ret ()) σ') :
    ∃ nc σ₁ m, FastReach cfg (fun _ _ _ => True) σ₀ N ⟨[nc], σ₁, m, s.size⟩ ∧
      Prog.Exec Store.step (FastCache.pop nc []) σ₁ (.ret ()) σ' := by
  obtain ⟨nodes, store, merges, size⟩ := s
  induction nodes generalizing store merges with
  | nil => exact absurd rfl hne
  | cons nc ncs ih =>
    obtain ⟨⟨⟩, σ₁, hp, he⟩ := he.of_bind
    cases ncs with
    | nil =>
      cases he
      exact ⟨nc, store, merges, h, hp⟩
    | cons pc ncs => exact ih σ₁ _ (h.pop rfl trivial hp) (by simp) he

/-! ### The invariant -/

theorem nodeOf_idOf (hS : Stores cfg σ V) (hπ : π.length ≤ maxDepth) :
    nodeOf cfg σ (idOf π) = V π := by
  rw [nodeOf, getFileId_idOf hπ]
  exact hS.nodes π hπ

theorem childrenOfId_idOf (hS : Stores cfg σ V)
    (hk : ∀ i, n.hasChild i = true → (V (i :: π)).isSome) :
    childrenOfId cfg σ (idOf π) n = childrenOf V π n := by
  funext i
  unfold childrenOfId childrenOf
  split_ifs with hi
  · obtain ⟨k, hk⟩ := Option.isSome_iff_exists.1 (hk i hi)
    exact nodeOf_idOf (π := i :: π) hS (hS.length_le hk)
  · rfl

/-- The invariant of a run: the tree, with summaries that drift as far as their merges allow. -/
def FastInv (cfg : Config) (s : FastState) : Prop :=
  ∃ V fs t T, FastHolds cfg (drift s.merges) (drift s.merges) s.store V s.nodes fs t T ∧
    points T = s.size

theorem near_of_drift {m : LongId → ℕ} {ks : ChildNr → Option Node} (h : drift m π n ks)
    (hlt : countSum ks < 2 ^ 47) (h0 : n.count ≠ 0) :
    ∃ r, Node.copyFromChildNodes ks = .ok r ∧ Near (m (idOf π) + 1) n r := by
  obtain ⟨hcount, hmean⟩ := h hlt
  have hne : countSum ks ≠ 0 := fun hz => h0 (UInt64.toNat_inj.1 (by rw [hcount, hz]; rfl))
  obtain ⟨r, hr, -, hp, hcol⟩ := copyFromChildNodes_eq hlt hne
  refine ⟨r, hr, fun a => ?_, fun a => ?_⟩
  · obtain ⟨h₁, h₂⟩ := (hmean hne a).1
    rw [hp]
    exact ⟨h₂, h₁⟩
  · obtain ⟨h₁, h₂⟩ := (hmean hne a).2
    rw [hcol]
    exact ⟨by omega, h₁⟩

/-- One merge that is `Mergeable` keeps the invariant and the bounds. -/
theorem wp_mergeTop {nc pc : NodeCache} {ncs : List NodeCache} {X : Err → Prop}
    (h : FastInv cfg s) (hs : s.nodes = nc :: pc :: ncs) (hok : MergeOk cfg nc pc s) :
    Spec (FastCache.pop nc (pc :: ncs)) (fun _ σ' =>
      FastInv cfg ⟨pc :: ncs, σ', Function.update s.merges pc.nh.id (s.merges pc.nh.id + 1), s.size⟩ ∧
      NearSummary cfg σ' pc.nh.id (s.merges pc.nh.id + 2) ∧
      ∃ c n, nodeOf cfg s.store nc.nh.id = some c ∧ nodeOf cfg s.store pc.nh.id = some n ∧
        ∀ a, (nc.mergedPnt nc.nh.id.getChildNr c n a).toNat < 2 ^ 16 ∧
          (nc.mergedCol c n a).toNat < 2 ^ 8) X s.store := by
  obtain ⟨nodes, σ, merges, size⟩ := s
  obtain ⟨V, fs, t, T, hh, hw⟩ := h
  simp only at hs hh hw hok ⊢
  subst hs
  obtain ⟨L, hL, hsp⟩ := hh.spine
  cases hsp with
  | @push _ _ f fs L mc n o _ hsp hnh ho hle hn hk hm hkids hJ =>
  obtain ⟨mp, -, hpc, -, -⟩ := hsp.top
  obtain ⟨c, hc, hcount⟩ := hh.opened.node
  rw [pathOf] at hc
  have hS := hh.stores
  have hlen := hS.length_le hc
  have hidc : nc.nh.id = idOf (f.step :: pathOf fs) := by rw [hnh]; rfl
  have hidp : pc.nh.id = idOf (pathOf fs) := by rw [hpc]; rfl
  have hnr : nc.nh.id.getChildNr = f.step := by rw [hidc]; exact getChildNr_idOf_cons hlen
  have hgrown : nc.origCnt ≤ c.count := by
    rw [UInt64.le_iff_toNat_le, hcount, UInt64.toNat_ofNat',
      Nat.mod_eq_of_lt (hh.points_le.trans_lt hh.bound)]
    exact hle
  have hnode : nodeOf cfg σ pc.nh.id = some n := by rw [hidp, nodeOf_idOf hS (hS.length_le hn), hn]
  have hchild : nodeOf cfg σ nc.nh.id = some c := by rw [hidc, nodeOf_idOf hS hlen, hc]
  have hall : ∀ i, n.hasChild i = true → (V (i :: pathOf fs)).isSome := by
    intro i hi
    by_cases he : i = f.step
    · rw [he, hc]; rfl
    · rcases (hkids i he).node with ⟨hz, -⟩ | ⟨k, -, hk', -⟩
      · rcases (hm i).1 hi with h | h
        · exact absurd hz h
        · exact absurd h.symm he
      · rw [hk']; rfl
  -- the children of the parent, as the condition and as the stack see them
  set ks := Function.update (childrenOf V (pathOf fs) n) f.step (some c) with hks
  have hsame : childrenOf V (pathOf fs) n = ks := by
    have hstep : childrenOf V (pathOf fs) n f.step = some c := by
      rw [childrenOf, (hm _).2 (.inr rfl), if_pos rfl, hc]
    rw [hks, ← hstep, Function.update_eq_self]
  have hM : Mergeable (merges (idOf (pathOf fs))) nc f.step c n ks := by
    have := hok c n hchild hnode
    rwa [hnr, hidp, childrenOfId_idOf hS hall, hsame] at this
  rw [hidp]
  set merges' := Function.update merges (idOf (pathOf fs)) (merges (idOf (pathOf fs)) + 1) with hm'
  have hself : merges' (idOf (pathOf fs)) = merges (idOf (pathOf fs)) + 1 := Function.update_self ..
  have hmono : ∀ x, merges x ≤ merges' x := fun x => by
    by_cases hx : x = idOf (pathOf fs)
    · rw [hx, hself]; omega
    · rw [hm', Function.update_of_ne hx]
  refine wp_popTop hh (drift_mono hmono) (drift_mono hmono)
    (fun n₁ n' o₁ c₁ hn₁ hc₁ ho₁ hg₁ hok₁ _ hJ₁ => ?_) fun n₁ n' c₁ V' σ' hn₁ hc₁ hok₁ hV' hh' => ?_
  · obtain rfl := Option.some.inj (hn.symm.trans hn₁)
    obtain rfl := Option.some.inj (hc.symm.trans hc₁)
    exact (drift_merge hJ₁ ho₁ hg₁ hM hok₁ hself).1
  · obtain rfl := Option.some.inj (hn.symm.trans hn₁)
    obtain rfl := Option.some.inj (hc.symm.trans hc₁)
    obtain ⟨hdrift, hrange⟩ := drift_merge hJ ho hgrown hM hok₁ hself
    refine ⟨⟨V', fs, _, T, hh', hw⟩, ?_, c, n, hchild, hidp ▸ hnode, ?_⟩
    · have hne : n'.count ≠ 0 := by
        rw [NodeCache.mergedNode] at hok₁
        split_ifs at hok₁ with hz
        obtain rfl := Except.ok.inj hok₁
        exact hz
      obtain ⟨r, hr, hnear⟩ := near_of_drift hdrift hM.total hne
      have hhas : ∀ i, n'.hasChild i = n.hasChild i := fun i => by
        rw [Node.hasChild_eq, Node.hasChild_eq, (mergedNode_ok hok₁).2]
      have hV'c : ∀ i, V' (i :: pathOf fs) = V (i :: pathOf fs) := fun i => by
        rw [hV', Function.update_of_ne (List.cons_ne_self i _)]
      have hks' : childrenOf V' (pathOf fs) n' = ks := by
        rw [← hsame]
        funext i
        rw [childrenOf, childrenOf, hhas, hV'c]
      refine ⟨n', r, ?_, ?_, by rwa [hself] at hnear⟩
      · rw [nodeOf_idOf hh'.stores (hS.length_le hn), hV', Function.update_self]
      · rw [childrenOfId_idOf hh'.stores fun i hi => by rw [hV'c]; exact hall i (hhas i ▸ hi), hks']
        exact hr
    · rw [hnr]
      exact hrange

/-- Every state of a run satisfies the invariant. -/
theorem FastReach.inv {t : CellTree} (h0 : Holds cfg summary σ₀ V t) (hN : points t = N)
    (h : FastReach cfg (MergeOk cfg) σ₀ N s) : FastInv cfg s := by
  induction h with
  | create he =>
    have h0' : Holds cfg (drift fun _ => 0) σ₀ V t :=
      ⟨h0.stores, h0.live, h0.opened.mono fun _ _ _ => drift_of_summary, h0.shaped, h0.bound⟩
    exact Prog.wp_exec (X := fun _ => True) (Q := fun ncs σ => FastInv cfg ⟨ncs, σ, fun _ => 0, N⟩)
      (wp_create (J := drift fun _ => 0) h0' fun ncs σ' _ h => ⟨V, [], t, t, h, hN⟩) he
  | pop hr hs hok he ih =>
    exact (Prog.wp_exec (X := fun _ => True) (wp_mergeTop ih hs hok) he).1
  | @insert s nc ncs ncs' p σ' hr hs hin hB he ih =>
    obtain ⟨V, fs, t, T, hh, hw⟩ := ih
    rw [hs] at hh
    obtain ⟨L, -, hsp⟩ := hh.spine
    obtain ⟨m, -, hnh, -, -⟩ := hsp.top
    rw [hnh] at hin
    rw [hs] at he
    refine Prog.wp_exec (X := fun _ => True)
      (Q := fun ncs σ => FastInv cfg ⟨ncs, σ, s.merges, s.size + 1⟩)
      (wp_addTop tolerant_drift hh (by rw [hw]; exact hB) hin (fun _ => trivial)
        fun u ncs' fs' t' V' σ' _ h' hw' => ⟨V', fs', t', u, h', by rw [hw', hw]⟩) he

/-- **If every merge of a run is `Mergeable`, the `k`-th merge into a node leaves its position and
color at most `k + 1` units from the summary of its children, and the quotients that it stores fit
into 16 and 8 bits.** -/
theorem fastReach_pop {pts : List (Vec × Vec)} {nc pc : NodeCache} {ncs : List NodeCache}
    (h0 : Prog.Exec Store.step (do newTree cfg; addPoints cfg pts) .init (.ret ()) σ₀)
    (hr : FastReach cfg (MergeOk cfg) σ₀ (inBounds cfg pts).length s)
    (hs : s.nodes = nc :: pc :: ncs) (hok : MergeOk cfg nc pc s)
    (he : Prog.Exec Store.step (FastCache.pop nc (pc :: ncs)) s.store (.ret ()) σ') :
    let k := s.merges pc.nh.id + 1
    NearSummary cfg σ' pc.nh.id (k + 1) ∧
      ∃ c n, nodeOf cfg s.store nc.nh.id = some c ∧ nodeOf cfg s.store pc.nh.id = some n ∧
        ∀ a, (nc.mergedPnt nc.nh.id.getChildNr c n a).toNat < 2 ^ 16 ∧
          (nc.mergedCol c n a).toNat < 2 ^ 8 := by
  obtain ⟨u, V, h, hw⟩ : ∃ u V, Holds cfg summary σ₀ V u ∧
      points u = (inBounds cfg pts).length := by
    refine Prog.wp_exec (X := fun _ => True) (Q := fun _ σ => ∃ u V, Holds cfg summary σ V u ∧
      points u = (inBounds cfg pts).length) (Prog.wp_bind.2 ?_) h0
    refine wp_newTree_holds (I := summary) fun V σ' h => ?_
    refine wp_addPoints (fun _ _ _ hok => hok) h (fun _ => trivial) (fun _ => trivial)
      fun u V' σ' _ h' hw => ⟨u, V', h', ?_⟩
    rw [hw, show points .empty = 0 from rfl, Nat.zero_add]
  exact (Prog.wp_exec (X := fun _ => True) (wp_mergeTop (hr.inv h hw) hs hok) he).2

/-! ### Runs on fixed inputs -/

instance (cfg : Config) (σ : Store) (id : LongId) (k : ℕ) : Decidable (NearSummary cfg σ id k) :=
  decidable_of_iff ((nodeOf cfg σ id).any fun n =>
    (Node.copyFromChildNodes (childrenOfId cfg σ id n)).toOption.any fun r => Near k n r) (by
      unfold NearSummary
      simp only [Option.any_eq_true, decide_eq_true_eq]
      refine exists_congr fun n => ?_
      cases Node.copyFromChildNodes (childrenOfId cfg σ id n) <;> simp [Except.toOption])

instance (k : ℕ) (nc : NodeCache) (i : ChildNr) (c n : Node) (ks : ChildNr → Option Node) :
    Decidable (Mergeable k nc i c n ks) :=
  decidable_of_iff (countSum ks < 2 ^ 47 ∧
    (∀ a, -(2 * (k + 2) * nc.gained c + 2) ≤ nc.pointGrowth i c a) ∧
    (∀ a, nc.pointGrowth i c a ≤ 2 * (n.count.toNat + nc.gained c) + 2 * (k + 1) * nc.gained c) ∧
    (∀ a, 0 ≤ ((n.point a).toNat * n.count.toNat : ℕ) + nc.pointGrowth i c a) ∧
    (∀ a, nc.pointGrowth i c a ≤
      (65535 - (n.point a).toNat) * n.count.toNat + 65535 * nc.gained c) ∧
    ∀ a, (nc.origCol a).toNat * nc.origCnt.toNat ≤
      (n.color a).toNat * n.count.toNat + (c.color a).toNat * c.count.toNat)
    ⟨fun ⟨h₁, h₂, h₃, h₄, h₅, h₆⟩ => ⟨h₁, h₂, h₃, h₄, h₅, h₆⟩, fun ⟨h₁, h₂, h₃, h₄, h₅, h₆⟩ =>
      ⟨h₁, h₂, h₃, h₄, h₅, h₆⟩⟩

/-- A tree with the point `p`, and a fast cache on it that inserts `q` below the root: the stack
before and after that. -/
def sampleRun (p q : Vec × Vec) : TreeM (List NodeCache × List NodeCache) := do
  newTree .sample
  addPoints .sample [p]
  let ncs ← FastCache.create .sample
  let ncs' ← FastCache.addPointRecursive .sample q.1 q.2 Config.sample.minCellSize maxLevel ncs
  pure (ncs, ncs')

/-- The point `q` lies in the cell of the top, and the first `pop` of the sample run satisfies
`f`. -/
def samplePop (q : Vec × Vec) (f : NodeCache → NodeCache → Store → Store → Bool) :
    (List NodeCache × List NodeCache) × Store → Bool
  | ((root :: _, nc :: pc :: ncs), σ) => root.nh.nodeGeom.contains q.1 &&
      ((FastCache.pop nc (pc :: ncs)).run Store.step Choice.plain σ).toOption.any
        fun x => f nc pc σ x.2
  | _ => false

theorem exists_fastReach (ok : NodeCache → NodeCache → FastState → Prop) {p q : Vec × Vec}
    {f : NodeCache → NodeCache → Store → Store → Bool}
    (hrun : ((sampleRun p q).run Store.step Choice.plain .init).toOption.any (samplePop q f) = true) :
    ∃ σ₀ nc pc ncs σ σ',
      Prog.Exec Store.step (do newTree .sample; addPoints .sample [p]) .init (.ret ()) σ₀ ∧
      FastReach .sample ok σ₀ (inBounds .sample [p]).length ⟨nc :: pc :: ncs, σ, fun _ => 0,
        (inBounds .sample [p]).length + 1⟩ ∧
      Prog.Exec Store.step (FastCache.pop nc (pc :: ncs)) σ (.ret ()) σ' ∧ f nc pc σ σ' = true := by
  obtain ⟨⟨ncs₁, ncs₂⟩, σ, he, hf⟩ := Prog.exists_exec hrun
  obtain ⟨⟨⟩, σ₁, hn, he⟩ := he.of_bind
  obtain ⟨⟨⟩, σ₂, ha, he⟩ := he.of_bind
  obtain ⟨_, σ₃, hc, he⟩ := he.of_bind
  obtain ⟨_, σ₄, hi, he⟩ := he.of_bind
  cases he
  obtain ⟨root, rest, rfl⟩ : ∃ root rest, ncs₁ = root :: rest := by
    cases ncs₁ with
    | nil => cases hf
    | cons root rest => exact ⟨root, rest, rfl⟩
  obtain ⟨nc, pc, ncs, rfl⟩ : ∃ nc pc ncs, ncs₂ = nc :: pc :: ncs := by
    match ncs₂, hf with
    | nc :: pc :: ncs, _ => exact ⟨nc, pc, ncs, rfl⟩
  obtain ⟨hin, hf⟩ := Bool.and_eq_true_iff.1 hf
  obtain ⟨⟨⟩, σ', hp, hf⟩ := Prog.exists_exec hf
  have hlen : (inBounds .sample [p]).length ≤ 1 := List.length_filter_le ..
  exact ⟨σ₂, nc, pc, ncs, σ, σ', hn.bind ha,
    (FastReach.create hc).insert rfl hin (by simp only; omega) hi, hp, hf⟩

theorem fastReach_pop_corner : ∃ σ₀ nc pc ncs σ σ',
    Prog.Exec Store.step (do newTree .sample; addPoints .sample [(fun _ => -4, fun _ => 0)])
      .init (.ret ()) σ₀ ∧
    FastReach .sample (MergeOk .sample) σ₀ (inBounds .sample [(fun _ => -4, fun _ => 0)]).length
      ⟨nc :: pc :: ncs, σ, fun _ => 0, (inBounds .sample [(fun _ => -4, fun _ => 0)]).length + 1⟩ ∧
    Prog.Exec Store.step (FastCache.pop nc (pc :: ncs)) σ (.ret ()) σ' ∧
    NearSummary .sample σ' pc.nh.id 2 := by
  obtain ⟨σ₀, nc, pc, ncs, σ, σ', h₀, hr, hp, hf⟩ := exists_fastReach (MergeOk .sample)
    (p := (fun _ => -4, fun _ => 0)) (q := (fun _ => -4, fun _ => 0))
    (f := fun nc pc σ _ => (nodeOf .sample σ nc.nh.id).all fun c =>
      (nodeOf .sample σ pc.nh.id).all fun n => decide (Mergeable 0 nc nc.nh.id.getChildNr c n
        (childrenOfId .sample σ pc.nh.id n))) (by decide +kernel)
  refine ⟨σ₀, nc, pc, ncs, σ, σ', h₀, hr, hp, (fastReach_pop h₀ hr rfl (fun c n hc hn => ?_) hp).1⟩
  simpa [hc, hn] using hf

/-- The first merge leaves the root far from its summary: the position of the new child is added in
units of the child. -/
theorem fastReach_not_near : ∃ σ₀ nc pc ncs σ σ',
    Prog.Exec Store.step (do newTree .sample; addPoints .sample [(fun _ => -3, fun _ => 0)])
      .init (.ret ()) σ₀ ∧
    FastReach .sample (fun _ _ _ => True) σ₀ (inBounds .sample [(fun _ => -3, fun _ => 0)]).length
      ⟨nc :: pc :: ncs, σ, fun _ => 0, (inBounds .sample [(fun _ => -3, fun _ => 0)]).length + 1⟩ ∧
    Prog.Exec Store.step (FastCache.pop nc (pc :: ncs)) σ (.ret ()) σ' ∧
    ¬ NearSummary .sample σ' pc.nh.id 2 := by
  obtain ⟨σ₀, nc, pc, ncs, σ, σ', h₀, hr, hp, hf⟩ := exists_fastReach (fun _ _ _ => True)
    (p := (fun _ => -3, fun _ => 0)) (q := (fun _ => 3, fun _ => 0))
    (f := fun _ pc _ σ' => !decide (NearSummary .sample σ' pc.nh.id 2)) (by decide +kernel)
  exact ⟨σ₀, nc, pc, ncs, σ, σ', h₀, hr, hp, by simpa using hf⟩

end MegaTree
