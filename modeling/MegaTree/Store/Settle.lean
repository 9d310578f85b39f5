import MegaTree.Store.Accuracy

/-!
# Where a point settles

The first point of a cell that is fine enough is cut to 16 bits, and from then on it goes down by
its bits.  It goes where its coordinates say, except when the cell was as large as possible: then it
goes down once more after its last bit, and it behaves like the lower corner of its cut.

* `route` : the cells that a point goes through.
* `Sorted cfg g M t` : the tree `t` in the cell `g` is what the rules make of the places `M`.
* `Sorted.insert` : one insertion adds the place where the point settles.
-/

namespace MegaTree

open SpaceTree

variable {cfg : Config} {root g : NodeGeometry} {a : Node} {p q : Vec} {π κ : Path} {d k : ℕ}

/-! ### Routes -/

/-- The path of the cell with a point that is `d` levels below the root. -/
def route (root : NodeGeometry) (p : Vec) : ℕ → Path
  | 0 => []
  | d + 1 => (geomOf root (route root p d)).whichChild p :: route root p d

@[simp] theorem length_route : (route root p d).length = d := by
  induction d with
  | zero => rfl
  | succ d ih => rw [route, List.length_cons, ih]

theorem contains_route (h : root.contains p = true) (d : ℕ) :
    (geomOf root (route root p d)).contains p = true := by
  induction d with
  | zero => exact h
  | succ d ih => exact NodeGeometry.contains_whichChild ih

/-- A point lies in the cells of its route, and in no other cells. -/
theorem contains_iff_route (h : root.contains p = true) :
    (geomOf root π).contains p = true ↔ route root p π.length = π := by
  constructor
  · intro hp
    induction π with
    | nil => rfl
    | cons c π ih =>
      have hlt := geomOf_lt (root_lt_of_contains (π := []) h) π
      obtain ⟨hup, hc⟩ := NodeGeometry.whichChild_of_contains hlt hp
      rw [List.length_cons, route, ih hup, hc]
  · intro hr
    rw [← hr]
    exact contains_route h _

theorem geomOf_append (ρ π : Path) : geomOf root (ρ ++ π) = geomOf (geomOf root π) ρ := by
  induction ρ with
  | nil => rfl
  | cons c ρ ih => rw [List.cons_append, geomOf, geomOf, ih]

/-- The route goes on from a cell as it starts there. -/
theorem route_append (h : root.contains p = true) (hκ : (geomOf root κ).contains p = true) (d : ℕ) :
    route root p (d + κ.length) = route (geomOf root κ) p d ++ κ := by
  induction d with
  | zero => rw [Nat.zero_add, (contains_iff_route h).1 hκ, route, List.nil_append]
  | succ d ih =>
    rw [Nat.add_right_comm, route, route, ih, geomOf_append, List.cons_append]

theorem drop_route (e : ℕ) : (route root p (d + e)).drop e = route root p d := by
  induction e with
  | zero => rfl
  | succ e ih => rw [← Nat.add_assoc, route, List.drop_succ_cons, ih]

/-- Two routes that meet have come the same way. -/
theorem route_eq_of_le {d e : ℕ} (hde : d ≤ e) (h : route root q e = route root p e) :
    route root q d = route root p d := by
  obtain ⟨k, rfl⟩ := Nat.exists_eq_add_of_le hde
  rw [← drop_route k, h, drop_route]

/-- A cell lies in the cells above it. -/
theorem contains_of_append {ρ : Path} (hg : ∀ i, root.lo i < root.hi i)
    (h : (geomOf root (ρ ++ π)).contains p = true) : (geomOf root π).contains p = true := by
  induction ρ with
  | nil => exact h
  | cons c ρ ih => exact ih (NodeGeometry.whichChild_of_contains (geomOf_lt hg _) h).1

/-- Two points with one route are in the same cells. -/
theorem contains_eq_of_route (hp : root.contains p = true) (hq : root.contains q = true)
    (h : route root q π.length = route root p π.length) :
    (geomOf root π).contains q = (geomOf root π).contains p := by
  rw [Bool.eq_iff_iff, contains_iff_route hq, contains_iff_route hp, h]

theorem length_eq_of_getSize (hpos : 0 < root.getSize)
    (h : (geomOf root π).getSize = (geomOf root κ).getSize) : π.length = κ.length := by
  rw [getSize_geomOf, getSize_geomOf, div_eq_div_iff (by positivity) (by positivity)] at h
  exact (pow_right_injective₀ (by norm_num) (by norm_num) (mul_left_cancel₀ hpos.ne' h)).symm

/-! ### Bits and coordinates -/

/-- The lower corner of the points of a cell that are cut to the same bits. -/
def cut (g : NodeGeometry) (p : Vec) : Vec := fun i =>
  g.lo i + g.getSize * (floatToFixed g p i).toNat / bitsD

/-- All but the last `k` bits of a leaf are those of a point. -/
def Follows (g : NodeGeometry) (a : Node) (k : ℕ) (p : Vec) : Prop := ∀ i,
  2 ^ k ∣ (a.point i).toNat ∧ corner g a i ≤ p i ∧ p i < corner g a i + g.getSize * 2 ^ k / bitsD

theorem isCube_geomOf (h : IsCube root) (π : Path) : IsCube (geomOf root π) := by
  induction π with
  | nil => exact h
  | cons c π ih => exact ih.child c

theorem follows_single (h : IsCube g) {x : Vec × Vec} (hp : g.contains x.1 = true) :
    Follows g ((pointPolicy cfg).single g x) 0 x.1 := by
  intro i
  have hcut : corner g ((pointPolicy cfg).single g x) i ≤ x.1 i ∧
    x.1 i < corner g ((pointPolicy cfg).single g x) i + g.getSize / bitsD := corner_single h hp i
  exact ⟨one_dvd _, hcut.1, by simpa using hcut.2⟩

theorem follows_corner (h : IsCube g) (a : Node) : Follows g a 0 (corner g a) := by
  intro i
  have hs := h.1
  have : 0 < g.getSize * 2 ^ 0 / bitsD := by
    rw [bitsD]
    positivity
  exact ⟨one_dvd _, le_rfl, by linarith⟩

/-- As long as bits are left, the bits and the coordinates choose the same child. -/
theorem Follows.whichChild (h : IsCube g) (hk : k < 16) (hn : Follows g a k p) :
    g.whichChild p = a.getChildForNodePoint := by
  rw [NodeGeometry.whichChild, Node.getChildForNodePoint]
  refine congrArg childOf (funext fun i => decide_eq_decide.2 ?_)
  obtain ⟨⟨m, hm⟩, hlo, hhi⟩ := hn i
  have hs := h.1
  have hi := h.2 i
  have hle : bits2 ≤ a.point i ↔ 32768 ≤ (a.point i).toNat := UInt16.le_iff_toNat_le
  have hmid : g.getCenter i = g.lo i + g.getSize * 32768 / bitsD := by
    simp only [NodeGeometry.getCenter, bitsD]
    linarith
  rw [hle, hmid]
  constructor
  · intro hc
    by_contra hlt
    -- the bits are at least one unit of `2 ^ k` below the center
    have hroom : m + 1 ≤ 2 ^ (15 - k) := by
      rw [not_le, hm, show 32768 = 2 ^ k * 2 ^ (15 - k) by
        rw [← pow_add, show k + (15 - k) = 15 by omega]; rfl] at hlt
      exact Nat.lt_of_mul_lt_mul_left hlt
    have hall : (2 : ℚ) ^ k * (m + 1) ≤ 32768 := by
      have : 2 ^ k * (m + 1) ≤ 32768 := by
        calc 2 ^ k * (m + 1) ≤ 2 ^ k * 2 ^ (15 - k) := Nat.mul_le_mul_left _ hroom
          _ = 32768 := by rw [← pow_add, show k + (15 - k) = 15 by omega]; rfl
      exact_mod_cast this
    have hsum : corner g a i + g.getSize * 2 ^ k / bitsD =
        g.lo i + g.getSize * (2 ^ k * (m + 1)) / bitsD := by
      rw [corner, hm]
      push_cast
      ring
    have hup : g.getSize * (2 ^ k * (m + 1)) / bitsD ≤ g.getSize * 32768 / bitsD := by
      rw [bitsD]
      gcongr
    linarith
  · intro hb
    refine le_trans ?_ hlo
    have : (32768 : ℚ) ≤ (a.point i).toNat := by exact_mod_cast hb
    rw [corner, bitsD]
    gcongr

/-- A leaf that is handed down has one bit less. -/
theorem Follows.push (h : IsCube g) (hk : k < 16) (hn : Follows g a k p) :
    Follows (g.getChild a.getChildForNodePoint) ((pointPolicy cfg).push a).2 (k + 1) p := by
  intro i
  obtain ⟨hd, hlo, hhi⟩ := hn i
  have hcorner : corner (g.getChild a.getChildForNodePoint) ((pointPolicy cfg).push a).2 i =
      corner g a i := corner_push h i
  have hunit : (g.getChild a.getChildForNodePoint).getSize * 2 ^ (k + 1) / bitsD =
      g.getSize * 2 ^ k / bitsD := by
    rw [NodeGeometry.getSize_getChild, pow_succ]
    ring
  refine ⟨?_, by rw [hcorner]; exact hlo, by rw [hcorner, hunit]; exact hhi⟩
  have h₁ : 2 ^ (k + 1) ∣ 2 * (a.point i).toNat := by
    rw [pow_succ']
    exact Nat.mul_dvd_mul_left 2 hd
  have h₂ : 2 ^ (k + 1) ∣ 65536 := Nat.pow_dvd_pow 2 (n := 16) (by omega)
  change 2 ^ (k + 1) ∣ (a.point i <<< 1).toNat
  rw [Node.toNat_shiftLeft_one]
  split_ifs
  · exact Nat.dvd_sub h₁ h₂
  · exact h₁

/-! ### Sixteen levels below the cut -/

/-- The cut follows its point as long as bits are left. -/
theorem exists_follows_cut (h : IsCube g) (hp : g.contains p = true) (hd : d ≤ 16) :
    ∃ a, Follows (geomOf g (route g p d)) a d p ∧ corner (geomOf g (route g p d)) a = cut g p ∧
      route g (cut g p) d = route g p d := by
  induction d with
  | zero =>
    exact ⟨(pointPolicy .sample).single g (p, fun _ => 0), follows_single h hp, rfl, rfl⟩
  | succ d ih =>
    obtain ⟨a, hn, hc, hr⟩ := ih (by omega)
    have hcube := isCube_geomOf h (route g p d)
    have hp' := hn.whichChild hcube (by omega)
    have hq := (follows_corner hcube a).whichChild hcube (by omega)
    rw [hc] at hq
    refine ⟨((pointPolicy .sample).push a).2, ?_, ?_, ?_⟩
    · rw [route, hp', geomOf]
      exact hn.push hcube (by omega)
    · rw [route, hp', geomOf, ← hc]
      exact funext fun i => corner_push hcube i
    · rw [route, hr, hq, route, hp']

theorem route_cut (h : IsCube g) (hp : g.contains p = true) (hd : d ≤ 16) :
    route g (cut g p) d = route g p d := by
  obtain ⟨-, -, -, hr⟩ := exists_follows_cut h hp hd
  exact hr

/-- After its last bit the cut goes to the first child. -/
theorem route_cut_last (h : IsCube g) (hp : g.contains p = true) :
    route g (cut g p) 17 = 0 :: route g p 16 := by
  obtain ⟨a, hn, hc, hr⟩ := exists_follows_cut h hp le_rfl
  have hcube := isCube_geomOf h (route g p 16)
  have hq := (follows_corner hcube a).whichChild hcube (by omega)
  have hzero : ∀ i, a.point i = 0 := fun i => UInt16.toNat_inj.1
    (Nat.eq_zero_of_dvd_of_lt (hn i).1 (a.point i).toNat_lt)
  have hfirst : a.getChildForNodePoint = 0 := by
    simp only [Node.getChildForNodePoint, hzero]
    decide
  rw [route, hr, ← hc, hq, hfirst]

theorem contains_cut (h : IsCube g) (hp : g.contains p = true) : g.contains (cut g p) = true := by
  rw [NodeGeometry.contains_iff]
  intro i
  have hlo : g.lo i ≤ cut g p i :=
    lo_le_corner (a := (pointPolicy .sample).single g (p, fun _ => 0)) h i
  have hf : Follows g ((pointPolicy .sample).single g (p, fun _ => 0)) 0 p :=
    follows_single (x := (p, fun _ => 0)) h hp
  have hhi : cut g p i ≤ p i := (hf i).2.1
  exact ⟨hlo, hhi.trans_lt (NodeGeometry.contains_iff.1 hp i).2⟩

/-! ### Sorted trees -/

variable (cfg) in
/-- A leaf goes down as a point at `q` does, until its cell is not divided any more. -/
def Traced (g : NodeGeometry) (a : Node) (q : Vec) : Prop :=
  q = corner g a ∨ ∃ k, g.getSize * 2 ^ k < bitsD * cfg.minCellSize ∧ Follows g a k q

variable (cfg) in
/-- A tree in the cell `g` for points at the places `M`. -/
def Sorted (g : NodeGeometry) (M : Multiset Vec) : CellTree → Prop
  | .empty => M = 0
  | .leaf a => M ≠ 0 ∧ a.count.toNat = Multiset.card M ∧ ((pointPolicy cfg).finest g = true ∨
      (pointPolicy cfg).fine g = true ∧ ∃ q, M = {q} ∧ Traced cfg g a q)
  | .branch kids => M ≠ 0 ∧ (pointPolicy cfg).finest g = false ∧
      ((pointPolicy cfg).fine g = true → 1 < Multiset.card M) ∧
      ∀ i, Sorted (g.getChild i) (M.filter fun q => g.whichChild q = i) (kids i)

variable (cfg) in
/-- The cell at `κ` is as large as a cell that takes a point at once can be, and the point is the
first one in it. -/
def Fresh (root : NodeGeometry) (M : Multiset Vec) (p : Vec) (κ : Path) : Prop :=
  (geomOf root κ).getSize = bitsD * cfg.minCellSize ∧ (geomOf root κ).contains p = true ∧
    ∀ q ∈ M, (geomOf root κ).contains q = false

variable (cfg) in
/-- Where a point settles: at its own place, or at its cut in a fresh cell. -/
def Settles (root : NodeGeometry) (M : Multiset Vec) (p q : Vec) : Prop :=
  (q = p ∧ ∀ κ, ¬ Fresh cfg root M p κ) ∨ ∃ κ, Fresh cfg root M p κ ∧ q = cut (geomOf root κ) p

variable {M : Multiset Vec} {t u : CellTree} {n : ℕ}

theorem Traced.push (h : IsCube g) (hg : (pointPolicy cfg).finest g = false)
    (ht : Traced cfg g a q) : g.whichChild q = a.getChildForNodePoint ∧
      Traced cfg (g.getChild a.getChildForNodePoint) ((pointPolicy cfg).push a).2 q := by
  rcases ht with rfl | ⟨k, hk, hf⟩
  · refine ⟨(follows_corner h a).whichChild h (by omega), .inl ?_⟩
    exact (funext fun i => corner_push h i).symm
  · have hlt : k < 16 := by
      simp only [pointPolicy, decide_eq_false_iff_not, not_lt] at hg
      have hs := h.1
      have hpow : (2 : ℚ) ^ k < 2 ^ 16 := by
        refine lt_of_mul_lt_mul_left (hk.trans_le ?_) hs.le
        rw [bitsD]
        linarith
      exact (pow_lt_pow_iff_right₀ (by norm_num)).1 hpow
    refine ⟨hf.whichChild h hlt, .inr ⟨k + 1, ?_, hf.push h hlt⟩⟩
    rw [NodeGeometry.getSize_getChild, pow_succ]
    linarith

theorem Sorted.empty_iff (ht : Sorted cfg g M t) : t = .empty ↔ M = 0 := by
  cases t with
  | empty => exact ⟨fun _ => ht, fun _ => rfl⟩
  | leaf a => exact ⟨fun h => (nomatch h), fun h => absurd h ht.1⟩
  | branch kids => exact ⟨fun h => (nomatch h), fun h => absurd h ht.1⟩

/-- Dividing a cell sorts its points. -/
theorem Sorted.split (h : IsCube g) (hg : (pointPolicy cfg).finest g = false)
    (ht : Sorted cfg g M t) (i : ChildNr) :
    Sorted cfg (g.getChild i) (M.filter fun q => g.whichChild q = i)
      ((pointPolicy cfg).split t i) := by
  cases t with
  | empty =>
    obtain rfl : M = 0 := ht
    rfl
  | leaf a =>
    obtain ⟨-, hcount, hfinest | ⟨hfine, q, rfl, htr⟩⟩ := ht
    · rw [hg] at hfinest
      cases hfinest
    · obtain ⟨hq, htr'⟩ := htr.push h hg
      by_cases hi : i = a.getChildForNodePoint
      · subst hi
        rw [Policy.split, show ((pointPolicy cfg).push a).1 = a.getChildForNodePoint from rfl,
          Function.update_self, Multiset.filter_singleton, if_pos hq]
        refine ⟨Multiset.singleton_ne_zero q, hcount, .inr ⟨?_, q, rfl, htr'⟩⟩
        have hs := h.1
        simp only [pointPolicy, decide_eq_true_eq, decide_eq_false_iff_not, not_lt] at hfine hg ⊢
        rw [NodeGeometry.getSize_getChild]
        refine .inl ?_
        rcases hfine with hfine | hfine
        · rw [bitsD] at hfine ⊢
          linarith
        · exact absurd hfine (not_lt.2 hg)
      · rw [Policy.split, show ((pointPolicy cfg).push a).1 = a.getChildForNodePoint from rfl,
          Function.update_of_ne hi, Multiset.filter_singleton, if_neg fun e => hi (e.symm.trans hq)]
        rfl
  | branch kids => exact ht.2.2.2 i

theorem Fresh.size_le (hg : IsCube root) (h : Fresh cfg root M p κ) :
    bitsD * cfg.minCellSize ≤ root.getSize := by
  rw [← h.1, getSize_geomOf]
  exact div_le_self hg.1.le (one_le_pow₀ (by norm_num))

/-- The cells that may be divided are at most sixteen levels below a fresh cell. -/
theorem Fresh.length_le (hmin : 0 < cfg.minCellSize) (h : Fresh cfg root M p κ)
    (hπ : cfg.minCellSize ≤ (geomOf root π).getSize) : π.length ≤ 16 + κ.length ∧
      (π.length = 16 + κ.length → (geomOf root π).getSize = cfg.minCellSize) := by
  have hroot : root.getSize = cfg.minCellSize * 2 ^ (16 + κ.length) := by
    have hsize := h.1
    rw [getSize_geomOf, div_eq_iff (by positivity)] at hsize
    rw [hsize, pow_add, bitsD]
    ring
  rw [getSize_geomOf] at hπ ⊢
  constructor
  · rw [le_div_iff₀ (by positivity), hroot] at hπ
    exact (pow_le_pow_iff_right₀ (by norm_num)).1 (le_of_mul_le_mul_left hπ hmin)
  · intro hlen
    rw [hroot, hlen, mul_div_assoc, div_self (by positivity), mul_one]

theorem Settles.contains (hg : IsCube root) (hp : root.contains p = true)
    (h : Settles cfg root M p q) : root.contains q = true := by
  rcases h with ⟨rfl, -⟩ | ⟨κ, hκ, rfl⟩
  · exact hp
  · have hc : (geomOf root (κ ++ [])).contains (cut (geomOf root κ) p) = true := by
      rw [List.append_nil]
      exact contains_cut (isCube_geomOf hg κ) hκ.2.1
    exact contains_of_append (π := []) (NodeGeometry.lt_of_contains hp) hc

/-- A point that settles at its cut goes its own way for sixteen levels below the fresh cell, and to
the first child then. -/
theorem Settles.route (hg : IsCube root) (hp : root.contains p = true)
    (h : Settles cfg root M p q) : (q = p ∧ ∀ κ, ¬ Fresh cfg root M p κ) ∨
      ∃ κ, Fresh cfg root M p κ ∧
        MegaTree.route root q (16 + κ.length) = MegaTree.route root p (16 + κ.length) ∧
        MegaTree.route root q (17 + κ.length) = 0 :: MegaTree.route root p (16 + κ.length) := by
  have hq := h.contains hg hp
  rcases h with h | ⟨κ, hκ, rfl⟩
  · exact .inl h
  · have hcube := isCube_geomOf hg κ
    have hqκ := contains_cut hcube hκ.2.1
    refine .inr ⟨κ, hκ, ?_, ?_⟩
    · rw [route_append hq hqκ, route_append hp hκ.2.1, route_cut hcube hκ.2.1 le_rfl]
    · rw [route_append hq hqκ, route_append hp hκ.2.1, route_cut_last hcube hκ.2.1,
        List.cons_append]

/-- A fresh cell below a child is a fresh cell. -/
theorem fresh_child {i : ChildNr} (hp : g.contains p = true) :
    Fresh cfg (g.getChild i) (M.filter fun q => g.whichChild q = i) p κ ↔
      Fresh cfg g M p (κ ++ [i]) := by
  have hlt := root_lt_of_contains (π := []) hp
  have hcell : geomOf g (κ ++ [i]) = geomOf (g.getChild i) κ := geomOf_append κ [i]
  rw [Fresh, Fresh, hcell]
  refine and_congr_right fun _ => and_congr_right fun _ => ⟨fun h q hq => ?_, fun h q hq => ?_⟩
  · by_cases hi : g.whichChild q = i
    · exact h q (Multiset.mem_filter.2 ⟨hq, hi⟩)
    · by_contra hc
      rw [Bool.not_eq_false, ← hcell] at hc
      exact hi (NodeGeometry.whichChild_of_contains hlt (contains_of_append hlt hc)).2
  · exact h q (Multiset.mem_filter.1 hq).1

/-- A point that goes down to a child settles there. -/
theorem Settles.of_child (hp : g.contains p = true) (hroot : ¬ Fresh cfg g M p [])
    (h : Settles cfg (g.getChild (g.whichChild p))
      (M.filter fun q => g.whichChild q = g.whichChild p) p q) : Settles cfg g M p q := by
  rcases h with ⟨rfl, hno⟩ | ⟨κ, hκ, rfl⟩
  · refine .inl ⟨rfl, fun κ hκ => ?_⟩
    rcases List.eq_nil_or_concat κ with rfl | ⟨ξ, i, rfl⟩
    · exact hroot hκ
    · rw [List.concat_eq_append] at hκ
      have hlt := root_lt_of_contains (π := []) hp
      obtain rfl := (NodeGeometry.whichChild_of_contains hlt (contains_of_append hlt hκ.2.1)).2
      exact hno ξ ((fresh_child hp).2 hκ)
  · refine .inr ⟨κ ++ [g.whichChild p], (fresh_child hp).1 hκ, ?_⟩
    rw [geomOf_append]
    rfl

/-- A point settles in an empty cell that takes it at once. -/
theorem Sorted.single (hg : IsCube g) {x : Vec × Vec} (hp : g.contains x.1 = true)
    (hf : (pointPolicy cfg).fine g = true) :
    ∃ q, Settles cfg g 0 x.1 q ∧ Sorted cfg g {q} (.leaf ((pointPolicy cfg).single g x)) := by
  have hs := hg.1
  by_cases hsize : g.getSize = bitsD * cfg.minCellSize
  · refine ⟨cut g x.1, .inr ⟨[], ⟨hsize, hp, fun q hq => absurd hq (Multiset.notMem_zero q)⟩, rfl⟩, ?_⟩
    exact ⟨Multiset.singleton_ne_zero _, rfl, .inr ⟨hf, _, rfl, .inl rfl⟩⟩
  · have hlt : g.getSize < bitsD * cfg.minCellSize := by
      refine lt_of_le_of_ne ?_ hsize
      simp only [pointPolicy, decide_eq_true_eq] at hf
      rw [bitsD] at hf ⊢
      rcases hf with hf | hf <;> linarith
    refine ⟨x.1, .inl ⟨rfl, fun κ hκ => absurd (hκ.size_le hg) (not_le.2 hlt)⟩, ?_⟩
    refine ⟨Multiset.singleton_ne_zero _, rfl,
      .inr ⟨hf, _, rfl, .inr ⟨0, ?_, follows_single hg hp⟩⟩⟩
    simpa using hlt

/-- A point settles at its own place in a cell that is not divided. -/
theorem Sorted.merge (hg : IsCube g) {x : Vec × Vec} (hf : (pointPolicy cfg).finest g = true)
    (hmin : 0 < cfg.minCellSize) (hB : Multiset.card M + 1 < countBound)
    (ht : Sorted cfg g M (.leaf a)) :
    Settles cfg g M x.1 x.1 ∧
      Sorted cfg g (x.1 ::ₘ M) (.leaf ((pointPolicy cfg).merge g a x)) := by
  have hcount : a.count.toNat = Multiset.card M := ht.2.1
  refine ⟨.inl ⟨rfl, fun κ hκ => ?_⟩, Multiset.cons_ne_zero, ?_, .inl hf⟩
  · have := hκ.size_le hg
    simp only [pointPolicy, decide_eq_true_eq] at hf
    rw [bitsD] at this
    linarith
  · rw [Multiset.card_cons, ← hcount]
    refine (pointCount_merge g a x ?_ : pointCount ((pointPolicy cfg).merge g a x) = _)
    rw [pointCount, hcount]
    exact hB

/-- The value of a cell that takes a point without being divided. -/
theorem Sorted.stop {x : Vec × Vec} (hg : IsCube g) (hp : g.contains x.1 = true)
    (hmin : 0 < cfg.minCellSize) (hB : Multiset.card M + 1 < countBound) (ht : Sorted cfg g M t)
    (hs : (pointPolicy cfg).stop x g t = some a) :
    ∃ q, Settles cfg g M x.1 q ∧ Sorted cfg g (q ::ₘ M) (.leaf a) := by
  cases t with
  | empty =>
    obtain rfl : M = 0 := ht
    simp only [Policy.stop] at hs
    split_ifs at hs with hf
    obtain rfl := Option.some.inj hs
    exact Sorted.single hg hp hf
  | leaf b =>
    simp only [Policy.stop] at hs
    split_ifs at hs with hf
    obtain rfl := Option.some.inj hs
    exact ⟨x.1, ht.merge hg hf hmin hB⟩
  | branch kids => cases hs

/-- A cell that is divided for a point may be divided, and if it is empty it is too large. -/
theorem Sorted.of_stop_none {x : Vec × Vec} (ht : Sorted cfg g M t)
    (hs : (pointPolicy cfg).stop x g t = none) : (pointPolicy cfg).finest g = false ∧
      ((pointPolicy cfg).fine g = true → M ≠ 0) := by
  cases t with
  | empty =>
    have hfine : (pointPolicy cfg).fine g = false := by simpa [Policy.stop] using hs
    refine ⟨?_, fun hf => ?_⟩
    · by_contra hc
      rw [fine_of_finest g (by simpa using hc)] at hfine
      cases hfine
    · rw [hfine] at hf
      cases hf
  | leaf b => exact ⟨by simpa [Policy.stop] using hs, fun _ => ht.1⟩
  | branch kids => exact ⟨ht.2.1, fun _ => ht.1⟩

/-- **An insertion adds the place where its point settles.** -/
theorem Sorted.insert {x : Vec × Vec} (hg : IsCube g) (hp : g.contains x.1 = true)
    (hM : ∀ q ∈ M, g.contains q = true) (hmin : 0 < cfg.minCellSize)
    (hB : Multiset.card M + 1 < countBound) (ht : Sorted cfg g M t)
    (h : (pointPolicy cfg).insert x n g t = some u) :
    ∃ q, Settles cfg g M x.1 q ∧ Sorted cfg g (q ::ₘ M) u := by
  induction n generalizing g M t u with
  | zero =>
    obtain ⟨a, ha, rfl⟩ := Option.map_eq_some_iff.1 h
    exact ht.stop hg hp hmin hB ha
  | succ n ih =>
    cases hs : (pointPolicy cfg).stop x g t with
    | some a =>
      rw [Policy.insert_of_stop hs] at h
      obtain rfl := Option.some.inj h
      exact ht.stop hg hp hmin hB hs
    | none =>
      rw [Policy.insert_succ hs] at h
      obtain ⟨v, hv, rfl⟩ := Option.map_eq_some_iff.1 h
      obtain ⟨hfinest, hfine⟩ := ht.of_stop_none hs
      have hle := Multiset.card_le_card (Multiset.filter_le (fun q => g.whichChild q = g.whichChild x.1) M)
      obtain ⟨q, hq, hu⟩ := ih (hg.child (g.whichChild x.1)) (NodeGeometry.contains_whichChild hp)
        (fun y hy => by
          obtain ⟨hy, hyc⟩ := Multiset.mem_filter.1 hy
          rw [← hyc]
          exact NodeGeometry.contains_whichChild (hM y hy))
        (by omega) (ht.split hg hfinest _) hv
      have hqc : g.whichChild q = g.whichChild x.1 := (NodeGeometry.whichChild_of_contains
        (root_lt_of_contains (π := []) hp)
        (hq.contains (hg.child _) (NodeGeometry.contains_whichChild hp))).2
      refine ⟨q, hq.of_child hp fun hκ => ?_, Multiset.cons_ne_zero, hfinest,
        fun hf => ?_, fun j => ?_⟩
      · -- a cell of that size takes its first point at once
        refine hfine ?_ (Multiset.eq_zero_of_forall_notMem fun y hy => ?_)
        · have hsize : g.getSize = bitsD * cfg.minCellSize := hκ.1
          simp only [pointPolicy, decide_eq_true_eq]
          refine .inl ?_
          rw [hsize, bitsD]
          linarith
        · have hno : g.contains y = false := hκ.2.2 y hy
          rw [hM y hy] at hno
          cases hno
      · rw [Multiset.card_cons]
        have := Multiset.card_pos.2 (hfine hf)
        omega
      · change Sorted cfg (g.getChild j) _
          (Function.update ((pointPolicy cfg).split t) (g.whichChild x.1) v j)
        by_cases hj : j = g.whichChild x.1
        · subst hj
          rw [Multiset.filter_cons_of_pos (p := fun y => g.whichChild y = g.whichChild x.1) M hqc,
            Function.update_self]
          exact hu
        · rw [Multiset.filter_cons_of_neg (p := fun y => g.whichChild y = j) M
            fun e => hj (e.symm.trans hqc), Function.update_of_ne hj]
          exact ht.split hg hfinest j

end MegaTree
