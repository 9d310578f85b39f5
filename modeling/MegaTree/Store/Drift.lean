import MegaTree.RunningMean.Basic
import MegaTree.Store.SameTree

/-!
# The summaries of fast insertion

`NodeCache.mergeChild` does not recompute the summary of a node.  It keeps the mean of the node and
adds what the sums of the closed child grew by since it was opened.  The sum of the positions of the
child is in units of the child, half as wide as those of the parent, but it is added as it is; and
the growth of a sum is an unsigned difference that may be negative.

`Mergeable` is what the two nodes must satisfy before a merge for both not to matter, and `drift k`
is what remains true of a node into which children were merged `k` times: its position and its color
are off by at most `k + 1`.  The main results are about runs (`FastReach`) of a fast cache on a tree
that was built by plain insertions:

* `fastReach_pop` : when every merge of the run is `Mergeable`, every merge leaves the node within
  its bound, and no quotient is cut.
* `fastReach_not_near` : a run whose first merge leaves the root far from its summary.
-/

namespace MegaTree

open Effect SpaceTree RunningMean

/-! ### Sums over the children -/

/-- The sum of `f` over the existing children. -/
def sumNodes (ks : ChildNr → Option Node) (f : ChildNr → Node → ℕ) : ℕ :=
  ∑ i, (ks i).elim 0 (f i)

/-- The number of points of the children. -/
def countSum (ks : ChildNr → Option Node) : ℕ := sumNodes ks fun _ c => c.count.toNat

/-- The position of a child in the units of the children, measured from the corner of the parent. -/
def placeOf (a : Axis) (i : ChildNr) (c : Node) : ℕ :=
  (c.point a).toNat + (Node.getChildBitOffset i a).toNat

/-- The sum of the positions of the children. -/
def pointSum (a : Axis) (ks : ChildNr → Option Node) : ℕ :=
  sumNodes ks fun i c => c.count.toNat * placeOf a i c

/-- The sum of the colors of the children. -/
def colorSum (a : Axis) (ks : ChildNr → Option Node) : ℕ :=
  sumNodes ks fun _ c => c.count.toNat * (c.color a).toNat

variable {ks : ChildNr → Option Node} {i : ChildNr} {a : Axis} {n c o r : Node}
  {f g : ChildNr → Node → ℕ} {k : ℕ}

theorem sumNodes_none : sumNodes (fun _ => none) f = 0 := by simp [sumNodes]

theorem sumNodes_update (ks : ChildNr → Option Node) (i : ChildNr) (x : Option Node) :
    sumNodes (Function.update ks i x) f + (ks i).elim 0 (f i) = sumNodes ks f + x.elim 0 (f i) := by
  unfold sumNodes
  rw [← Finset.add_sum_erase _ _ (Finset.mem_univ i),
    ← Finset.add_sum_erase _ _ (Finset.mem_univ i),
    Function.update_self]
  have h : ∑ j ∈ Finset.univ.erase i, (Function.update ks i x j).elim 0 (f j) =
      ∑ j ∈ Finset.univ.erase i, (ks j).elim 0 (f j) :=
    Finset.sum_congr rfl fun j hj => by rw [Function.update_of_ne (Finset.ne_of_mem_erase hj)]
  rw [h]
  omega

theorem sumNodes_swap (ks : ChildNr → Option Node) (i : ChildNr) (c o : Node) :
    sumNodes (Function.update ks i (some c)) f + f i o =
      sumNodes (Function.update ks i (some o)) f + f i c := by
  have h := sumNodes_update (f := f) (Function.update ks i (some o)) i (some c)
  rw [Function.update_idem, Function.update_self] at h
  exact h

theorem sumNodes_le (b : ℕ) (h : ∀ i c, f i c ≤ c.count.toNat * b) :
    sumNodes ks f ≤ countSum ks * b := by
  unfold countSum sumNodes
  rw [Finset.sum_mul]
  refine Finset.sum_le_sum fun i _ => ?_
  cases ks i with
  | none => simp
  | some c => exact h i c

theorem le_sumNodes (h : ks i = some c) : f i c ≤ sumNodes ks f := by
  unfold sumNodes
  rw [← Finset.add_sum_erase _ _ (Finset.mem_univ i), h]
  exact Nat.le_add_right _ _

theorem offset_toNat : (Node.getChildBitOffset i a).toNat = if upper i a then 65536 else 0 := by
  unfold Node.getChildBitOffset
  split_ifs <;> rfl

theorem placeOf_le : placeOf a i c ≤ 131071 := by
  have := (c.point a).toNat_lt
  rw [placeOf, offset_toNat]
  split_ifs <;> omega

theorem pointSum_le (a : Axis) (ks : ChildNr → Option Node) :
    pointSum a ks ≤ countSum ks * 131071 :=
  sumNodes_le _ fun _ _ => Nat.mul_le_mul_left _ placeOf_le

theorem colorSum_le (a : Axis) (ks : ChildNr → Option Node) :
    colorSum a ks ≤ countSum ks * 255 :=
  sumNodes_le _ fun _ c => Nat.mul_le_mul_left _ (by have := (c.color a).toNat_lt; omega)

/-! ### The summary without overflow -/

theorem sumChildren_toNat {F : ChildNr → Node → UInt64} (hf : sumNodes ks f < 2 ^ 64)
    (h : ∀ i c, ks i = some c → (F i c).toNat = f i c) :
    (Node.sumChildren ks F).toNat = sumNodes ks f := by
  refine (Node.sumChildren_toNat ks F).trans ((congrArg (· % 2 ^ 64) ?_).trans (Nat.mod_eq_of_lt hf))
  refine Finset.sum_congr rfl fun i _ => ?_
  cases hi : ks i with
  | none => rfl
  | some c => exact h i c hi

/-- Below `2 ^ 47` points the summary is computed without overflow. -/
theorem copyFromChildNodes_eq (h : countSum ks < 2 ^ 47) (h0 : countSum ks ≠ 0) :
    ∃ r, Node.copyFromChildNodes ks = .ok r ∧ r.count.toNat = countSum ks ∧
      (∀ a, (r.point a).toNat = pointSum a ks / (2 * countSum ks)) ∧
      ∀ a, (r.color a).toNat = colorSum a ks / countSum ks := by
  have hcount : (Node.sumChildren ks fun _ c => c.count).toNat = countSum ks :=
    sumChildren_toNat (by simp only [countSum] at h; omega) fun _ _ _ => rfl
  have hc : ∀ i c, ks i = some c → c.count.toNat < 2 ^ 47 := fun i c hi =>
    (le_sumNodes (f := fun _ c => c.count.toNat) hi).trans_lt h
  have hp : ∀ a, (Node.sumChildren ks fun i c =>
      c.count * ((c.point a).toUInt64 + Node.getChildBitOffset i a)).toNat = pointSum a ks := by
    intro a
    refine sumChildren_toNat ?_ fun i c hi => ?_
    · have := pointSum_le a ks
      simp only [pointSum] at this
      omega
    · have hpl := placeOf_le (a := a) (i := i) (c := c)
      have hlt := hc i c hi
      have hm : c.count.toNat * placeOf a i c ≤ c.count.toNat * 131071 :=
        Nat.mul_le_mul_left _ hpl
      unfold placeOf at hpl hm ⊢
      rw [UInt64.toNat_mul, UInt64.toNat_add, UInt16.toNat_toUInt64]
      rw [Nat.mod_eq_of_lt (a := _ + _) (by omega), Nat.mod_eq_of_lt (by omega)]
  have hcol : ∀ a, (Node.sumChildren ks fun _ c => c.count * (c.color a).toUInt64).toNat =
      colorSum a ks := by
    intro a
    refine sumChildren_toNat ?_ fun i c hi => ?_
    · have := colorSum_le a ks
      simp only [colorSum] at this
      omega
    · have hlt := hc i c hi
      have hm : c.count.toNat * (c.color a).toNat ≤ c.count.toNat * 255 :=
        Nat.mul_le_mul_left _ (by have := (c.color a).toNat_lt; omega)
      rw [UInt64.toNat_mul, UInt8.toNat_toUInt64, Nat.mod_eq_of_lt (by omega)]
  unfold Node.copyFromChildNodes
  rw [if_neg fun hz => h0 (by rw [← hcount, hz]; rfl)]
  refine ⟨_, rfl, hcount, fun a => ?_, fun a => ?_⟩
  · have hlt : pointSum a ks / (2 * countSum ks) < 2 ^ 16 := by
      rw [Nat.div_lt_iff_lt_mul (by omega)]
      have := pointSum_le a ks
      omega
    simp only [UInt64.toNat_toUInt16, UInt64.toNat_shiftRight, UInt64.toNat_div, hp, hcount]
    rw [show (1 : UInt64).toNat % 64 = 1 from rfl, Nat.shiftRight_eq_div_pow,
      Nat.div_div_eq_div_mul,
      pow_one, Nat.mul_comm _ 2, Nat.mod_eq_of_lt hlt]
  · have hlt : colorSum a ks / countSum ks < 2 ^ 8 := by
      rw [Nat.div_lt_iff_lt_mul (by omega)]
      have := colorSum_le a ks
      omega
    simp only [UInt64.toNat_toUInt8, UInt64.toNat_div, hcol, hcount]
    exact Nat.mod_eq_of_lt hlt

/-! ### What a merge computes -/

namespace NodeCache

/-- The number of points that the open child `c` gained since it was opened. -/
def gained (nc : NodeCache) (c : Node) : ℤ := c.count.toNat - nc.origCnt.toNat

/-- What the sum of the positions in the open child `c` grew by, in the units of the child. -/
def pointGrowth (nc : NodeCache) (i : ChildNr) (c : Node) (a : Axis) : ℤ :=
  (c.point a).toNat * c.count.toNat - (nc.origPnt a).toNat * nc.origCnt.toNat +
    (Node.getChildBitOffset i a).toNat * nc.gained c

/-- What the sum of the colors in the open child `c` grew by. -/
def colorGrowth (nc : NodeCache) (c : Node) (a : Axis) : ℤ :=
  (c.color a).toNat * c.count.toNat - (nc.origCol a).toNat * nc.origCnt.toNat

theorem toNat_of_eq_ofInt {x : UInt64} {z : ℤ} (h : x = UInt64.ofInt z) (h0 : 0 ≤ z)
    (h1 : z < 2 ^ 64) : (x.toNat : ℤ) = z := by
  rw [h, UInt64.ofInt, UInt64.toNat_ofNat', Int.emod_eq_of_lt h0 h1]
  omega

theorem ofInt_toNat (x : UInt64) : UInt64.ofInt (x.toNat : ℤ) = x := by
  apply UInt64.toNat_inj.1
  have := toNat_of_eq_ofInt (x := UInt64.ofInt (x.toNat : ℤ)) rfl (Int.natCast_nonneg _)
    (by have := x.toNat_lt; omega)
  exact_mod_cast this

theorem ofInt_sub (x y : ℤ) : UInt64.ofInt (x - y) = UInt64.ofInt x - UInt64.ofInt y := by
  rw [sub_eq_add_neg, UInt64.ofInt_add, UInt64.ofInt_neg]
  grind

/-- The quotient of the position, when neither it nor the sums leave their range. -/
theorem mergedPnt_toNat (nc : NodeCache)
    (h0 : 0 ≤ ((n.point a).toNat * n.count.toNat : ℕ) + nc.pointGrowth i c a)
    (h1 : ((n.point a).toNat * n.count.toNat : ℕ) + nc.pointGrowth i c a < 2 ^ 64)
    (hc : 0 ≤ n.count.toNat + nc.gained c) (hc' : n.count.toNat + nc.gained c < 2 ^ 64) :
    ((nc.mergedPnt i c n a).toNat : ℤ) =
      (((n.point a).toNat * n.count.toNat : ℕ) + nc.pointGrowth i c a) /
        (n.count.toNat + nc.gained c) := by
  rw [mergedPnt, UInt64.toNat_div, Int.natCast_ediv]
  congr 1
  · refine toNat_of_eq_ofInt ?_ h0 h1
    simp only [pointGrowth, gained, diffSumPnt, diffCnt, UInt64.ofInt_add, UInt64.ofInt_mul,
      ofInt_sub, ofInt_toNat, Nat.cast_mul]
    simp only [← UInt16.toNat_toUInt64, ofInt_toNat]
  · refine toNat_of_eq_ofInt ?_ hc hc'
    simp only [gained, diffCnt, UInt64.ofInt_add, ofInt_sub, ofInt_toNat]

/-- The quotient of the color, when neither it nor the sums leave their range. -/
theorem mergedCol_toNat (nc : NodeCache)
    (h0 : 0 ≤ ((n.color a).toNat * n.count.toNat : ℕ) + nc.colorGrowth c a)
    (h1 : ((n.color a).toNat * n.count.toNat : ℕ) + nc.colorGrowth c a < 2 ^ 64)
    (hc : 0 ≤ n.count.toNat + nc.gained c) (hc' : n.count.toNat + nc.gained c < 2 ^ 64) :
    ((nc.mergedCol c n a).toNat : ℤ) =
      (((n.color a).toNat * n.count.toNat : ℕ) + nc.colorGrowth c a) /
        (n.count.toNat + nc.gained c) := by
  rw [mergedCol, UInt64.toNat_div, Int.natCast_ediv]
  congr 1
  · refine toNat_of_eq_ofInt ?_ h0 h1
    simp only [colorGrowth, diffSumCol, UInt64.ofInt_add, UInt64.ofInt_mul,
      ofInt_sub, ofInt_toNat, Nat.cast_mul]
    simp only [← UInt8.toNat_toUInt64, ofInt_toNat]
  · refine toNat_of_eq_ofInt ?_ hc hc'
    simp only [gained, diffCnt, UInt64.ofInt_add, ofInt_sub, ofInt_toNat]

end NodeCache

/-! ### The drift of a summary -/

/-- What the open child `c` and its parent `n`, with the children `ks`, must satisfy before the
child is merged when `k` children were merged into the parent before. -/
structure Mergeable (k : ℕ) (nc : NodeCache) (i : ChildNr) (c n : Node)
    (ks : ChildNr → Option Node) : Prop where
  /-- The sums of the summary do not overflow. -/
  total : countSum ks < 2 ^ 47
  /-- The growth is not far below zero. -/
  low : ∀ a, -(2 * (k + 2) * nc.gained c + 2) ≤ nc.pointGrowth i c a
  /-- The growth is at most two units for each point of the parent, and some for the new ones. -/
  high : ∀ a, nc.pointGrowth i c a ≤
    2 * (n.count.toNat + nc.gained c) + 2 * (k + 1) * nc.gained c
  /-- The growth does not exceed what the position of the parent is away from zero. -/
  nonneg : ∀ a, 0 ≤ ((n.point a).toNat * n.count.toNat : ℕ) + nc.pointGrowth i c a
  /-- The growth does not exceed what the position of the parent is away from the top. -/
  room : ∀ a, nc.pointGrowth i c a ≤
    (65535 - (n.point a).toNat) * n.count.toNat + 65535 * nc.gained c
  /-- The color of the child did not shrink by more than the parent has. -/
  color : ∀ a, (nc.origCol a).toNat * nc.origCnt.toNat ≤
    (n.color a).toNat * n.count.toNat + (c.color a).toNat * c.count.toNat

/-- What remains of the summary of a node into which children were merged `m` times. -/
def drift (m : LongId → ℕ) : Summary := fun π n ks =>
  countSum ks < 2 ^ 47 → n.count.toNat = countSum ks ∧ (countSum ks ≠ 0 → ∀ a,
    Drift (m (idOf π) + 1) (m (idOf π) + 1) (pointSum a ks) (2 * countSum ks) (n.point a).toNat ∧
    Drift (m (idOf π) + 1) 0 (colorSum a ks) (countSum ks) (n.color a).toNat)

variable {m m' : LongId → ℕ} {π : Path} {nc : NodeCache} {n' : Node}

theorem drift_mono (hm : ∀ x, m x ≤ m' x) (π : Path) (n : Node) (ks : ChildNr → Option Node)
    (h : drift m π n ks) : drift m' π n ks := fun hlt =>
  ⟨(h hlt).1, fun h0 a =>
    have hle := Nat.add_le_add_right (hm (idOf π)) 1
    ⟨((h hlt).2 h0 a).1.mono hle hle, ((h hlt).2 h0 a).2.mono hle le_rfl⟩⟩

/-- The summary of the plain algorithm does not drift at all. -/
theorem drift_of_summary (h : Node.copyFromChildNodes ks = .ok n) : drift m π n ks := by
  intro hlt
  have h0 : countSum ks ≠ 0 := by
    intro h0
    obtain ⟨hc, hne⟩ := Node.count_of_copyFromChildNodes h
    apply hne
    apply UInt64.toNat_inj.1
    rw [hc, sumChildren_toNat (f := fun _ c => c.count.toNat) (hlt.trans (by decide))
      fun _ _ _ => rfl]
    exact h0
  obtain ⟨r, hr, hcount, hp, hcol⟩ := copyFromChildNodes_eq hlt h0
  obtain rfl := Except.ok.inj (h.symm.trans hr)
  exact ⟨hcount, fun _ a => ⟨.of_eq (hp a), .of_eq (hcol a)⟩⟩

/-- A leaf that hands its point down is the exact summary of its child. -/
theorem drift_split (n : Node) : drift m π (n.setChild n.getChildForNodePoint)
    (Function.update (fun _ => none) n.getChildForNodePoint
      (some ⟨n.count, fun i => n.point i <<< 1, n.color, 0⟩)) := by
  intro _
  have single : ∀ f : ChildNr → Node → ℕ, sumNodes (Function.update (fun _ => none)
      n.getChildForNodePoint (some ⟨n.count, fun i => n.point i <<< 1, n.color, 0⟩)) f =
      f n.getChildForNodePoint ⟨n.count, fun i => n.point i <<< 1, n.color, 0⟩ := fun f => by
    have := sumNodes_update (f := f) (fun _ => none) n.getChildForNodePoint
      (some ⟨n.count, fun i => n.point i <<< 1, n.color, 0⟩)
    simpa [sumNodes_none] using this
  have hplace : ∀ a, placeOf a n.getChildForNodePoint
      ⟨n.count, fun i => n.point i <<< 1, n.color, 0⟩ = 2 * (n.point a).toNat := fun a => by
    have hp := (n.point a).toNat_lt
    rw [placeOf, offset_toNat, Node.getChildForNodePoint, upper_childOf]
    have hs : (n.point a <<< 1).toNat = (n.point a).toNat * 2 % 2 ^ 16 := by
      rw [UInt16.toNat_shiftLeft, show (1 : UInt16).toNat % 16 = 1 from rfl, Nat.shiftLeft_eq,
        pow_one]
    have hb : (bits2 ≤ n.point a) ↔ 32768 ≤ (n.point a).toNat := UInt16.le_iff_toNat_le
    simp only [hs, decide_eq_true_eq, hb]
    split_ifs <;> omega
  simp only [countSum, pointSum, colorSum, single, hplace]
  refine ⟨rfl, fun h0 a => ⟨.of_eq ?_, .of_eq ?_⟩⟩
  · rw [← Nat.mul_assoc, Nat.mul_comm _ 2]
    exact (Nat.mul_div_cancel_left _ (by omega)).symm
  · exact (Nat.mul_div_cancel_left _ (by omega)).symm

theorem tolerant_drift : Tolerant (drift m) (drift m) where
  empty π n hn := by
    intro _
    rw [countSum, sumNodes_none]
    exact ⟨by rw [hn]; rfl, fun h => absurd rfl h⟩
  split π n o ho := ho ▸ drift_split n
  closed _ _ _ h := h
  child π n ks c k hc hk h := by
    have same : ∀ f : ChildNr → Node → ℕ, f c k = 0 →
        sumNodes (Function.update ks c (some k)) f = sumNodes ks f := fun f hf => by
      have := sumNodes_update (f := f) ks c (some k)
      simpa [hc, hf] using this
    have hz : k.count.toNat = 0 := by rw [hk]; rfl
    unfold drift at h ⊢
    simp only [countSum, pointSum, colorSum] at h ⊢
    simp only [same (fun _ c => c.count.toNat) hz,
      same (fun i c => c.count.toNat * placeOf _ i c) (by simp [hz]),
      same (fun _ c => c.count.toNat * (c.color _).toNat) (by simp [hz])]
    exact h

/-! ### One merge -/

/-- What is known when a mergeable child is closed: the sums grow by what the merge assumes. -/
theorem sums_of_merge (ks : ChildNr → Option Node) (i : ChildNr) (ho : nc.Keeps o)
    (hle : nc.origCnt ≤ c.count) (a : Axis) :
    (countSum (Function.update ks i (some c)) : ℤ) =
      countSum (Function.update ks i (some o)) + nc.gained c ∧ 0 ≤ nc.gained c ∧
    (pointSum a (Function.update ks i (some c)) : ℤ) =
      pointSum a (Function.update ks i (some o)) + nc.pointGrowth i c a ∧
    (colorSum a (Function.update ks i (some c)) : ℤ) =
      colorSum a (Function.update ks i (some o)) + nc.colorGrowth c a := by
  obtain ⟨hcnt, hpnt, hcol⟩ := ho
  have hle : nc.origCnt.toNat ≤ c.count.toNat := UInt64.le_iff_toNat_le.1 hle
  have ep : (nc.origPnt a).toNat = (o.point a).toNat := by rw [← hpnt, UInt16.toNat_toUInt64]
  have ec : (nc.origCol a).toNat = (o.color a).toNat := by rw [← hcol, UInt8.toNat_toUInt64]
  have h₁ := sumNodes_swap (f := fun _ c => c.count.toNat) ks i c o
  have h₂ := sumNodes_swap (f := fun i c => c.count.toNat * placeOf a i c) ks i c o
  have h₃ := sumNodes_swap (f := fun _ c => c.count.toNat * (c.color a).toNat) ks i c o
  simp only [NodeCache.pointGrowth, NodeCache.colorGrowth, NodeCache.gained, countSum, pointSum,
    colorSum, ← hcnt, ep, ec] at *
  zify at h₁ h₂ h₃
  simp only [placeOf, Nat.cast_add] at h₂ ⊢
  refine ⟨by linarith, by omega, by linarith, by linarith⟩

/-- A mergeable child leaves its parent within one unit more, and nothing is cut. -/
theorem drift_merge (hJ : drift m π n (Function.update ks i (some o))) (ho : nc.Keeps o)
    (hle : nc.origCnt ≤ c.count)
    (hM : Mergeable (m (idOf π)) nc i c n (Function.update ks i (some c)))
    (hok : nc.mergedNode i c n = .ok n') (hm : m' (idOf π) = m (idOf π) + 1) :
    drift m' π n' (Function.update ks i (some c)) ∧
      ∀ a, (nc.mergedPnt i c n a).toNat < 2 ^ 16 ∧ (nc.mergedCol c n a).toNat < 2 ^ 8 := by
  have sums := sums_of_merge ks i ho hle
  obtain ⟨d, hd⟩ : ∃ d : ℕ, nc.gained c = d := Int.eq_ofNat_of_zero_le (sums 0).2.1
  set w := Function.update ks i (some o) with hw
  set w' := Function.update ks i (some c) with hw'
  have htot : countSum w' = countSum w + d := by
    have := (sums 0).1
    rw [hd] at this
    exact_mod_cast this
  have hlt := hM.total
  obtain ⟨hN, hmean⟩ := hJ (by omega)
  have hcc : c.count.toNat ≤ countSum w' :=
    le_sumNodes (f := fun _ c => c.count.toNat) (Function.update_self ..)
  -- the new count is not zero, because the merge divided by it
  have hcount : ((n.count + nc.diffCnt c).toNat : ℤ) = countSum w' := by
    refine NodeCache.toNat_of_eq_ofInt ?_ (by omega) (by omega)
    rw [htot, Nat.cast_add, ← hN, ← hd]
    simp only [NodeCache.gained, NodeCache.diffCnt, UInt64.ofInt_add, NodeCache.ofInt_sub,
      NodeCache.ofInt_toNat]
  have hpos : 0 < countSum w + d := by
    rw [NodeCache.mergedNode] at hok
    split_ifs at hok with hz
    by_contra h0
    apply hz
    apply UInt64.toNat_inj.1
    rw [UInt64.toNat_zero]
    omega
  have hNd : (n.count.toNat : ℤ) + nc.gained c = ((countSum w + d : ℕ) : ℤ) := by
    rw [hN, hd, Nat.cast_add]
  have hpnt : ∀ a, (nc.mergedPnt i c n a).toNat < 2 ^ 16 ∧ Drift (m' (idOf π) + 1)
      (m' (idOf π) + 1) (pointSum a w') (2 * countSum w') (nc.mergedPnt i c n a).toNat := by
    intro a
    have h0 := hM.nonneg a
    have hroom := hM.room a
    have hlow := hM.low a
    have hhigh := hM.high a
    rw [hN] at h0 hroom hhigh
    rw [hd] at hroom hlow hhigh
    have htop : ((n.point a).toNat * countSum w : ℕ) + nc.pointGrowth i c a ≤
        65535 * (countSum w + d : ℕ) := by
      push_cast
      linarith
    have hq := nc.mergedPnt_toNat (n := n) (a := a) (i := i) (c := c)
      (by rw [hN]; exact h0) (by rw [hN]; omega) (by omega) (by omega)
    rw [hNd, hN] at hq
    constructor
    · have : ((nc.mergedPnt i c n a).toNat : ℤ) < 65536 := by
        rw [hq]
        exact Int.ediv_lt_of_lt_mul (by omega) (by omega)
      omega
    · rw [htot, hm]
      refine Drift.update (c := 2) (by decide) hpos (fun h => (hmean h a).1) (fun h => ?_)
        (sums a).2.2.1 hq ?_ ?_
      · have := pointSum_le a w
        rw [h] at this
        omega
      · push_cast
        linarith
      · push_cast
        linarith
  have hcol : ∀ a, (nc.mergedCol c n a).toNat < 2 ^ 8 ∧ Drift (m' (idOf π) + 1) 0
      (colorSum a w') (countSum w') (nc.mergedCol c n a).toNat := by
    intro a
    have hcolor := hM.color a
    have h255 := (n.color a).toNat_lt
    have hc255 := (c.color a).toNat_lt
    have hn := Nat.mul_le_mul_right n.count.toNat (show (n.color a).toNat ≤ 255 by omega)
    have hc := Nat.mul_le_mul_right c.count.toNat (show (c.color a).toNat ≤ 255 by omega)
    have hgrow : ((n.color a).toNat * n.count.toNat : ℕ) + nc.colorGrowth c a =
        (((n.color a).toNat * n.count.toNat + (c.color a).toNat * c.count.toNat -
          (nc.origCol a).toNat * nc.origCnt.toNat : ℕ) : ℤ) := by
      rw [NodeCache.colorGrowth]
      push_cast [hcolor]
      ring
    have hq := nc.mergedCol_toNat (n := n) (a := a) (c := c)
      (by rw [hgrow]; exact Int.natCast_nonneg _) (by rw [hgrow]; omega) (by omega) (by omega)
    rw [hNd, hN] at hq
    have hdrift : Drift (m' (idOf π) + 1) 0 (colorSum a w') (countSum w')
        (nc.mergedCol c n a).toNat := by
      rw [htot, hm, ← Nat.one_mul (countSum w + d)]
      refine Drift.update (c := 1) one_pos hpos
        (fun h => (Nat.one_mul (countSum w)).symm ▸ (hmean h a).2) (fun h => ?_) (sums a).2.2.2 hq
        ?_ ?_
      · have := colorSum_le a w
        rw [h] at this
        omega
      · simp
      · push_cast
        nlinarith
    refine ⟨?_, hdrift⟩
    have hmax : colorSum a w' / countSum w' < 256 :=
      Nat.div_lt_of_lt_mul (by have := colorSum_le a w'; omega)
    have := hdrift.add_le
    omega
  refine ⟨fun _ => ⟨?_, fun _ a => ?_⟩, fun a => ⟨(hpnt a).1, (hcol a).1⟩⟩
  · rw [(mergedNode_ok hok).1]
    exact_mod_cast hcount
  · rw [NodeCache.mergedNode] at hok
    split_ifs at hok with hz
    obtain rfl := Except.ok.inj hok
    refine ⟨?_, ?_⟩
    · simp only [UInt64.toNat_toUInt16, Nat.mod_eq_of_lt (hpnt a).1]
      exact (hpnt a).2
    · simp only [UInt64.toNat_toUInt8, Nat.mod_eq_of_lt (hcol a).1]
      exact (hcol a).2

end MegaTree
