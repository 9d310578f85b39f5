import MegaTree.Core.Repair
import MegaTree.Core.Summary
import MegaTree.Store.View

/-!
# The root file from the file below it

`fixup_root` rebuilds the file `f`, which has the levels 1 to 6 of a tree with files of six levels,
from `f1`, the nodes of level 7.  The loop of `initializeRootNodeFile` condenses one level after the
other and stops when a level has only the root.

* `Level` : the nodes of one level of the tree above `f1`.
* `condenseLevel_level` : a round goes from one level to the one above.
* `rebuildsRoot_iff` : the loop ends with the levels 1 to 6 exactly when `f1` has a node and its
  counts do not add up to more than a count can hold.
-/

namespace MegaTree

open Std

/-! ### The loop -/

/-- The nodes of the last level by their parents.  `short_id_prefix` is that of a node in child file 1
in the round that condenses `f1`, and there is none in the other rounds. -/
def groupLevel (condensingF1 : Bool) (lastLevel : NodeMap) : ParentGrouping :=
  lastLevel.toList.foldl (ParentGrouping.place (if condensingF1 then 1 else 0)) ∅

/-- Every group becomes a node of the next level. -/
def condenseLevel (condensingF1 : Bool) (lastLevel : NodeMap) : Except Err NodeMap :=
  condense (groupLevel condensingF1 lastLevel).toList ∅

/-- `last_level.size() == 1 && last_level.begin()->first == 1` -/
def reachedRoot (lastLevel : NodeMap) : Bool := lastLevel.toList.map Prod.fst == [1]

/-- `node_cache.insert(last_level.begin(), last_level.end())`: nodes that are there stay. -/
def insertLevel (nodeCache lastLevel : NodeMap) : NodeMap :=
  lastLevel.toList.foldl (fun m x => m.insertIfNew x.1 x.2) nodeCache

/-- The loop of `initializeRootNodeFile`, or `none` when it has not ended after `fuel` rounds. -/
def condenseLoop : ℕ → Bool → NodeMap → NodeMap → Option (Except Err NodeMap)
  | 0, _, _, _ => none
  | fuel + 1, condensingF1, lastLevel, nodeCache =>
    match condenseLevel condensingF1 lastLevel with
    | .error e => some (.error e)
    | .ok lastLevel =>
      let nodeCache := insertLevel nodeCache lastLevel
      if reachedRoot lastLevel then some (.ok nodeCache)
      else condenseLoop fuel false lastLevel nodeCache

/-- `initializeRootNodeFile(path, child)` -/
def FileData.initializeRootNodeFile (fuel : ℕ) (child : FileData) : Option (Except Err FileData) :=
  (condenseLoop fuel true child.nodeCache ∅).map fun r => r.map fun nodeCache => ⟨0x02, nodeCache⟩

variable {cfg : Config} {f1 f : FileData} {m : NodeMap} {π : Path} {c i : ChildNr} {s : ShortId}
  {n : Node} {k d : ℕ}

/-! ### Counts -/

/-- The count under a short id. -/
def countAt (m : NodeMap) (s : ShortId) : ℕ := (m[s]?).elim 0 fun n => n.count.toNat

/-- The sum of the counts of a file. -/
def totalCounts (m : NodeMap) : ℕ := (m.toList.map fun x => x.2.count.toNat).sum

theorem sum_find (l : List (ShortId × Node)) (hl : l.Pairwise fun a b => a.1 ≠ b.1) (s : ShortId) :
    ((l.find? fun x => x.1 = s).map Prod.snd).elim 0 (fun n => n.count.toNat) =
      (l.map fun x => if x.1 = s then x.2.count.toNat else 0).sum := by
  induction l with
  | nil => rfl
  | cons x l ih =>
    obtain ⟨hx, hl⟩ := List.pairwise_cons.1 hl
    by_cases h : x.1 = s
    · have hrest : (l.map fun y => if y.1 = s then y.2.count.toNat else 0).sum = 0 := by
        refine List.sum_eq_zero fun a ha => ?_
        obtain ⟨y, hy, rfl⟩ := List.mem_map.1 ha
        exact if_neg fun hys => hx y hy (h.trans hys.symm)
      simp [h, hrest]
    · simp [h, ih hl]

theorem countAt_eq (m : NodeMap) (s : ShortId) :
    countAt m s = (m.toList.map fun x => if x.1 = s then x.2.count.toNat else 0).sum := by
  rw [countAt, ← find?_toList]
  exact sum_find m.toList (pairwise_toList m) s

/-- The counts under all short ids below a bound add up to those of the file. -/
theorem sum_countAt {N : ℕ} (hN : N ≤ 2 ^ 32)
    (h : ∀ (s : ShortId) n, m[s]? = some n → s.toNat < N) :
    ∑ j ∈ Finset.range N, countAt m (.ofNat j) = totalCounts m := by
  have hlt : ∀ x ∈ m.toList, x.1.toNat < N := fun x hx =>
    h x.1 x.2 (ExtTreeMap.mem_toList_iff_getElem?_eq_some.1 hx)
  simp only [countAt_eq, totalCounts]
  generalize m.toList = l at hlt
  induction l with
  | nil => simp
  | cons x l ih =>
    have hone : ∑ j ∈ Finset.range N, (if x.1 = UInt32.ofNat j then x.2.count.toNat else 0) =
        x.2.count.toNat := by
      rw [Finset.sum_eq_single x.1.toNat]
      · rw [UInt32.ofNat_toNat, if_pos rfl]
      · intro j hj hne
        refine if_neg fun he => hne ?_
        rw [he, UInt32.toNat_ofNat', Nat.mod_eq_of_lt ((Finset.mem_range.1 hj).trans_le hN)]
      · exact fun hno => absurd (Finset.mem_range.2 (hlt x List.mem_cons_self)) hno
    simp only [List.map_cons, List.sum_cons, Finset.sum_add_distrib, hone]
    rw [ih fun y hy => hlt y (List.mem_cons_of_mem x hy)]

/-! ### The nodes above `f1` -/

/-- The node at a path that is `k` levels above the nodes of `f1`. -/
def nodeAbove (cfg : Config) (f1 : FileData) : ℕ → Path → Option Node
  | 0, π => f1.nodeCache[shortOf cfg π]?
  | k + 1, π => (Node.copyFromChildNodes fun c => nodeAbove cfg f1 k (c :: π)).toOption

/-- The counts of the nodes of `f1` that are `k` levels below a path. -/
def countBelow (cfg : Config) (f1 : FileData) : ℕ → Path → ℕ
  | 0, π => countAt f1.nodeCache (shortOf cfg π)
  | k + 1, π => ∑ c, countBelow cfg f1 k (c :: π)

theorem countBelow_eq (hw : cfg.subtreeWidth = 6) (h : π.length + k = 6) :
    countBelow cfg f1 k π = ∑ j ∈ Finset.range (8 ^ k),
      countAt f1.nodeCache (.ofNat ((8 ^ k * octal π + j) % 8 ^ 6)) := by
  induction k generalizing π with
  | zero =>
    have hs : (shortOf cfg π).toNat = _ := shortOf_toNat (by simp only [maxDepth]; omega)
    rw [hw, Nat.min_eq_right (by omega)] at hs
    rw [countBelow, pow_zero, Finset.sum_range_one, Nat.one_mul, Nat.add_zero, ← hs,
      UInt32.ofNat_toNat]
  | succ k ih =>
    have hsplit : ∀ n (g : ℕ → ℕ), ∑ j ∈ Finset.range (n * 8 ^ k), g j =
        ∑ c ∈ Finset.range n, ∑ j ∈ Finset.range (8 ^ k), g (c * 8 ^ k + j) := by
      intro n g
      induction n with
      | zero => simp
      | succ n ihn => rw [Nat.succ_mul, Finset.sum_range_add, ihn, Finset.sum_range_succ]
    rw [countBelow, pow_succ', hsplit, Finset.sum_range]
    refine Finset.sum_congr rfl fun c _ => ?_
    rw [ih (by simp only [List.length_cons]; omega)]
    refine Finset.sum_congr rfl fun j _ => ?_
    rw [octal]
    congr 3
    ring

theorem countBelow_root (hw : cfg.subtreeWidth = 6)
    (h : ∀ (s : ShortId) n, f1.nodeCache[s]? = some n → s.toNat < 8 ^ 6) :
    countBelow cfg f1 6 [] = totalCounts f1.nodeCache := by
  rw [countBelow_eq hw rfl, ← sum_countAt (by decide) h]
  refine Finset.sum_congr rfl fun j hj => ?_
  rw [octal, Nat.mul_one, Nat.add_mod_left, Nat.mod_eq_of_lt (Finset.mem_range.1 hj)]

theorem countBelow_le (c : ChildNr) :
    countBelow cfg f1 k (c :: π) ≤ countBelow cfg f1 (k + 1) π :=
  Finset.single_le_sum (f := fun c => countBelow cfg f1 k (c :: π)) (fun _ _ => Nat.zero_le _)
    (Finset.mem_univ c)

/-- A node has the counts below it, and there is one where these are not zero. -/
theorem count_nodeAbove (hpos : ∀ (s : ShortId) n, f1.nodeCache[s]? = some n → n.count ≠ 0)
    (hlt : countBelow cfg f1 k π < 2 ^ 64) :
    (nodeAbove cfg f1 k π).elim 0 (fun n => n.count.toNat) = countBelow cfg f1 k π ∧
      ∀ n, nodeAbove cfg f1 k π = some n → n.count ≠ 0 := by
  induction k generalizing π with
  | zero => exact ⟨rfl, fun n hn => hpos _ n hn⟩
  | succ k ih =>
    have hsum : Summary.sumAll (fun c => nodeAbove cfg f1 k (c :: π)) (fun _ n => n.count.toNat) =
        countBelow cfg f1 (k + 1) π :=
      Finset.sum_congr rfl fun c _ => (ih ((countBelow_le c).trans_lt hlt)).1
    have hmachine := Summary.toNat_sumChildren (fun c => nodeAbove cfg f1 k (c :: π))
      (f := fun _ n => n.count) (fun _ _ _ => rfl) (hsum.trans_lt hlt)
    rw [nodeAbove]
    cases hcopy : Node.copyFromChildNodes fun c => nodeAbove cfg f1 k (c :: π) with
    | ok n =>
      obtain ⟨hc, hz⟩ := Node.count_of_copyFromChildNodes hcopy
      refine ⟨?_, fun n' hn => Option.some.inj hn ▸ hz⟩
      change n.count.toNat = _
      rw [hc, hmachine, hsum]
    | error e =>
      obtain ⟨-, hz⟩ := Node.copyFromChildNodes_error hcopy
      refine ⟨?_, nofun⟩
      rw [hz] at hmachine
      exact hmachine.trans hsum

/-! ### Short ids of the levels -/

/-- The number of the child file whose prefix the nodes of a level get. -/
def levelPrefix (d : ℕ) : ChildNr := if d = 6 then 1 else 0

theorem toNat_shortOf (hw : cfg.subtreeWidth = 6) (h : π.length ≤ 6) :
    (shortOf cfg π).toNat = if π.length = 6 then octal π - 8 ^ 6 else octal π := by
  have hlt := octal_lt π
  have hle := le_octal π
  have hs : (shortOf cfg π).toNat = _ := shortOf_toNat (by simp only [maxDepth]; omega)
  rw [hs, hw]
  split_ifs with h6
  · rw [h6] at hlt hle ⊢
    simp only [Nat.min_def, Nat.reducePow, Nat.reduceAdd, Nat.reduceLeDiff, if_false] at *
    omega
  · rw [Nat.min_eq_left (by omega), Nat.mod_eq_of_lt]
    rw [pow_succ]
    omega

theorem shortOf_injective {ρ : Path} (hw : cfg.subtreeWidth = 6) (hπ : π.length ≤ 6)
    (hρ : ρ.length ≤ 6) (hd : π.length = 6 ↔ ρ.length = 6) (h : shortOf cfg π = shortOf cfg ρ) :
    π = ρ := by
  have hle := le_octal π
  have hle' := le_octal ρ
  have ht := congrArg UInt32.toNat h
  rw [toNat_shortOf hw hπ, toNat_shortOf hw hρ] at ht
  apply octal_injective
  by_cases h6 : π.length = 6
  · rw [if_pos h6, if_pos (hd.1 h6)] at ht
    rw [h6] at hle
    rw [hd.1 h6] at hle'
    omega
  · rwa [if_neg h6, if_neg (mt hd.2 h6)] at ht

/-- The parent of a node and its number there, from its short id. -/
theorem parentShortId_level (hw : cfg.subtreeWidth = 6) (h : (c :: π).length ≤ 6) :
    parentShortId (levelPrefix (c :: π).length) (shortOf cfg (c :: π)) = shortOf cfg π ∧
      whichChildId (shortOf cfg (c :: π)) = c := by
  have hc := c.isLt
  have hlen : π.length < 6 := h
  have hchild : (shortOf cfg (c :: π)).toNat = _ := toNat_shortOf hw h
  have hparent : (shortOf cfg π).toNat = _ := toNat_shortOf hw hlen.le
  rw [if_neg hlen.ne] at hparent
  have hlt := octal_lt π
  have hle := le_octal π
  rw [octal] at hchild
  constructor
  · apply UInt32.toNat_inj.1
    have hpre : (UInt32.ofNat (levelPrefix (c :: π).length).val <<< (5 * 3)).toNat =
        if (c :: π).length = 6 then 8 ^ 5 else 0 := by
      rw [levelPrefix]
      split_ifs <;> rfl
    rw [parentShortId, UInt32.toNat_add, hpre, toNat_shiftRight_three, hchild, hparent]
    split_ifs with h6
    · have h5 : π.length = 5 := by simpa using h6
      rw [h5] at hlt hle
      omega
    · have hpow : 8 ^ π.length ≤ 8 ^ 4 := Nat.pow_le_pow_right (by decide) (by
        simp only [List.length_cons] at h6
        omega)
      omega
  · apply Fin.ext
    rw [whichChildId_val, hchild]
    split_ifs with h6
    · have h5 : π.length = 5 := by simpa using h6
      rw [h5] at hlt hle
      omega
    · omega

/-! ### Levels -/

/-- The node at a path of up to six steps. -/
def nodeOver (cfg : Config) (f1 : FileData) (π : Path) : Option Node :=
  nodeAbove cfg f1 (6 - π.length) π

theorem nodeOver_of_lt (h : π.length < 6) : nodeOver cfg f1 π =
    (Node.copyFromChildNodes fun c => nodeOver cfg f1 (c :: π)).toOption := by
  obtain ⟨k, hk⟩ : ∃ k, 6 - π.length = k + 1 := ⟨5 - π.length, by omega⟩
  have hk' : ∀ c : ChildNr, 6 - (c :: π).length = k := fun c => by
    rw [List.length_cons]
    omega
  simp only [nodeOver, hk, hk', nodeAbove]

/-- The map has the nodes at the paths of `d` steps. -/
def Level (cfg : Config) (f1 : FileData) (d : ℕ) (m : NodeMap) : Prop :=
  ∀ (s : ShortId) n, m[s]? = some n ↔
    ∃ π : Path, π.length = d ∧ shortOf cfg π = s ∧ nodeOver cfg f1 π = some n

open Classical in
/-- The children of the nodes at the paths of `d` steps. -/
noncomputable def levelFamily (cfg : Config) (f1 : FileData) (d : ℕ) (p : ShortId) :
    Option (ChildNr → Option Node) :=
  if h : ∃ π : Path, π.length = d ∧ shortOf cfg π = p ∧ ∃ c, (nodeOver cfg f1 (c :: π)).isSome then
    some fun c => nodeOver cfg f1 (c :: h.choose)
  else none

theorem levelFamily_eq_some {p : ShortId} {kids : ChildNr → Option Node}
    (h : levelFamily cfg f1 d p = some kids) : ∃ π : Path, π.length = d ∧ shortOf cfg π = p ∧
      (∃ c, (nodeOver cfg f1 (c :: π)).isSome) ∧ kids = fun c => nodeOver cfg f1 (c :: π) := by
  unfold levelFamily at h
  split_ifs at h with hex
  obtain ⟨hd, hs, hc⟩ := hex.choose_spec
  exact ⟨hex.choose, hd, hs, hc, (Option.some.inj h).symm⟩

theorem levelFamily_shortOf (hw : cfg.subtreeWidth = 6) (h : π.length < 6)
    (hc : (nodeOver cfg f1 (c :: π)).isSome) :
    levelFamily cfg f1 π.length (shortOf cfg π) = some fun c => nodeOver cfg f1 (c :: π) := by
  have hex : ∃ ρ : Path, ρ.length = π.length ∧ shortOf cfg ρ = shortOf cfg π ∧
      ∃ c, (nodeOver cfg f1 (c :: ρ)).isSome := ⟨π, rfl, rfl, c, hc⟩
  obtain ⟨hd, hs, -⟩ := hex.choose_spec
  rw [levelFamily, dif_pos hex]
  rw [shortOf_injective hw (hd.trans_le h.le) h.le (by rw [hd]) hs]

/-- A round only has the files with the nodes of the last level. -/
def levelFile (i : ChildNr) (m : NodeMap) : ChildNr → Option FileData :=
  fun j => if j = i then some ⟨0, m⟩ else none

theorem groupLevel_eq (d : ℕ) (m : NodeMap) :
    groupLevel (decide (d = 6)) m = groupChildren (levelFile (levelPrefix d) m) := by
  have h : ∀ i : ChildNr, i = 0 ∨ i = 1 → m.toList.foldl (ParentGrouping.place i) ∅ =
      groupChildren (levelFile i m) := by
    rintro i (rfl | rfl) <;>
      simp [groupChildren, levelFile, List.finRange_succ]
  rw [groupLevel, levelPrefix]
  by_cases h6 : d = 6
  · simpa [h6] using h 1 (.inr rfl)
  · simpa [h6] using h 0 (.inl rfl)

theorem families_levelFamily (hw : cfg.subtreeWidth = 6) (hd : d < 6)
    (hm : Level cfg f1 (d + 1) m) :
    Families (levelFile (levelPrefix (d + 1)) m) (levelFamily cfg f1 d) where
  sound i f s n hf hn := by
    obtain ⟨rfl, rfl⟩ : i = levelPrefix (d + 1) ∧ f = ⟨0, m⟩ := by
      obtain ⟨hi, he⟩ := Option.ite_none_right_eq_some.1 hf
      exact ⟨hi, (Option.some.inj he).symm⟩
    obtain ⟨ρ, hρ, rfl, hover⟩ := (hm s n).1 hn
    cases ρ with
    | nil => cases hρ
    | cons c π =>
      obtain rfl : π.length = d := Nat.succ.inj hρ
      obtain ⟨hp, hc⟩ : _ = shortOf cfg π ∧ _ = c := parentShortId_level hw hd
      rw [List.length_cons] at hp
      refine ⟨_, (by rw [hp]; exact levelFamily_shortOf hw hd (by rw [hover]; rfl)), ?_⟩
      rw [hc, hover]
  complete p kids c n hK hk := by
    obtain ⟨π, rfl, rfl, -, rfl⟩ := levelFamily_eq_some hK
    obtain ⟨hp, hc⟩ : _ = shortOf cfg π ∧ _ = c := parentShortId_level hw hd
    exact ⟨levelPrefix (π.length + 1), ⟨0, m⟩, shortOf cfg (c :: π), if_pos rfl,
      (hm _ n).2 ⟨c :: π, rfl, rfl, hk⟩, hp, hc⟩
  nonempty p kids hK := by
    obtain ⟨π, -, -, ⟨c, hc⟩, rfl⟩ := levelFamily_eq_some hK
    obtain ⟨n, hn⟩ := Option.isSome_iff_exists.1 hc
    exact ⟨c, n, hn⟩

/-- A round goes up one level. -/
theorem condenseLevel_level (hw : cfg.subtreeWidth = 6) (hd : d < 6) (hm : Level cfg f1 (d + 1) m)
    (hc : ∀ π : Path, π.length = d →
      ((∃ c, (nodeOver cfg f1 (c :: π)).isSome) ↔ (nodeOver cfg f1 π).isSome)) :
    ∃ m', condenseLevel (decide (d + 1 = 6)) m = .ok m' ∧ Level cfg f1 d m' := by
  have hK := families_levelFamily hw hd hm
  set g := groupLevel (decide (d + 1 = 6)) m with hg
  have hmem : ∀ x, x ∈ g.toList ↔ levelFamily cfg f1 d x.1 = some x.2 := by
    rintro ⟨p, kids⟩
    rw [ExtTreeMap.mem_toList_iff_getElem?_eq_some, hg, groupLevel_eq, groupChildren_eq hK]
  -- the node of a family
  let r (p : ShortId) : Node := ((levelFamily cfg f1 d p).bind fun kids =>
    (Node.copyFromChildNodes kids).toOption).getD .new
  have hr : ∀ π : Path, π.length = d → ∀ n, nodeOver cfg f1 π = some n →
      levelFamily cfg f1 d (shortOf cfg π) = (some fun c => nodeOver cfg f1 (c :: π)) ∧
        Node.copyFromChildNodes (fun c => nodeOver cfg f1 (c :: π)) = .ok n ∧
        r (shortOf cfg π) = n := by
    rintro π rfl n hn
    obtain ⟨c, hsome⟩ := (hc π rfl).2 (by rw [hn]; rfl)
    have hfam := levelFamily_shortOf hw hd hsome
    rw [nodeOver_of_lt hd] at hn
    cases hcopy : Node.copyFromChildNodes fun c => nodeOver cfg f1 (c :: π) with
    | error e =>
      rw [hcopy] at hn
      cases hn
    | ok n' =>
      rw [hcopy] at hn
      obtain rfl := Option.some.inj hn
      exact ⟨hfam, rfl, by simp only [r, hfam, Option.bind_some, hcopy]; rfl⟩
  have hpath : ∀ p kids, levelFamily cfg f1 d p = some kids →
      ∃ (π : Path) (n : Node), π.length = d ∧ shortOf cfg π = p ∧ nodeOver cfg f1 π = some n ∧
        kids = fun c => nodeOver cfg f1 (c :: π) := by
    intro p kids hp
    obtain ⟨π, rfl, rfl, hex, rfl⟩ := levelFamily_eq_some hp
    obtain ⟨n, hn⟩ := Option.isSome_iff_exists.1 ((hc π rfl).1 hex)
    exact ⟨π, n, rfl, rfl, hn, rfl⟩
  obtain ⟨m', hm', hget⟩ := condense_eq g.toList ∅ (r := r)
    (ExtTreeMap.ordered_keys_toList.imp fun h => UInt32.ne_of_lt (Std.compare_eq_lt.1 h))
    (fun _ _ => by simp) fun x hx => by
      obtain ⟨π, n, hπ, hs, hn, hkids⟩ := hpath x.1 x.2 ((hmem x).1 hx)
      obtain ⟨-, hcopy, hrn⟩ := hr π hπ n hn
      rw [hkids, hcopy, ← hs, hrn]
  refine ⟨m', hm', fun s n => ?_⟩
  rw [hget]
  constructor
  · intro h
    split_ifs at h with hex
    · obtain ⟨x, hx, rfl⟩ := hex
      obtain ⟨π, n', hπ, hs, hn, -⟩ := hpath x.1 x.2 ((hmem x).1 hx)
      refine ⟨π, hπ, hs, ?_⟩
      rw [hn, ← (hr π hπ n' hn).2.2, hs, h]
    · simp at h
  · rintro ⟨π, hπ, rfl, hn⟩
    obtain ⟨hfam, -, hrn⟩ := hr π hπ n hn
    rw [if_pos ⟨(shortOf cfg π, _), (hmem _).2 hfam, rfl⟩, hrn]

/-! ### Counts that fit -/

theorem countBelow_le_root (h : π.length ≤ 6) :
    countBelow cfg f1 (6 - π.length) π ≤ countBelow cfg f1 6 [] := by
  induction π with
  | nil => exact le_rfl
  | cons c π ih =>
    have hlen : π.length < 6 := h
    obtain ⟨k, hk⟩ : ∃ k, 6 - π.length = k + 1 := ⟨5 - π.length, by omega⟩
    have hk' : 6 - (c :: π).length = k := by
      rw [List.length_cons]
      omega
    rw [hk']
    exact (countBelow_le c).trans (hk ▸ ih hlen.le)

/-- There is a node where there are counts. -/
theorem isSome_nodeOver_iff (hpos : ∀ (s : ShortId) n, f1.nodeCache[s]? = some n → n.count ≠ 0)
    (hlt : countBelow cfg f1 6 [] < 2 ^ 64) (h : π.length ≤ 6) :
    (nodeOver cfg f1 π).isSome ↔ 0 < countBelow cfg f1 (6 - π.length) π := by
  obtain ⟨hc, hz⟩ := count_nodeAbove hpos ((countBelow_le_root h).trans_lt hlt)
  rw [← hc, nodeOver]
  cases hn : nodeAbove cfg f1 (6 - π.length) π with
  | none => simp
  | some n =>
    have : n.count.toNat ≠ 0 := fun h0 => hz n hn (UInt64.toNat_inj.1 h0)
    simpa using Nat.pos_of_ne_zero this

theorem exists_child_iff (hpos : ∀ (s : ShortId) n, f1.nodeCache[s]? = some n → n.count ≠ 0)
    (hlt : countBelow cfg f1 6 [] < 2 ^ 64) (h : π.length < 6) :
    (∃ c, (nodeOver cfg f1 (c :: π)).isSome) ↔ (nodeOver cfg f1 π).isSome := by
  obtain ⟨k, hk⟩ : ∃ k, 6 - π.length = k + 1 := ⟨5 - π.length, by omega⟩
  have hk' : ∀ c : ChildNr, 6 - (c :: π).length = k := fun c => by
    rw [List.length_cons]
    omega
  have hkid : ∀ c, (nodeOver cfg f1 (c :: π)).isSome ↔ 0 < countBelow cfg f1 k (c :: π) := fun c =>
    hk' c ▸ isSome_nodeOver_iff hpos hlt (show (c :: π).length ≤ 6 from h)
  rw [isSome_nodeOver_iff hpos hlt h.le, hk, countBelow, Finset.sum_pos_iff]
  simp only [hkid, Finset.mem_univ, true_and]

/-! ### The whole loop -/

theorem getElem?_insertLevel (nodeCache m : NodeMap) (s : ShortId) :
    (insertLevel nodeCache m)[s]? = nodeCache[s]?.or m[s]? := by
  have hfold : ∀ (l : List (ShortId × Node)) (cache : NodeMap), l.Pairwise (fun a b => a.1 ≠ b.1) →
      (l.foldl (fun m x => m.insertIfNew x.1 x.2) cache)[s]? =
        cache[s]?.or ((l.find? fun x => x.1 = s).map Prod.snd) := by
    intro l
    induction l with
    | nil => intro cache _; simp
    | cons x l ih =>
      intro cache hl
      obtain ⟨hx, hl⟩ := List.pairwise_cons.1 hl
      have hnew : (cache.insertIfNew x.1 x.2)[s]? =
          cache[s]?.or (if x.1 = s then some x.2 else none) := by
        rw [ExtTreeMap.getElem?_insertIfNew]
        by_cases h : x.1 = s
        · subst h
          cases hc : cache[x.1]? with
          | none => simp [← ExtTreeMap.isSome_getElem?_iff_mem, hc]
          | some n => simp [← ExtTreeMap.isSome_getElem?_iff_mem, hc]
        · simp [h]
      rw [List.foldl_cons, ih _ hl, hnew]
      by_cases h : x.1 = s
      · have hrest : l.find? (fun y => y.1 = s) = none := by
          simp only [List.find?_eq_none, decide_eq_true_eq]
          exact fun y hy hys => hx y hy (h.trans hys.symm)
        simp [h, hrest]
      · simp [h]
  rw [insertLevel, hfold _ _ (pairwise_toList m), find?_toList]

/-- The map has the nodes at the paths of at least `d` and at most five steps. -/
def LevelsFrom (cfg : Config) (f1 : FileData) (d : ℕ) (m : NodeMap) : Prop :=
  ∀ (s : ShortId) n, m[s]? = some n ↔
    ∃ π : Path, d ≤ π.length ∧ π.length < 6 ∧ shortOf cfg π = s ∧ nodeOver cfg f1 π = some n

theorem LevelsFrom.insert {nodeCache : NodeMap} (hw : cfg.subtreeWidth = 6) (hd : d < 6)
    (hcache : LevelsFrom cfg f1 (d + 1) nodeCache) (hm : Level cfg f1 d m) :
    LevelsFrom cfg f1 d (insertLevel nodeCache m) := by
  intro s n
  rw [getElem?_insertLevel, Option.or_eq_some_iff]
  constructor
  · rintro (h | ⟨-, h⟩)
    · obtain ⟨π, hlow, hlt, hs, hn⟩ := (hcache s n).1 h
      exact ⟨π, by omega, hlt, hs, hn⟩
    · obtain ⟨π, rfl, hs, hn⟩ := (hm s n).1 h
      exact ⟨π, le_rfl, hd, hs, hn⟩
  · rintro ⟨π, hlow, hlt, rfl, hn⟩
    by_cases hπ : π.length = d
    · refine .inr ⟨?_, (hm _ n).2 ⟨π, hπ, rfl, hn⟩⟩
      -- the levels have no short id in common
      by_contra hno
      obtain ⟨n', hn'⟩ := Option.ne_none_iff_exists'.1 hno
      obtain ⟨ρ, hρ, hρ', hs, -⟩ := (hcache _ n').1 hn'
      have := shortOf_injective hw hρ'.le hlt.le (by omega) hs
      rw [this] at hρ
      omega
    · exact .inl ((hcache _ n).2 ⟨π, by omega, hlt, rfl, hn⟩)

theorem reachedRoot_iff (hw : cfg.subtreeWidth = 6) (hd : d < 6) (hm : Level cfg f1 d m)
    (hroot : (nodeOver cfg f1 []).isSome) : reachedRoot m = true ↔ d = 0 := by
  have hone : shortOf cfg [] = 1 := by
    apply UInt32.toNat_inj.1
    rw [toNat_shortOf hw (by decide), if_neg (by decide)]
    rfl
  rw [reachedRoot, beq_iff_eq]
  constructor
  · intro h
    obtain ⟨x, hx, hx1⟩ : ∃ x ∈ m.toList, x.1 = 1 :=
      List.mem_map.1 (by rw [h]; exact List.mem_cons_self)
    obtain ⟨π, rfl, hs, -⟩ := (hm x.1 x.2).1 (ExtTreeMap.mem_toList_iff_getElem?_eq_some.1 hx)
    have := congrArg UInt32.toNat (hs.trans hx1)
    rw [toNat_shortOf hw hd.le, if_neg hd.ne] at this
    have hnil : π = [] := octal_injective this
    rw [hnil]
    rfl
  · rintro rfl
    obtain ⟨n, hn⟩ := Option.isSome_iff_exists.1 hroot
    have hmem : (1, n) ∈ m.toList :=
      ExtTreeMap.mem_toList_iff_getElem?_eq_some.2 ((hm 1 n).2 ⟨[], rfl, hone, hn⟩)
    have hall : ∀ x ∈ m.toList, x.1 = 1 := by
      intro x hx
      obtain ⟨π, hπ, hs, -⟩ := (hm x.1 x.2).1 (ExtTreeMap.mem_toList_iff_getElem?_eq_some.1 hx)
      rw [← hs, List.length_eq_zero_iff.1 hπ, hone]
    have hpair := pairwise_toList m
    cases hl : m.toList with
    | nil =>
      rw [hl] at hmem
      cases hmem
    | cons x l =>
      rw [hl] at hall hpair
      cases l with
      | nil => rw [List.map_cons, List.map_nil, hall x List.mem_cons_self]
      | cons y l =>
        refine absurd ?_ ((List.pairwise_cons.1 hpair).1 y List.mem_cons_self)
        rw [hall x List.mem_cons_self, hall y (List.mem_cons_of_mem x List.mem_cons_self)]

/-- The loop ends after as many rounds as there are levels to go. -/
theorem condenseLoop_levels (hw : cfg.subtreeWidth = 6)
    (hpos : ∀ (s : ShortId) n, f1.nodeCache[s]? = some n → n.count ≠ 0)
    (hlt : countBelow cfg f1 6 [] < 2 ^ 64) (hroot : (nodeOver cfg f1 []).isSome)
    {nodeCache : NodeMap}
    (hd : d < 6) (hm : Level cfg f1 (d + 1) m) (hcache : LevelsFrom cfg f1 (d + 1) nodeCache) :
    ∃ m', condenseLoop (d + 1) (decide (d + 1 = 6)) m nodeCache = some (.ok m') ∧
      LevelsFrom cfg f1 0 m' := by
  induction d generalizing m nodeCache with
  | zero =>
    obtain ⟨m₁, hm₁, hlevel⟩ := condenseLevel_level hw hd hm fun π hπ =>
      exists_child_iff hpos hlt (by omega)
    refine ⟨insertLevel nodeCache m₁, ?_, hcache.insert hw hd hlevel⟩
    simp only [condenseLoop, hm₁]
    rw [if_pos ((reachedRoot_iff hw hd hlevel hroot).2 rfl)]
  | succ d ih =>
    obtain ⟨m₁, hm₁, hlevel⟩ := condenseLevel_level hw hd hm fun π hπ =>
      exists_child_iff hpos hlt (by omega)
    obtain ⟨m', hm', hfrom⟩ := ih (by omega) hlevel (hcache.insert hw hd hlevel)
    refine ⟨m', ?_, hfrom⟩
    rw [condenseLoop]
    simp only [hm₁]
    rw [if_neg (fun h => nomatch (reachedRoot_iff hw hd hlevel hroot).1 h)]
    rwa [decide_eq_false (by omega)] at hm'

/-! ### Completeness -/

/-- `f` has exactly the ancestors of the nodes of `f1`, each condensed from its children, and the root
has all counts of `f1`. -/
structure RootRebuilt (cfg : Config) (f1 f : FileData) : Prop where
  ancestors : ∀ s : ShortId, (f.nodeCache[s]?).isSome ↔ ∃ π : Path, π.length = 6 ∧
    (f1.nodeCache[getShortId cfg (idOf π)]?).isSome ∧
    ∃ k, 1 ≤ k ∧ k ≤ 6 ∧ getShortId cfg ((idOf π).getParent k) = s
  condensed : ∀ π : Path, π.length < 6 → ∀ n, f.nodeCache[getShortId cfg (idOf π)]? = some n →
    Node.copyFromChildNodes (fun c =>
      (if π.length = 5 then f1 else f).nodeCache[getShortId cfg (idOf (c :: π))]?) = .ok n
  rootCount : ∃ n, f.nodeCache[getShortId cfg rootId]? = some n ∧
    n.count.toNat = totalCounts f1.nodeCache

/-- `initializeRootNodeFile` returns, and the file is complete if `f1` has a node. -/
def RebuildsRoot (cfg : Config) (f1 : FileData) : Prop :=
  ∃ fuel f, f1.initializeRootNodeFile fuel = some (.ok f) ∧
    (f1.nodeCache.toList ≠ [] → RootRebuilt cfg f1 f)

/-- Without a node no level ever has the root. -/
theorem condenseLoop_empty (fuel : ℕ) (condensingF1 : Bool) (nodeCache : NodeMap) :
    condenseLoop fuel condensingF1 ∅ nodeCache = none := by
  have hnil : (∅ : NodeMap).toList = [] := ExtTreeMap.toList_eq_nil_iff.2 rfl
  have hgroups : (∅ : ParentGrouping).toList = [] := ExtTreeMap.toList_eq_nil_iff.2 rfl
  have hlevel : ∀ b, condenseLevel b ∅ = .ok ∅ := fun b => by
    rw [condenseLevel, groupLevel, hnil, List.foldl_nil, hgroups, condense]
  induction fuel generalizing condensingF1 nodeCache with
  | zero => rfl
  | succ fuel ih =>
    simp only [condenseLoop, hlevel]
    rw [if_neg (by simp only [reachedRoot, hnil]; decide), ih]

theorem exists_path (k : ℕ) {j : ℕ} (h : j < 8 ^ k) :
    ∃ π : Path, π.length = k ∧ octal π = 8 ^ k + j := by
  induction k generalizing j with
  | zero => exact ⟨[], rfl, by rw [octal, pow_zero]; omega⟩
  | succ k ih =>
    rw [pow_succ] at h
    obtain ⟨π, hπ, ho⟩ := ih (j := j / 8) (by omega)
    refine ⟨⟨j % 8, by omega⟩ :: π, by rw [List.length_cons, hπ], ?_⟩
    rw [octal, ho, pow_succ]
    simp only
    omega

theorem level_f1 (hw : cfg.subtreeWidth = 6)
    (hids : ∀ (s : ShortId) n, f1.nodeCache[s]? = some n → s.toNat < 8 ^ 6) :
    Level cfg f1 6 f1.nodeCache := by
  intro s n
  constructor
  · intro h
    obtain ⟨π, hπ, ho⟩ := exists_path 6 (hids s n h)
    have hs : shortOf cfg π = s := by
      apply UInt32.toNat_inj.1
      rw [toNat_shortOf hw hπ.le, if_pos hπ, ho]
      omega
    refine ⟨π, hπ, hs, ?_⟩
    rw [nodeOver, hπ, Nat.sub_self, nodeAbove, hs, h]
  · rintro ⟨π, hπ, rfl, h⟩
    rwa [nodeOver, hπ, Nat.sub_self, nodeAbove] at h

theorem LevelsFrom.getElem?_eq (hw : cfg.subtreeWidth = 6) (hm : LevelsFrom cfg f1 0 m)
    (h : π.length < 6) : m[shortOf cfg π]? = nodeOver cfg f1 π := by
  refine Option.ext fun n => (hm _ n).trans ⟨?_, fun hn => ⟨π, Nat.zero_le _, h, rfl, hn⟩⟩
  rintro ⟨ρ, -, hρ, hs, hn⟩
  rwa [← shortOf_injective hw hρ.le h.le (by omega) hs]

section Complete

variable (hpos : ∀ (s : ShortId) n, f1.nodeCache[s]? = some n → n.count ≠ 0)
  (hlt : countBelow cfg f1 6 [] < 2 ^ 64)
include hpos hlt

/-- A node has a node of `f1` below it. -/
theorem exists_below (h : π.length + k = 6) (hn : (nodeOver cfg f1 π).isSome) :
    ∃ ρ : Path, ρ.length = 6 ∧ (nodeOver cfg f1 ρ).isSome ∧ ρ.drop k = π := by
  induction k generalizing π with
  | zero => exact ⟨π, h, hn, rfl⟩
  | succ k ih =>
    obtain ⟨c, hc⟩ := (exists_child_iff hpos hlt (by omega)).2 hn
    have hlen : (c :: π).length + k = 6 := by
      rw [List.length_cons]
      omega
    obtain ⟨ρ, hρ, hsome, hdrop⟩ := ih hlen hc
    refine ⟨ρ, hρ, hsome, ?_⟩
    rw [← List.drop_drop, hdrop]
    rfl

/-- All ancestors of a node are there. -/
theorem isSome_drop (h : π.length ≤ 6) (hn : (nodeOver cfg f1 π).isSome) (k : ℕ) :
    (nodeOver cfg f1 (π.drop k)).isSome := by
  induction k with
  | zero => exact hn
  | succ k ih =>
    rw [← List.tail_drop]
    cases hd : π.drop k with
    | nil =>
      rw [hd] at ih
      rw [List.tail_nil]
      exact ih
    | cons c ρ =>
      have hlen := congrArg List.length hd
      rw [List.length_drop, List.length_cons] at hlen
      rw [hd] at ih
      rw [List.tail_cons]
      exact (exists_child_iff hpos hlt (by omega)).1 ⟨c, ih⟩

/-- The nodes of the levels 1 to 6 are a complete root file. -/
theorem rootRebuilt_of_levels (hw : cfg.subtreeWidth = 6)
    (hids : ∀ (s : ShortId) n, f1.nodeCache[s]? = some n → s.toNat < 8 ^ 6)
    (hroot : (nodeOver cfg f1 []).isSome) (hm : LevelsFrom cfg f1 0 m) (b : UInt8) :
    RootRebuilt cfg f1 ⟨b, m⟩ where
  ancestors s := by
    have hbelow : ∀ {ρ : Path}, ρ.length = 6 → nodeOver cfg f1 ρ = f1.nodeCache[shortOf cfg ρ]? :=
      fun hρ => by rw [nodeOver, hρ, Nat.sub_self, nodeAbove]
    have hparent : ∀ {ρ : Path} {k}, ρ.length = 6 → 1 ≤ k → k ≤ 6 →
        getShortId cfg ((idOf ρ).getParent k) = shortOf cfg (ρ.drop k) := fun {ρ k} hρ h₁ h₂ => by
      rw [getParent_idOf (by simp only [maxDepth]; omega) h₁ (by omega) (by omega), shortOf]
    constructor
    · intro h
      obtain ⟨n, hn⟩ := Option.isSome_iff_exists.1 h
      obtain ⟨π, -, hπ, rfl, hover⟩ := (hm s n).1 hn
      obtain ⟨ρ, hρ, hsome, hdrop⟩ := exists_below (k := 6 - π.length) hpos hlt
        (show π.length + _ = 6 by omega) (by rw [hover]; rfl)
      refine ⟨ρ, hρ, hbelow hρ ▸ hsome, 6 - π.length, by omega, by omega, ?_⟩
      rw [hparent hρ (by omega) (by omega), hdrop]
    · rintro ⟨ρ, hρ, hsome, k, h₁, h₂, rfl⟩
      have hlen : (ρ.drop k).length < 6 := by
        rw [List.length_drop]
        omega
      rw [hparent hρ h₁ h₂]
      change (m[shortOf cfg (ρ.drop k)]?).isSome
      rw [hm.getElem?_eq hw hlen]
      exact isSome_drop hpos hlt hρ.le (hbelow hρ ▸ hsome) k
  condensed π hπ n hn := by
    change m[shortOf cfg π]? = some n at hn
    have hkids : (fun c => (if π.length = 5 then f1 else ⟨b, m⟩).nodeCache[getShortId cfg (idOf (c :: π))]?) =
        fun c => nodeOver cfg f1 (c :: π) := by
      funext c
      by_cases h5 : π.length = 5
      · rw [if_pos h5, nodeOver, List.length_cons, h5, Nat.sub_self, nodeAbove, shortOf]
      · rw [if_neg h5]
        exact hm.getElem?_eq hw (by rw [List.length_cons]; omega)
    rw [hm.getElem?_eq hw hπ, nodeOver_of_lt hπ] at hn
    rw [hkids]
    cases hcopy : Node.copyFromChildNodes fun c => nodeOver cfg f1 (c :: π) with
    | error e =>
      rw [hcopy] at hn
      cases hn
    | ok n' =>
      rw [hcopy] at hn
      rw [Option.some.inj hn]
  rootCount := by
    obtain ⟨n, hn⟩ := Option.isSome_iff_exists.1 hroot
    refine ⟨n, ?_, ?_⟩
    · change m[shortOf cfg []]? = some n
      rw [hm.getElem?_eq hw (by decide), hn]
    · have hcount := (count_nodeAbove hpos hlt).1
      rw [show nodeAbove cfg f1 6 [] = some n from hn, countBelow_root hw hids] at hcount
      exact hcount

end Complete

/-- **The root file is rebuilt exactly when `f1` has a node and its counts add up to less than
`2 ^ 64`**: the loop ends after six rounds with all nodes of the levels 1 to 6.  Without a node it
never ends. -/
theorem rebuildsRoot_iff (hw : cfg.subtreeWidth = 6)
    (hf1 : ∀ (s : ShortId) n, f1.nodeCache[s]? = some n → s.toNat < 8 ^ 6 ∧ n.count ≠ 0) :
    RebuildsRoot cfg f1 ↔ f1.nodeCache.toList ≠ [] ∧ totalCounts f1.nodeCache < 2 ^ 64 := by
  have hids := fun s n hn => (hf1 s n hn).1
  have hpos := fun s n hn => (hf1 s n hn).2
  constructor
  · rintro ⟨fuel, f, hrun, hcomplete⟩
    have hne : f1.nodeCache.toList ≠ [] := by
      intro hnil
      rw [FileData.initializeRootNodeFile, ExtTreeMap.toList_eq_nil_iff.1 hnil,
        condenseLoop_empty] at hrun
      cases hrun
    obtain ⟨n, -, hcount⟩ := (hcomplete hne).rootCount
    exact ⟨hne, hcount ▸ n.count.toNat_lt⟩
  · rintro ⟨hne, htotal⟩
    have hlt : countBelow cfg f1 6 [] < 2 ^ 64 := by rwa [countBelow_root hw hids]
    have hroot : (nodeOver cfg f1 []).isSome := by
      obtain ⟨x, hx⟩ := List.exists_mem_of_ne_nil _ hne
      obtain ⟨π, hπ, -, hn⟩ := (level_f1 hw hids x.1 x.2).1
        (ExtTreeMap.mem_toList_iff_getElem?_eq_some.1 hx)
      have := isSome_drop hpos hlt hπ.le (by rw [hn]; rfl) 6
      rwa [List.drop_eq_nil_of_le hπ.le] at this
    have hnone : LevelsFrom cfg f1 6 ∅ := by
      intro s n
      simp only [ExtTreeMap.getElem?_empty, reduceCtorEq, false_iff]
      rintro ⟨π, hlow, hhigh, -⟩
      omega
    obtain ⟨m, hm, hlevels⟩ := condenseLoop_levels hw hpos hlt hroot (by decide)
      (level_f1 hw hids) hnone
    refine ⟨6, ⟨0x02, m⟩, ?_, fun _ => rootRebuilt_of_levels hpos hlt hw hids hroot hlevels _⟩
    rw [FileData.initializeRootNodeFile, show true = decide (5 + 1 = 6) from rfl, hm]
    rfl

/-- The tree that `fixup_root` writes into `metadata.ini`. -/
def Config.fixupRoot : Config :=
  .sixLevels { Config.sample with
    minCellSize := 1 / 1000
    rootGeometry := .ofCenter (fun _ => 0) (2 * (6378000 + 8850)) }

/-- A file with one node. -/
theorem rebuildsRoot_single :
    RebuildsRoot .fixupRoot (FileData.empty.setNode 5 { Node.new with count := 3 }) := by
  refine (rebuildsRoot_iff rfl fun s n hn => ?_).2 ⟨by decide +kernel, by decide +kernel⟩
  rw [FileData.getElem?_setNode] at hn
  split_ifs at hn with hs
  · obtain rfl := Option.some.inj hn
    exact ⟨hs ▸ by decide, by decide⟩
  · simp [FileData.empty] at hn

/-- A file without nodes has one byte, and the loop goes on for ever. -/
theorem rebuildsRoot_fails_empty : ∃ buffer f1, buffer ≠ [] ∧ deserialize buffer ∅ = some f1 ∧
    (∀ (s : ShortId) n, f1.nodeCache[s]? = some n → s.toNat < 8 ^ 6 ∧ n.count ≠ 0) ∧
    ∀ fuel, f1.initializeRootNodeFile fuel = none := by
  refine ⟨[0], .empty, by decide, rfl, fun s n hn => ?_, fun fuel => ?_⟩
  · simp [FileData.empty] at hn
  · rw [FileData.initializeRootNodeFile, FileData.empty, condenseLoop_empty]
    rfl

end MegaTree
