import MegaTree.Store.SameTree
import MegaTree.Store.Query

/-!
# The asynchronous query

`rangeQueryLoop` does not wait for files: a child whose file is not loaded is parked on a work list
and its cell is queried later, from the range test on.  What has been found and what is still owed by
the parked nodes is at any time a permutation of what `queryRange` finds (`Collected`), whatever the
order in which files become loaded.  `rangeQueryLoop_agrees` : when the work list is empty the two
queries have found the same points with the same colors, and all handles are released.
-/

namespace MegaTree

open Effect

variable (cfg : Config)

/-- The tokens of parked nodes, whose files may not be loaded. -/
def parkedToks (P : List Path) : List Token := P.map fun π => ⟨fileOf cfg π, false, false, false⟩

/-- The handles of parked nodes. -/
def parkedHandles (P : List Path) : List NodeHandle := P.map fun π => handleAt cfg π false

/-- The nodes `acc` were found and the nodes at `P` were parked.  What was found and what the parked
nodes still owe, by `sel`, is the target. -/
structure Collected (V : Path → Option Node) (sel : Path → List (Path × Node))
    (target : List (Path × Node)) (out out' : AsyncResult) (acc : List (Path × Node))
    (P : List Path) : Prop where
  results : out'.1 = out.1.add cfg acc
  queue : out'.2 = out.2 ++ parkedHandles cfg P
  exact : (acc ++ P.flatMap sel).Perm target
  stored : ∀ ρ ∈ P, ∃ n, V ρ = some n

variable {cfg} {V : Path → Option Node} {sel : Path → List (Path × Node)} {σ : Store}
  {L : List Token} {π : Path} {n : Node} {m : Bool} {X : Err → Prop} {out out' out'' : AsyncResult}
  {lo hi : Vec} {resolution : ℚ} {target target' acc acc' : List (Path × Node)} {P P' : List Path}

theorem Reads.append {f : LongId} {L' : List Token} (h : Reads L f) : Reads (L' ++ L) f :=
  let ⟨t, ht, h'⟩ := h
  ⟨t, List.mem_append_right _ ht, h'⟩

namespace Collected

/-- Nothing was found where there is nothing to find. -/
theorem nil : Collected cfg V sel [] out out [] [] := by
  refine ⟨by simp, by simp [parkedHandles], .refl _, nofun⟩

/-- A node was found. -/
theorem found (h : acc = target) : Collected cfg V sel target out (out.1.add cfg acc, out.2) acc [] :=
  ⟨rfl, by simp [parkedHandles], by simp [h], nofun⟩

/-- A child was parked. -/
theorem park (hn : V π = some n) :
    Collected cfg V sel (sel π) out (out.1, out.2 ++ [handleAt cfg π false]) [] [π] := by
  refine ⟨by simp, rfl, by simp, fun ρ hρ => ⟨n, ?_⟩⟩
  rw [List.mem_singleton.1 hρ, hn]

/-- First one part and then another. -/
theorem append (h : Collected cfg V sel target out out' acc P)
    (h' : Collected cfg V sel target' out' out'' acc' P') :
    Collected cfg V sel (target ++ target') out out'' (acc ++ acc') (P ++ P') where
  results := by rw [h'.results, h.results, QueryResult.add_append]
  queue := by rw [h'.queue, h.queue, parkedHandles, parkedHandles, List.append_assoc,
    parkedHandles, List.map_append]
  exact := by
    have hp := h.exact.append h'.exact
    rw [List.flatMap_append]
    refine List.Perm.trans ?_ hp
    simp only [List.append_assoc]
    refine .append_left _ ?_
    rw [← List.append_assoc, ← List.append_assoc]
    exact List.perm_append_comm.append_right _
  stored ρ hρ := by
    rcases List.mem_append.1 hρ with hρ | hρ
    · exact h.stored ρ hρ
    · exact h'.stored ρ hρ

/-- In a cell inside the box nothing has to be tested, also not later. -/
theorem of_inside (hr : ∀ i, cfg.rootGeometry.lo i < cfg.rootGeometry.hi i)
    (hin : nodeInsideRange (geomOf cfg.rootGeometry π) (boxMid lo hi) (boxSize lo hi) = true)
    (h : Collected cfg V (frontier cfg V resolution) (frontier cfg V resolution π) out out' acc P) :
    Collected cfg V (fun ρ => (frontier cfg V resolution ρ).filter (hits cfg lo hi))
      ((frontier cfg V resolution π).filter (hits cfg lo hi)) out out' acc P := by
  have hall : (frontier cfg V resolution π).filter (hits cfg lo hi) = frontier cfg V resolution π :=
    filter_of_inside hr hin
  refine ⟨h.results, h.queue, ?_, h.stored⟩
  have howed : P.flatMap (fun ρ => (frontier cfg V resolution ρ).filter (hits cfg lo hi)) =
      P.flatMap (frontier cfg V resolution) := by
    rw [← List.filter_flatMap, List.filter_eq_self]
    intro x hx
    exact List.filter_eq_self.1 hall x (h.exact.subset (List.mem_append_right _ hx))
  rw [howed, hall]
  exact h.exact

end Collected

theorem parkedToks_append_perm (P P' : List Path) (L : List Token) :
    (parkedToks cfg P' ++ (parkedToks cfg P ++ L)).Perm (parkedToks cfg (P ++ P') ++ L) := by
  rw [parkedToks, parkedToks, parkedToks, List.map_append, ← List.append_assoc]
  exact List.perm_append_comm.append_right L

/-! ### The rules -/

/-- The loop over the children, when `body` collects `sel` below a child that is loaded. -/
theorem wp_forChildrenAsync {Q : AsyncResult → Store → Prop}
    {body : NodeHandle → AsyncResult → TreeM AsyncResult} (hV : Occupied V) (hn : V π = some n)
    (is : List ChildNr) (hS : Stores cfg σ V) (hL : Live σ L) (hr : Reads L (fileOf cfg π))
    (hbody : ∀ i k σ₁ L₁ out₁ (R : AsyncResult → Store → Prop), V (i :: π) = some k →
      Reads L₁ (fileOf cfg (i :: π)) → Stores cfg σ₁ V → Live σ₁ L₁ →
      (∀ σ₂ out₂ acc P, σ₂.files = σ₁.files → Live σ₂ (parkedToks cfg P ++ L₁) →
        Collected cfg V sel (sel (i :: π)) out₁ out₂ acc P → R out₂ σ₂) →
      Spec (body (handleAt cfg (i :: π) false) out₁) R X σ₁)
    (hQ : ∀ σ' out' acc P, σ'.files = σ.files → Live σ' (parkedToks cfg P ++ L) →
      Collected cfg V sel ((is.filter n.hasChild).flatMap fun i => sel (i :: π)) out out' acc P →
      Q out' σ') :
    Spec (forChildrenAsync cfg (handleAt cfg π m) body is out) Q X σ := by
  induction is generalizing σ L out with
  | nil => exact hQ σ out [] [] rfl hL .nil
  | cons i is ih =>
    refine Prog.wp_bind.2 (wp_get hS hL hr hn ?_)
    cases hi : n.hasChild i with
    | false =>
      rw [List.filter_cons_of_neg (by simp [hi])] at hQ
      exact ih hS hL hr hQ
    | true =>
      rw [List.filter_cons_of_pos hi, List.flatMap_cons] at hQ
      obtain ⟨k, hk⟩ := Option.isSome_iff_exists.1 (hV.child π n i hn hi)
      refine Prog.wp_bind.2 (wp_getChildNode hS hL hr hn hi hk fun σ₁ h₁ hL₁ => ?_)
      refine Prog.wp_bind.2 (wp_isValid_any hL₁ fun b σ₂ h₂ hL₂ => ?_)
      have h₂ := h₂.trans h₁
      cases b with
      | false =>
        refine ih (hS.congr h₂) hL₂ hr.tail fun σ' out' acc P h' hL' hc => ?_
        exact hQ σ' out' _ _ (h'.trans h₂) (hL'.perm (List.perm_middle))
          ((Collected.park hk).append hc)
      | true =>
        refine Prog.wp_bind.2 (hbody i k σ₂ _ out _ hk (Reads.head rfl) (hS.congr h₂) hL₂
          fun σ₃ out₃ acc₁ P₁ h₃ hL₃ hc₁ => ?_)
        have h₃ := h₃.trans h₂
        refine Prog.wp_bind.2 (wp_releaseNode_handleAt (hL₃.perm List.perm_middle)
          fun σ₄ h₄ hL₄ => ?_)
        have h₄ := h₄.trans h₃
        refine ih (hS.congr h₄) hL₄ hr.append fun σ' out' acc P h' hL' hc => ?_
        exact hQ σ' out' _ _ (h'.trans h₄) (hL'.perm (parkedToks_append_perm P₁ P L))
          (hc₁.append hc)

theorem wp_getAllPointsRecursiveAsync {Q : AsyncResult → Store → Prop} {fuel : ℕ}
    (hV : Occupied V) (hS : Stores cfg σ V) (hL : Live σ L) (hr : Reads L (fileOf cfg π))
    (hn : V π = some n) (hfuel : maxDepth < π.length + fuel)
    (hQ : ∀ σ' out' acc P, σ'.files = σ.files → Live σ' (parkedToks cfg P ++ L) →
      Collected cfg V (frontier cfg V resolution) (frontier cfg V resolution π) out out' acc P →
      Q out' σ') :
    Spec (getAllPointsRecursiveAsync cfg resolution fuel (handleAt cfg π m) out) Q X σ := by
  have hlen := hS.length_le hn
  induction fuel generalizing π n m σ L out Q with
  | zero => omega
  | succ fuel ih =>
    unfold getAllPointsRecursiveAsync
    refine Prog.wp_bind.2 (wp_get hS hL hr hn ?_)
    simp only [hV.count π n hn, Bool.not_false, Prog.ensure, if_true, Prog.bind_eq, Prog.ret_bind]
    refine Prog.wp_ite (fun hs => ?_) fun hs => ?_
    · rw [stopsAt, Bool.or_eq_true, decide_eq_true_eq] at hs
      exact hQ σ _ [(π, n)] [] rfl hL (.found (frontier_of_stops hlen hn hs).symm)
    · rw [stopsAt, Bool.or_eq_true, decide_eq_true_eq] at hs
      rw [frontier_of_descends hlen hn hs] at hQ
      refine wp_forChildrenAsync hV hn _ hS hL hr
        (fun i k σ₁ L₁ out₁ R hk hr₁ hS₁ hL₁ hR => ?_) hQ
      exact ih hS₁ hL₁ hr₁ hk (by rw [List.length_cons]; omega) hR (hS₁.length_le hk)

theorem wp_queryRangeRecursiveAsync {Q : AsyncResult → Store → Prop} {fuel : ℕ}
    (hroot : ∀ i, cfg.rootGeometry.lo i < cfg.rootGeometry.hi i) (hV : Occupied V)
    (hS : Stores cfg σ V) (hL : Live σ L) (hr : Reads L (fileOf cfg π)) (hn : V π = some n)
    (hfuel : maxDepth < π.length + fuel)
    (hQ : ∀ σ' out' acc P, σ'.files = σ.files → Live σ' (parkedToks cfg P ++ L) →
      Collected cfg V (fun ρ => (frontier cfg V resolution ρ).filter (hits cfg lo hi))
        ((frontier cfg V resolution π).filter (hits cfg lo hi)) out out' acc P → Q out' σ') :
    Spec (queryRangeRecursiveAsync cfg (boxMid lo hi) (boxSize lo hi) resolution fuel
      (handleAt cfg π m) out) Q X σ := by
  have hlen := hS.length_le hn
  induction fuel generalizing π n m σ L out Q with
  | zero => omega
  | succ fuel ih =>
    unfold queryRangeRecursiveAsync
    rw [nodeGeom_handleAt]
    refine Prog.wp_ite (fun ho => ?_) fun ho => Prog.wp_ite (fun hin => ?_) fun hin => ?_
    · rw [filter_of_outside hroot ho] at hQ
      exact hQ σ out [] [] rfl hL .nil
    · refine wp_getAllPointsRecursiveAsync hV hS hL hr hn hfuel fun σ' out' acc P h' hL' hc => ?_
      exact hQ σ' out' acc P h' hL' (hc.of_inside hroot hin)
    · refine Prog.wp_bind.2 (wp_get hS hL hr hn ?_)
      refine Prog.wp_ite (fun hs => ?_) fun hs => ?_
      · rw [stopsAt, Bool.or_eq_true, decide_eq_true_eq] at hs
        rw [frontier_of_stops hlen hn hs] at hQ
        refine Prog.wp_bind.2 (wp_queryRangeIntersecting hV hS hL hr hn ?_)
        exact hQ σ _ _ [] rfl hL (.found rfl)
      · rw [stopsAt, Bool.or_eq_true, decide_eq_true_eq] at hs
        rw [frontier_of_descends hlen hn hs, List.filter_flatMap] at hQ
        refine wp_forChildrenAsync hV hn _ hS hL hr
          (fun i k σ₁ L₁ out₁ R hk hr₁ hS₁ hL₁ hR => ?_) hQ
        exact ih hS₁ hL₁ hr₁ hk (by rw [List.length_cons]; omega) hR (hS₁.length_le hk)

variable (cfg) in
/-- The work list: the nodes `acc` were found, the nodes at `P` are parked, and together they have
what the query is to find. -/
structure Queued (V : Path → Option Node) (sel : Path → List (Path × Node))
    (target : List (Path × Node)) (L : List Token) (σ : Store) (acc : List (Path × Node))
    (P : List Path) : Prop where
  live : Live σ (parkedToks cfg P ++ L)
  stored : ∀ ρ ∈ P, ∃ n, V ρ = some n
  exact : (acc ++ P.flatMap sel).Perm target

/-- The first node goes to the back of the queue. -/
theorem Queued.rotate (h : Queued cfg V sel target L σ acc (π :: P)) :
    Queued cfg V sel target L σ acc (P ++ [π]) where
  live := h.live.perm (((List.perm_append_singleton π P).symm.map _).append_right L)
  stored ρ hρ := h.stored ρ ((List.perm_append_singleton π P).subset hρ)
  exact := (((List.perm_append_singleton π P).flatMap_right sel).append_left acc).trans h.exact

/-- The first node was queried and released. -/
theorem Queued.next {σ' : Store} (h : Queued cfg V sel target L σ acc (π :: P))
    (hL : Live σ' (parkedToks cfg P' ++ (parkedToks cfg P ++ L)))
    (hc : Collected cfg V sel (sel π) out out' acc' P') :
    Queued cfg V sel target L σ' (acc ++ acc') (P ++ P') where
  live := hL.perm (parkedToks_append_perm P P' L)
  stored ρ hρ := by
    rcases List.mem_append.1 hρ with hρ | hρ
    · exact h.stored ρ (List.mem_cons_of_mem _ hρ)
    · exact hc.stored ρ hρ
  exact := by
    refine List.Perm.trans ?_ h.exact
    rw [List.flatMap_append, List.flatMap_cons, List.append_assoc]
    refine .append_left acc ?_
    have hswap : (acc' ++ (P.flatMap sel ++ P'.flatMap sel)).Perm
        (acc' ++ (P'.flatMap sel ++ P.flatMap sel)) := .append_left acc' List.perm_append_comm
    rw [← List.append_assoc acc' (P'.flatMap sel)] at hswap
    exact hswap.trans (hc.exact.append_right _)

/-- One round after the other, what was found and what is owed stays the same. -/
theorem wp_processQueue {Q : AsyncResult → Store → Prop} {rounds : ℕ}
    (hroot : ∀ i, cfg.rootGeometry.lo i < cfg.rootGeometry.hi i) (hV : Occupied V)
    (hS : Stores cfg σ V) (hq : Queued cfg V
      (fun ρ => (frontier cfg V resolution ρ).filter (hits cfg lo hi)) target L σ acc P)
    (hQ : ∀ σ' acc' P', σ'.files = σ.files → Queued cfg V
      (fun ρ => (frontier cfg V resolution ρ).filter (hits cfg lo hi)) target L σ' acc' P' →
      Q (QueryResult.add cfg ⟨[], []⟩ acc', parkedHandles cfg P') σ') :
    Spec (processQueue cfg (boxMid lo hi) (boxSize lo hi) resolution rounds
      (QueryResult.add cfg ⟨[], []⟩ acc) (parkedHandles cfg P)) Q X σ := by
  induction rounds generalizing σ acc P with
  | zero => exact hQ σ acc P rfl hq
  | succ rounds ih =>
    cases P with
    | nil => exact hQ σ acc [] rfl hq
    | cons π P =>
      obtain ⟨n, hn⟩ := hq.stored π List.mem_cons_self
      refine Prog.wp_bind.2 (wp_isValid_any hq.live fun b σ₁ h₁ hL₁ => ?_)
      cases b with
      | false =>
        have hq₁ : Queued cfg V _ target L σ₁ acc (π :: P) := ⟨hL₁, hq.stored, hq.exact⟩
        have := ih (hS.congr h₁) hq₁.rotate fun σ' acc' P' h' => hQ σ' acc' P' (h'.trans h₁)
        rwa [parkedHandles, List.map_append] at this
      | true =>
        refine Prog.wp_bind.2 (wp_queryRangeRecursiveAsync hroot hV (hS.congr h₁) hL₁
          (Reads.head rfl) hn (by simp [maxDepth]) fun σ₂ out₂ acc₂ P₂ h₂ hL₂ hc => ?_)
        refine Prog.wp_bind.2 (wp_releaseNode_handleAt (hL₂.perm List.perm_middle)
          fun σ₃ h₃ hL₃ => ?_)
        have h₃ := h₃.trans (h₂.trans h₁)
        have := ih (hS.congr h₃) (hq.next hL₃ hc) fun σ' acc' P' h' => hQ σ' acc' P' (h'.trans h₃)
        rw [QueryResult.add_append, parkedHandles, List.map_append] at this
        simp only [hc.results, hc.queue, List.nil_append]
        exact this

/-- A tree that can be queried: its root cell has an extent, it has a root, and every node has a
point. -/
structure Queryable (cfg : Config) (σ : Store) : Prop where
  extent : ∀ i, cfg.rootGeometry.lo i < cfg.rootGeometry.hi i
  stores : Stores cfg σ (nodeAt cfg σ)
  occupied : Occupied (nodeAt cfg σ)
  root : (nodeAt cfg σ []).isSome

/-- After any number of rounds nothing is lost and nothing is found twice. -/
theorem wp_rangeQueryLoop {Q : AsyncResult → Store → Prop} {rounds : ℕ} (hT : Queryable cfg σ)
    (hL : Live σ L) (hQ : ∀ σ' acc P, σ'.files = σ.files → Queued cfg (nodeAt cfg σ)
      (fun ρ => (frontier cfg (nodeAt cfg σ) resolution ρ).filter (hits cfg lo hi))
      ((frontier cfg (nodeAt cfg σ) resolution []).filter (hits cfg lo hi)) L σ' acc P →
      Q (QueryResult.add cfg ⟨[], []⟩ acc, parkedHandles cfg P) σ') :
    Spec (rangeQueryLoop cfg lo hi resolution rounds) Q X σ := by
  obtain ⟨n, hn⟩ := Option.isSome_iff_exists.1 hT.root
  refine Prog.wp_bind.2 (wp_getRoot hT.stores hL hn fun σ₁ h₁ hL₁ => ?_)
  refine Prog.wp_bind.2 (wp_isValid hL₁ .tok ?_)
  refine Prog.wp_bind.2 (Prog.wp_ensure.2 ?_)
  have hq : Queued cfg (nodeAt cfg σ)
      (fun ρ => (frontier cfg (nodeAt cfg σ) resolution ρ).filter (hits cfg lo hi))
      ((frontier cfg (nodeAt cfg σ) resolution []).filter (hits cfg lo hi)) L σ₁ [] [[]] := by
    refine ⟨hL₁.unload, fun ρ hρ => ⟨n, ?_⟩, by simp⟩
    rw [List.mem_singleton.1 hρ, hn]
  have : Spec (processQueue cfg (boxMid lo hi) (boxSize lo hi) resolution rounds
      (QueryResult.add cfg ⟨[], []⟩ []) (parkedHandles cfg [[]])) Q X σ₁ :=
    wp_processQueue hT.extent hT.occupied (hT.stores.congr h₁) hq
      fun σ' acc P h' => hQ σ' acc P (h'.trans h₁)
  rwa [QueryResult.add_nil] at this

/-- Every tree with a point can be queried, also while other handles are live. -/
theorem Reachable.queryable {N : ℕ} (h : Reachable cfg σ N) (hN : 0 < N)
    (hg : ∀ i, cfg.rootGeometry.lo i < cfg.rootGeometry.hi i) : Queryable cfg σ := by
  obtain ⟨V, t, ht, rfl⟩ := h.holds
  have hne : t ≠ .empty := by
    rintro rfl
    exact absurd hN (lt_irrefl _)
  obtain ⟨n, hn, -⟩ := ht.opened.node
  have hV := ht.stores.nodeAt_eq
  refine ⟨hg, ?_, ?_, ?_⟩
  · rw [hV]; exact ht.stores
  · rw [hV]; exact ht.occupied hne
  · rw [hV, hn]; rfl

/-- The points that a query has found, each with its color. -/
def QueryResult.pairs (out : QueryResult) : List (Vec × Vec) := out.results.zip out.colors

theorem pairs_add (acc : List (Path × Node)) : (QueryResult.add cfg ⟨[], []⟩ acc).pairs =
    acc.map fun x => (pointAt cfg x, x.2.getColor) := by
  simp only [QueryResult.pairs, QueryResult.add, List.nil_append, List.zip_map']

end MegaTree
