import MegaTree.Web.Uninterrupted

/-!
# What a query draws

`show_children` of the cells in the queue of a query.  Over trees with distinct roots every cell is
asked for once (`Order`), so that a cell hides exactly the octants that are culled or that another
cell of the queue fills (`Drawn`).

* `Order.advance`, `Drawn.advance` : every step of an uninterrupted query keeps both.
* `shows_octant_iff` : no hole and no double drawing.
-/

namespace MegaTree.Web

open Effect

/-- No two trees that are asked for have the same root. -/
def DistinctRoots (treesInfo : List (Option TreeInfo)) : Prop :=
  treesInfo.Pairwise fun t t' => ∀ a ∈ t, ∀ b ∈ t', a.enabled = true → b.enabled = true →
    a.name ≠ b.name

instance (treesInfo : List (Option TreeInfo)) : Decidable (DistinctRoots treesInfo) :=
  inferInstanceAs (Decidable (treesInfo.Pairwise _))

theorem DistinctRoots.ne {treesInfo : List (Option TreeInfo)} (h : DistinctRoots treesInfo)
    {i j : ℕ} (hij : i < j) {a b : TreeInfo} (ha : treesInfo[i]? = some (some a))
    (hb : treesInfo[j]? = some (some b)) (hae : a.enabled = true) (hbe : b.enabled = true) :
    a.name ≠ b.name := by
  obtain ⟨hi, hia⟩ := List.getElem?_eq_some_iff.mp ha
  obtain ⟨hj, hjb⟩ := List.getElem?_eq_some_iff.mp hb
  exact List.pairwise_iff_getElem.mp h i j hi hj hij a hia b hjb hae hbe

/-! ### Every cell is asked for once -/

/-- Why a query has asked for a cell. -/
inductive Origin (c : Core) (p : Progress) : CellId → Prop
  | root (i : ℕ) (t : TreeInfo) : i < p.trees → c.treesInfo[i]? = some (some t) →
      t.enabled = true → Origin c p (.root t.name)
  | child (r : Ref) (k : ChildNr) : p.Dealt r k → Origin c p ((c.cells r).id.child k)

/-- The parent of a cell is one of the cells. -/
def Descends (cells : Ref → CellObject) (begun : List Ref) (cell : CellObject) : Prop :=
  cell.id.path = [] ∧ cell.parentCell = none ∨
    ∃ r ∈ begun, ∃ k, cell.parentCell = some r ∧ cell.id = (cells r).id.child k

/-- The callback of a request sets the parent of its cell. -/
def Adopts (cells : Ref → CellObject) (begun : List Ref) (id : CellId) : Callback → Prop
  | .root _ => id.path = []
  | .child r _ => r ∈ begun ∧ ∃ k, id = (cells r).id.child k

/-- The cells that a query asks for. -/
structure Order (c : Core) (p : Progress) : Prop where
  queue : c.queue = p.begun ++ p.todo
  distinct : DistinctRoots c.treesInfo
  nodup : c.asked.Nodup
  origin : ∀ id ∈ c.asked, Origin c p id
  parent : ∀ r ∈ c.queue, Descends c.cells p.begun (c.cells r)
  callback : ∀ q ∈ c.requests, Adopts c.cells p.begun q.id q.callback

namespace Order

variable {c : Core} {p : Progress}

theorem mem_queue (h : Order c p) {r : Ref} (hr : r ∈ p.begun) : r ∈ c.queue := by
  rw [h.queue]
  exact List.mem_append_left _ hr

theorem mem_asked {r : Ref} (hr : r ∈ c.queue) : (c.cells r).id ∈ c.asked :=
  List.mem_append_left _ (List.mem_map_of_mem hr)

/-- The objects of the queue are different cells. -/
theorem eq_of_id (h : Order c p) {r r' : Ref} (hr : r ∈ c.queue) (hr' : r' ∈ c.queue)
    (hid : (c.cells r).id = (c.cells r').id) : r = r' :=
  List.inj_on_of_nodup_map (List.nodup_append.mp h.nodup).1 hr hr' hid

theorem nodup_queue (h : Order c p) : c.queue.Nodup :=
  .of_map _ (List.nodup_append.mp h.nodup).1

theorem mem_begun_of_dealt {r : Ref} {k : ChildNr} (h : p.Dealt r k) : r ∈ p.begun := by
  rcases h with h | ⟨n, h, -⟩
  · exact List.mem_append_left _ h
  · simp [Progress.begun, h]

theorem mem_begun_of_current {r : Ref} {n : ℕ} (h : p.current = some (r, n)) : r ∈ p.begun := by
  simp [Progress.begun, h]

/-- The cell that is being processed is not processed. -/
theorem not_mem_done (h : Order c p) {r : Ref} {n : ℕ} (hcur : p.current = some (r, n)) :
    r ∉ p.done := by
  have hnodup := h.nodup_queue
  rw [h.queue, Progress.begun, hcur] at hnodup
  intro hr
  exact (List.nodup_append.mp (List.nodup_append.mp hnodup).1).2.2 r hr r (by simp) rfl

/-- The next cell is not being processed. -/
theorem not_mem_begun (h : Order c p) {r : Ref} (hr : r ∈ p.todo) : r ∉ p.begun := by
  have hnodup := h.nodup_queue
  rw [h.queue] at hnodup
  exact fun hbegun => (List.nodup_append.mp hnodup).2.2 r hbegun r hr rfl

theorem not_dealt (h : Order c p) {r : Ref} {k : ChildNr} (hcur : p.current = some (r, k.val)) :
    ¬ p.Dealt r k := by
  rintro (hdone | ⟨n, hn, hlt⟩)
  · exact h.not_mem_done hcur hdone
  · obtain ⟨-, rfl⟩ := Prod.mk.inj (Option.some.inj (hcur.symm.trans hn))
    exact lt_irrefl _ hlt

/-- A cell is not asked for twice. -/
theorem not_asked (h : Order c p) {id : CellId} {callback : Callback} {childInFrustum : ℕ → ℤ}
    {p' : Progress} (hwish : Wish c p id callback childInFrustum p') : id ∉ c.asked := by
  intro hmem
  have horigin := h.origin id hmem
  cases hwish with
  | root t scope ht hon =>
    generalize hid : CellId.root t.name = id at horigin
    cases horigin with
    | root i t' hi ht' hon' =>
      exact h.distinct.ne hi ht' ht hon' hon (congrArg CellId.tree hid).symm
    | child r k => exact CellId.child_ne_root _ _ _ hid.symm
  | child r k hcur =>
    generalize hid : (c.cells r).id.child k = id at horigin
    cases horigin with
    | root i t => exact CellId.child_ne_root _ _ _ hid
    | child r' k' hdealt =>
      obtain ⟨hsame, rfl⟩ := CellId.child_injective hid
      obtain rfl := h.eq_of_id (h.mem_queue (mem_begun_of_current hcur))
        (h.mem_queue (mem_begun_of_dealt hdealt)) hsame
      exact h.not_dealt hcur hdealt

end Order

section Mono

variable {c c' : Core} {p p' : Progress}

theorem Origin.mono {id : CellId} (h : Origin c p id) (hinfo : c'.treesInfo = c.treesInfo)
    (hid : ∀ r ∈ p.begun, (c'.cells r).id = (c.cells r).id) (htrees : p.trees ≤ p'.trees)
    (hdealt : ∀ r k, p.Dealt r k → p'.Dealt r k) : Origin c' p' id := by
  cases h with
  | root i t hi ht hon => exact .root i t (hi.trans_le htrees) (by rw [hinfo]; exact ht) hon
  | child r k hk =>
    rw [← hid r (Order.mem_begun_of_dealt hk)]
    exact .child r k (hdealt r k hk)

theorem Descends.mono {cells cells' : Ref → CellObject} {begun begun' : List Ref}
    {cell cell' : CellObject} (h : Descends cells begun cell) (hsame : cell'.id = cell.id)
    (hparent : cell'.parentCell = cell.parentCell)
    (hid : ∀ r ∈ begun, (cells' r).id = (cells r).id) (hbegun : begun ⊆ begun') :
    Descends cells' begun' cell' := by
  rw [Descends, hsame, hparent]
  rcases h with h | ⟨r, hr, k, hset, hk⟩
  · exact .inl h
  · exact .inr ⟨r, hbegun hr, k, hset, by rw [hid r hr]; exact hk⟩

theorem Adopts.mono {cells cells' : Ref → CellObject} {begun begun' : List Ref} {id : CellId}
    {callback : Callback} (h : Adopts cells begun id callback)
    (hid : ∀ r ∈ begun, (cells' r).id = (cells r).id) (hbegun : begun ⊆ begun') :
    Adopts cells' begun' id callback := by
  cases callback with
  | root scope => exact h
  | child r scope =>
    obtain ⟨hr, k, hk⟩ := h
    exact ⟨hbegun hr, k, by rw [hid r hr]; exact hk⟩

/-- What a request of the query changes in its progress. -/
structure Grows (p p' : Progress) : Prop where
  begun : p'.begun = p.begun
  todo : p'.todo = p.todo
  trees : p.trees ≤ p'.trees
  dealt : ∀ r k, p.Dealt r k → p'.Dealt r k

variable {id : CellId} {callback : Callback} {childInFrustum : ℕ → ℤ}

theorem Wish.grows (h : Wish c p id callback childInFrustum p') : Grows p p' := by
  cases h with
  | root t scope => exact ⟨rfl, rfl, Nat.le_succ _, fun _ _ hk => hk⟩
  | child r k hcur =>
    refine ⟨by simp [Progress.begun, hcur], rfl, le_rfl, ?_⟩
    rintro r' k' (hdone | ⟨n, hn, hlt⟩)
    · exact .inl hdone
    · obtain ⟨rfl, rfl⟩ := Prod.mk.inj (Option.some.inj (hcur.symm.trans hn))
      exact .inr ⟨_, rfl, hlt.trans (Nat.lt_succ_self _)⟩

theorem Wish.origin (h : Wish c p id callback childInFrustum p') : Origin c p' id := by
  cases h with
  | root t scope ht hon => exact .root p.trees t (Nat.lt_succ_self _) ht hon
  | child r k hcur => exact .child r k (.inr ⟨_, rfl, Nat.lt_succ_self _⟩)

theorem Wish.adopts (h : Wish c p id callback childInFrustum p') :
    Adopts c.cells p.begun id callback := by
  cases h with
  | root t scope => rfl
  | child r k hcur => exact ⟨Order.mem_begun_of_current hcur, k, rfl⟩

/-- A cell that a callback has put into the queue. -/
theorem Adopts.descends (h : Adopts c.cells p.begun id callback) (c₁ : Core) (color : Vec)
    {cell : CellObject} (hid : cell.id = id) (hroot : id.path = [] → cell.parentCell = none) :
    Descends c.cells p.begun (c₁.receive color callback cell) := by
  cases callback with
  | root scope => exact .inl ⟨by rw [← h, ← hid]; rfl, hroot h⟩
  | child r scope =>
    obtain ⟨hr, k, hk⟩ := h
    exact .inr ⟨r, hr, k, rfl, hid.trans hk⟩

end Mono

namespace Order

variable {c : Core} {p p' : Progress}

/-- A step that neither asks for a cell nor gets one. -/
theorem frame (h : Order c p) {cells : Ref → CellObject} {childInFrustum : ℕ → ℤ}
    (hcells : ∀ r, (cells r).id = (c.cells r).id ∧ (cells r).parentCell = (c.cells r).parentCell)
    (hqueue : p'.begun ++ p'.todo = p.begun ++ p.todo) (hbegun : p.begun ⊆ p'.begun)
    (htrees : p.trees ≤ p'.trees) (hdealt : ∀ r k, p.Dealt r k → p'.Dealt r k) :
    Order { c with cells := cells, childInFrustum := childInFrustum } p' := by
  have hid : ∀ r, (cells r).id = (c.cells r).id := fun r => (hcells r).1
  have hasked : Core.asked { c with cells := cells, childInFrustum := childInFrustum } =
      c.asked := by
    simp only [Core.asked, hid]
  refine ⟨h.queue.trans hqueue.symm, h.distinct, by rw [hasked]; exact h.nodup, fun id hmem => ?_,
    fun r hr => ?_, fun q hq => ?_⟩
  · rw [hasked] at hmem
    exact (h.origin id hmem).mono rfl (fun r _ => hid r) htrees hdealt
  · exact (h.parent r hr).mono (hid r) (hcells r).2 (fun r _ => hid r) hbegun
  · exact (h.callback q hq).mono (fun r _ => hid r) hbegun

theorem sent (h : Order c p) {id : CellId} {callback : Callback} {childInFrustum : ℕ → ℤ}
    (hwish : Wish c p id callback childInFrustum p') (xhr : ℕ) (geometry : NodeGeometry) :
    Order
      { c with
        requests := c.requests ++ [⟨xhr, id, geometry, callback⟩]
        childInFrustum := childInFrustum } p' := by
  obtain ⟨hbegun, htodo, htrees, hdealt⟩ := hwish.grows
  have hasked : Core.asked
      { c with
        requests := c.requests ++ [⟨xhr, id, geometry, callback⟩]
        childInFrustum := childInFrustum } = c.asked ++ [id] := by
    simp [Core.asked]
  refine ⟨?_, h.distinct, ?_, fun id' hmem => ?_, fun r hr => ?_, fun q hq => ?_⟩
  · rw [hbegun, htodo]
    exact h.queue
  · rw [hasked]
    exact h.nodup.append (List.nodup_singleton _)
      (List.disjoint_singleton.mpr (h.not_asked hwish))
  · rw [hasked] at hmem
    rcases List.mem_append.mp hmem with hmem | hmem
    · exact (h.origin id' hmem).mono rfl (fun _ _ => rfl) htrees hdealt
    · rw [List.mem_singleton.mp hmem]
      exact hwish.origin.mono rfl (fun _ _ => rfl) le_rfl fun _ _ hk => hk
  · rw [hbegun]
    exact h.parent r hr
  · rw [hbegun]
    rcases List.mem_append.mp hq with hq | hq
    · exact h.callback q hq
    · obtain rfl := List.mem_singleton.mp hq
      exact hwish.adopts

/-- A cell that comes into the queue leaves the others alone. -/
theorem cells_push {r r' : Ref} {cell : CellObject} (hr : r ∉ c.queue) (hr' : r' ∈ c.queue) :
    Function.update c.cells r cell r' = c.cells r' :=
  Function.update_of_ne (ne_of_mem_of_not_mem hr' hr) _ _

theorem asked_push {r : Ref} (hr : r ∉ c.queue) (cell : CellObject) (requests : List Request)
    (childInFrustum : ℕ → ℤ) :
    Core.asked
      { c with
        cells := Function.update c.cells r cell
        queue := c.queue ++ [r]
        requests := requests
        childInFrustum := childInFrustum } =
      (c.queue.map fun r => (c.cells r).id) ++ [cell.id] ++ requests.map Request.id := by
  simp only [Core.asked, List.map_append, List.map_cons, List.map_nil, Function.update_self]
  -- the ids of the cells that were in the queue before
  congr 2
  refine List.map_congr_left fun r' hr' => ?_
  rw [cells_push hr hr']

/-- A cell comes into the queue. -/
theorem push (h : Order c p) {r : Ref} {cell : CellObject} {requests : List Request}
    {childInFrustum : ℕ → ℤ} (hr : r ∉ c.queue) (hgrows : Grows p p')
    (hnodup : ((c.queue.map fun r => (c.cells r).id) ++ [cell.id] ++
      requests.map Request.id).Nodup)
    (hrequests : requests ⊆ c.requests) (horigin : Origin c p' cell.id)
    (hparent : Descends c.cells p.begun cell) :
    Order
      { c with
        cells := Function.update c.cells r cell
        queue := c.queue ++ [r]
        requests := requests
        childInFrustum := childInFrustum }
      { p' with todo := p'.todo ++ [r] } := by
  have hid : ∀ r' ∈ p.begun, (Function.update c.cells r cell r').id = (c.cells r').id :=
    fun r' hr' => by rw [cells_push hr (h.mem_queue hr')]
  have hbegun : ({ p' with todo := p'.todo ++ [r] } : Progress).begun = p.begun := hgrows.begun
  have hasked := asked_push hr cell requests childInFrustum
  refine ⟨?_, h.distinct, by rw [hasked]; exact hnodup, fun id hmem => ?_, fun r' hr' => ?_,
    fun q hq => ?_⟩
  · rw [hbegun]
    change c.queue ++ [r] = p.begun ++ (p'.todo ++ [r])
    rw [h.queue, hgrows.todo, List.append_assoc]
  · rw [hasked] at hmem
    -- an old cell of the queue, the new cell, or a request
    rcases List.mem_append.mp hmem with hmem | hmem
    · rcases List.mem_append.mp hmem with hmem | hmem
      · exact (h.origin id (List.mem_append_left _ hmem)).mono rfl hid hgrows.trees hgrows.dealt
      · rw [List.mem_singleton.mp hmem]
        exact horigin.mono rfl (fun r' hr' => hid r' (hgrows.begun ▸ hr')) le_rfl
          fun _ _ hk => hk
    · exact (h.origin id (List.mem_append_right _ (List.map_subset _ hrequests hmem))).mono rfl hid
        hgrows.trees hgrows.dealt
  · rw [hbegun]
    rcases List.mem_append.mp hr' with hr' | hr'
    · change Descends _ p.begun (Function.update c.cells r cell r')
      rw [cells_push hr hr']
      exact (h.parent r' hr').mono rfl rfl hid (List.Subset.refl _)
    · obtain rfl := List.mem_singleton.mp hr'
      change Descends _ p.begun (Function.update c.cells r' cell r')
      rw [Function.update_self]
      exact hparent.mono rfl rfl hid (List.Subset.refl _)
  · rw [hbegun]
    exact (h.callback q (hrequests hq)).mono hid (List.Subset.refl _)

/-- The parent of a cell is set when the cell comes into the queue. -/
theorem parentCell_entered (c : Core) (r r' : Ref) :
    (c.entered r r').parentCell = (c.cells r').parentCell := by
  have hshow : (c.shown r r').parentCell = (c.cells r').parentCell := by
    rw [Core.shown, Function.update_apply]
    split_ifs with heq
    · rw [heq]
      rfl
    · rfl
  rw [Core.entered, ← hshow]
  generalize (c.shown r r).parentCell = parent
  cases parent with
  | none => rfl
  | some r₁ =>
    rw [Core.hideIn, Function.update_apply]
    split_ifs with heq
    · rw [heq]
      rfl
    · rfl

theorem id_receive (c : Core) (color : Vec) (callback : Callback) (cell : CellObject) :
    (c.receive color callback cell).id = cell.id := by
  cases callback <;> rfl

/-- The cells that are not answered are still asked for. -/
theorem asked_arrive (h : Order c p) {q : Request} (hq : q ∈ c.requests) :
    ((c.queue.map fun r => (c.cells r).id) ++ [q.id] ++
      (c.requests.filter (·.xhr ≠ q.xhr)).map Request.id).Nodup := by
  obtain ⟨hqueue, hrequests, hdisjoint⟩ := List.nodup_append.mp h.nodup
  have hsub : (c.requests.filter (·.xhr ≠ q.xhr)).map Request.id ⊆ c.requests.map Request.id :=
    List.map_subset _ List.filter_sublist.subset
  -- the id of the answered request is no longer asked for, but it is in the queue
  rw [List.append_assoc, List.nodup_append]
  refine ⟨hqueue, List.nodup_cons.mpr ⟨fun hmem => ?_, ?_⟩, fun id hid id' hid' => ?_⟩
  · obtain ⟨q', hq', heq⟩ := List.mem_map.mp hmem
    obtain ⟨hq', hne⟩ := List.mem_filter.mp hq'
    obtain rfl := List.inj_on_of_nodup_map hrequests hq' hq heq
    exact absurd rfl (of_decide_eq_true hne)
  · exact hrequests.sublist (List.filter_sublist.map _)
  · rcases List.mem_cons.mp hid' with rfl | hid'
    · exact hdisjoint id hid _ (List.mem_map_of_mem hq)
    · exact hdisjoint id hid id' (hsub hid')

/-- Every step of an uninterrupted query keeps the order. -/
theorem advance {exact : Prop} {server : Server} {c' : Core} (h : Order c p)
    (hadvance : Advance exact server c p c' p') : Order c' p' := by
  have hsubset : ∀ {l l' : List Ref}, l' = l → l ⊆ l' := fun heq _ hr => by rwa [heq]
  cases hadvance with
  | same => exact h
  | next r hcur =>
    have hbegun : p.begun = p.done ++ [r] := by simp [Progress.begun, hcur]
    refine h.frame (fun _ => ⟨rfl, rfl⟩) ?_ ?_ le_rfl ?_
    · rw [hbegun]
      simp [Progress.begun]
    · rw [hbegun]
      simp [Progress.begun]
    · intro r' k hk
      have hr' := mem_begun_of_dealt hk
      rw [hbegun] at hr'
      exact .inl hr'
  | enter r todo n scope hcur htodo =>
    have hbegun : p.begun = p.done := by simp [Progress.begun, hcur]
    refine h.frame (fun r' => ⟨(State.alike_entered c r r').id, parentCell_entered c r r'⟩) ?_ ?_
      le_rfl ?_
    · rw [hbegun, htodo]
      simp [Progress.begun]
    · rw [hbegun]
      exact List.subset_append_left _ _
    · rintro r' k (hdone | ⟨n, hn, -⟩)
      · exact .inl hdone
      · rw [hcur] at hn
        cases hn
  | skip r k childInFrustum hcur =>
    refine h.frame (fun r' => ⟨((Alike.hide _ k).update r').id, ?_⟩) ?_ ?_ le_rfl ?_
    · rw [Function.update_apply]
      split_ifs with heq
      · rw [heq]
        rfl
      · rfl
    · simp [Progress.begun, hcur]
    · simp [Progress.begun, hcur]
    · rintro r' k' (hdone | ⟨n, hn, hlt⟩)
      · exact .inl hdone
      · obtain ⟨rfl, rfl⟩ := Prod.mk.inj (Option.some.inj (hcur.symm.trans hn))
        exact .inr ⟨_, rfl, hlt.trans (Nat.lt_succ_self _)⟩
  | skipRoot treeInfo =>
    exact h.frame (fun _ => ⟨rfl, rfl⟩) rfl (List.Subset.refl _) (Nat.le_succ _) fun _ _ hk => hk
  | sent xhr hwish => exact h.sent hwish xhr _
  | lost _ hwish =>
    obtain ⟨hbegun, htodo, htrees, hdealt⟩ := hwish.grows
    exact h.frame (fun _ => ⟨rfl, rfl⟩) (by rw [hbegun, htodo]) (hsubset hbegun) htrees hdealt
  | hit r color hwish hid hroot =>
    have hfresh : r ∉ c.queue := fun hr => h.not_asked hwish (hid ▸ mem_asked hr)
    refine h.push hfresh hwish.grows ?_ (List.Subset.refl _) ?_ ?_
    · rw [id_receive, hid, List.append_assoc]
      exact List.nodup_middle.mpr (List.nodup_cons.mpr ⟨h.not_asked hwish, h.nodup⟩)
    · rw [id_receive, hid]
      exact hwish.origin
    · exact hwish.adopts.descends _ color hid fun hpath => (hroot hpath).1
  | arrive q r color hq _ hr hcur =>
    refine h.push hr ⟨rfl, rfl, le_rfl, fun _ _ hk => hk⟩ ?_ List.filter_sublist.subset ?_ ?_
    · rw [id_receive]
      exact h.asked_arrive hq
    · rw [id_receive]
      exact h.origin _ (List.mem_append_right _ (List.mem_map_of_mem hq))
    · exact (h.callback q hq).descends _ color rfl fun _ => rfl
  | drop q cells _ hcur hcells =>
    have hid : ∀ r ∈ p.begun, (cells r).id = (c.cells r).id := fun r hr => by
      rw [hcells r (h.mem_queue hr)]
    have hsub : (Core.asked
        { c with cells := cells, requests := c.requests.filter (·.xhr ≠ q.xhr) }).Sublist c.asked := by
      have hqueue : c.queue.map (fun r => (cells r).id) = c.queue.map fun r => (c.cells r).id :=
        List.map_congr_left fun r hr => by rw [hcells r hr]
      simp only [Core.asked, hqueue]
      exact (List.Sublist.refl _).append (List.filter_sublist.map _)
    refine ⟨h.queue, h.distinct, h.nodup.sublist hsub, fun id hmem => ?_, fun r hr => ?_,
      fun q' hq' => ?_⟩
    · exact (h.origin id (hsub.subset hmem)).mono rfl hid le_rfl fun _ _ hk => hk
    · change Descends cells p.begun (cells r)
      rw [hcells r hr]
      exact (h.parent r hr).mono rfl rfl hid (List.Subset.refl _)
    · exact (h.callback q' (List.mem_filter.mp hq').1).mono hid (List.Subset.refl _)

end Order

/-! ### What is drawn -/

/-- The cells that are begun show the octants that are not culled and not filled by one of them. -/
def Drawn (c : Core) (p : Progress) : Prop :=
  ∀ r ∈ p.begun, ∀ k, (c.cells r).shows k = true ↔
    (c.cells r).hasChild k = true ∧ ¬ (p.Dealt r k ∧ c.view.Culls (c.cells r) k) ∧
      ∀ r' ∈ p.begun, (c.cells r').id ≠ (c.cells r).id.child k

/-- One more child is looked at. -/
theorem dealt_succ {p : Progress} {r : Ref} {k : ChildNr} (hcur : p.current = some (r, k.val))
    (r' : Ref) (k' : ChildNr) :
    Progress.Dealt { p with current := some (r, k.val + 1) } r' k' ↔
      p.Dealt r' k' ∨ r' = r ∧ k' = k := by
  simp only [Progress.Dealt, hcur, Option.some.injEq, Prod.mk.injEq]
  constructor
  · rintro (hdone | ⟨n, ⟨rfl, rfl⟩, hlt⟩)
    · exact .inl (.inl hdone)
    · rcases Nat.lt_succ_iff_lt_or_eq.mp hlt with hlt | heq
      · exact .inl (.inr ⟨k, ⟨rfl, rfl⟩, hlt⟩)
      · exact .inr ⟨rfl, Fin.ext heq⟩
  · rintro ((hdone | ⟨n, ⟨rfl, rfl⟩, hlt⟩) | ⟨rfl, rfl⟩)
    · exact .inl hdone
    · exact .inr ⟨_, ⟨rfl, rfl⟩, hlt.trans (Nat.lt_succ_self _)⟩
    · exact .inr ⟨_, ⟨rfl, rfl⟩, Nat.lt_succ_self _⟩

/-- All children are looked at. -/
theorem dealt_next {p : Progress} {r : Ref} (hcur : p.current = some (r, 8)) (r' : Ref)
    (k : ChildNr) :
    Progress.Dealt { p with done := p.done ++ [r], current := none } r' k ↔ p.Dealt r' k := by
  simp only [Progress.Dealt, hcur, List.mem_append, List.mem_singleton, reduceCtorEq, false_and,
    exists_false, or_false, Option.some.injEq, Prod.mk.injEq]
  refine or_congr_right ⟨?_, ?_⟩
  · rintro rfl
    exact ⟨8, ⟨rfl, rfl⟩, k.isLt⟩
  · rintro ⟨n, ⟨rfl, -⟩, -⟩
    rfl

/-- A child that is asked for is not culled. -/
theorem Wish.dealt_iff {c : Core} {p p' : Progress} {id : CellId} {callback : Callback}
    {childInFrustum : ℕ → ℤ} (h : Wish c p id callback childInFrustum p') {r : Ref} {k : ChildNr}
    (hculls : c.view.Culls (c.cells r) k) : p'.Dealt r k ↔ p.Dealt r k := by
  cases h with
  | root t scope => rfl
  | child r' k' hcur _ _ hwants =>
    rw [dealt_succ hcur]
    refine or_iff_left ?_
    rintro ⟨rfl, rfl⟩
    exact Bool.noConfusion (hwants.symm.trans hculls.2.2)

namespace Drawn

variable {c c' : Core} {p p' : Progress}

/-- A step that neither begins a cell nor culls a child. -/
theorem frame (h : Drawn c p) (hcells : ∀ r ∈ p.begun, c'.cells r = c.cells r)
    (hview : c'.view = c.view) (hbegun : p'.begun = p.begun)
    (hdealt : ∀ r k, c.view.Culls (c.cells r) k → (p'.Dealt r k ↔ p.Dealt r k)) : Drawn c' p' := by
  rw [Drawn, hbegun, hview]
  intro r hr k
  rw [hcells r hr, h r hr k]
  refine and_congr_right fun _ => and_congr (not_congr ?_) (forall₂_congr fun r' hr' => ?_)
  · constructor
    · exact fun hyes => ⟨(hdealt r k hyes.2).mpr hyes.1, hyes.2⟩
    · exact fun hyes => ⟨(hdealt r k hyes.2).mp hyes.1, hyes.2⟩
  · rw [hcells r' hr']

/-- The cell shows all its octants. -/
theorem shows_entered_self (ho : Order c p) {r : Ref} (hr : r ∈ c.queue) (hnew : r ∉ p.begun)
    (k : ChildNr) : (c.entered r r).shows k = (c.cells r).hasChild k := by
  have hshow : (c.shown r r).shows k = (c.cells r).hasChild k := by
    rw [Core.shown, Function.update_self, CellObject.shows_showAll]
  rw [← hshow, Core.entered, Core.shown, Function.update_self]
  -- the cell hides an octant of its parent, and that is another cell
  rcases ho.parent r hr with ⟨-, hnone⟩ | ⟨r₀, hr₀, k₀, hsome, -⟩
  · rw [show (c.cells r).showAll.parentCell = none from hnone, Core.hideIn, Function.update_self]
  · rw [show (c.cells r).showAll.parentCell = some r₀ from hsome, Core.hideIn,
      Function.update_of_ne (ne_of_mem_of_not_mem hr₀ hnew).symm, Function.update_self]

/-- Another cell hides the octant that the cell fills. -/
theorem shows_entered (ho : Order c p) {r r₁ : Ref} (hr : r ∈ c.queue) (hnew : r ∉ p.begun)
    (hr₁ : r₁ ∈ p.begun) (k : ChildNr) : (c.entered r r₁).shows k = true ↔
      (c.cells r₁).shows k = true ∧ (c.cells r).id ≠ (c.cells r₁).id.child k := by
  have hother : ∀ r' ∈ p.begun, c.shown r r' = c.cells r' := fun r' hr' =>
    Function.update_of_ne (ne_of_mem_of_not_mem hr' hnew) _ _
  rw [Core.entered, show (c.shown r r).parentCell = (c.cells r).parentCell by
    rw [Core.shown, Function.update_self]; rfl, show (c.shown r r).id = (c.cells r).id by
    rw [Core.shown, Function.update_self]; rfl]
  rcases ho.parent r hr with ⟨hpath, hnone⟩ | ⟨r₀, hr₀, k₀, hsome, hid⟩
  · rw [hnone, Core.hideIn, hother r₁ hr₁]
    refine (and_iff_left fun heq => ?_).symm
    rw [heq] at hpath
    exact absurd hpath (List.cons_ne_nil _ _)
  · rw [hsome, Core.hideIn, hid, CellId.whichChild_child]
    by_cases heq : r₁ = r₀
    · subst heq
      rw [Function.update_self, CellObject.shows_hide, hother r₁ hr₁, Bool.and_eq_true]
      refine and_congr_right fun _ => ?_
      rw [Bool.not_eq_true', decide_eq_false_iff_not, ne_eq, not_iff_not]
      exact ⟨fun hk => by rw [hk], fun hk => (CellId.child_injective hk).2⟩
    · rw [Function.update_of_ne heq, hother r₁ hr₁]
      refine (and_iff_left fun hk => heq ?_).symm
      exact (ho.eq_of_id (ho.mem_queue hr₀) (ho.mem_queue hr₁) (CellId.child_injective hk).1).symm

/-- A cell shows all its octants, and hides the octant of its parent that it fills. -/
theorem enter (h : Drawn c p) (ho : Order c p) {r : Ref} {todo : List Ref} {n scope : ℕ}
    (hcur : p.current = none) (htodo : p.todo = r :: todo)
    (hn : n = 0 ∧ c.view.Expands (c.cells r) ∨ n = 8 ∧ ¬ c.view.Expands (c.cells r)) :
    Drawn { c with cells := c.entered r }
      { p with current := some (r, n), todo := todo, scope := scope } := by
  have hbegun : p.begun = p.done := by simp [Progress.begun, hcur]
  have hnew : r ∉ p.begun := ho.not_mem_begun (by rw [htodo]; exact List.mem_cons_self)
  have hr : r ∈ c.queue := by
    rw [ho.queue, htodo]
    exact List.mem_append_right _ List.mem_cons_self
  have hbegun' : ({ p with current := some (r, n), todo := todo, scope := scope } : Progress).begun =
      p.begun ++ [r] := by
    rw [hbegun]
    rfl
  have halike : ∀ r', Alike (c.entered r r') (c.cells r') := State.alike_entered c r
  rw [Drawn, hbegun']
  intro r₁ hr₁ k
  simp only [(halike _).id, (halike _).hasChild, (halike _).culls]
  rcases List.mem_append.mp hr₁ with hr₁ | hr₁
  · have hdealt :
        Progress.Dealt { p with current := some (r, n), todo := todo, scope := scope } r₁ k ↔
          p.Dealt r₁ k := by
      have hne : r ≠ r₁ := (ne_of_mem_of_not_mem hr₁ hnew).symm
      simp [Progress.Dealt, hcur, hne]
    rw [shows_entered ho hr hnew hr₁, h r₁ hr₁ k, hdealt]
    simp only [List.mem_append, List.mem_singleton, or_imp, forall_and, forall_eq, and_assoc]
  · obtain rfl := List.mem_singleton.mp hr₁
    rw [shows_entered_self ho hr hnew]
    refine (and_iff_left ⟨?_, fun r' hr' hchild => ?_⟩).symm
    · rintro ⟨hdone | ⟨n', hn', hlt⟩, hculls⟩
      · exact hnew (hbegun ▸ hdone)
      · obtain ⟨-, rfl⟩ := Prod.mk.inj (Option.some.inj hn')
        rcases hn with ⟨rfl, -⟩ | ⟨-, hnot⟩
        · exact Nat.not_lt_zero _ hlt
        · exact hnot hculls.1
    · -- the parent of a cell in the queue was processed before it
      have hr' : r' ∈ c.queue := by
        rcases List.mem_append.mp hr' with hr' | hr'
        · exact ho.mem_queue hr'
        · rw [List.mem_singleton.mp hr']
          exact hr
      rcases ho.parent r' hr' with ⟨hpath, -⟩ | ⟨r₀, hr₀, k₀, -, hid⟩
      · rw [hchild] at hpath
        exact absurd hpath (List.cons_ne_nil _ _)
      · have hsame := (CellId.child_injective (hid.symm.trans hchild)).1
        exact hnew (ho.eq_of_id (ho.mem_queue hr₀) hr hsame ▸ hr₀)

/-- A child that does not exist or is culled is not shown. -/
theorem skip (h : Drawn c p) {r : Ref} {k : ChildNr} {childInFrustum : ℕ → ℤ}
    (hcur : p.current = some (r, k.val)) (hexpands : c.view.Expands (c.cells r))
    (hwants : (c.cells r).hasChild k = true → c.view.wants (c.cells r) k = false) :
    Drawn
      { c with
        cells := Function.update c.cells r ((c.cells r).hide k)
        childInFrustum := childInFrustum }
      { p with current := some (r, k.val + 1) } := by
  have halike : ∀ r', Alike (Function.update c.cells r ((c.cells r).hide k) r') (c.cells r') :=
    (Alike.hide _ k).update
  have hbegun : ({ p with current := some (r, k.val + 1) } : Progress).begun = p.begun := by
    simp [Progress.begun, hcur]
  rw [Drawn, hbegun]
  intro r' hr' k'
  simp only [(halike _).id, (halike _).hasChild, (halike _).culls, dealt_succ hcur]
  -- only the octant that was looked at is hidden
  by_cases heq : r' = r ∧ k' = k
  · obtain ⟨rfl, rfl⟩ := heq
    rw [Function.update_self, CellObject.shows_hide]
    simp only [decide_true, Bool.not_true, Bool.and_false, Bool.false_eq_true, false_iff]
    rintro ⟨hhas, hculls, -⟩
    exact hculls ⟨.inr ⟨trivial, trivial⟩, hexpands, hhas, hwants hhas⟩
  · have hshows : (Function.update c.cells r ((c.cells r).hide k) r').shows k' =
        (c.cells r').shows k' := by
      rw [Function.update_apply]
      split_ifs with hr
      · subst hr
        have hk : k ≠ k' := fun hk => heq ⟨rfl, hk.symm⟩
        rw [CellObject.shows_hide, decide_eq_false hk, Bool.not_false, Bool.and_true]
      · rfl
    rw [hshows, or_iff_left heq]
    exact h r' hr' k'

theorem advance {exact : Prop} {server : Server} (h : Drawn c p) (ho : Order c p)
    (hadvance : Advance exact server c p c' p') : Drawn c' p' := by
  have hother : ∀ {r : Ref} {cell : CellObject}, r ∉ c.queue →
      ∀ r' ∈ p.begun, Function.update c.cells r cell r' = c.cells r' := fun hr r' hr' =>
    Order.cells_push hr (ho.mem_queue hr')
  cases hadvance with
  | same => exact h
  | next r hcur =>
    refine h.frame (fun _ _ => rfl) rfl ?_ fun r' k _ => dealt_next hcur r' k
    simp [Progress.begun, hcur]
  | enter r todo n scope hcur htodo hn => exact h.enter ho hcur htodo hn
  | skip r k childInFrustum hcur hexpands hwants =>
    exact h.skip hcur hexpands fun hhas => (hwants hhas).1
  | skipRoot treeInfo => exact h.frame (fun _ _ => rfl) rfl rfl fun _ _ _ => Iff.rfl
  | sent xhr hwish =>
    exact h.frame (fun _ _ => rfl) rfl hwish.grows.begun fun _ _ => hwish.dealt_iff
  | lost _ hwish =>
    exact h.frame (fun _ _ => rfl) rfl hwish.grows.begun fun _ _ => hwish.dealt_iff
  | hit r color hwish hid =>
    have hfresh : r ∉ c.queue := fun hr => ho.not_asked hwish (hid ▸ Order.mem_asked hr)
    exact h.frame (hother hfresh) rfl hwish.grows.begun fun _ _ => hwish.dealt_iff
  | arrive q r color _ _ hr => exact h.frame (hother hr) rfl rfl fun _ _ _ => Iff.rfl
  | drop q cells _ _ hcells =>
    exact h.frame (fun r hr => hcells r (ho.mem_queue hr)) rfl rfl fun _ _ _ => Iff.rfl

end Drawn

/-! ### Runs -/

namespace State

variable {server : Server} {page : Page} {s s' : State}

theorem order_start (hfresh : s.Fresh) (hdistinct : DistinctRoots s.page.treesInfo) (scope : ℕ) :
    Order s.core (.start scope) where
  queue := hfresh.queue
  distinct := hdistinct
  nodup := by
    simp [Core.asked, core, hfresh.queue, hfresh.requests]
  origin id hmem := by
    simp [Core.asked, core, hfresh.queue, hfresh.requests] at hmem
  parent r hr := by
    have hmem : r ∈ s.queue := hr
    simp [hfresh.queue] at hmem
  callback q hq := by
    have hmem : q ∈ s.requests := hq
    simp [hfresh.requests] at hmem

/-- At the end of its loop an uninterrupted query has processed its queue. -/
theorem Live.atEnd {I : Core → Progress → Prop} (h : s.Live I)
    (hint : s.interruptFrustumQuery = false) {rest : List Frame} (hstack : s.stack = .loop :: rest)
    (hend : s.queue[s.queueIndex]? = none) :
    ∃ p, I s.core p ∧ p.current = none ∧ p.begun = s.queue ∧ s.page.treesInfo.length ≤ p.trees := by
  rcases h with hyes | ⟨r, k, hre⟩ | ⟨p, hflat, hI⟩
  · rw [hint] at hyes
    cases hyes
  · rw [hre.cell] at hend
    cases hend
  · obtain ⟨-, hcur, htrees⟩ := hflat.top hstack
    have hbegun : p.begun = p.done := by simp [Progress.begun, hcur]
    have hlength := List.getElem?_eq_none_iff.mp hend
    rw [hflat.queue, hflat.index, hbegun, List.length_append] at hlength
    have htodo : p.todo = [] := List.length_eq_zero_iff.mp (by omega)
    exact ⟨p, hI, hcur, by rw [hflat.queue, htodo, List.append_nil], htrees⟩

/-- No hole and no double drawing: whenever the callbacks of an uninterrupted query are called, the
cells show the octants of their children that are not culled and not in the result. -/
theorem shows_octant_iff (h : Reach (Web.step server) (fun _ _ => True) (.start page) s)
    (hdistinct : DistinctRoots s.page.treesInfo) (hint : s.interruptFrustumQuery = false)
    {e : Event} (hs : Web.step server e s = some s') {result : List CellObject}
    (hlog : s'.log = .progress result :: s.log ∨ s'.log = .finished result :: s.log) :
    ∀ c ∈ result, ∀ i, c.shows i = true ↔
      c.hasChild i = true ∧ ¬ s.view.Culls c i ∧ ∀ c' ∈ result, c'.id ≠ c.id.child i := by
  obtain ⟨-, haccounted, hlive⟩ := live_of_reach
    (I := fun c p => DistinctRoots c.treesInfo → Order c p ∧ Drawn c p) h
    (Sound.start server page) (fresh_start page) (fun _ _ _ => False.elim)
    (fun s scope hfresh hd => ⟨order_start hfresh hd scope, fun r hr => absurd hr List.not_mem_nil⟩)
    fun c c' p p' _ _ hI hadvance hd => by
      obtain ⟨horder, hdrawn⟩ := hI (by rwa [← hadvance.treesInfo])
      exact ⟨horder.advance hadvance, hdrawn.advance horder hadvance⟩
  obtain ⟨⟨rest, hstack⟩, hend, rfl, -⟩ := results_of_step haccounted hs hlog
  rw [hint] at hend
  obtain ⟨p, hI, hcur, hbegun, -⟩ := hlive.atEnd hint hstack (hend.resolve_left (by decide))
  obtain ⟨-, hdrawn⟩ := hI hdistinct
  rintro c hc i
  obtain ⟨r, hr, rfl⟩ := List.mem_map.mp hc
  rw [← hbegun] at hr
  have hdealt : p.Dealt r i := by
    rw [Progress.begun, hcur] at hr
    exact .inl (by simpa using hr)
  rw [show s.cells r = s.core.cells r from rfl, hdrawn r hr i, State.result, ← hbegun]
  simp only [hdealt, true_and, List.mem_map, forall_exists_index, and_imp, forall_apply_eq_imp_iff₂]
  rfl

/-- A page whose camera sees the cells with small or with large `x`. -/
def halfPage (seesLarge : Bool) : Page where
  treesInfo := [some ⟨true, ['a'], false, fun _ => 0⟩]
  desiredCellCount := 100
  minBoxSizeMeters := 1
  runOnCacheOnly := false
  frustumPlanes i :=
    if i = 0 then if seesLarge then 10 else -10 else if i % 4 = 3 ∧ 4 ≤ i then 1000 else 0
  cameraMatrix i := if i.val % 5 = 0 then 1 else 0
  gM := 1

/-- A server whose roots have a child with small and one with large `x`, which are leaves. -/
def twoChildrenServer : Server where
  maxSize := 10000
  files id := if id.path = [] then [129] else [0]
  metadata _ := (fun _ => 0, 64)

/-- The steps of a query whose requests are answered: the root is loaded and its children are looked
at, then the child that is not culled is loaded. -/
def halfAnswers : List Event :=
  .run :: .run :: .success 0 :: List.replicate 12 .run ++ .success 1 :: List.replicate 2 .run

/-- A query with these answers. -/
def halfQuery (seesLarge : Bool) : List Event := .getFrustum (halfPage seesLarge) :: halfAnswers

/-- The end of a query. -/
def AtEnd (s : State) : Bool :=
  match s.stack with
  | [.loop] => decide (s.queue[s.queueIndex]? = none ∧ ¬ s.inFlight > 0 ∧
      s.interruptFrustumQuery = false ∧ DistinctRoots s.page.treesInfo)
  | _ => false

/-- At its end the query gives its results. -/
theorem finishes_of_atEnd (server : Server) (h : s.AtEnd = true) :
    (∃ s', Web.step server .run s = some s' ∧ s'.log = .finished s.result :: s.log) ∧
      s.interruptFrustumQuery = false ∧ DistinctRoots s.page.treesInfo := by
  unfold AtEnd at h
  split at h
  · next hstack =>
    obtain ⟨hend, hpos, hint, hdistinct⟩ := of_decide_eq_true h
    refine ⟨⟨State.giveResults { s with stack := [] }, ?_, ?_⟩, hint, hdistinct⟩
    · simp only [Web.step, State.run, hstack, hend]
    · unfold State.giveResults
      rw [if_neg hpos]
      rfl
  · cases h

/-- One of the two children of the root is culled, and the other one fills its octant. -/
theorem shows_octant_sample : ∃ s : State,
    Reach (Web.step twoChildrenServer) (fun _ _ => True) (.start (halfPage true)) s ∧
      s.result.length = 2 ∧ ∀ c ∈ s.result, ∀ i, c.shows i = true ↔
        c.hasChild i = true ∧ ¬ s.view.Culls c i ∧ ∀ c' ∈ s.result, c'.id ≠ c.id.child i := by
  have hrun : (play (Web.step twoChildrenServer) (halfQuery true) (.start (halfPage true))).any
      (fun s => s.AtEnd && decide (s.result.length = 2)) = true := by
    decide +kernel
  obtain ⟨s, hs, hrest⟩ := (Option.any_eq_true _ _).mp hrun
  rw [Bool.and_eq_true, decide_eq_true_eq] at hrest
  obtain ⟨⟨s', hstep, hlog⟩, hint, hdistinct⟩ := finishes_of_atEnd twoChildrenServer hrest.1
  exact ⟨s, Reach.of_play hs, hrest.2,
    shows_octant_iff (Reach.of_play hs) hdistinct hint hstep (.inr hlog)⟩

end State

end MegaTree.Web
