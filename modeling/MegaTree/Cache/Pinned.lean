import MegaTree.Cache.Pins

/-!
# What a client has pinned

`Pinned σ L` : the users of the files are exactly the pins in the list `L`.  The `pin_` lemmas say
for every function of the client which pins it adds and which it gives back, whatever the files
contain; a function that fails has no obligations.

`pinned_files_stay` : in every run of every session the use count of a file is the number of live
handles, and a file with users stays in the cache.
-/

namespace MegaTree

open Effect

/-- A user of a file. -/
structure Pin where
  /-- The file. -/
  file : LongId
  /-- The node of the handle, if the user is a handle. -/
  node : Option ShortId
  /-- The file was seen loaded. -/
  loaded : Bool

/-- The users of the files are exactly the pins in `L`, and what the pins know is true. -/
structure Pinned (σ : PinState) (L : List Pin) : Prop where
  users : ∀ f, σ.users f = L.countP fun t => decide (t.file = f)
  ready : ∀ t ∈ L, t.loaded = true → σ.ready t.file = true
  nodes : ∀ t ∈ L, ∀ s, t.node = some s → σ.nodes t.file s = true

namespace Pinned

variable {σ : PinState} {L L' : List Pin} {t : Pin} {f : LongId} {s : ShortId} {l : Bool}

theorem init : Pinned .init [] := ⟨fun _ => rfl, fun _ h => (nomatch h), fun _ h => (nomatch h)⟩

theorem perm (h : Pinned σ L) (hp : L.Perm L') : Pinned σ L' where
  users f := (h.users f).trans (hp.countP_eq _)
  ready t ht := h.ready t (hp.mem_iff.2 ht)
  nodes t ht := h.nodes t (hp.mem_iff.2 ht)

theorem pos (h : Pinned σ L) (ht : t ∈ L) : 0 < σ.users t.file := by
  rw [h.users, List.countP_pos_iff]
  exact ⟨t, ht, by simp⟩

/-- Forget that the files of some pins were seen loaded. -/
theorem forget {M : List Pin} (h : Pinned σ (M ++ L)) :
    Pinned σ (M.map (fun t => ⟨t.file, t.node, false⟩) ++ L) where
  users f := by
    rw [h.users, List.countP_append, List.countP_append, List.countP_map]
    rfl
  ready t ht hl := by
    rcases List.mem_append.1 ht with ht | ht
    · obtain ⟨u, -, rfl⟩ := List.mem_map.1 ht
      cases hl
    · exact h.ready t (List.mem_append_right _ ht) hl
  nodes t ht s hs := by
    rcases List.mem_append.1 ht with ht | ht
    · obtain ⟨u, hu, rfl⟩ := List.mem_map.1 ht
      exact h.nodes u (List.mem_append_left _ hu) s hs
    · exact h.nodes t (List.mem_append_right _ ht) s hs

theorem add (h : Pinned σ L) (f : LongId) : Pinned (σ.add f) (⟨f, none, false⟩ :: L) where
  users g := by
    by_cases hg : g = f
    · subst hg
      simp [PinState.add, h.users]
    · have hg' : f ≠ g := fun e => hg e.symm
      simp [PinState.add, h.users, hg, hg']
  ready t ht hl := by
    rcases List.mem_cons.1 ht with rfl | ht
    · cases hl
    · have hr := h.ready t ht hl
      by_cases hf : t.file = f
      · have := h.pos ht
        rw [hf] at hr this
        simp [PinState.add, hf, hr, this]
      · simp [PinState.add, hf, hr]
  nodes t ht s hs := by
    rcases List.mem_cons.1 ht with rfl | ht
    · cases hs
    · exact h.nodes t ht s hs

theorem see (h : Pinned σ L) (f : LongId) : Pinned (σ.see f) L where
  users := h.users
  ready t ht hl := by
    by_cases hf : t.file = f
    · simp [PinState.see, hf]
    · simp [PinState.see, hf, h.ready t ht hl]
  nodes := h.nodes

/-- The first pin learns that its file was seen loaded. -/
theorem learn (h : Pinned σ (t :: L)) (hr : σ.ready t.file = true) :
    Pinned σ (⟨t.file, t.node, true⟩ :: L) where
  users := h.users
  ready u hu hl := by
    rcases List.mem_cons.1 hu with rfl | hu
    · exact hr
    · exact h.ready u (List.mem_cons_of_mem _ hu) hl
  nodes u hu s hs := by
    rcases List.mem_cons.1 hu with rfl | hu
    · exact h.nodes t List.mem_cons_self s hs
    · exact h.nodes u (List.mem_cons_of_mem _ hu) s hs

/-- The first pin becomes a handle of a node. -/
theorem hand (h : Pinned σ (⟨f, none, l⟩ :: L)) (s : ShortId) :
    Pinned (σ.hand f s) (⟨f, some s, l⟩ :: L) where
  users := h.users
  ready u hu hl := by
    rcases List.mem_cons.1 hu with rfl | hu
    · exact h.ready ⟨f, none, l⟩ List.mem_cons_self hl
    · exact h.ready u (List.mem_cons_of_mem _ hu) hl
  nodes u hu s' hs := by
    rcases List.mem_cons.1 hu with rfl | hu
    · obtain rfl := Option.some.inj hs
      simp [PinState.hand]
    · have := h.nodes u (List.mem_cons_of_mem _ hu) s' hs
      by_cases hf : u.file = f
      · rw [hf] at this
        by_cases hss : s' = s
        · simp [PinState.hand, hf, hss]
        · simp [PinState.hand, hf, hss, this]
      · simp [PinState.hand, hf, this]

theorem drop (h : Pinned σ (t :: L)) : Pinned (σ.drop t.file) L where
  users g := by
    have hg := h.users g
    by_cases hgt : g = t.file
    · subst hgt
      rw [List.countP_cons_of_pos (by simp)] at hg
      simp [PinState.drop, hg]
    · have hgt' : t.file ≠ g := fun e => hgt e.symm
      rw [List.countP_cons_of_neg (by simpa using hgt')] at hg
      simp [PinState.drop, hgt, hg]
  ready u hu hl := h.ready u (List.mem_cons_of_mem _ hu) hl
  nodes u hu s hs := by
    have hn := h.nodes u (List.mem_cons_of_mem _ hu) s hs
    by_cases hf : u.file = t.file
    · -- the other pin keeps the file
      have htwo : 1 < σ.users t.file := by
        rw [h.users, List.countP_cons_of_pos (by simp)]
        have : 0 < L.countP fun v => decide (v.file = t.file) :=
          List.countP_pos_iff.2 ⟨u, hu, by simpa using hf⟩
        omega
      rw [hf] at hn
      simp [PinState.drop, hf, hn, htwo]
    · simp [PinState.drop, hf, hn]

end Pinned

/-! ### Rules for the operations -/

/-- `p` uses only files that it has pinned, and returns only with `Q`. -/
abbrev PinSpec {α : Type} (p : TreeM α) (Q : α → PinState → Prop) (σ : PinState) : Prop :=
  p.wp PinState.step Q (fun _ => True) σ

section Rules

variable {σ : PinState} {L : List Pin} {t : Pin} {f : LongId} {s : ShortId} {l : Bool}

theorem PinState.pinned_of_mem {α : Type} {x : α} (hL : Pinned σ L) (ht : t ∈ L) :
    σ.pinned t.file x = some x := if_pos (hL.pos ht)

theorem pin_getNodeFile {Q : Unit → PinState → Prop} (hL : Pinned σ L)
    (hQ : ∀ σ', Pinned σ' (⟨f, none, false⟩ :: L) → Q () σ') :
    PinSpec (perform (.getNodeFile f)) Q σ := fun _ => ⟨(), _, rfl, hQ _ (hL.add f)⟩

theorem pin_createNodeFile {Q : Unit → PinState → Prop} (hL : Pinned σ L)
    (hQ : ∀ σ', Pinned σ' (⟨f, none, true⟩ :: L) → Q () σ') :
    PinSpec (perform (.createNodeFile f)) Q σ := fun _ =>
  ⟨(), _, rfl, hQ _ (((hL.add f).see f).learn (by simp [PinState.see]))⟩

theorem pin_cacheMaintenance {Q : Unit → PinState → Prop} (hQ : Q () σ) :
    PinSpec (perform .cacheMaintenance) Q σ := fun _ => ⟨(), σ, rfl, hQ⟩

theorem pin_countNode {Q : Unit → PinState → Prop} (hQ : Q () σ) :
    PinSpec (perform .countNode) Q σ := fun _ => ⟨(), σ, rfl, hQ⟩

theorem pin_waitUntilLoaded {Q : Unit → PinState → Prop} (hL : Pinned σ (t :: L))
    (hQ : ∀ σ', Pinned σ' (⟨t.file, t.node, true⟩ :: L) → Q () σ') :
    PinSpec (perform (.waitUntilLoaded t.file)) Q σ := fun _ => by
  refine ⟨(), σ.see t.file, ?_, hQ _ ((hL.see t.file).learn (by simp [PinState.see]))⟩
  simp only [PinState.step, if_pos (hL.pos List.mem_cons_self)]

/-- Waiting for a file does not change who has pinned what. -/
theorem pin_waitUntilLoaded_any {Q : Unit → PinState → Prop} (hL : Pinned σ L)
    (hQ : ∀ σ', Pinned σ' L → Q () σ') : PinSpec (perform (.waitUntilLoaded f)) Q σ := fun _ => by
  refine ⟨(), _, rfl, ?_⟩
  split_ifs
  · exact hQ _ (hL.see f)
  · exact hQ _ hL

theorem pin_isLoaded {Q : Bool → PinState → Prop} (hL : Pinned σ L)
    (hQ : ∀ b σ', Pinned σ' L → ((∃ t ∈ L, t.file = f ∧ t.loaded = true) → b = true) → Q b σ') :
    PinSpec (perform (.isLoaded f)) Q σ := fun c => by
  by_cases hpos : 0 < σ.users f
  · refine ⟨σ.ready f || c.flag, if σ.ready f || c.flag then σ.see f else σ,
      by simp only [PinState.step, if_pos hpos], hQ _ _ ?_ ?_⟩
    · split_ifs
      · exact hL.see f
      · exact hL
    · rintro ⟨t, ht, rfl, hl⟩
      rw [hL.ready t ht hl]
      rfl
  · refine ⟨c.flag, σ, by simp only [PinState.step, if_neg hpos], hQ _ _ hL ?_⟩
    rintro ⟨t, ht, rfl, -⟩
    exact absurd (hL.pos ht) hpos

theorem pin_hasChildFile {Q : Bool → PinState → Prop} {i : ChildNr} (hL : Pinned σ L) (ht : t ∈ L)
    (hQ : ∀ b, Q b σ) : PinSpec (perform (.hasChildFile t.file i)) Q σ := fun c =>
  ⟨c.flag, σ, PinState.pinned_of_mem hL ht, hQ _⟩

theorem pin_setChildFile {Q : Unit → PinState → Prop} {i : ChildNr} (hL : Pinned σ L) (ht : t ∈ L)
    (hQ : Q () σ) : PinSpec (perform (.setChildFile t.file i)) Q σ := fun _ =>
  ⟨(), σ, PinState.pinned_of_mem hL ht, hQ⟩

/-- A node that is read or created is one more user, which knows as much as another one. -/
theorem Pinned.addNode (hL : Pinned σ L) (ht : t ∈ L) (s : ShortId) :
    Pinned ((σ.add t.file).hand t.file s) (⟨t.file, some s, t.loaded⟩ :: L) := by
  refine Pinned.hand ?_ s
  cases hl : t.loaded with
  | false => exact hL.add t.file
  | true =>
    refine (hL.add t.file).learn ?_
    simp [PinState.add, hL.ready t ht hl, hL.pos ht]

theorem pin_readNode {Q : Bool → PinState → Prop} (hL : Pinned σ L) (ht : t ∈ L)
    (hfalse : Q false σ)
    (hQ : ∀ σ', Pinned σ' (⟨t.file, some s, t.loaded⟩ :: L) → Q true σ') :
    PinSpec (perform (.readNode t.file s)) Q σ := fun c => by
  refine ⟨c.flag, _, PinState.pinned_of_mem hL ht, ?_⟩
  cases c.flag with
  | false => exact hfalse
  | true => exact hQ _ (hL.addNode ht s)

theorem pin_createNode {Q : Unit → PinState → Prop} (hL : Pinned σ L) (ht : t ∈ L)
    (hQ : ∀ σ', Pinned σ' (⟨t.file, some s, t.loaded⟩ :: L) → Q () σ') :
    PinSpec (perform (.createNode t.file s)) Q σ := fun _ =>
  ⟨(), _, PinState.pinned_of_mem hL ht, hQ _ (hL.addNode ht s)⟩

theorem pin_removeUser {Q : Unit → PinState → Prop} (hL : Pinned σ (t :: L))
    (hQ : ∀ σ', Pinned σ' L → Q () σ') : PinSpec (perform (.removeUser t.file)) Q σ := fun _ =>
  ⟨(), _, PinState.pinned_of_mem hL List.mem_cons_self, hQ _ hL.drop⟩

theorem pin_getNode {Q : Node → PinState → Prop} (hL : Pinned σ L) (ht : t ∈ L)
    (hs : t.node = some s) (hQ : ∀ n, Q n σ) : PinSpec (perform (.getNode t.file s)) Q σ :=
  fun c => ⟨c.node, σ, if_pos (hL.nodes t ht s hs), hQ _⟩

theorem pin_setNode {Q : Unit → PinState → Prop} {n : Node} {w : Write} (hL : Pinned σ L)
    (ht : t ∈ L) (hs : t.node = some s) (hQ : Q () σ) :
    PinSpec (perform (.setNode t.file s n w)) Q σ :=
  fun _ => ⟨(), σ, if_pos (hL.nodes t ht s hs), hQ⟩

theorem pin_releaseNode_op {Q : Unit → PinState → Prop} {b : Bool} (hL : Pinned σ (t :: L))
    (hQ : ∀ σ', Pinned σ' L → Q () σ') : PinSpec (perform (.releaseNode t.file b)) Q σ := fun _ =>
  ⟨(), _, PinState.pinned_of_mem hL List.mem_cons_self, hQ _ hL.drop⟩

theorem pin_ensure {Q : Unit → PinState → Prop} {b : Bool} {e : Err} (hQ : Q () σ) :
    PinSpec (Prog.ensure b e) Q σ := by
  refine Prog.wp_ensure.2 ?_
  split_ifs
  exact hQ

theorem pin_lift {α : Type} {Q : α → PinState → Prop} {x : Except Err α}
    (hQ : ∀ a, x = .ok a → Q a σ) : PinSpec (Prog.lift x) Q σ :=
  Prog.wp_lift.2 ⟨hQ, fun _ _ => trivial⟩

end Rules

/-! ### Rules for the handles -/

/-- The pin of a handle: a handle without a node has none. -/
def NodeHandle.pins (h : NodeHandle) (l : Bool) : List Pin :=
  h.node.elim [] fun x => [⟨x.1, some x.2, l⟩]

/-- A handle with a node knows the file of the node and a valid id. -/
structure Sound (h : NodeHandle) : Prop where
  file : ∀ x, h.node = some x → h.nodeFile = some x.1
  id : h.node.isSome → h.id.isValid = true

section Handles

variable {cfg : Config} {σ : PinState} {L : List Pin} {h : NodeHandle} {l : Bool}

theorem Sound.null : Sound .null := ⟨fun _ h => (nomatch h), fun h => (nomatch h)⟩

theorem Sound.invalidate : Sound h.invalidate := ⟨fun _ h => (nomatch h), fun h => (nomatch h)⟩

theorem Sound.mark (hs : Sound h) (b : Bool) : Sound { h with modified := b } := ⟨hs.file, hs.id⟩

theorem Sound.initialized {id file : LongId} {g : NodeGeometry} (hid : id.isValid = true)
    (node : Option ShortId) :
    Sound (.initialized (node.map fun s => (file, s)) id file g) where
  file x hx := by
    obtain ⟨s, -, rfl⟩ := Option.map_eq_some_iff.1 hx
    rfl
  id _ := hid

theorem isValid_of_getChild {id id' : LongId} {c : ChildNr} (h : id.getChild c = .ok id') :
    id'.isValid = true := by
  unfold LongId.getChild at h
  split_ifs at h
  obtain rfl := Except.ok.inj h
  simp [LongId.isValid, LongId.childId]

theorem pin_ptr {Q : LongId × ShortId → PinState → Prop} (hh : h.pins l ⊆ L)
    (hQ : ∀ t ∈ L, ∀ s, t.node = some s → Q (t.file, s) σ) : PinSpec h.ptr Q σ := by
  refine pin_lift fun x hx => ?_
  cases hn : h.node with
  | none =>
    rw [hn] at hx
    cases hx
  | some y =>
    rw [hn] at hx
    obtain rfl := Except.ok.inj hx
    exact hQ ⟨y.1, some y.2, l⟩ (hh (by simp [NodeHandle.pins, hn])) y.2 rfl

theorem pin_get {Q : Node → PinState → Prop} (hL : Pinned σ L) (hh : h.pins l ⊆ L)
    (hQ : ∀ n, Q n σ) : PinSpec h.get Q σ :=
  Prog.wp_bind.2 (pin_ptr hh fun _ ht _ hs => pin_getNode hL ht hs hQ)

theorem pin_modify {Q : NodeHandle → PinState → Prop} {n : Node} (hL : Pinned σ L)
    (hh : h.pins l ⊆ L) (hQ : Q { h with modified := true } σ) : PinSpec (h.modify n) Q σ :=
  Prog.wp_bind.2 (pin_ptr hh fun _ ht _ hs => Prog.wp_bind.2 (pin_setNode hL ht hs hQ))

theorem pin_overwrite {Q : Unit → PinState → Prop} {n : Node} {w : Write} (hL : Pinned σ L)
    (hh : h.pins l ⊆ L) (hQ : Q () σ) : PinSpec (h.overwrite n w) Q σ :=
  Prog.wp_bind.2 (pin_ptr hh fun _ ht _ hs => pin_setNode hL ht hs hQ)

theorem pin_setChild {Q : NodeHandle → PinState → Prop} {c : ChildNr} (hL : Pinned σ L)
    (hh : h.pins l ⊆ L) (hQ : Q { h with modified := true } σ) : PinSpec (h.setChild c) Q σ :=
  Prog.wp_bind.2 (pin_get hL hh fun _ => pin_modify hL hh hQ)

theorem pin_setPoint {Q : NodeHandle → PinState → Prop} {pt col : Vec} (hL : Pinned σ L)
    (hh : h.pins l ⊆ L) (hQ : Q { h with modified := true } σ) : PinSpec (h.setPoint pt col) Q σ :=
  Prog.wp_bind.2 (pin_get hL hh fun _ => Prog.wp_bind.2 (pin_lift fun _ _ => pin_modify hL hh hQ))

theorem pin_handle_addPoint {Q : NodeHandle → PinState → Prop} {pt col : Vec} (hL : Pinned σ L)
    (hh : h.pins l ⊆ L) (hQ : Q { h with modified := true } σ) : PinSpec (h.addPoint pt col) Q σ :=
  Prog.wp_bind.2 (pin_get hL hh fun _ => Prog.wp_bind.2 (pin_lift fun _ _ => pin_modify hL hh hQ))

/-- A handle whose file was seen loaded is valid. -/
theorem pin_isValid {Q : Bool → PinState → Prop} (hL : Pinned σ L)
    (hQ : ∀ b σ', Pinned σ' L → (Sound h → h.node.isSome → h.pins true ⊆ L → b = true) → Q b σ') :
    PinSpec h.isValid Q σ := by
  unfold NodeHandle.isValid
  cases hf : h.nodeFile with
  | none =>
    refine hQ false σ hL fun hs hn => ?_
    obtain ⟨x, hx⟩ := Option.isSome_iff_exists.1 hn
    rw [hs.file x hx] at hf
    cases hf
  | some f =>
    refine Prog.wp_bind.2 (pin_isLoaded hL fun b σ' hL' hb => hQ _ σ' hL' fun hs hn hp => ?_)
    obtain ⟨x, hx⟩ := Option.isSome_iff_exists.1 hn
    obtain rfl := Option.some.inj ((hs.file x hx).symm.trans hf)
    rw [hb ⟨⟨x.1, some x.2, true⟩, hp (by simp [NodeHandle.pins, hx]), rfl, rfl⟩, hs.id hn]
    rfl

theorem pin_waitUntilLoaded_handle {Q : Unit → PinState → Prop} (hs : Sound h)
    (hL : Pinned σ (h.pins l ++ L)) (hQ : ∀ σ', Pinned σ' (h.pins true ++ L) → Q () σ') :
    PinSpec h.waitUntilLoaded Q σ := by
  unfold NodeHandle.waitUntilLoaded
  cases hn : h.node with
  | none =>
    have hpins : ∀ l, h.pins l = [] := fun l => by simp [NodeHandle.pins, hn]
    rw [hpins] at hL hQ
    cases h.nodeFile with
    | none => trivial
    | some f => exact pin_waitUntilLoaded_any hL hQ
  | some x =>
    have hpins : ∀ l, h.pins l = [⟨x.1, some x.2, l⟩] := fun l => by simp [NodeHandle.pins, hn]
    rw [hpins] at hL hQ
    rw [hs.file x hn]
    exact pin_waitUntilLoaded hL hQ

theorem pin_childNodes {Q : (ChildNr → Option Node) → PinState → Prop}
    {children : ChildNr → NodeHandle} {is : List ChildNr} {nodes : ChildNr → Option Node}
    (hL : Pinned σ L) (hh : ∀ i, (children i).pins true ⊆ L)
    (hQ : ∀ nodes σ', Pinned σ' L → Q nodes σ') :
    PinSpec (NodeHandle.childNodes children is nodes) Q σ := by
  induction is generalizing nodes σ with
  | nil => exact hQ nodes σ hL
  | cons i is ih =>
    refine Prog.wp_bind.2 (pin_isValid hL fun b σ₁ hL₁ _ => ?_)
    refine Prog.wp_ite (fun _ => ?_) fun _ => ?_
    · exact Prog.wp_bind.2 (pin_get hL₁ (hh i) fun n => ih hL₁)
    · exact ih hL₁

theorem pin_copyFromChildNodes {Q : NodeHandle → PinState → Prop}
    {children : ChildNr → NodeHandle} (hL : Pinned σ L) (hp : h.pins l ⊆ L)
    (hh : ∀ i, (children i).pins true ⊆ L)
    (hQ : ∀ σ', Pinned σ' L → Q { h with modified := true } σ') :
    PinSpec (h.copyFromChildNodes children) Q σ :=
  Prog.wp_bind.2 (pin_childNodes hL hh fun _ σ₁ hL₁ =>
    Prog.wp_bind.2 (pin_lift fun _ _ => pin_modify hL₁ hp (hQ σ₁ hL₁)))

/-- A handle gives its pin back, once. -/
theorem pin_releaseNode {Q : NodeHandle → PinState → Prop} (hs : Sound h)
    (hL : Pinned σ (h.pins l ++ L)) (hQ : ∀ σ', Pinned σ' L → Q h.invalidate σ') :
    PinSpec (releaseNode h) Q σ := by
  unfold releaseNode
  cases hn : h.node with
  | none =>
    have hL : Pinned σ L := by simpa [NodeHandle.pins, hn] using hL
    cases h.nodeFile with
    | none => exact hQ σ hL
    | some f => exact hQ σ hL
  | some x =>
    rw [hs.file x hn]
    have hL : Pinned σ (⟨x.1, some x.2, l⟩ :: L) := by simpa [NodeHandle.pins, hn] using hL
    exact Prog.wp_bind.2 (pin_releaseNode_op hL hQ)

/-! ### Rules for node access -/

variable {Q : NodeHandle → PinState → Prop}

/-- The last steps of `getRoot` and `getChildNode`. -/
theorem pin_fetch {f id : LongId} {s : ShortId} {g : NodeGeometry} (hid : id.isValid = true)
    (hL : Pinned σ (⟨f, none, l⟩ :: L))
    (hQ : ∀ h σ', Sound h → Pinned σ' (h.pins l ++ L) → Q h σ') :
    PinSpec (do
      let found : Bool ← perform (.readNode f s)
      let node := if found then some (f, s) else none
      perform (.removeUser f)
      pure (.initialized node id f g)) Q σ := by
  refine Prog.wp_bind.2 (pin_readNode hL List.mem_cons_self ?_ fun σ₁ hL₁ => ?_)
  · exact Prog.wp_bind.2 (pin_removeUser hL fun σ₂ hL₂ =>
      hQ _ σ₂ (Sound.initialized hid none) hL₂)
  · exact Prog.wp_bind.2 (pin_removeUser (hL₁.perm (.swap ..)) fun σ₂ hL₂ =>
      hQ _ σ₂ (Sound.initialized hid (some s)) hL₂)

theorem pin_getRoot (hL : Pinned σ L)
    (hQ : ∀ h σ', Sound h → Pinned σ' (h.pins true ++ L) → Q h σ') :
    PinSpec (getRoot cfg) Q σ :=
  Prog.wp_bind.2 (pin_getNodeFile hL fun _ hL₁ =>
    Prog.wp_bind.2 (pin_waitUntilLoaded hL₁ fun _ hL₂ => pin_fetch rfl hL₂ hQ))

theorem pin_getChildNode {c : ChildNr} (hL : Pinned σ L) (hh : h.pins l ⊆ L)
    (hQ : ∀ h σ', Sound h → Pinned σ' (h.pins false ++ L) → Q h σ') :
    PinSpec (getChildNode cfg h c) Q σ := by
  refine Prog.wp_bind.2 (pin_get hL hh fun n => Prog.wp_bind.2 (pin_ensure
    (Prog.wp_bind.2 (pin_lift fun id hid => Prog.wp_bind.2 (pin_getNodeFile hL fun σ₁ hL₁ => ?_)))))
  exact pin_fetch (isValid_of_getChild hid) hL₁ hQ

theorem pin_openChildFile {Q : Unit → PinState → Prop} {p f : LongId}
    (hL : Pinned σ (⟨p, none, true⟩ :: L))
    (hQ : ∀ σ', Pinned σ' (⟨f, none, true⟩ :: ⟨p, none, true⟩ :: L) → Q () σ') :
    PinSpec (openChildFile p f) Q σ := by
  refine Prog.wp_bind.2 (pin_hasChildFile hL List.mem_cons_self fun b => ?_)
  refine Prog.wp_ite (fun _ => ?_) fun _ => ?_
  · refine Prog.wp_bind.2 (pin_getNodeFile hL fun σ₁ hL₁ => ?_)
    exact pin_waitUntilLoaded hL₁ hQ
  · refine Prog.wp_bind.2 (Prog.wp_bind.2 (pin_createNodeFile hL fun σ₁ hL₁ => ?_))
    refine pin_cacheMaintenance ?_
    exact pin_setChildFile hL₁ (List.mem_cons_of_mem _ List.mem_cons_self) (hQ σ₁ hL₁)

theorem pin_createChildNode {Q : NodeHandle × NodeHandle → PinState → Prop} {c : ChildNr}
    (hL : Pinned σ L) (hh : h.pins l ⊆ L)
    (hQ : ∀ k σ', Sound k → Pinned σ' (k.pins true ++ L) → Q ({ h with modified := true }, k) σ') :
    PinSpec (createChildNode cfg h c) Q σ := by
  refine Prog.wp_bind.2 (pin_get hL hh fun n => Prog.wp_bind.2 (pin_ensure
    (Prog.wp_bind.2 (pin_lift fun id hid => ?_))))
  refine Prog.wp_bind.2 (pin_getNodeFile hL fun σ₁ hL₁ => ?_)
  refine Prog.wp_bind.2 (pin_waitUntilLoaded hL₁ fun σ₂ hL₂ => ?_)
  refine Prog.wp_bind.2 (pin_isLoaded hL₂ fun b σ₃ hL₃ _ => Prog.wp_bind.2 (pin_ensure ?_))
  refine Prog.wp_bind.2 (pin_openChildFile hL₃ fun σ₄ hL₄ => ?_)
  refine Prog.wp_bind.2 (pin_removeUser (hL₄.perm (.swap ..)) fun σ₅ hL₅ => ?_)
  refine Prog.wp_bind.2 (pin_setChild hL₅ (List.Subset.trans hh (List.subset_cons_self ..)) ?_)
  refine Prog.wp_bind.2 (pin_createNode hL₅ List.mem_cons_self fun σ₆ hL₆ => ?_)
  refine Prog.wp_bind.2 (pin_countNode (Prog.wp_bind.2 ?_))
  exact pin_removeUser (hL₆.perm (.swap ..)) fun σ₇ hL₇ =>
    hQ _ σ₇ (Sound.initialized (isValid_of_getChild hid) (some _)) hL₇

/-! ### Rules for the iterator -/

/-- The pins of the child handles of a `ChildIterator`. -/
def kidPins (children : ChildNr → NodeHandle) (is : List ChildNr) : List Pin :=
  is.flatMap fun i => (children i).pins true

theorem kidPins_cons {children : ChildNr → NodeHandle} {i : ChildNr} {is : List ChildNr} :
    kidPins children (i :: is) = (children i).pins true ++ kidPins children is := rfl

theorem pins_subset_kidPins {children : ChildNr → NodeHandle} {is : List ChildNr} {i : ChildNr}
    (hi : i ∈ is) : (children i).pins true ⊆ kidPins children is := fun _ ht =>
  List.mem_flatMap.2 ⟨i, hi, ht⟩

theorem pin_load {Q : (ChildNr → NodeHandle) → PinState → Prop} {f : LongId} {is : List ChildNr}
    {children : ChildNr → NodeHandle} (hnd : is.Nodup) (hL : Pinned σ (⟨f, none, true⟩ :: L))
    (hh : h.pins l ⊆ L) (hnull : ∀ i ∈ is, children i = .null)
    (hQ : ∀ kids σ', (∀ i ∉ is, kids i = children i) → (∀ i ∈ is, Sound (kids i)) →
      Pinned σ' (⟨f, none, true⟩ :: (kidPins kids is ++ L)) → Q kids σ') :
    PinSpec (ChildIterator.load cfg h f is children) Q σ := by
  induction is generalizing children L σ with
  | nil => exact hQ children σ (fun _ _ => rfl) (fun _ hi => (nomatch hi)) hL
  | cons i is ih =>
    obtain ⟨hi, hnd⟩ := List.nodup_cons.1 hnd
    have hne : ∀ j ∈ is, j ≠ i := fun j hj e => hi (e ▸ hj)
    -- the rest of the loop, once the child `i` has the handle `k`
    have rest : ∀ (k : NodeHandle) (σ₁ : PinState), Sound k →
        Pinned σ₁ (⟨f, none, true⟩ :: (k.pins true ++ L)) → ∀ children' : ChildNr → NodeHandle,
        children' = Function.update children i k →
        PinSpec (ChildIterator.load cfg h f is children') Q σ₁ := by
      rintro k σ₁ hk hL₁ _ rfl
      refine ih hnd hL₁ (List.Subset.trans hh (List.subset_append_right ..)) (fun j hj => ?_)
        fun kids σ₂ hout hin hL₂ => ?_
      · rw [Function.update_of_ne (hne j hj)]
        exact hnull j (List.mem_cons_of_mem _ hj)
      · have hki : kids i = k := by rw [hout i hi, Function.update_self]
        refine hQ kids σ₂ (fun j hj => ?_) (fun j hj => ?_) (hL₂.perm (.cons _ ?_))
        · rw [hout j fun hm => hj (List.mem_cons_of_mem _ hm),
            Function.update_of_ne fun e => hj (by rw [e]; exact List.mem_cons_self)]
        · rcases List.mem_cons.1 hj with rfl | hj
          · rw [hki]; exact hk
          · exact hin j hj
        · rw [kidPins_cons, hki, List.append_assoc]
          exact List.perm_append_comm_assoc ..
    refine Prog.wp_bind.2 (pin_get hL (List.Subset.trans hh (List.subset_cons_self ..)) fun n => ?_)
    refine Prog.wp_ite (fun _ => ?_) fun _ => ?_
    · refine Prog.wp_bind.2 (pin_lift fun id hid => Prog.wp_bind.2 (pin_readNode hL
        List.mem_cons_self ?_ fun σ₁ hL₁ => ?_))
      · exact rest _ σ (Sound.initialized (isValid_of_getChild hid) none) hL _ rfl
      · exact rest _ σ₁ (Sound.initialized (isValid_of_getChild hid) (some _))
          (hL₁.perm (.swap ..)) _ rfl
    · refine rest .null σ Sound.null hL children ?_
      rw [← hnull i List.mem_cons_self, Function.update_eq_self]

theorem pin_iterator {Q : (ChildNr → NodeHandle) → PinState → Prop} (hL : Pinned σ L)
    (hh : h.pins l ⊆ L)
    (hQ : ∀ kids σ', (∀ i, Sound (kids i)) → Pinned σ' (kidPins kids (List.finRange 8) ++ L) →
      Q kids σ') : PinSpec (ChildIterator.create cfg h none) Q σ := by
  refine Prog.wp_bind.2 (pin_lift fun id _ => Prog.wp_bind.2 (pin_getNodeFile hL fun σ₁ hL₁ => ?_))
  refine Prog.wp_bind.2 (pin_waitUntilLoaded hL₁ fun σ₂ hL₂ => Prog.wp_bind.2 ?_)
  refine pin_load (List.nodup_finRange 8) hL₂ hh (fun _ _ => rfl) fun kids σ₃ _ hs hL₃ => ?_
  exact Prog.wp_bind.2 (pin_removeUser hL₃ fun σ₄ hL₄ =>
    hQ kids σ₄ (fun i => hs i (List.mem_finRange i)) hL₄)

theorem pin_destroy {Q : Unit → PinState → Prop} {children : ChildNr → NodeHandle}
    {is : List ChildNr} (hs : ∀ i ∈ is, Sound (children i))
    (hL : Pinned σ (kidPins children is ++ L))
    (hQ : ∀ σ', Pinned σ' L → Q () σ') : PinSpec (ChildIterator.destroy children is) Q σ := by
  induction is generalizing σ with
  | nil => exact hQ σ hL
  | cons i is ih =>
    rw [kidPins_cons, List.append_assoc] at hL
    have hrest : ∀ {σ' : PinState}, Pinned σ' (kidPins children is ++ L) →
        PinSpec (ChildIterator.destroy children is) Q σ' :=
      ih fun j hj => hs j (List.mem_cons_of_mem _ hj)
    refine Prog.wp_bind.2 (pin_isValid hL fun b σ₁ hL₁ hvalid => ?_)
    refine Prog.wp_ite (fun _ => ?_) fun hb => ?_
    · exact Prog.wp_bind.2 (pin_releaseNode (hs i List.mem_cons_self) hL₁ fun σ₂ hL₂ => hrest hL₂)
    · -- a handle that is not valid has no node
      cases hn : (children i).node with
      | none =>
        rw [show (children i).pins true = [] by simp [NodeHandle.pins, hn]] at hL₁
        exact hrest hL₁
      | some x =>
        exact absurd (hvalid (hs i List.mem_cons_self) (by rw [hn]; rfl)
          (List.subset_append_left ..)) hb

/-! ### Rules for the insertions -/

theorem pin_splitLeaf (hL : Pinned σ L) (hh : h.pins l ⊆ L)
    (hQ : ∀ b σ', Pinned σ' L → Q { h with modified := b } σ') :
    PinSpec (splitLeaf cfg h) Q σ := by
  refine Prog.wp_bind.2 (pin_get hL hh fun n => Prog.wp_ite (fun _ => ?_) fun _ => ?_)
  · refine Prog.wp_bind.2 (pin_createChildNode hL hh fun k σ₁ hk hL₁ => ?_)
    have hh₁ : h.pins l ⊆ k.pins true ++ L := List.Subset.trans hh (List.subset_append_right ..)
    have hk₁ : k.pins true ⊆ k.pins true ++ L := List.subset_append_left ..
    refine Prog.wp_bind.2 (pin_get hL₁ hh₁ fun n => Prog.wp_bind.2 (pin_get hL₁ hk₁ fun c => ?_))
    refine Prog.wp_bind.2 (pin_lift fun c' _ => Prog.wp_bind.2 (pin_overwrite hL₁ hk₁ ?_))
    exact Prog.wp_bind.2 (pin_releaseNode hk hL₁ fun σ₂ hL₂ => hQ true σ₂ hL₂)
  · exact hQ h.modified σ hL

theorem pin_openChild {Q : NodeHandle × NodeHandle → PinState → Prop} {c : ChildNr}
    (hL : Pinned σ L) (hh : h.pins l ⊆ L) (hQ : ∀ b k σ', Sound k → Pinned σ' (k.pins true ++ L) →
      Q ({ h with modified := b }, k) σ') : PinSpec (openChild cfg h c) Q σ := by
  refine Prog.wp_bind.2 (pin_get hL hh fun n => Prog.wp_ite (fun _ => ?_) fun _ => ?_)
  · refine Prog.wp_bind.2 (pin_getChildNode hL hh fun k σ₁ hk hL₁ => ?_)
    exact Prog.wp_bind.2 (pin_waitUntilLoaded_handle hk hL₁ fun σ₂ hL₂ =>
      hQ h.modified k σ₂ hk hL₂)
  · exact pin_createChildNode hL hh fun k σ₁ hk hL₁ => hQ true k σ₁ hk hL₁

theorem pin_addPointRecursive {pt color : Vec} {acc : ℚ} {fuel : ℕ} (hL : Pinned σ L)
    (hh : h.pins l ⊆ L) (hQ : ∀ b σ', Pinned σ' L → Q { h with modified := b } σ') :
    PinSpec (addPointRecursive cfg pt color acc fuel h) Q σ := by
  induction fuel generalizing h l L σ Q with
  | zero => trivial
  | succ fuel ih =>
    refine Prog.wp_bind.2 (pin_get hL hh fun n => Prog.wp_ite (fun _ => ?_) fun _ => Prog.wp_ite
      (fun _ => ?_) fun _ => ?_)
    · exact pin_setPoint hL hh (hQ true σ hL)
    · exact pin_handle_addPoint hL hh (hQ true σ hL)
    · refine Prog.wp_bind.2 (pin_splitLeaf hL hh fun b₁ σ₁ hL₁ => ?_)
      refine Prog.wp_bind.2 (pin_openChild hL₁ hh fun b₂ k σ₂ hk hL₂ => ?_)
      refine Prog.wp_bind.2 (ih hL₂ (List.subset_append_left ..) fun b₃ σ₃ hL₃ => ?_)
      refine Prog.wp_bind.2 (pin_releaseNode (hk.mark b₃) hL₃ fun σ₄ hL₄ => ?_)
      refine Prog.wp_bind.2 (pin_iterator hL₄ hh fun kids σ₅ hkids hL₅ => ?_)
      refine Prog.wp_bind.2 (pin_copyFromChildNodes hL₅
        (List.Subset.trans hh (List.subset_append_right ..)) (fun i => List.Subset.trans
          (pins_subset_kidPins (List.mem_finRange i)) (List.subset_append_left ..))
        fun σ₆ hL₆ => ?_)
      exact Prog.wp_bind.2 (pin_destroy (fun i _ => hkids i) hL₆ fun σ₇ hL₇ => hQ true σ₇ hL₇)

theorem pin_addPoint {Q : Unit → PinState → Prop} {pt col : Vec} (hL : Pinned σ L)
    (hQ : ∀ σ', Pinned σ' L → Q () σ') : PinSpec (addPoint cfg pt col) Q σ := by
  refine Prog.wp_ite (fun _ => ?_) fun _ => hQ σ hL
  refine Prog.wp_bind.2 (pin_getRoot hL fun r σ₁ hr hL₁ => ?_)
  refine Prog.wp_bind.2 (pin_addPointRecursive hL₁ (List.subset_append_left ..) fun b σ₂ hL₂ => ?_)
  exact Prog.wp_bind.2 (pin_releaseNode (hr.mark b) hL₂ hQ)

/-! ### Rules for the fast insertion -/

/-- The pins of the open nodes of a `TreeFastCache`. -/
def stackPins (nodes : List NodeCache) : List Pin := nodes.flatMap fun nc => nc.nh.pins true

variable {R : List NodeCache → PinState → Prop} {nodes : List NodeCache}

theorem stackPins_cons {nc : NodeCache} :
    stackPins (nc :: nodes) = nc.nh.pins true ++ stackPins nodes := rfl

theorem pin_cacheNode {Q : NodeCache → PinState → Prop} (hL : Pinned σ L) (hh : h.pins l ⊆ L)
    (hQ : ∀ nc : NodeCache, nc.nh = h → Q nc σ) : PinSpec (NodeCache.create h) Q σ :=
  Prog.wp_bind.2 (pin_get hL hh fun _ => hQ _ rfl)

theorem pin_openCache (hL : Pinned σ L) (hQ : ∀ nodes σ', (∀ nc ∈ nodes, Sound nc.nh) →
    Pinned σ' (stackPins nodes ++ L) → R nodes σ') : PinSpec (FastCache.create cfg) R σ := by
  refine Prog.wp_bind.2 (pin_getRoot hL fun r σ₁ hr hL₁ => ?_)
  refine Prog.wp_bind.2 (pin_cacheNode hL₁ (List.subset_append_left ..) ?_)
  rintro nc rfl
  refine hQ [nc] σ₁ (fun k hk => ?_) (by simpa [stackPins] using hL₁)
  rw [List.mem_singleton.1 hk]
  exact hr

theorem pin_pop {Q : Unit → PinState → Prop} {nc : NodeCache} (hs : Sound nc.nh)
    (hL : Pinned σ (stackPins (nc :: nodes) ++ L))
    (hQ : ∀ σ', Pinned σ' (stackPins nodes ++ L) → Q () σ') :
    PinSpec (FastCache.pop nc nodes) Q σ := by
  have hrelease : PinSpec nc.release Q σ := by
    rw [stackPins_cons, List.append_assoc] at hL
    exact Prog.wp_bind.2 (pin_releaseNode hs hL hQ)
  cases nodes with
  | nil => exact hrelease
  | cons parent nodes =>
    have hc : nc.nh.pins true ⊆ stackPins (nc :: parent :: nodes) ++ L := by
      rw [stackPins_cons, List.append_assoc]
      exact List.subset_append_left ..
    have hp : parent.nh.pins true ⊆ stackPins (nc :: parent :: nodes) ++ L := by
      rw [stackPins_cons, stackPins_cons, List.append_assoc, List.append_assoc]
      exact List.Subset.trans (List.subset_append_left ..) (List.subset_append_right ..)
    refine Prog.wp_bind.2 (Prog.wp_bind.2 (pin_get hL hc fun c => Prog.wp_bind.2
      (pin_get hL hp fun n => Prog.wp_bind.2 (pin_lift fun n' _ => pin_overwrite hL hp ?_))))
    exact hrelease

theorem pin_closeCache {Q : Unit → PinState → Prop} (hs : ∀ nc ∈ nodes, Sound nc.nh)
    (hL : Pinned σ (stackPins nodes ++ L)) (hQ : ∀ σ', Pinned σ' L → Q () σ') :
    PinSpec (FastCache.destroy nodes) Q σ := by
  induction nodes generalizing σ with
  | nil => exact hQ σ hL
  | cons nc nodes ih =>
    exact Prog.wp_bind.2 (pin_pop (hs nc List.mem_cons_self) hL fun σ₁ hL₁ =>
      ih (fun k hk => hs k (List.mem_cons_of_mem _ hk)) hL₁)

theorem pin_popOutside {pt : Vec} (hs : ∀ nc ∈ nodes, Sound nc.nh)
    (hL : Pinned σ (stackPins nodes ++ L)) (hQ : ∀ nodes σ', (∀ nc ∈ nodes, Sound nc.nh) →
      Pinned σ' (stackPins nodes ++ L) → R nodes σ') :
    PinSpec (FastCache.popOutside pt nodes) R σ := by
  induction nodes generalizing σ with
  | nil => trivial
  | cons nc nodes ih =>
    refine Prog.wp_ite (fun _ => hQ _ σ hs hL) fun _ => ?_
    exact Prog.wp_bind.2 (pin_pop (hs nc List.mem_cons_self) hL fun σ₁ hL₁ =>
      ih (fun k hk => hs k (List.mem_cons_of_mem _ hk)) hL₁)

theorem pin_fastRecursive {pt color : Vec} {acc : ℚ} {fuel : ℕ} (hs : ∀ nc ∈ nodes, Sound nc.nh)
    (hL : Pinned σ (stackPins nodes ++ L)) (hQ : ∀ nodes σ', (∀ nc ∈ nodes, Sound nc.nh) →
      Pinned σ' (stackPins nodes ++ L) → R nodes σ') :
    PinSpec (FastCache.addPointRecursive cfg pt color acc fuel nodes) R σ := by
  induction fuel generalizing nodes σ with
  | zero => trivial
  | succ fuel ih =>
    cases nodes with
    | nil => trivial
    | cons nc nodes =>
      have hnc := hs nc List.mem_cons_self
      have hh : nc.nh.pins true ⊆ stackPins (nc :: nodes) ++ L := by
        rw [stackPins_cons, List.append_assoc]
        exact List.subset_append_left ..
      -- the handle on the top is only marked as modified
      have hmark : ∀ b k, k ∈ ({ nc with nh := { nc.nh with modified := b } } : NodeCache) :: nodes →
          Sound k.nh := by
        intro b k hk
        rcases List.mem_cons.1 hk with rfl | hk
        · exact hnc.mark b
        · exact hs k (List.mem_cons_of_mem _ hk)
      refine Prog.wp_bind.2 (pin_get hL hh fun n => Prog.wp_ite (fun _ => ?_) fun _ => Prog.wp_ite
        (fun _ => ?_) fun _ => ?_)
      · exact Prog.wp_bind.2 (pin_setPoint hL hh (hQ _ σ (hmark true) hL))
      · exact Prog.wp_bind.2 (pin_handle_addPoint hL hh (hQ _ σ (hmark true) hL))
      · refine Prog.wp_bind.2 (pin_splitLeaf hL hh fun b₁ σ₁ hL₁ => ?_)
        refine Prog.wp_bind.2 (pin_openChild hL₁ hh fun b₂ k σ₂ hk hL₂ => ?_)
        refine Prog.wp_bind.2 (pin_cacheNode hL₂ (List.subset_append_left ..) ?_)
        rintro new rfl
        refine ih (fun j hj => ?_) (by rw [stackPins_cons, List.append_assoc]; exact hL₂)
        rcases List.mem_cons.1 hj with rfl | hj
        · exact hk
        · exact hmark b₂ j hj

theorem pin_fastAddPoint {pt color : Vec} (hs : ∀ nc ∈ nodes, Sound nc.nh)
    (hL : Pinned σ (stackPins nodes ++ L)) (hQ : ∀ nodes σ', (∀ nc ∈ nodes, Sound nc.nh) →
      Pinned σ' (stackPins nodes ++ L) → R nodes σ') :
    PinSpec (FastCache.addPoint cfg pt color nodes) R σ :=
  Prog.wp_bind.2 (pin_popOutside hs hL fun _ _ hs₁ hL₁ => pin_fastRecursive hs₁ hL₁ hQ)

theorem pin_clearCache (hs : ∀ nc ∈ nodes, Sound nc.nh) (hL : Pinned σ (stackPins nodes ++ L))
    (hQ : ∀ nodes σ', (∀ nc ∈ nodes, Sound nc.nh) → Pinned σ' (stackPins nodes ++ L) → R nodes σ') :
    PinSpec (FastCache.clear cfg nodes) R σ :=
  Prog.wp_bind.2 (pin_closeCache hs hL fun _ hL₁ => pin_openCache hL₁ hQ)

/-! ### Rules for the queries -/

section Queries

variable {mid size : Vec} {res : ℚ} {out : QueryResult} {U : QueryResult → PinState → Prop}

theorem pin_intersecting (hL : Pinned σ L) (hh : h.pins l ⊆ L) (hQ : ∀ out, U out σ) :
    PinSpec (queryRangeIntersecting h mid size out) U σ := by
  refine Prog.wp_bind.2 (pin_get hL hh fun n => Prog.wp_bind.2 (pin_ensure ?_))
  exact Prog.wp_ite (fun _ => hQ _) fun _ => hQ _

theorem pin_forChildren {children : ChildNr → NodeHandle} {is : List ChildNr}
    {body : NodeHandle → QueryResult → TreeM QueryResult}
    (hbody : ∀ i out σ', Pinned σ' L → PinSpec (body (children i) out) (fun _ σ => Pinned σ L) σ')
    (hL : Pinned σ L) (hQ : ∀ out σ', Pinned σ' L → U out σ') :
    PinSpec (forChildren children body is out) U σ := by
  induction is generalizing out σ with
  | nil => exact hQ out σ hL
  | cons i is ih =>
    refine Prog.wp_bind.2 (pin_isValid hL fun b σ₁ hL₁ _ => Prog.wp_ite (fun _ => ?_)
      fun _ => ih hL₁)
    exact Prog.wp_bind.2 (Prog.wp_mono (hbody i out σ₁ hL₁) (fun out' σ₂ hL₂ => ih hL₂) fun _ => id)

/-- The recursion over the children of a node. -/
theorem pin_children {body : NodeHandle → QueryResult → TreeM QueryResult}
    (hbody : ∀ k out L' σ', k.pins true ⊆ L' → Pinned σ' L' →
      PinSpec (body k out) (fun _ σ => Pinned σ L') σ')
    (hL : Pinned σ L) (hh : h.pins l ⊆ L) (hQ : ∀ out σ', Pinned σ' L → U out σ') :
    PinSpec (do
      let children ← ChildIterator.create cfg h none
      let out ← forChildren children body (List.finRange 8) out
      ChildIterator.destroy children (List.finRange 8)
      pure out) U σ := by
  refine Prog.wp_bind.2 (pin_iterator hL hh fun kids σ₁ hkids hL₁ => ?_)
  refine Prog.wp_bind.2 (pin_forChildren (fun i out' σ₂ hL₂ => hbody _ out' _ σ₂
    (List.Subset.trans (pins_subset_kidPins (List.mem_finRange i)) (List.subset_append_left ..)) hL₂)
    hL₁ fun out' σ₃ hL₃ => ?_)
  exact Prog.wp_bind.2 (pin_destroy (fun i _ => hkids i) hL₃ fun σ₄ hL₄ => hQ out' σ₄ hL₄)

theorem pin_getAllPoints {fuel : ℕ} (hL : Pinned σ L) (hh : h.pins l ⊆ L)
    (hQ : ∀ out σ', Pinned σ' L → U out σ') :
    PinSpec (getAllPointsRecursive cfg res fuel h out) U σ := by
  induction fuel generalizing h l L σ out U with
  | zero => trivial
  | succ fuel ih =>
    refine Prog.wp_bind.2 (pin_get hL hh fun n => Prog.wp_bind.2 (pin_ensure (Prog.wp_ite
      (fun _ => hQ _ σ hL) fun _ => ?_)))
    exact pin_children (fun k out' L' σ' hk hL' => ih hL' hk fun _ _ => id) hL hh hQ

theorem pin_queryRecursive {fuel : ℕ} (hL : Pinned σ L) (hh : h.pins l ⊆ L)
    (hQ : ∀ out σ', Pinned σ' L → U out σ') :
    PinSpec (queryRangeRecursive cfg mid size res fuel h out) U σ := by
  induction fuel generalizing h l L σ out U with
  | zero => trivial
  | succ fuel ih =>
    refine Prog.wp_ite (fun _ => hQ out σ hL) fun _ => Prog.wp_ite
      (fun _ => pin_getAllPoints hL hh hQ) fun _ => ?_
    refine Prog.wp_bind.2 (pin_get hL hh fun n => Prog.wp_ite
      (fun _ => pin_intersecting hL hh fun out' => hQ out' σ hL) fun _ => ?_)
    exact pin_children (fun k out' L' σ' hk hL' => ih hL' hk fun _ _ => id) hL hh hQ

theorem pin_queryRange {lo hi : Vec} (hL : Pinned σ L) (hQ : ∀ out σ', Pinned σ' L → U out σ') :
    PinSpec (queryRange cfg lo hi res) U σ := by
  refine Prog.wp_bind.2 (pin_getRoot hL fun r σ₁ hr hL₁ => ?_)
  refine Prog.wp_bind.2 (pin_queryRecursive hL₁ (List.subset_append_left ..) fun out σ₂ hL₂ => ?_)
  exact Prog.wp_bind.2 (pin_releaseNode hr hL₂ fun σ₃ hL₃ => hQ out σ₃ hL₃)

/-- The pins of the nodes on the work list of `rangeQueryLoop`. -/
def queuePins (queue : List NodeHandle) : List Pin := queue.flatMap fun k => k.pins false

variable {W : AsyncResult → PinState → Prop} {aout : AsyncResult}

theorem queuePins_append (q r : List NodeHandle) :
    queuePins (q ++ r) = queuePins q ++ queuePins r :=
  List.flatMap_append

/-- The asynchronous recursion only adds handles to the work list. -/
abbrev Parks (L : List Pin) (q : List NodeHandle) (σ : PinState) : Prop :=
  (∀ k ∈ q, Sound k) ∧ Pinned σ (queuePins q ++ L)

theorem Parks.subset {q : List NodeHandle} (hh : h.pins l ⊆ L) : h.pins l ⊆ queuePins q ++ L :=
  List.Subset.trans hh (List.subset_append_right ..)

theorem pin_forChildrenAsync {is : List ChildNr}
    {body : NodeHandle → AsyncResult → TreeM AsyncResult}
    (hbody : ∀ k out σ' L', k.pins false ⊆ L' → Parks L' out.2 σ' →
      PinSpec (body k out) (fun out' σ => Parks L' out'.2 σ) σ')
    (hh : h.pins l ⊆ L) (hL : Parks L aout.2 σ) (hQ : ∀ out σ', Parks L out.2 σ' → W out σ') :
    PinSpec (forChildrenAsync cfg h body is aout) W σ := by
  induction is generalizing aout σ with
  | nil => exact hQ aout σ hL
  | cons i is ih =>
    refine Prog.wp_bind.2 (pin_get hL.2 (Parks.subset hh) fun n => Prog.wp_ite (fun _ => ?_)
      fun _ => ih hL)
    refine Prog.wp_bind.2 (pin_getChildNode hL.2 (Parks.subset hh) fun k σ₁ hk hL₁ => ?_)
    refine Prog.wp_bind.2 (pin_isValid hL₁ fun b σ₂ hL₂ _ => Prog.wp_ite (fun _ => ?_) fun _ => ?_)
    · -- the child waits for its file
      refine ih ⟨fun j hj => ?_, hL₂.perm ?_⟩
      · rcases List.mem_append.1 hj with hj | hj
        · exact hL.1 j hj
        · rw [List.mem_singleton.1 hj]; exact hk
      · rw [queuePins_append, List.append_assoc]
        simpa [queuePins] using List.perm_append_comm_assoc ..
    · have hparks : Parks (k.pins false ++ L) aout.2 σ₂ :=
        ⟨hL.1, hL₂.perm (List.perm_append_comm_assoc ..)⟩
      refine Prog.wp_bind.2 (Prog.wp_mono (hbody k aout σ₂ _ (List.subset_append_left ..) hparks)
        (fun out' σ₃ hL₃ => ?_) fun _ => id)
      refine Prog.wp_bind.2 (pin_releaseNode hk (hL₃.2.perm (List.perm_append_comm_assoc ..))
        fun σ₄ hL₄ => ?_)
      exact ih ⟨hL₃.1, hL₄⟩

theorem pin_getAllPointsAsync {fuel : ℕ} (hh : h.pins l ⊆ L) (hL : Parks L aout.2 σ)
    (hQ : ∀ out σ', Parks L out.2 σ' → W out σ') :
    PinSpec (getAllPointsRecursiveAsync cfg res fuel h aout) W σ := by
  induction fuel generalizing h l L σ aout W with
  | zero => trivial
  | succ fuel ih =>
    refine Prog.wp_bind.2 (pin_get hL.2 (Parks.subset hh) fun n => Prog.wp_bind.2 (pin_ensure
      (Prog.wp_ite (fun _ => hQ _ σ hL) fun _ => ?_)))
    exact pin_forChildrenAsync (fun k out' σ' L' hk hL' => ih hk hL' fun _ _ => id) hh hL hQ

theorem pin_queryAsync {fuel : ℕ} (hh : h.pins l ⊆ L) (hL : Parks L aout.2 σ)
    (hQ : ∀ out σ', Parks L out.2 σ' → W out σ') :
    PinSpec (queryRangeRecursiveAsync cfg mid size res fuel h aout) W σ := by
  induction fuel generalizing h l L σ aout W with
  | zero => trivial
  | succ fuel ih =>
    refine Prog.wp_ite (fun _ => hQ aout σ hL) fun _ => Prog.wp_ite
      (fun _ => pin_getAllPointsAsync hh hL hQ) fun _ => ?_
    refine Prog.wp_bind.2 (pin_get hL.2 (Parks.subset hh) fun n => Prog.wp_ite (fun _ => ?_)
      fun _ => ?_)
    · exact Prog.wp_bind.2 (pin_intersecting hL.2 (Parks.subset hh) fun out' => hQ _ σ hL)
    · exact pin_forChildrenAsync (fun k out' σ' L' hk hL' => ih hk hL' fun _ _ => id) hh hL hQ

theorem pin_processQueue {rounds : ℕ} {queue : List NodeHandle} (hL : Parks L queue σ)
    (hQ : ∀ out σ', Parks L out.2 σ' → W out σ') :
    PinSpec (processQueue cfg mid size res rounds out queue) W σ := by
  induction rounds generalizing queue out σ with
  | zero => exact hQ (out, queue) σ hL
  | succ rounds ih =>
    cases queue with
    | nil => exact hQ (out, []) σ hL
    | cons k queue =>
      obtain ⟨hs, hL⟩ := hL
      have hL : Pinned σ (k.pins false ++ (queuePins queue ++ L)) := by
        rw [← List.append_assoc]; exact hL
      have hk := hs k List.mem_cons_self
      have hq : ∀ j ∈ queue, Sound j := fun j hj => hs j (List.mem_cons_of_mem _ hj)
      refine Prog.wp_bind.2 (pin_isValid hL fun b σ₁ hL₁ _ => Prog.wp_ite (fun _ => ?_) fun _ => ?_)
      · refine ih ⟨fun j hj => ?_, hL₁.perm ?_⟩
        · rcases List.mem_append.1 hj with hj | hj
          · exact hq j hj
          · rw [List.mem_singleton.1 hj]; exact hk
        · rw [queuePins_append, List.append_assoc]
          simpa [queuePins] using List.perm_append_comm_assoc ..
      · have hparks : Parks (k.pins false ++ (queuePins queue ++ L)) [] σ₁ :=
          ⟨fun j hj => (nomatch hj), hL₁⟩
        refine Prog.wp_bind.2 (pin_queryAsync (List.subset_append_left ..) hparks
          fun out' σ₂ hL₂ => ?_)
        refine Prog.wp_bind.2 (pin_releaseNode hk (hL₂.2.perm (List.perm_append_comm_assoc ..))
          fun σ₃ hL₃ => ?_)
        refine ih ⟨fun j hj => ?_, hL₃.perm ?_⟩
        · exact (List.mem_append.1 hj).elim (hq j) (hL₂.1 j)
        · rw [queuePins_append, List.append_assoc]
          exact List.perm_append_comm_assoc ..

theorem pin_rangeQueryLoop {lo hi : Vec} {rounds : ℕ} (hL : Pinned σ L)
    (hQ : ∀ out σ', Parks L out.2 σ' → W out σ') :
    PinSpec (rangeQueryLoop cfg lo hi res rounds) W σ := by
  refine Prog.wp_bind.2 (pin_getRoot hL fun r σ₁ hr hL₁ => ?_)
  refine Prog.wp_bind.2 (pin_isValid hL₁ fun b σ₂ hL₂ _ => Prog.wp_bind.2 (pin_ensure ?_))
  refine pin_processQueue ⟨fun k hk => ?_, ?_⟩ hQ
  · rw [List.mem_singleton.1 hk]; exact hr
  · have := hL₂.forget
    cases hn : r.node <;> simpa [queuePins, NodeHandle.pins, hn] using this

end Queries

theorem pin_flushFiles {Q : Unit → PinState → Prop} {fs : List LongId} (hQ : Q () σ) :
    PinSpec (flushFiles fs) Q σ := by
  induction fs with
  | nil => exact hQ
  | cons f fs ih => exact Prog.wp_bind.2 fun _ => ⟨(), σ, rfl, ih⟩

theorem pin_flushCache {Q : Unit → PinState → Prop} (hQ : Q () σ) : PinSpec flushCache Q σ :=
  Prog.wp_bind.2 fun c => ⟨c.listing, σ, rfl, Prog.wp_bind.2 (pin_flushFiles fun _ =>
    ⟨(), σ, rfl, hQ⟩)⟩

end Handles

end MegaTree
