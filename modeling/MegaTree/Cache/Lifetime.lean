import MegaTree.Cache.Pinned

/-!
# Live handles keep their files

A session of a client, with all its handles, `ChildIterator`s and `TreeFastCache`s, pins exactly the
files of its handles (`pin_session`).

`pinned_files_stay` : in every run of a session, with evictions and callbacks in any order, the use
count of a file is the number of live handles between two calls, it never drops below zero, and no
step takes away a file that has users.
-/

namespace MegaTree

open Effect

/-! ### Sessions -/

/-- The pins of all handles of a client. -/
def Client.pins (s : Client) : List Pin :=
  queuePins s.handles ++ (s.iterators.flatMap (fun kids => kidPins kids (List.finRange 8)) ++
    (s.caches.flatMap stackPins ++ queuePins s.waiting))

/-- All handles of a client are sound. -/
structure SoundClient (s : Client) : Prop where
  handles : ∀ h ∈ s.handles, Sound h
  iterators : ∀ kids ∈ s.iterators, ∀ i, Sound (kids i)
  caches : ∀ nodes ∈ s.caches, ∀ nc ∈ nodes, Sound nc.nh
  waiting : ∀ h ∈ s.waiting, Sound h

variable {cfg : Config} {σ : PinState} {L : List Pin} {s : Client} {h : NodeHandle} {l : Bool}

theorem pins_forget : (h.pins l).map (fun t => ⟨t.file, t.node, false⟩) = h.pins false := by
  unfold NodeHandle.pins
  cases h.node <;> rfl

theorem flatMap_concat_perm {α : Type} (f : α → List Pin) (xs : List α) (a : α) (rest : List Pin) :
    (f a ++ (xs.flatMap f ++ rest)).Perm ((xs ++ [a]).flatMap f ++ rest) := by
  rw [List.flatMap_append, List.append_assoc, List.flatMap_singleton]
  exact List.perm_append_comm_assoc ..

/-- The pins of the handles, the iterators and the caches, each before the others. -/
theorem Client.pins_perm_iterators (s : Client) :
    s.pins.Perm (s.iterators.flatMap (fun kids => kidPins kids (List.finRange 8)) ++
      (queuePins s.handles ++ (s.caches.flatMap stackPins ++ queuePins s.waiting))) :=
  List.perm_append_comm_assoc ..

theorem Client.pins_perm_caches (s : Client) :
    s.pins.Perm (s.caches.flatMap stackPins ++ (queuePins s.handles ++
      (s.iterators.flatMap (fun kids => kidPins kids (List.finRange 8)) ++ queuePins s.waiting))) :=
  ((List.perm_append_comm_assoc ..).append_left _).trans (List.perm_append_comm_assoc ..)

/-- The client gets one more handle. -/
theorem Pinned.addHandle (hL : Pinned σ (h.pins l ++ s.pins)) :
    Pinned σ ({ s with handles := s.handles ++ [h] } : Client).pins := by
  have := hL.forget
  rw [pins_forget] at this
  exact this.perm (flatMap_concat_perm (NodeHandle.pins · false) _ _ _)

/-- The pins of one object of the client, and what is left when the object is replaced. -/
theorem Pinned.take {α : Type} {xs : List α} {k : ℕ} {a : α} {f : α → List Pin} {rest : List Pin}
    (hL : Pinned σ (xs.flatMap f ++ rest)) (hk : xs[k]? = some a) :
    Pinned σ (f a ++ ((xs.eraseIdx k).flatMap f ++ rest)) := by
  have := hL.perm ((flatMap_perm_eraseIdx hk).append_right rest)
  rwa [List.append_assoc] at this

theorem Pinned.put {α : Type} {xs : List α} {k : ℕ} {a b : α} {f : α → List Pin}
    {rest : List Pin} (hk : xs[k]? = some a)
    (hL : Pinned σ (f b ++ ((xs.eraseIdx k).flatMap f ++ rest))) :
    Pinned σ ((xs.set k b).flatMap f ++ rest) := by
  rw [← List.append_assoc] at hL
  exact hL.perm ((flatMap_set_perm hk).symm.append_right rest)

/-- A call gives the client new handles and takes back what was released. -/
theorem pin_call {c : Call} (hs : SoundClient s) (hL : Pinned σ s.pins) :
    PinSpec (c.run cfg s) (fun s' σ' => SoundClient s' ∧ Pinned σ' s'.pins) σ := by
  have hself : SoundClient s ∧ Pinned σ s.pins := ⟨hs, hL⟩
  have hhandle : ∀ {k : ℕ} {a : NodeHandle}, s.handles[k]? = some a → a.pins false ⊆ s.pins :=
    fun hk => List.Subset.trans (subset_flatMap (f := fun a => a.pins false) hk)
      (List.subset_append_left ..)
  have hsound : ∀ {k : ℕ} {a : NodeHandle}, s.handles[k]? = some a → Sound a :=
    fun hk => hs.handles _ (List.mem_of_getElem? hk)
  have hput : ∀ {k : ℕ} {nodes nodes' : List NodeCache} {σ' : PinState},
      s.caches[k]? = some nodes → (∀ nc ∈ nodes', Sound nc.nh) →
      Pinned σ' (stackPins nodes' ++ ((s.caches.eraseIdx k).flatMap stackPins ++
        (queuePins s.handles ++ (s.iterators.flatMap (fun kids => kidPins kids (List.finRange 8)) ++
          queuePins s.waiting)))) →
      SoundClient { s with caches := s.caches.set k nodes' } ∧
        Pinned σ' ({ s with caches := s.caches.set k nodes' } : Client).pins := by
    intro k nodes nodes' σ' hk hs' hL'
    exact ⟨{ hs with caches := forall_mem_set hs.caches hs' }, (Pinned.put hk hL').perm
      (Client.pins_perm_caches { s with caches := s.caches.set k nodes' }).symm⟩
  cases c with
  | getRoot =>
    exact Prog.wp_bind.2 (pin_getRoot hL fun h σ₁ hh hL₁ =>
      ⟨{ hs with handles := forall_mem_concat hs.handles hh }, hL₁.addHandle⟩)
  | getChildNode k child =>
    simp only [Call.run]
    cases hk : s.handles[k]? with
    | none => exact hself
    | some parent =>
      exact Prog.wp_bind.2 (pin_getChildNode hL (hhandle hk) fun h σ₁ hh hL₁ =>
        ⟨{ hs with handles := forall_mem_concat hs.handles hh }, hL₁.addHandle⟩)
  | createChildNode k child =>
    simp only [Call.run]
    cases hk : s.handles[k]? with
    | none => exact hself
    | some parent =>
      refine Prog.wp_bind.2 (pin_createChildNode hL (hhandle hk) fun h σ₁ hh hL₁ => ?_)
      refine ⟨{ hs with handles :=
        forall_mem_concat (forall_mem_set hs.handles ((hsound hk).mark true)) hh },
        Pinned.addHandle (s := { s with handles := s.handles.set k { parent with modified := true } })
          (hL₁.perm (.append_left _ (.append_right _ ?_)))⟩
      exact (flatMap_perm_eraseIdx (f := (NodeHandle.pins · false)) hk).trans
        (flatMap_set_perm (f := (NodeHandle.pins · false)) (b := { parent with modified := true })
          hk).symm
  | waitUntilLoaded k =>
    simp only [Call.run]
    cases hk : s.handles[k]? with
    | none => exact hself
    | some a =>
      refine Prog.wp_bind.2 (pin_waitUntilLoaded_handle (hsound hk)
        (Pinned.take (f := (NodeHandle.pins · false)) hL hk) fun σ₁ hL₁ => ⟨hs, ?_⟩)
      have hL₁ := hL₁.forget
      rw [pins_forget, ← List.append_assoc] at hL₁
      exact hL₁.perm
        ((flatMap_perm_eraseIdx (f := (NodeHandle.pins · false)) hk).symm.append_right _)
  | releaseNode k =>
    simp only [Call.run]
    cases hk : s.handles[k]? with
    | none => exact hself
    | some a =>
      exact Prog.wp_bind.2 (pin_releaseNode (hsound hk)
        (Pinned.take (f := (NodeHandle.pins · false)) hL hk) fun σ₁ hL₁ =>
          ⟨{ hs with handles := forall_mem_set hs.handles Sound.invalidate },
            Pinned.put (f := (NodeHandle.pins · false)) (b := a.invalidate) hk hL₁⟩)
  | openIterator k =>
    simp only [Call.run]
    cases hk : s.handles[k]? with
    | none => exact hself
    | some parent =>
      refine Prog.wp_bind.2 (pin_iterator hL (hhandle hk) fun kids σ₁ hkids hL₁ => ?_)
      refine ⟨{ hs with iterators := forall_mem_concat hs.iterators hkids }, ?_⟩
      refine (hL₁.perm (.append_left _ s.pins_perm_iterators)).perm (List.Perm.trans ?_
        (Client.pins_perm_iterators { s with iterators := s.iterators ++ [kids] }).symm)
      exact flatMap_concat_perm (fun kids => kidPins kids (List.finRange 8)) _ _ _
  | closeIterator k =>
    simp only [Call.run]
    cases hk : s.iterators[k]? with
    | none => exact hself
    | some kids =>
      refine Prog.wp_bind.2 (pin_destroy (fun i _ => hs.iterators kids (List.mem_of_getElem? hk) i)
        (Pinned.take (f := fun kids => kidPins kids (List.finRange 8))
          (hL.perm s.pins_perm_iterators) hk) fun σ₁ hL₁ => ?_)
      exact ⟨{ hs with iterators := fun x hx => hs.iterators x (List.mem_of_mem_eraseIdx hx) },
        hL₁.perm (Client.pins_perm_iterators { s with iterators := s.iterators.eraseIdx k }).symm⟩
  | addPoint pt col =>
    exact Prog.wp_bind.2 (pin_addPoint hL fun σ₁ hL₁ => ⟨hs, hL₁⟩)
  | openCache =>
    refine Prog.wp_bind.2 (pin_openCache hL fun nodes σ₁ hnodes hL₁ => ?_)
    refine ⟨{ hs with caches := forall_mem_concat hs.caches hnodes }, ?_⟩
    refine (hL₁.perm (.append_left _ s.pins_perm_caches)).perm (List.Perm.trans ?_
      (Client.pins_perm_caches { s with caches := s.caches ++ [nodes] }).symm)
    exact flatMap_concat_perm stackPins _ _ _
  | fastAddPoint k pt col =>
    simp only [Call.run]
    cases hk : s.caches[k]? with
    | none => exact hself
    | some nodes =>
      exact Prog.wp_bind.2 (pin_fastAddPoint (hs.caches nodes (List.mem_of_getElem? hk))
        (Pinned.take (hL.perm s.pins_perm_caches) hk) fun nodes' σ₁ hs₁ hL₁ => hput hk hs₁ hL₁)
  | clearCache k =>
    simp only [Call.run]
    cases hk : s.caches[k]? with
    | none => exact hself
    | some nodes =>
      exact Prog.wp_bind.2 (pin_clearCache (hs.caches nodes (List.mem_of_getElem? hk))
        (Pinned.take (hL.perm s.pins_perm_caches) hk) fun nodes' σ₁ hs₁ hL₁ => hput hk hs₁ hL₁)
  | closeCache k =>
    simp only [Call.run]
    cases hk : s.caches[k]? with
    | none => exact hself
    | some nodes =>
      refine Prog.wp_bind.2 (pin_closeCache (hs.caches nodes (List.mem_of_getElem? hk))
        (Pinned.take (hL.perm s.pins_perm_caches) hk) fun σ₁ hL₁ => ?_)
      exact ⟨{ hs with caches := fun x hx => hs.caches x (List.mem_of_mem_eraseIdx hx) },
        hL₁.perm (Client.pins_perm_caches { s with caches := s.caches.eraseIdx k }).symm⟩
  | queryRange lo hi resolution =>
    exact Prog.wp_bind.2 (pin_queryRange hL fun _ σ₁ hL₁ => ⟨hs, hL₁⟩)
  | rangeQueryLoop lo hi resolution rounds =>
    refine Prog.wp_bind.2 (pin_rangeQueryLoop hL fun out σ₁ hL₁ => ?_)
    refine ⟨{ hs with waiting := fun h hh => (List.mem_append.1 hh).elim (hs.waiting h) (hL₁.1 h) },
      hL₁.2.perm (List.perm_append_comm.trans ?_)⟩
    simp only [Client.pins, queuePins_append, List.append_assoc, List.Perm.refl]
  | flushCache => exact Prog.wp_bind.2 (pin_flushCache hself)

theorem pin_session {calls : List Call} (hs : SoundClient s) (hL : Pinned σ s.pins) :
    PinSpec (session cfg calls s) (fun s' σ' => SoundClient s' ∧ Pinned σ' s'.pins) σ := by
  induction calls generalizing s σ with
  | nil => exact ⟨hs, hL⟩
  | cons c cs ih =>
    exact Prog.wp_bind.2 (Prog.wp_mono (pin_call hs hL) (fun s' σ' h => ih h.1 h.2) fun _ => id)

theorem pin_newTree {Q : Unit → PinState → Prop} (hL : Pinned σ L)
    (hQ : ∀ σ', Pinned σ' L → Q () σ') : PinSpec (newTree cfg) Q σ := by
  refine Prog.wp_bind.2 (Prog.wp_bind.2 (Prog.wp_bind.2 (pin_createNodeFile hL fun σ₁ hL₁ => ?_)))
  refine pin_cacheMaintenance ?_
  refine Prog.wp_bind.2 (pin_createNode hL₁ List.mem_cons_self fun σ₂ hL₂ => ?_)
  refine Prog.wp_bind.2 (pin_countNode (Prog.wp_bind.2 ?_))
  refine pin_removeUser (hL₂.perm (.swap ..)) fun σ₃ hL₃ => ?_
  exact Prog.wp_bind.2 (pin_releaseNode (Sound.initialized rfl (some _)) hL₃ hQ)

theorem pin_life {create : Bool} {calls : List Call} : PinSpec (life cfg create calls)
    (fun s' σ' => SoundClient s' ∧ Pinned σ' s'.pins) .init := by
  have hinit : SoundClient .init := ⟨fun _ h => (nomatch h), fun _ h => (nomatch h),
    fun _ h => (nomatch h), fun _ h => (nomatch h)⟩
  have hsession : ∀ σ', Pinned σ' [] → PinSpec (session cfg calls .init)
      (fun s' σ' => SoundClient s' ∧ Pinned σ' s'.pins) σ' := fun σ' hL => pin_session hinit hL
  refine Prog.wp_bind.2 (Prog.wp_ite (fun _ => ?_) fun _ => hsession .init Pinned.init)
  exact pin_newTree Pinned.init hsession

/-! ### The use counts -/

/-- The node handle refers to the file. -/
def NodeHandle.refersTo (h : NodeHandle) (f : LongId) : Bool := h.node.any fun x => decide (x.1 = f)

theorem countP_pins (hs : List NodeHandle) (l : Bool) (f : LongId) :
    (hs.flatMap fun h => h.pins l).countP (fun t => decide (t.file = f)) =
      hs.countP fun h => h.refersTo f := by
  induction hs with
  | nil => rfl
  | cons h hs ih =>
    rw [List.flatMap_cons, List.countP_append, ih, List.countP_cons, Nat.add_comm]
    congr 1
    unfold NodeHandle.pins NodeHandle.refersTo
    cases h.node with
    | none => rfl
    | some x => simp [List.countP_cons]

/-- The pins of a client are those of its handles. -/
theorem countP_client (s : Client) (f : LongId) :
    s.pins.countP (fun t => decide (t.file = f)) = s.nodeHandles.countP fun h => h.refersTo f := by
  have hkids : ∀ xs : List (ChildNr → NodeHandle),
      (xs.flatMap fun kids => kidPins kids (List.finRange 8)).countP (fun t =>
        decide (t.file = f)) =
        (xs.flatMap fun kids => (List.finRange 8).map kids).countP fun h => h.refersTo f := by
    intro xs
    rw [← countP_pins _ true, List.flatMap_assoc]
    congr 2
  have hcaches : ∀ xs : List (List NodeCache),
      (xs.flatMap stackPins).countP (fun t => decide (t.file = f)) =
        (xs.flatMap fun nodes => nodes.map NodeCache.nh).countP fun h => h.refersTo f := by
    intro xs
    rw [← countP_pins _ true, List.flatMap_assoc]
    congr 2
    funext nodes
    rw [List.flatMap_map, stackPins]
  simp only [Client.pins, Client.nodeHandles, List.countP_append, queuePins, countP_pins, hkids,
    hcaches]
  omega

/-! ### Runs of the cache -/

variable {m : CacheState} {q : TreeM Client} {f : LongId}

/-- Every use count is the number of handles that refer to the file, and every handle finds its
node. -/
structure Counted (s : Client) (m : CacheState) : Prop where
  useCount : ∀ f file, m.files f = some file →
    file.useCount = s.nodeHandles.countP fun h => h.refersTo f
  node : ∀ h ∈ s.nodeHandles, ∀ f short, h.node = some (f, short) →
    ∃ file, m.files f = some file ∧ (file.data.nodeCache[short]?).isSome

/-- What holds while the program `q` is left to do: no user is missing, and no step of the client or
the environment takes away a file that has users. -/
structure Alive (cfg : Config) (q : TreeM Client) (m : CacheState) : Prop where
  evicting : ∀ f file, m.files f = some file → file.nodeState = .evicting → file.useCount = 0
  removeUser : ∀ f k, q = .call (.removeUser f) k → ∃ file, m.files f = some file ∧
    0 < file.useCount
  releaseNode : ∀ f b k, q = .call (.releaseNode f b) k →
    ∃ file, m.files f = some file ∧ 0 < file.useCount
  client : ∀ c o k r m' f file, q = .call o k → CacheState.client cfg c o m = some (r, m') →
    m.files f = some file → 0 < file.useCount → (m'.files f).isSome
  env : ∀ e m' f file, CacheState.env cfg e m = some m' →
    m.files f = some file → 0 < file.useCount → (m'.files f).isSome

theorem PinSim.alive {σ : PinState} {Q : Client → PinState → Prop} (h : PinSim m σ)
    (hq : PinSpec q Q σ) : Alive cfg q m := by
  have hpos : ∀ {f file}, m.files f = some file → 0 < file.useCount → 0 < σ.users f := by
    intro f file hf hu
    rwa [← (h f).users file hf]
  -- an operation on a pinned file finds the file with a user
  have hpinned : ∀ {f : LongId} {α : Type} {x y : α}, σ.pinned f x = some y →
      ∃ file, m.files f = some file ∧ 0 < file.useCount := by
    intro f α x y hx
    by_cases hu : 0 < σ.users f
    · obtain ⟨file, hf, hk, -⟩ := h.file_of_pos hu
      exact ⟨file, hf, by omega⟩
    · rw [PinState.pinned, if_neg hu] at hx
      cases hx
  constructor
  · intro f file hf he
    rw [(h f).users file hf]
    exact (h f).evicting file hf he
  · rintro f k rfl
    obtain ⟨r, σ', hr, -⟩ := hq .plain
    exact hpinned hr
  · rintro f b k rfl
    obtain ⟨r, σ', hr, -⟩ := hq .plain
    exact hpinned hr
  · rintro c o k r m' f file rfl hc hf hu
    by_cases ho : o = .cacheMaintenance
    · subst ho
      obtain ⟨m₁, hm, he⟩ := Option.map_eq_some_iff.1 hc
      obtain ⟨file', hf', -⟩ := (h.maintenance hm).file_of_pos (hpos hf hu)
      rw [← (Prod.mk.inj he).2, hf']
      rfl
    · rcases CacheState.client_files hc ho with he | ⟨g, x, he⟩
      · rw [he, hf]; rfl
      · by_cases hg : f = g
        · rw [he, hg, Function.update_self]; rfl
        · rw [he, Function.update_of_ne hg, hf]; rfl
  · intro e m' f file he hf hu
    obtain ⟨file', hf', -⟩ := (h.env (.of_env he)).file_of_pos (hpos hf hu)
    rw [hf']
    rfl

/-- Every handle of a client has its pin. -/
theorem mem_pins {x : LongId × ShortId} (hh : h ∈ s.nodeHandles) (hx : h.node = some x) :
    ∃ l, ⟨x.1, some x.2, l⟩ ∈ s.pins := by
  have hpin : ∀ l, ⟨x.1, some x.2, l⟩ ∈ h.pins l := fun l => by simp [NodeHandle.pins, hx]
  simp only [Client.nodeHandles, List.mem_append, List.mem_flatMap, List.mem_map] at hh
  simp only [Client.pins, queuePins, kidPins, stackPins, List.mem_append, List.mem_flatMap]
  rcases hh with ((hh | ⟨kids, hkids, i, hi, rfl⟩) | ⟨nodes, hnodes, nc, hnc, rfl⟩) | hh
  · exact ⟨false, .inl ⟨h, hh, hpin false⟩⟩
  · exact ⟨true, .inr (.inl ⟨kids, hkids, i, hi, hpin true⟩)⟩
  · exact ⟨true, .inr (.inr (.inl ⟨nodes, hnodes, nc, hnc, hpin true⟩))⟩
  · exact ⟨false, .inr (.inr (.inr ⟨h, hh, hpin false⟩))⟩

theorem PinSim.counted {σ : PinState} (h : PinSim m σ) (hL : Pinned σ s.pins) : Counted s m where
  useCount f file hf := by rw [(h f).users file hf, hL.users, countP_client]
  node k hk f short hn := by
    obtain ⟨l, ht⟩ := mem_pins hk hn
    have hnode := hL.nodes _ ht short rfl
    obtain ⟨file, hf, -⟩ := h.file_of_pos (hL.pos ht)
    exact ⟨file, hf, ((h f).nodes short hnode).2 file hf⟩

/-- **A file with live handles stays in the cache, and its use count is their number.** -/
theorem pinned_files_stay {storage : LongId → Option ByteVec} {create : Bool} {calls : List Call}
    (hrun : (cacheMachine cfg).Run (fun _ _ => True) (life cfg create calls) (.opened storage) q m) :
    Alive cfg q m ∧ ∀ s, q = .ret s → Counted s m := by
  obtain ⟨σ, -, hm, hq⟩ := (pin_simulates cfg).run hrun (PinSim.opened storage) pin_life
  refine ⟨hm.alive hq, ?_⟩
  rintro s rfl
  exact hm.counted hq.2

/-- A client gets a handle of the root of a new tree. -/
theorem pinned_files_stay_root : ∃ q m, Alive .sample q m ∧ ∀ s, q = .ret s → Counted s m := by
  have hplay : ((cacheMachine .sample).play (List.replicate 10 (.inl .plain))
      (life .sample true [.getRoot]) (.opened fun _ => none)).isSome := by decide +kernel
  obtain ⟨⟨q, m⟩, h⟩ := Option.isSome_iff_exists.1 hplay
  exact ⟨q, m, pinned_files_stay (.of_play h)⟩

end MegaTree
