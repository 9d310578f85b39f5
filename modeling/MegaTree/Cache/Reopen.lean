import MegaTree.Cache.Durable
import MegaTree.Cache.Transparent

/-!
# Trees that are closed and opened again

A `sitting` constructs a `MegaTree`, runs operations on it and ends with the `flushCache` of the
destructor.  `Lives` are the contents of a storage after one sitting on a new tree and any number of
sittings on the tree that was left, each with its own cache size.

* `Sim.careful` : operations keep to what `flush_durable` asks of a client.
* `Sim.kept_of_durable` : a durable storage has the files of the store.
* `lives_store` : the storage is that of a tree that was never closed and never evicted a file.
* `lives_transparent` : so a client of a tree that is opened again cannot tell the difference.
-/

namespace MegaTree

open Effect

variable {cfg : Config} {m m' : CacheState} {σ σ' σ₂ : Store} {f : LongId} {create : Bool}
  {ops : List TreeOp} {storage : LongId → Option ByteVec}

variable (cfg) in
/-- The constructor of a `MegaTree`, operations, and the `flushCache` of the destructor. -/
def sitting (create : Bool) (ops : List TreeOp) : TreeM Unit := do
  visit cfg create ops
  flushCache

/-- `flushCache` does not come across a file that was requested again while it is written. -/
def Undisturbed (m : CacheState) : CacheOp → Prop
  | .flushFile f => ∀ file, m.files f = some file → file.nodeState = .loading →
      ∀ data, (f, .evict data false) ∉ m.pending
  | _ => True

/-! ### Operations visit every file when they flush -/

theorem pin_treeOp {τ : PinState} (o : TreeOp) (hL : Pinned τ []) :
    PinSpec (o.run cfg) (fun _ τ' => Pinned τ' []) τ := by
  cases o with
  | addPoint pt col => exact pin_addPoint hL fun _ h => h
  | queryRange lo hi resolution =>
    exact Prog.wp_bind.2 (pin_queryRange hL fun _ _ h => h)
  | rangeQueryLoop lo hi resolution rounds =>
    refine Prog.wp_bind.2 (pin_rangeQueryLoop hL fun out τ' h => ?_)
    cases hempty : out.2.isEmpty with
    | false => trivial
    | true =>
      have hpin := h.2
      rw [List.isEmpty_iff.1 hempty] at hpin
      exact hpin

theorem pin_operations {τ : PinState} (ops : List TreeOp) (hL : Pinned τ []) :
    PinSpec (operations cfg ops) (fun _ τ' => Pinned τ' []) τ := by
  induction ops generalizing τ with
  | nil => exact hL
  | cons o ops ih =>
    exact Prog.wp_bind.2 (Prog.wp_mono (pin_treeOp o hL) (fun _ _ h => ih h) fun _ => id)

theorem pin_sitting : PinSpec (sitting cfg create ops) (fun _ τ => Pinned τ []) .init := by
  have hrest : ∀ τ, Pinned τ [] → PinSpec (do operations cfg ops; flushCache)
      (fun _ τ => Pinned τ []) τ := fun τ hL =>
    Prog.wp_bind.2 (Prog.wp_mono (pin_operations ops hL) (fun _ _ h => pin_flushCache h) fun _ => id)
  rw [sitting, visit, bind_assoc]
  refine Prog.wp_bind.2 ?_
  cases create with
  | false => exact hrest _ Pinned.init
  | true => exact pin_newTree Pinned.init hrest

theorem Composed.sitting {P : (α : Type) → TreeM α → Prop} (hP : Composed P) :
    P _ (sitting cfg create ops) := by
  refine hP.bind (hP.bind ?_ fun _ => hP.operations ops) fun _ => hP.flushCache
  exact ite hP.newTree (hP.ret _)

/-- In every sitting `flushCache` visits every file that it finds. -/
theorem rounds_sitting : (sitting cfg create ops).wp Round.step
    (fun _ z => z.1.2 = false ∧ z.2 = none) (fun _ => True) ((.init, false), none) := by
  have hledger : (sitting cfg create ops).wp Ledger.step (fun _ x => x.2 = false) (fun _ => True)
      (.init, false) :=
    Prog.wp_mono (KeepsLedger.composed.sitting _ .init trivial pin_sitting)
      (fun _ _ hx => hx.2.1) fun _ => id
  exact KeepsRounds.composed.sitting (fun _ y => y.2 = false) _ hledger

/-! ### Operations are careful -/

theorem mergeCovered_of_noMerge {E : FileData → FileData → Prop} {o : CacheOp} (ho : NoMerge o) :
    MergeCovered E m o := by
  cases o with
  | setNode f s n w =>
    cases w with
    | merge => exact ho.elim
    | _ => trivial
  | _ => trivial

theorem serialize_injective {d d' : FileData} (h : serialize d = serialize d') : d = d' := by
  have hcovered : ∀ d : FileData, deserialize (serialize d) ∅ = some d := fun d =>
    deserialize_serialize_of_covered fun s _ => Std.ExtTreeMap.getElem?_empty
  have := hcovered d
  rw [h, hcovered d'] at this
  exact (Option.some.inj this).symm

theorem Kept.eq {d : FileData} {stored : Option ByteVec} (h : Kept Eq d stored) :
    stored = some (serialize d) := by
  obtain ⟨d', rfl, hs⟩ := h
  exact hs

/-- A file that is loading and was evicted before has what is being written. -/
theorem Sim.of_requested_again {file : NodeFile} {data : ByteVec} {w : Bool} (h : Sim Eq m σ)
    (hf : m.files f = some file) (hp : (f, .evict data w) ∈ m.pending) :
    data = serialize file.data := by
  obtain ⟨d, -, hph⟩ := h.exists_data hf
  obtain ⟨d', d'', st, b, rest, he, he', rfl, hf', -⟩ := hph.of_evict (mem_inFlight.2 hp)
  obtain rfl := Option.some.inj (hf.symm.trans hf')
  exact congrArg serialize (he'.symm.trans he)

/-- An operation that the store allows is careful in the cache. -/
theorem Sim.careful {o : CacheOp} (h : Sim Eq m σ) (ho : NoMerge o) (hu : Undisturbed m o)
    (hs : (Store.step .plain o σ).isSome) : Careful m o := by
  cases o with
  | setNode f s n w =>
    intro hw file hf hl
    simp only [Store.step] at hs
    cases hd : σ.files f with
    | none => rw [hd] at hs; cases hs
    | some d =>
      rw [hd] at hs
      obtain ⟨-, hb⟩ := Store.of_check hs
      simp only [Bool.and_eq_true, decide_eq_true_eq] at hb
      obtain ⟨⟨⟨hpos, hready⟩, -⟩, hmay⟩ := hb
      have hmarked : 0 < (σ.uses f).marked → 0 < m.marked f := fun h0 => by
        rwa [show m.marked f = (σ.uses f).marked from (h.file f).marked]
      cases w with
      | first => exact absurd rfl hw
      | again => exact .inr (.inl (hmarked (of_decide_eq_true hmay)))
      | copy =>
        rcases Bool.or_eq_true_iff.1 hmay with hdirty | h0
        · obtain ⟨d', modified, -, hf', -, -, hm⟩ := ((h.file f).phase d hd).of_ready hpos hready
          obtain rfl := Option.some.inj (hf.symm.trans hf')
          exact .inl (hm hdirty)
        · exact .inr (.inl (hmarked (of_decide_eq_true h0)))
      | merge => exact ho.elim
  | readNode f s =>
    rintro file hf hn ⟨buffer, hr⟩ d₀ hst
    obtain ⟨d, hd, -⟩ := h.exists_data hf
    obtain ⟨-, d', -, rfl, -, -, hready, -, -, hstored⟩ :=
      ((h.file f).phase d hd).of_read (mem_inFlight.2 hr)
    obtain rfl := serialize_injective (Option.some.inj (hstored.symm.trans hst))
    simp only [Store.step, Store.lookup, hd, Option.bind_some] at hs
    cases hnode : d.nodeCache[s]? with
    | some n => rfl
    | none =>
      -- a node that is not in the file is only asked for after the client has seen the file
      rw [hnode] at hs
      obtain ⟨-, hb⟩ := Store.of_check hs
      obtain ⟨hpos, hseen⟩ := Bool.and_eq_true_iff.1 hb
      have hunseen : (σ.uses f).ready = false := hready (of_decide_eq_true hpos)
      rw [hunseen] at hseen
      cases hseen
  | flushFile f =>
    intro file hf hl data w hp
    obtain rfl := h.of_requested_again hf hp
    cases w with
    | false => exact absurd hp (hu file hf hl _)
    | true => exact ⟨rfl, rfl⟩
  | _ => trivial

/-! ### The storage -/

/-- The storage has every file of the store, and nothing else. -/
def StoredAs (m : CacheState) (σ : Store) : Prop := ∀ f, m.storage f = (σ.files f).map serialize

/-- A durable storage has the files of the store. -/
theorem Sim.kept_of_durable (h : Sim Eq m σ) (hd : Durable m) : StoredAs m σ := by
  intro f
  cases hf : σ.files f with
  | none => exact ((h.file f).missing hf).2.2.2
  | some d =>
    have hnoRead : ∀ {rs : Multiset Request}, inFlight m.pending f = rs →
        (∀ r ∈ rs, r.isRead = false) → ∀ buffer, (f, .read buffer) ∉ m.pending := by
      intro rs hrs hno buffer hp
      cases hno _ (hrs ▸ mem_inFlight.2 hp)
    have hflush : ∀ {r : Request} {fl : Bool} {stored : Option ByteVec},
        IsFlush Eq fl stored d r → r.isRead = false := by
      rintro r fl stored ⟨d', w, -, rfl, -⟩
      rfl
    cases (h.file f).phase d hf with
    | absent _ _ _ hs => exact hs.eq
    | reading data d' modified buffer hE _ _ _ _ _ hs => exact hE ▸ hs
    | loaded d' modified hE hfile hr =>
      subst hE
      exact hd.written f _ hfile (hnoRead rfl fun r hmem => hflush (hr r hmem))
    | evicting d' d'' state modified written rest hE hE' hfile hr hrest =>
      subst hE
      refine hd.written f _ hfile (hnoRead hr fun r hmem => ?_)
      rcases Multiset.mem_cons.1 hmem with rfl | hmem
      · rfl
      · exact hflush (hrest r hmem)

/-- The writes that are still in flight do not change what is stored. -/
theorem StoredAs.env (hst : StoredAs m σ) (h : Sim Eq m σ) (hs : EnvStep cfg m m') :
    StoredAs m' σ := by
  have hupdate : ∀ {g d data}, σ.files g = some d → data = serialize d →
      ∀ f, Function.update m.storage g (some data) f = (σ.files f).map serialize := by
    rintro g d data hd rfl f
    by_cases hf : f = g
    · subst hf
      rw [Function.update_self, hd, Option.map_some]
    · rw [Function.update_of_ne hf]
      exact hst f
  cases hs with
  | completeEvict g data hp =>
    obtain ⟨d, hd, hph⟩ := h.exists_request hp
    obtain ⟨-, d'', -, -, -, -, rfl, hdata, -⟩ := hph.of_evict (mem_inFlight.2 hp)
    exact hupdate hd hdata
  | completeFlush g data hp =>
    obtain ⟨d, hd, hph⟩ := h.exists_request hp
    obtain ⟨d', w, rfl, he, -⟩ := hph.of_flush (mem_inFlight.2 hp)
    cases he
    exact hupdate hd rfl
  | maintenance busy _ hl hc =>
    have hstorage := CacheState.cacheMaintenance_induct
      (P := fun x => x.storage = m.storage) (fun _ _ _ h _ _ _ _ => h) (fun _ _ _ h _ _ _ _ => h)
      hc rfl
    exact fun f => by rw [hstorage]; exact hst f
  | _ => exact hst

/-- What holds of the cache while the tree is destroyed. -/
structure Closing (m : CacheState) (σ : Store) : Prop where
  sim : Sim Eq m σ
  live : Live σ []
  stored : StoredAs m σ

namespace Closing

theorem env (h : Closing m σ) (hs : EnvStep cfg m m') : Closing m' σ :=
  ⟨h.sim.env similarity_eq hs, h.live, h.stored.env h.sim hs⟩

/-- No client uses a file, so the destructor may delete it. -/
theorem deleteLoaded (h : Closing m σ) (busy : LongId → Bool) (f : LongId) :
    Closing (m.deleteLoaded busy f) σ := by
  unfold CacheState.deleteLoaded
  cases hf : m.files f with
  | none => exact h
  | some file =>
    simp only
    split_ifs with hdel
    · have hl : file.nodeState = .loaded := by simpa using (Bool.and_eq_true_iff.1 hdel).2
      obtain ⟨d, hd, hph⟩ := h.sim.exists_data hf
      obtain ⟨-, hu, -⟩ := hph.of_loaded_file hf hl
      refine ⟨h.sim.deleteFile h.live.idle hf hl (hu.trans (h.live.users_eq_zero f)) ?_, h.live,
        h.stored⟩
      intro d' hd'
      exact ⟨d', rfl, by rw [h.stored f, hd', Option.map_some]⟩
    · exact h

theorem deletePass (h : Closing m σ) (busy : LongId → Bool) (fs : List LongId) :
    Closing (m.deletePass busy fs) σ := by
  induction fs generalizing m with
  | nil => exact h
  | cons f fs ih => exact ih (h.deleteLoaded busy f)

theorem destroys (h : Closing m σ) (hd : Destroys cfg m m') : Closing m' σ := by
  induction hd with
  | refl => exact h
  | env e _ he ih => exact ih.env (.of_env he)
  | pass busy _ _ ih => exact ih.deletePass busy _

end Closing

/-! ### One sitting -/

variable (cfg) in
/-- What a sitting starts from: nothing, or a tree. -/
inductive Starts : Bool → Store → Prop
  | new : Starts true .init
  | existing {σ : Store} : Operable cfg σ → Starts false σ

theorem Operable.live (h : Operable cfg σ) : Live σ [] := by
  obtain ⟨V, t, ht, -⟩ := h
  exact ht.live

theorem Starts.live (h : Starts cfg create σ) : Live σ [] := by
  cases h with
  | new => exact Live.init
  | existing h => exact h.live

theorem wp_visit_starts (h : Starts cfg create σ) (ops : List TreeOp) :
    Spec (visit cfg create ops) (fun _ σ' => Operable cfg σ') (fun _ => True) σ := by
  cases h with
  | new => exact wp_visit .new ops
  | existing h => exact Prog.wp_bind.2 (wp_operations ops h)

/-- `flushCache` leaves the files as they are. -/
theorem wp_flushCache (h : Operable cfg σ) {Q : Unit → Store → Prop} {X : Err → Prop}
    (hQ : ∀ σ', σ'.files = σ.files → Operable cfg σ' → Q () σ') : Spec flushCache Q X σ := by
  have hL := h.live
  have hfiles : ∀ (fs : List LongId) (σ₁ : Store) {Q : Unit → Store → Prop}, σ₁.flushing = true →
      Q () σ₁ → Spec (flushFiles fs) Q X σ₁ := by
    intro fs
    induction fs with
    | nil => exact fun _ _ _ hQ => hQ
    | cons f fs ih =>
      intro σ₁ Q hfl hQ
      exact Prog.wp_bind.2 fun c => ⟨(), σ₁, if_pos hfl, ih σ₁ hfl hQ⟩
  refine Prog.wp_bind.2 fun c => ⟨c.listing, _, Store.check_eq_some hL.idle rfl, ?_⟩
  refine Prog.wp_bind.2 (hfiles _ _ rfl fun c' => ⟨(), _, rfl, ?_⟩)
  refine hQ _ rfl (h.congr rfl ⟨rfl, hL.users, hL.marked, fun t ht => ?_, fun t ht => ?_, hL.stored⟩)
  · exact absurd ht List.not_mem_nil
  · exact absurd ht List.not_mem_nil

theorem wp_sitting (h : Starts cfg create σ) (ops : List TreeOp) :
    Spec (sitting cfg create ops) (fun _ σ' => Operable cfg σ') (fun _ => True) σ :=
  Prog.wp_bind.2 (Prog.wp_mono (wp_visit_starts h ops)
    (fun _ _ h₁ => wp_flushCache h₁ fun _ _ h₂ => h₂) fun _ => id)

theorem plain_sitting : Plain (sitting cfg create ops) := by
  have hfiles : ∀ fs, Plain (flushFiles fs) := by
    intro fs
    induction fs with
    | nil => trivial
    | cons f fs ih => exact plain_bind (plain_op trivial) fun _ => ih
  refine plain_bind plain_visit fun _ => plain_bind (plain_op trivial) fun _ => ?_
  exact plain_bind (hfiles _) fun _ => plain_op trivial

/-- When `flushCache` has waited for its writes, the storage has what is in memory. -/
theorem Synced.durable {z : Round} {Q : Unit → Round → Prop} {X : Err → Prop} {c : CacheChoice}
    {k : Unit → TreeM Unit} (h : Synced m z)
    (hw : (Prog.call CacheOp.flushWait k : TreeM Unit).wp Round.step Q X z)
    (hc : CacheState.client cfg c .flushWait m = some ((), m')) (hk : ∀ f, m'.marked f = 0) :
    Durable m' := by
  have hz : z.2 = some [] := by
    obtain ⟨r, z', hstep, -⟩ := hw .plain
    obtain ⟨y, -, hy⟩ := Option.bind_eq_some_iff.1 hstep
    obtain ⟨t, ht, -⟩ := Option.map_eq_some_iff.1 hy
    exact (Round.todo_flushWait ht).1
  obtain ⟨ho, hvis⟩ := h.inside _ hz
  obtain ⟨-, hremaining, rfl⟩ := CacheState.flushWait_cases hc
  refine .of_visited ?_ fun f _ => hvis f List.not_mem_nil (hk f)
  exact (h.flights.remaining ho).symm.trans hremaining

/-- A sitting that ends leaves the files of the store in the storage. -/
theorem sitting_closing {cache : Config} (h₀ : Starts cfg create σ)
    (hrun : (cacheMachine cache).Run Undisturbed (sitting cfg create ops)
      (.opened fun f => (σ.files f).map serialize) (.ret ()) m) :
    ∃ σ₁ σ₂, Prog.Exec Store.step (visit cfg create ops) σ (.ret ()) σ₁ ∧ σ₂.files = σ₁.files ∧
      Operable cfg σ₂ ∧ Closing m σ₂ := by
  let ok (m : CacheState) (o : CacheOp) : Prop := NoMerge o ∧ Undisturbed m o
  have hsim : (cacheMachine cache).Simulates ok Store.step (Sim Eq) :=
    (simulates cache).weaken fun m o ho => mergeCovered_of_noMerge ho.1
  have hopened : Sim Eq (.opened fun f => (σ.files f).map serialize) σ :=
    Sim.opened similarity_eq h₀.live fun _ => rfl
  have hplain : (cacheMachine cache).Run ok (sitting cfg create ops)
      (.opened fun f => (σ.files f).map serialize) (.ret ()) m :=
    hrun.of_uses plain_sitting fun m o hu ho => ⟨ho, hu⟩
  -- the parts of the run: the operations, the loop of `flushCache` and its wait
  obtain ⟨⟨⟩, m₁, hvisit, hflush⟩ := hplain.of_bind
  obtain ⟨fs, m₂, hbegin, hrest⟩ := hflush.of_bind
  obtain ⟨⟨⟩, m₃, hloop, hwait⟩ := hrest.of_bind
  obtain ⟨m₄, c, ⟨⟩, m₅, hidle, hok, hc, hend⟩ := hwait.of_call
  have htowait : (cacheMachine cache).Run ok flushCache m₁ (.call .flushWait .ret) m₄ :=
    (hbegin.bind _).trans ((hloop.bind _).trans hidle)
  obtain ⟨σ₁, hexec, hsim₁, hop₁⟩ := hsim.run hvisit hopened (wp_visit_starts h₀ ops)
  have hreturned : (cacheMachine cache).Run ok flushCache m₁ (.ret ()) m₅ :=
    htowait.trans (.client c hok hc (.refl _ _))
  obtain ⟨σ₂, -, hsim₂, hfiles, hop₂⟩ := hsim.run hreturned hsim₁
    (wp_flushCache (X := fun _ => True) (Q := fun _ σ₂ => σ₂.files = σ₁.files ∧ Operable cfg σ₂) hop₁
      fun _ hf h => ⟨hf, h⟩)
  -- the client was careful, so the storage is durable at the end of the wait
  have hall : (cacheMachine cache).Run ok (sitting cfg create ops)
      (.opened fun f => (σ.files f).map serialize) (.call .flushWait .ret) m₄ :=
    (hvisit.bind fun _ => flushCache).trans htowait
  have hcareful : (cacheMachine cache).Run Careful (sitting cfg create ops)
      (.opened fun f => (σ.files f).map serialize) (.call .flushWait .ret) m₄ :=
    hsim.run_and (fun m s o ho hR hs => hR.careful ho.1 ho.2 (hs .plain)) hall hopened
      (wp_sitting h₀ ops)
  have hserial : ∀ f b, (σ.files f).map serialize = some b → ∃ d, b = serialize d := by
    intro f b hb
    obtain ⟨d, -, rfl⟩ := Option.map_eq_some_iff.1 hb
    exact ⟨d, rfl⟩
  have hc : CacheState.client cache c .flushWait m₄ = some ((), m₅) := hc
  obtain ⟨z, -, hsync, hw⟩ := (synced_simulates cache).run hcareful (.opened hserial) rounds_sitting
  have hmarked : ∀ f, m₅.marked f = 0 := fun f => by
    have hle := hop₂.live.marked_le f
    rw [hop₂.live.users_eq_zero f] at hle
    exact ((hsim₂.file f).marked).trans (Nat.le_zero.1 hle)
  have hclosing : Closing m₅ σ₂ :=
    ⟨hsim₂, hop₂.live, hsim₂.kept_of_durable (hsync.durable hw hc hmarked)⟩
  obtain ⟨-, hm⟩ := hend.returned (I := fun m => Closing m σ₂) hclosing
    fun m d m' h hd => h.env (.of_env hd)
  exact ⟨σ₁, σ₂, hexec, hfiles, hop₂, hm⟩

/-! ### Any number of sittings -/

variable (cfg) in
/-- The cache of a tree with its own size. -/
def cacheOf (size : UInt32) (readOnly : Bool) : Machine cacheSig CacheChoice CacheState.Event
    CacheState := cacheMachine { cfg with maxCacheSize := size, readOnly := readOnly }

variable (cfg) in
/-- The contents of the storage when the last tree was destroyed, and all operations so far: a new
tree, and any number of times the tree that was left, each time with a cache size of its own and
with evictions and callbacks in any order. -/
inductive Lives : (LongId → Option ByteVec) → List TreeOp → Prop
  | created {size : UInt32} {ops : List TreeOp} {m m' : CacheState} :
      (cacheOf cfg size false).Run Undisturbed (sitting cfg true ops) (.opened fun _ => none)
        (.ret ()) m → Destroys { cfg with maxCacheSize := size, readOnly := false } m m' →
      Lives m'.storage ops
  | reopened {storage : LongId → Option ByteVec} {ops ops' : List TreeOp} {size : UInt32}
      {readOnly : Bool} {m m' : CacheState} : Lives storage ops →
      (cacheOf cfg size readOnly).Run Undisturbed (sitting cfg false ops') (.opened storage)
        (.ret ()) m → Destroys { cfg with maxCacheSize := size, readOnly := readOnly } m m' →
      Lives m'.storage (ops ++ ops')

theorem operations_append (ops ops' : List TreeOp) :
    operations cfg (ops ++ ops') = (do operations cfg ops; operations cfg ops') := by
  induction ops with
  | nil => rfl
  | cons o ops ih =>
    simp only [List.cons_append, operations, ih, bind_assoc]

/-- More operations on the tree that a visit has left. -/
theorem exec_visit_append {q : TreeM Unit} {ops' : List TreeOp}
    (h : Prog.Exec Store.step (visit cfg create ops) σ (.ret ()) σ')
    (h' : Prog.Exec Store.step (operations cfg ops') σ' q σ₂) :
    Prog.Exec Store.step (visit cfg create (ops ++ ops')) σ q σ₂ := by
  have hvisit : visit cfg create (ops ++ ops') = (do visit cfg create ops; operations cfg ops') := by
    simp only [visit, operations_append, bind_assoc]
  rw [hvisit]
  exact h.bind h'

/-- The storage has the files of a store that has run all operations. -/
theorem lives_store (h : Lives cfg storage ops) :
    ∃ σ, Prog.Exec Store.step (visit cfg true ops) .init (.ret ()) σ ∧
      storage = fun f => (σ.files f).map serialize := by
  induction h with
  | created hrun hd =>
    obtain ⟨σ₁, σ₂, hexec, hfiles, -, hclosing⟩ := sitting_closing .new hrun
    exact ⟨σ₁, hexec, funext fun f => by rw [(hclosing.destroys hd).stored f, hfiles]⟩
  | reopened _ hrun hd ih =>
    obtain ⟨σ, hexec, rfl⟩ := ih
    have hop : Operable cfg σ := Prog.wp_exec (wp_visit .new _) hexec
    obtain ⟨σ₁, σ₂, hexec', hfiles, -, hclosing⟩ := sitting_closing (.existing hop) hrun
    exact ⟨σ₁, exec_visit_append hexec hexec',
      funext fun f => by rw [(hclosing.destroys hd).stored f, hfiles]⟩

/-- A tree that the store has run is there to be opened again. -/
theorem starts_of_run {ops : List TreeOp} {σ : Store}
    (h : ((visit cfg true ops).run Store.step .plain .init).toOption = some ((), σ)) :
    Starts cfg false σ := by
  cases hrun : (visit cfg true ops).run Store.step .plain .init with
  | error e =>
    rw [hrun] at h
    cases h
  | ok a =>
    rw [hrun] at h
    obtain rfl := Option.some.inj h
    exact .existing (Prog.wp_exec (wp_visit .new ops) (.of_run hrun))

/-- The requests in flight, answered in the order of the files. -/
def CacheState.answer (m : CacheState) : List CacheState.Event :=
  m.order.flatMap fun f =>
    (if (f, .read none) ∈ m.pending then (m.storage f).elim [] fun b =>
      [.complete f (.read none), .callback f (.read (some b)), .maintenance fun _ => false]
      else []) ++
    (m.files f).elim [] fun file =>
      let data := serialize file.data
      if (f, .flush data false) ∈ m.pending then
        [.complete f (.flush data false), .callback f (.flush data true)]
      else if file.nodeState = .evicting ∧ (f, .evict data false) ∈ m.pending then
        [.complete f (.evict data false), .callback f (.evict data true)]
      else []

/-- The check that a file was not requested again. -/
def CacheState.isUndisturbed (m : CacheState) : CacheOp → Bool
  | .flushFile f => (m.files f).all fun file => file.nodeState != .loading || !m.isWriting f
  | _ => true

theorem undisturbed_of_check {o : CacheOp} (h : m.isUndisturbed o = true) : Undisturbed m o := by
  cases o with
  | flushFile f =>
    intro file hf hl data hp
    rw [CacheState.isUndisturbed, hf, Option.all_some, hl,
      CacheState.isWriting_iff.2 ⟨data, false, hp⟩] at h
    cases h
  | _ => trivial

/-- A sitting that is driven to its end. -/
theorem undisturbed_of_drive {size : UInt32} {readOnly : Bool} {n : ℕ} {x : TreeM Unit × CacheState}
    (h : ((cacheOf cfg size readOnly).restrict CacheState.isUndisturbed).drive
      (fun _ _ => CacheChoice.plain) CacheState.answer n (sitting cfg create ops) (.opened storage) = x)
    (hx : x.1.returns = true) : (cacheOf cfg size readOnly).Run Undisturbed
      (sitting cfg create ops) (.opened storage) (.ret ()) x.2 := by
  obtain ⟨⟨⟩, hret⟩ := Prog.of_returns hx
  rw [← hret, ← h]
  exact (Machine.Run.of_restrict (.of_drive (fun _ _ => CacheChoice.plain) CacheState.answer n)).mono
    fun m o ho => undisturbed_of_check ho.1

end MegaTree
