import Mathlib.Data.Finset.Range

/-!
# Copies that are made at the same time

A copy goes on item by item, in any order.  `Copying data copiers buffer` says of a buffer to which
some threads copy the same data that it has the right length, and every item that all of them have
copied: `copiers` are the sets of the indices that each thread has copied.  A thread may set the
buffer to its length when others have already begun.
-/

namespace Memory

variable {α : Type*}

/-- The buffer has every item of the data that all copiers have copied. -/
structure Copying (data : List α) (copiers : Finset ℕ → Prop) (buffer : List α) : Prop where
  length : buffer.length = data.length
  copied : ∀ j < data.length, buffer[j]? = data[j]? ∨ ∃ c, copiers c ∧ j ∉ c

namespace Copying

variable {data buffer : List α} {copiers copiers' : Finset ℕ → Prop}

/-- A copier has set the buffer to its length. -/
theorem start (a : α) (h : copiers ∅) : Copying data copiers (List.replicate data.length a) where
  length := List.length_replicate
  copied _ _ := .inr ⟨∅, h, Finset.notMem_empty _⟩

/-- Some copiers copy the item at index `k`. -/
theorem copy (h : Copying data copiers buffer) {k : ℕ} {a : α} (hk : data[k]? = some a)
    (hc : ∀ c, copiers c → copiers' c ∨ copiers' (insert k c)) :
    Copying data copiers' (buffer.set k a) where
  length := List.length_set.trans h.length
  copied j hj := by
    by_cases hkj : k = j
    · subst hkj
      left
      rw [hk]
      exact List.getElem?_set_self (h.length ▸ hj)
    · rw [List.getElem?_set_ne hkj]
      refine (h.copied j hj).imp_right ?_
      rintro ⟨c, hcop, hjc⟩
      rcases hc c hcop with hcop' | hcop'
      · exact ⟨c, hcop', hjc⟩
      · refine ⟨insert k c, hcop', fun hmem => ?_⟩
        rcases Finset.mem_insert.1 hmem with rfl | hmem
        · exact hkj rfl
        · exact hjc hmem

/-- Copiers that have copied everything are done. -/
theorem close (h : Copying data copiers buffer)
    (hc : ∀ c, copiers c → copiers' c ∨ Finset.range data.length ⊆ c) :
    Copying data copiers' buffer where
  length := h.length
  copied j hj := by
    refine (h.copied j hj).imp_right ?_
    rintro ⟨c, hcop, hjc⟩
    exact ⟨c, (hc c hcop).resolve_right fun hsub => hjc (hsub (Finset.mem_range.2 hj)), hjc⟩

/-- When all copiers are done the buffer has the data. -/
theorem eq (h : Copying data copiers buffer) (hc : ∀ c, ¬ copiers c) : buffer = data := by
  refine List.ext_getElem? fun j => ?_
  by_cases hj : j < data.length
  · exact (h.copied j hj).resolve_right fun ⟨c, hcop, _⟩ => hc c hcop
  · rw [List.getElem?_eq_none (by rw [h.length]; omega), List.getElem?_eq_none (by omega)]

end Copying

end Memory
