import MegaTree.Cache.Shared
import Mathlib.Data.Multiset.Count

/-!
# One cached copy per file

`OneCopy` : the list and the hash table of the cache have the same ids, each once, and clients that
hold a file with the same id hold the same object.  It is lost when two clients miss the same file
(`oneCopy_race`), because `push_front` is called without a second lookup.  In a run whose insertions
all meet a cache without the file it holds in every state (`one_copy_of_absent`).

* `Consistent` : the invariant.  A held object is in the list, because its `use_count` counts the
  clients, and only objects without users are evicted.
* `Consistent.dropFile`, `Consistent.insert`, … : what each step keeps.
-/

namespace MegaTree

open Effect

variable {ι : Type} {cfg : Config} {s s' : SharedCache ι}
  {f : LongId} {o : ObjectId} {c : ι} {file : NodeFile}

/-- The property: one object for each id. -/
structure OneCopy (s : SharedCache ι) : Prop where
  same : ∀ f, (s.hash f).isSome ↔ f ∈ s.list.map Prod.fst
  once : (s.list.map Prod.fst).Nodup
  shared : ∀ c c' f o o', (c, f, o) ∈ s.held → (c', f, o') ∈ s.held → o = o'

/-- A new object is pushed only while no object with its id is in the cache. -/
def InsertsAbsent (s : SharedCache ι) : SharedEvent ι → Prop
  | .insert c => ∀ f o create, s.calls c = some (.insert f o create) → s.hash f = none
  | _ => True

/-- A request with `evictNodeFileCb`. -/
def Request.evicts : Request → Bool
  | .evict _ _ => true
  | _ => false

/-- The number of uses of an object by the clients. -/
def uses (held : Multiset (ι × LongId × ObjectId)) (o : ObjectId) : ℕ :=
  held.countP fun x => x.2.2 = o

/-- The invariant. -/
structure Consistent (s : SharedCache ι) : Prop where
  once : (s.list.map Prod.fst).Nodup
  hash : ∀ f o, s.hash f = some o ↔ (f, o) ∈ s.list
  held : ∀ c f o, (c, f, o) ∈ s.held → (f, o) ∈ s.list
  users : ∀ o file, s.objects o = some file → uses s.held o ≤ file.useCount
  evicting : ∀ o file, s.objects o = some file → file.nodeState = .evicting → file.useCount = 0
  listed : ∀ f o, (f, o) ∈ s.list → o < s.fresh
  pending : ∀ f o r, (f, o, r) ∈ s.pending →
    o < s.fresh ∧ (r.evicts = true → (s.objects o).isSome → (f, o) ∈ s.list)
  inserting : ∀ c f o create, s.calls c = some (.insert f o create) →
    o < s.fresh ∧ (∀ g, (g, o) ∉ s.list) ∧ ∃ file, s.objects o = some file ∧ 0 < file.useCount
  distinct : ∀ c c' f f' o create create', s.calls c = some (.insert f o create) →
    s.calls c' = some (.insert f' o create') → c = c'

theorem uses_cons (x : ι × LongId × ObjectId) (held : Multiset (ι × LongId × ObjectId)) :
    uses (x ::ₘ held) o = uses held o + if x.2.2 = o then 1 else 0 :=
  Multiset.countP_cons ..

theorem uses_erase [DecidableEq ι] {held : Multiset (ι × LongId × ObjectId)} (h : (c, f, o) ∈ held)
    (o' : ObjectId) : uses (held.erase (c, f, o)) o' = uses held o' - if o = o' then 1 else 0 := by
  conv_rhs => rw [← Multiset.cons_erase h, uses_cons]
  split_ifs <;> omega

theorem uses_pos {held : Multiset (ι × LongId × ObjectId)} (h : (c, f, o) ∈ held) :
    0 < uses held o :=
  Multiset.countP_pos.2 ⟨_, h, rfl⟩

/-- In a list with every id once, an erased id is gone. -/
theorem mem_erase_iff {l : List (LongId × ObjectId)} (hl : (l.map Prod.fst).Nodup)
    (h : (f, o) ∈ l) {g : LongId} {o' : ObjectId} :
    (g, o') ∈ l.erase (f, o) ↔ (g, o') ∈ l ∧ g ≠ f := by
  rw [(List.Nodup.of_map _ hl).mem_erase_iff]
  constructor
  · rintro ⟨hne, hmem⟩
    refine ⟨hmem, ?_⟩
    rintro rfl
    exact hne (List.inj_on_of_nodup_map hl hmem h rfl)
  · rintro ⟨hmem, hne⟩
    exact ⟨fun he => hne (Prod.mk.inj he).1, hmem⟩

/-- A call that goes on elsewhere is not about to push an object. -/
theorem insert_of_goTo [DecidableEq ι] {stage : Option Stage} {c' : ι} {create : Bool}
    (hst : ∀ f o create, stage ≠ some (.insert f o create))
    (h : (s.goTo c stage).calls c' = some (.insert f o create)) :
    c' ≠ c ∧ s.calls c' = some (.insert f o create) := by
  simp only [SharedCache.goTo] at h
  by_cases hcc : c' = c
  · rw [hcc, Function.update_self] at h
    exact absurd h (hst f o create)
  · exact ⟨hcc, by rwa [Function.update_of_ne hcc] at h⟩

namespace Consistent

theorem opened {storage : LongId → Option ByteVec} :
    Consistent (SharedCache.opened storage : SharedCache ι) where
  once := List.nodup_nil
  hash _ _ := by simp [SharedCache.opened]
  held _ _ _ h := absurd h (Multiset.notMem_zero _)
  users _ _ h := nomatch h
  evicting _ _ h := nomatch h
  listed _ _ h := nomatch h
  pending _ _ _ h := absurd h (Multiset.notMem_zero _)
  inserting _ _ _ _ h := nomatch h
  distinct _ _ _ _ _ _ _ h := nomatch h

theorem oneCopy (h : Consistent s) : OneCopy s where
  same f := by
    rw [Option.isSome_iff_exists, List.mem_map]
    constructor
    · rintro ⟨o, ho⟩
      exact ⟨(f, o), (h.hash f o).1 ho, rfl⟩
    · rintro ⟨⟨g, o⟩, ho, rfl⟩
      exact ⟨o, (h.hash g o).2 ho⟩
  once := h.once
  shared c c' f o o' ho ho' := by
    have h₁ := (h.hash f o).2 (h.held c f o ho)
    have h₂ := (h.hash f o').2 (h.held c' f o' ho')
    exact Option.some.inj (h₁.symm.trans h₂)

/-- A file that a client holds is not being evicted. -/
theorem not_evicting (h : Consistent s) (hm : (c, f, o) ∈ s.held) (ho : s.objects o = some file) :
    file.nodeState ≠ .evicting := by
  intro he
  have h₁ := h.users o file ho
  have h₂ := h.evicting o file ho he
  have h₃ := uses_pos hm
  omega

/-- What does not touch the objects, the list and the users. -/
theorem congr (h : Consistent s) (hobj : s'.objects = s.objects) (hlist : s'.list = s.list)
    (hhash : s'.hash = s.hash) (hheld : s'.held = s.held) (hfresh : s'.fresh = s.fresh)
    (hcalls : ∀ c f o b, s'.calls c = some (.insert f o b) → s.calls c = some (.insert f o b))
    (hpend : ∀ f o r, (f, o, r) ∈ s'.pending →
      o < s.fresh ∧ (r.evicts = true → (s.objects o).isSome → (f, o) ∈ s.list)) :
    Consistent s' where
  once := by rw [hlist]; exact h.once
  hash := by rw [hlist, hhash]; exact h.hash
  held := by rw [hlist, hheld]; exact h.held
  users := by rw [hobj, hheld]; exact h.users
  evicting := by rw [hobj]; exact h.evicting
  listed := by rw [hlist, hfresh]; exact h.listed
  pending := by rw [hlist, hobj, hfresh]; exact hpend
  inserting c f o b hc := by
    rw [hlist, hobj, hfresh]
    exact h.inserting c f o b (hcalls c f o b hc)
  distinct c c' f f' o b b' hc hc' :=
    h.distinct c c' f f' o b b' (hcalls c f o b hc) (hcalls c' f' o b' hc')

/-- An object of the list gets new contents, and its users may change. -/
theorem modify {file' : NodeFile} (h : Consistent s) (ho : s.objects o = some file)
    (hobj : s'.objects = Function.update s.objects o (some file')) (hlist : s'.list.Perm s.list)
    (hhash : s'.hash = s.hash) (hfresh : s'.fresh = s.fresh)
    (hheld : ∀ c g o', (c, g, o') ∈ s'.held → (g, o') ∈ s.list)
    (husers : uses s'.held o ≤ file'.useCount)
    (hother : ∀ o', o' ≠ o → uses s'.held o' = uses s.held o')
    (hev : file'.nodeState = .evicting → file'.useCount = 0)
    (hpos : 0 < file.useCount → 0 < file'.useCount ∨ (f, o) ∈ s.list)
    (hcalls : ∀ c f o b, s'.calls c = some (.insert f o b) → s.calls c = some (.insert f o b))
    (hpend : ∀ g o' r, (g, o', r) ∈ s'.pending →
      o' < s.fresh ∧ (r.evicts = true → (s.objects o').isSome → (g, o') ∈ s.list)) :
    Consistent s' where
  once := (hlist.map _).nodup_iff.2 h.once
  hash g o' := by rw [hhash, hlist.mem_iff]; exact h.hash g o'
  held c g o' hm := hlist.mem_iff.2 (hheld c g o' hm)
  users o' k hk := by
    rw [hobj] at hk
    by_cases hoo : o' = o
    · subst hoo
      rw [Function.update_self] at hk
      exact Option.some.inj hk ▸ husers
    · rw [Function.update_of_ne hoo] at hk
      rw [hother o' hoo]
      exact h.users o' k hk
  evicting o' k hk he := by
    rw [hobj] at hk
    by_cases hoo : o' = o
    · subst hoo
      rw [Function.update_self] at hk
      obtain rfl := Option.some.inj hk
      exact hev he
    · rw [Function.update_of_ne hoo] at hk
      exact h.evicting o' k hk he
  listed g o' hm := by rw [hfresh]; exact h.listed g o' (hlist.mem_iff.1 hm)
  pending g o' r hm := by
    obtain ⟨h₁, h₂⟩ := hpend g o' r hm
    refine ⟨by rwa [hfresh], fun hr hs => hlist.mem_iff.2 (h₂ hr ?_)⟩
    rw [hobj] at hs
    by_cases hoo : o' = o
    · rw [hoo, ho]; rfl
    · rwa [Function.update_of_ne hoo] at hs
  inserting c g o' b hc := by
    obtain ⟨h₁, h₂, k, hk, hu⟩ := h.inserting c g o' b (hcalls c g o' b hc)
    refine ⟨by rwa [hfresh], fun g' hg' => h₂ g' (hlist.mem_iff.1 hg'), ?_⟩
    rw [hobj]
    by_cases hoo : o' = o
    · subst hoo
      rw [ho] at hk
      obtain rfl := Option.some.inj hk
      -- an object that is being inserted is not in the list yet, so it keeps its user
      exact ⟨file', Function.update_self .., (hpos hu).resolve_right (h₂ f)⟩
    · exact ⟨k, by rw [Function.update_of_ne hoo, hk], hu⟩
  distinct c c' f f' o b b' hc hc' :=
    h.distinct c c' f f' o b b' (hcalls c f o b hc) (hcalls c' f' o b' hc')

/-- An object without users leaves the cache and is deleted. -/
theorem remove (h : Consistent s) (ho : s.objects o = some file) (hmem : (f, o) ∈ s.list)
    (hu : file.useCount = 0) (hobj : s'.objects = Function.update s.objects o none)
    (hlist : s'.list = s.list.erase (f, o)) (hhash : s'.hash = Function.update s.hash f none)
    (hheld : s'.held = s.held) (hfresh : s'.fresh = s.fresh) (hcalls : s'.calls = s.calls)
    (hpend : s'.pending ⊆ s.pending) : Consistent s' where
  once := by
    rw [hlist]
    exact h.once.sublist (List.erase_sublist.map _)
  hash g o' := by
    rw [hlist, hhash, mem_erase_iff h.once hmem]
    by_cases hgf : g = f
    · subst hgf
      simp
    · rw [Function.update_of_ne hgf, h.hash]
      simp [hgf]
  held c g o' hm := by
    rw [hheld] at hm
    rw [hlist, mem_erase_iff h.once hmem]
    refine ⟨h.held c g o' hm, ?_⟩
    rintro rfl
    -- the only object with this id has no users
    have hoo : o' = o := Option.some.inj
      (((h.hash g o').2 (h.held c g o' hm)).symm.trans ((h.hash g o).2 hmem))
    have h₁ := uses_pos (hoo ▸ hm)
    have h₂ := h.users o file ho
    omega
  users o' k hk := by
    rw [hobj] at hk
    by_cases hoo : o' = o
    · subst hoo
      simp at hk
    · rw [Function.update_of_ne hoo] at hk
      rw [hheld]
      exact h.users o' k hk
  evicting o' k hk he := by
    rw [hobj] at hk
    by_cases hoo : o' = o
    · subst hoo
      simp at hk
    · rw [Function.update_of_ne hoo] at hk
      exact h.evicting o' k hk he
  listed g o' hm := by
    rw [hlist] at hm
    rw [hfresh]
    exact h.listed g o' (List.mem_of_mem_erase hm)
  pending g o' r hm := by
    obtain ⟨h₁, h₂⟩ := h.pending g o' r (hpend hm)
    refine ⟨by rwa [hfresh], fun hr hs => ?_⟩
    rw [hobj] at hs
    by_cases hoo : o' = o
    · subst hoo
      simp at hs
    · rw [Function.update_of_ne hoo] at hs
      rw [hlist]
      exact (List.mem_erase_of_ne fun he => hoo (Prod.mk.inj he).2).2 (h₂ hr hs)
  inserting c g o' b hc := by
    rw [hcalls] at hc
    obtain ⟨h₁, h₂, k, hk, hk'⟩ := h.inserting c g o' b hc
    have hoo : o' ≠ o := by
      rintro rfl
      exact h₂ f hmem
    refine ⟨by rwa [hfresh], fun g' hg' => h₂ g' ?_, k, ?_, hk'⟩
    · rw [hlist] at hg'
      exact List.mem_of_mem_erase hg'
    · rw [hobj, Function.update_of_ne hoo, hk]
  distinct := by rw [hcalls]; exact h.distinct

/-- A client makes a new object, which is not in the cache yet. -/
theorem create [DecidableEq ι] {create : Bool} (h : Consistent s) (hu : file.useCount = 1)
    (he : file.nodeState ≠ .evicting)
    (hobj : s'.objects = Function.update s.objects s.fresh (some file)) (hlist : s'.list = s.list)
    (hhash : s'.hash = s.hash) (hheld : s'.held = s.held) (hfresh : s'.fresh = s.fresh + 1)
    (hcalls : s'.calls = Function.update s.calls c (some (.insert f s.fresh create)))
    (hpend : ∀ g o r, (g, o, r) ∈ s'.pending →
      (g, o, r) ∈ s.pending ∨ o = s.fresh ∧ r.evicts = false) : Consistent s' where
  once := by rw [hlist]; exact h.once
  hash := by rw [hlist, hhash]; exact h.hash
  held := by rw [hlist, hheld]; exact h.held
  users o k hk := by
    rw [hobj] at hk
    rw [hheld]
    by_cases hoo : o = s.fresh
    -- nobody holds the new object
    · have : uses s.held o = 0 := by
        by_contra hne
        obtain ⟨⟨c', g, o'⟩, hm, rfl⟩ := Multiset.countP_pos.1 (Nat.pos_of_ne_zero hne)
        exact (h.listed g o' (h.held c' g o' hm)).ne hoo
      omega
    · rw [Function.update_of_ne hoo] at hk
      exact h.users o k hk
  evicting o k hk hev := by
    rw [hobj] at hk
    by_cases hoo : o = s.fresh
    · rw [hoo, Function.update_self] at hk
      exact absurd hev (Option.some.inj hk ▸ he)
    · rw [Function.update_of_ne hoo] at hk
      exact h.evicting o k hk hev
  listed g o hm := by
    rw [hlist] at hm
    rw [hfresh]
    exact (h.listed g o hm).trans (Nat.lt_succ_self _)
  pending g o r hm := by
    rw [hfresh, hlist, hobj]
    rcases hpend g o r hm with hm | ⟨rfl, hr⟩
    · obtain ⟨h₁, h₂⟩ := h.pending g o r hm
      refine ⟨h₁.trans (Nat.lt_succ_self _), fun hr hs => h₂ hr ?_⟩
      rwa [Function.update_of_ne h₁.ne] at hs
    · exact ⟨Nat.lt_succ_self _, fun hr' => by rw [hr] at hr'; cases hr'⟩
  inserting c' g o b hc := by
    rw [hcalls] at hc
    rw [hlist, hobj, hfresh]
    by_cases hcc : c' = c
    · subst hcc
      rw [Function.update_self] at hc
      obtain ⟨-, rfl, -⟩ := Stage.insert.inj (Option.some.inj hc)
      exact ⟨Nat.lt_succ_self _, fun g' hg' => (h.listed g' _ hg').false, file,
        Function.update_self .., by omega⟩
    · rw [Function.update_of_ne hcc] at hc
      obtain ⟨h₁, h₂, k, hk, hk'⟩ := h.inserting c' g o b hc
      exact ⟨h₁.trans (Nat.lt_succ_self _), h₂, k, by rw [Function.update_of_ne h₁.ne, hk], hk'⟩
  distinct c₁ c₂ g g' o b b' hc₁ hc₂ := by
    rw [hcalls] at hc₁ hc₂
    -- the object is new, so that no other call inserts it
    by_cases h₁ : c₁ = c <;> by_cases h₂ : c₂ = c
    · exact h₁.trans h₂.symm
    · rw [h₁, Function.update_self] at hc₁
      rw [Function.update_of_ne h₂] at hc₂
      obtain ⟨-, rfl, -⟩ := Stage.insert.inj (Option.some.inj hc₁)
      exact absurd (h.inserting c₂ g' _ b' hc₂).1 (lt_irrefl _)
    · rw [h₂, Function.update_self] at hc₂
      rw [Function.update_of_ne h₁] at hc₁
      obtain ⟨-, rfl, -⟩ := Stage.insert.inj (Option.some.inj hc₂)
      exact absurd (h.inserting c₁ g _ b hc₁).1 (lt_irrefl _)
    · rw [Function.update_of_ne h₁] at hc₁
      rw [Function.update_of_ne h₂] at hc₂
      exact h.distinct c₁ c₂ g g' o b b' hc₁ hc₂

/-- The new object is pushed, and no other object with its id is in the cache. -/
theorem insert [DecidableEq ι] {create : Bool} {stage : Option Stage} (h : Consistent s)
    (hc : s.calls c = some (.insert f o create)) (habs : s.hash f = none)
    (hst : ∀ g o' b, stage ≠ some (.insert g o' b)) (hobj : s'.objects = s.objects)
    (hlist : s'.list = (f, o) :: s.list) (hhash : s'.hash = Function.update s.hash f (some o))
    (hheld : s'.held = (c, f, o) ::ₘ s.held) (hfresh : s'.fresh = s.fresh)
    (hcalls : s'.calls = Function.update s.calls c stage) (hpend : s'.pending = s.pending) :
    Consistent s' := by
  obtain ⟨hlt, hnot, k, hk, hpos⟩ := h.inserting c f o create hc
  have hcalls' : ∀ c' g o' b, s'.calls c' = some (.insert g o' b) →
      c' ≠ c ∧ s.calls c' = some (.insert g o' b) := by
    intro c' g o' b hc'
    rw [hcalls] at hc'
    by_cases hcc : c' = c
    · rw [hcc, Function.update_self] at hc'
      exact absurd hc' (hst g o' b)
    · exact ⟨hcc, by rwa [Function.update_of_ne hcc] at hc'⟩
  have hnew : ∀ o', (f, o') ∉ s.list := fun o' hm => by
    rw [(h.hash f o').2 hm] at habs
    cases habs
  have hunused : uses s.held o = 0 := by
    by_contra hne
    obtain ⟨⟨c', g, o'⟩, hm, rfl⟩ := Multiset.countP_pos.1 (Nat.pos_of_ne_zero hne)
    exact hnot g (h.held c' g o' hm)
  constructor
  · rw [hlist, List.map_cons, List.nodup_cons]
    refine ⟨fun hm => ?_, h.once⟩
    obtain ⟨⟨g, o'⟩, hg, rfl⟩ := List.mem_map.1 hm
    exact hnew o' hg
  · intro g o'
    rw [hlist, hhash, List.mem_cons]
    by_cases hgf : g = f
    · subst hgf
      rw [Function.update_self]
      simp [hnew o', eq_comm]
    · rw [Function.update_of_ne hgf, h.hash]
      simp [hgf]
  · intro c' g o' hm
    rw [hheld] at hm
    rw [hlist]
    rcases Multiset.mem_cons.1 hm with he | hm
    · obtain ⟨-, rfl, rfl⟩ := Prod.mk.inj he |>.imp id Prod.mk.inj
      exact List.mem_cons_self
    · exact List.mem_cons_of_mem _ (h.held c' g o' hm)
  · intro o' file' hf'
    rw [hobj] at hf'
    rw [hheld, uses_cons]
    split_ifs with hoo
    · simp only at hoo
      subst hoo
      rw [hk] at hf'
      obtain rfl := Option.some.inj hf'
      omega
    · exact h.users o' file' hf'
  · rw [hobj]
    exact h.evicting
  · intro g o' hm
    rw [hlist] at hm
    rw [hfresh]
    rcases List.mem_cons.1 hm with he | hm
    · obtain ⟨-, rfl⟩ := Prod.mk.inj he
      exact hlt
    · exact h.listed g o' hm
  · intro g o' r hm
    rw [hpend] at hm
    rw [hfresh, hlist, hobj]
    exact (h.pending g o' r hm).imp_right fun hmem hr hs => List.mem_cons_of_mem _ (hmem hr hs)
  · intro c' g o' b hc'
    obtain ⟨hcc, hc'⟩ := hcalls' c' g o' b hc'
    rw [hfresh, hlist, hobj]
    obtain ⟨h₁, h₂, h₃⟩ := h.inserting c' g o' b hc'
    refine ⟨h₁, fun g' hg' => ?_, h₃⟩
    rcases List.mem_cons.1 hg' with he | hg'
    · -- two clients never push the same object
      obtain ⟨-, rfl⟩ := Prod.mk.inj he
      exact hcc (h.distinct c' c g f _ b create hc' hc)
    · exact h₂ g' hg'
  · intro c₁ c₂ g g' o' b b' hc₁ hc₂
    exact h.distinct c₁ c₂ g g' o' b b' (hcalls' c₁ g o' b hc₁).2 (hcalls' c₂ g' o' b' hc₂).2

/-! ### The steps -/

theorem dropFile (h : Consistent s) (ho : s.objects o = some file) (hmem : (f, o) ∈ s.list)
    (hu : file.useCount = 0) : Consistent (s.dropFile f o file) :=
  h.remove ho hmem hu rfl rfl rfl rfl rfl rfl (Multiset.Subset.refl _)

theorem startEvict (h : Consistent s) (ho : s.objects o = some file) (hmem : (f, o) ∈ s.list)
    (hu : file.useCount = 0) : Consistent (s.startEvict f o file) := by
  refine h.modify (f := f) ho rfl (.refl _) rfl rfl h.held (h.users o file ho) (fun _ _ => rfl)
    (fun _ => hu) (fun hpos => .inl hpos) (fun _ _ _ _ => id) fun g o' r hm => ?_
  rcases Multiset.mem_cons.1 hm with he | hm
  · obtain ⟨rfl, rfl, rfl⟩ : g = f ∧ o' = o ∧ r = .evict (serialize file.data) false := by
      simpa using he
    exact ⟨h.listed g o' hmem, fun _ _ => hmem⟩
  · exact h.pending g o' r hm

/-- The loop only meets objects that are still in the list. -/
theorem evictLoop {busy : ObjectId → Bool} {k : Int32} {rest : List (LongId × ObjectId)}
    {number : Int32} (h : Consistent s) (hnd : rest.Nodup) (hrest : ∀ x ∈ rest, x ∈ s.list)
    (hs : SharedCache.evictLoop cfg busy k rest number s = some s') : Consistent s' := by
  induction rest generalizing s number with
  | nil =>
    rw [SharedCache.evictLoop] at hs
    split_ifs at hs
    exact Option.some.inj hs ▸ h
  | cons x rest ih =>
    obtain ⟨f, o⟩ := x
    obtain ⟨hx, hnd'⟩ := List.nodup_cons.1 hnd
    have hmem : (f, o) ∈ s.list := hrest _ List.mem_cons_self
    have hrest' : ∀ x ∈ rest, x ∈ s.list := fun x hx => hrest x (List.mem_cons_of_mem _ hx)
    rw [SharedCache.evictLoop] at hs
    by_cases hk : number < k
    · rw [if_pos hk] at hs
      cases ho : s.objects o with
      | none => rw [ho] at hs; cases hs
      | some file =>
        simp only [ho] at hs
        split_ifs at hs with hskip hclean
        · exact ih h hnd' hrest' hs
        · simp only [Bool.or_eq_true, decide_eq_true_eq, not_or] at hskip
          refine ih (h.dropFile ho hmem (by omega)) hnd' (fun y hy => ?_) hs
          have hne : y ≠ (f, o) := by
            rintro rfl
            exact hx hy
          exact (List.mem_erase_of_ne hne).2 (hrest' y hy)
        · simp only [Bool.or_eq_true, decide_eq_true_eq, not_or] at hskip
          exact ih (h.startEvict ho hmem (by omega)) hnd' hrest' hs
    · rw [if_neg hk] at hs
      exact Option.some.inj hs ▸ h

theorem cacheMaintenance {busy : ObjectId → Bool} (h : Consistent s)
    (hs : s.cacheMaintenance cfg busy = some s') : Consistent s' := by
  unfold SharedCache.cacheMaintenance at hs
  split_ifs at hs
  exact h.evictLoop (List.nodup_reverse.2 (List.Nodup.of_map _ h.once))
    (fun x hx => List.mem_reverse.1 hx) hs

theorem evictNodeFileCb (h : Consistent s) (hmem : (s.objects o).isSome → (f, o) ∈ s.list)
    (hs : s.evictNodeFileCb f o = some s') : Consistent s' := by
  unfold SharedCache.evictNodeFileCb at hs
  split_ifs at hs
  obtain ⟨file, ho, hs⟩ := Option.bind_eq_some_iff.1 hs
  have hmem : (f, o) ∈ s.list := hmem (by rw [ho]; rfl)
  split_ifs at hs
  split at hs
  · rename_i hev
    obtain rfl := Option.some.inj hs
    exact h.remove ho hmem (h.evicting o file ho hev) rfl rfl rfl rfl rfl rfl
      (Multiset.Subset.refl _)
  · obtain rfl := Option.some.inj hs
    exact h.modify (f := f) ho rfl (.refl _) rfl rfl h.held (h.users o file ho) (fun _ _ => rfl)
      nofun .inl (fun _ _ _ _ => id) h.pending
  · cases hs

theorem readNodeFileCb {buffer : ByteVec} (h : Consistent s)
    (hs : s.readNodeFileCb o buffer = some s') : Consistent s' := by
  unfold SharedCache.readNodeFileCb at hs
  split_ifs at hs
  obtain ⟨file, ho, hs⟩ := Option.bind_eq_some_iff.1 hs
  obtain ⟨data, -, rfl⟩ := Option.map_eq_some_iff.1 hs
  exact h.modify (f := .ofValue 0) ho rfl (.refl _) rfl rfl h.held (h.users o file ho)
    (fun _ _ => rfl)
    nofun .inl (fun _ _ _ _ => id) h.pending

theorem complete {r : Request} (h : Consistent s) (hs : s.complete f o r = some s') :
    Consistent s' := by
  unfold SharedCache.complete at hs
  split_ifs at hs with hm
  have rest : ∀ r' : Request, (r'.evicts = true → r.evicts = true) → ∀ g o' r'',
      (g, o', r'') ∈ (f, o, r') ::ₘ s.pending.erase (f, o, r) →
      o' < s.fresh ∧ (r''.evicts = true → (s.objects o').isSome → (g, o') ∈ s.list) := by
    intro r' hr' g o' r'' hm'
    rcases Multiset.mem_cons.1 hm' with he | hm'
    · obtain ⟨rfl, rfl, rfl⟩ : g = f ∧ o' = o ∧ r'' = r' := by simpa using he
      exact (h.pending g o' r hm).imp_right fun hr hev => hr (hr' hev)
    · exact h.pending g o' r'' (Multiset.mem_of_mem_erase hm')
  split at hs
  · obtain ⟨b, -, rfl⟩ := Option.map_eq_some_iff.1 hs
    exact h.congr rfl rfl rfl rfl rfl (fun _ _ _ _ => id) (rest _ nofun)
  · obtain rfl := Option.some.inj hs
    exact h.congr rfl rfl rfl rfl rfl (fun _ _ _ _ => id) (rest _ fun _ => rfl)
  · cases hs

theorem callback {r : Request} (h : Consistent s) (hs : s.callback f o r = some s') :
    Consistent s' := by
  unfold SharedCache.callback at hs
  split_ifs at hs with hm
  have h' : Consistent { s with pending := s.pending.erase (f, o, r) } :=
    h.congr rfl rfl rfl rfl rfl (fun _ _ _ _ => id) fun g o' r' hm' =>
      h.pending g o' r' (Multiset.mem_of_mem_erase hm')
  split at hs
  · exact h'.readNodeFileCb hs
  · exact h'.evictNodeFileCb ((h.pending f o _ hm).2 rfl) hs
  · cases hs

variable [DecidableEq ι]

theorem getNodeFile (h : Consistent s) (hs : s.getNodeFile c f = some s') : Consistent s' := by
  unfold SharedCache.getNodeFile at hs
  split_ifs at hs with hfree
  cases hf : s.hash f with
  | none =>
    rw [hf] at hs
    obtain rfl := Option.some.inj hs
    refine h.congr rfl rfl rfl rfl rfl (fun c' g o b hc => ?_) h.pending
    exact (insert_of_goTo (by simp) hc).2
  | some o =>
    simp only [hf] at hs
    obtain ⟨file, ho, rfl⟩ := Option.map_eq_some_iff.1 hs
    have hmem := (h.hash f o).1 hf
    refine h.modify (f := f) ho rfl (List.perm_cons_erase hmem).symm rfl rfl (fun c' g o' hm => ?_)
      ?_ (fun o' hoo => ?_) (fun he => ?_) (fun _ => .inr hmem) (fun _ _ _ _ => id) h.pending
    · rcases Multiset.mem_cons.1 hm with he | hm
      · obtain ⟨-, he⟩ := Prod.mk.inj he
        exact he ▸ hmem
      · exact h.held c' g o' hm
    · rw [uses_cons]
      simpa using h.users o file ho
    · rw [uses_cons, if_neg (Ne.symm hoo), Nat.add_zero]
    · simp only at he
      split_ifs at he with hev
      exact absurd he hev

theorem request {modified : Bool} (h : Consistent s) (hs : s.request c modified = some s') :
    Consistent s' := by
  unfold SharedCache.request at hs
  split at hs
  · rename_i f hc
    obtain rfl := Option.some.inj hs
    refine h.create (c := c) (f := f) rfl (by simp) rfl rfl rfl rfl rfl rfl fun g o r hm => ?_
    rcases Multiset.mem_cons.1 hm with he | hm
    · obtain ⟨rfl, rfl, rfl⟩ : g = f ∧ o = s.fresh ∧ r = .read none := by simpa using he
      exact .inr ⟨rfl, rfl⟩
    · exact .inl hm
  · cases hs

theorem createNodeFile (h : Consistent s) (hs : s.createNodeFile c f = some s') :
    Consistent s' := by
  unfold SharedCache.createNodeFile at hs
  split_ifs at hs
  obtain rfl := Option.some.inj hs
  exact h.create (c := c) (f := f) rfl (by simp) rfl rfl rfl rfl rfl rfl fun _ _ _ => .inl

theorem insertStep (h : Consistent s) (hok : InsertsAbsent s (.insert c))
    (hs : s.insert c = some s') : Consistent s' := by
  unfold SharedCache.insert at hs
  split_ifs at hs
  split at hs
  · rename_i f o create hc
    obtain rfl := Option.some.inj hs
    have habs := hok f o create hc
    refine h.insert hc habs ?_ rfl rfl ?_ rfl rfl rfl rfl
    · intro _ _ _
      split_ifs <;> simp
    · simp [SharedCache.pushFront, SharedCache.goTo, habs]
  · cases hs

theorem maintain {busy : ObjectId → Bool} (h : Consistent s)
    (hs : s.maintain cfg c busy = some s') : Consistent s' := by
  unfold SharedCache.maintain at hs
  split_ifs at hs
  have h' : Consistent (s.goTo c none) := h.congr rfl rfl rfl rfl rfl
    (fun _ _ _ _ hc => (insert_of_goTo (by simp) hc).2) h.pending
  exact h'.cacheMaintenance hs

theorem update {data : FileData} {modified : Bool} {added : UInt32} (h : Consistent s)
    (hs : s.update c f o data modified added = some s') : Consistent s' := by
  unfold SharedCache.update at hs
  split_ifs at hs with hm
  obtain ⟨file, ho, rfl⟩ := Option.map_eq_some_iff.1 hs
  exact h.modify (f := f) ho rfl (.refl _) rfl rfl h.held (h.users o file ho) (fun _ _ => rfl)
    (h.evicting o file ho) .inl (fun _ _ _ _ => id) h.pending

theorem addUser (h : Consistent s) (hs : s.addUser c f o = some s') : Consistent s' := by
  unfold SharedCache.addUser at hs
  split_ifs at hs with hm
  obtain ⟨file, ho, rfl⟩ := Option.map_eq_some_iff.1 hs
  have hev := h.not_evicting hm ho
  refine h.modify (f := f) ho rfl (.refl _) rfl rfl (fun c' g o' hm' => ?_) ?_ (fun o' hoo => ?_)
    (fun he => absurd he hev) (fun _ => .inl (Nat.succ_pos _))
    (fun _ _ _ _ => id) h.pending
  · rcases Multiset.mem_cons.1 hm' with he | hm'
    · obtain ⟨-, he⟩ := Prod.mk.inj he
      exact he ▸ h.held c f o hm
    · exact h.held c' g o' hm'
  · rw [uses_cons]
    simpa using h.users o file ho
  · rw [uses_cons, if_neg (Ne.symm hoo), Nat.add_zero]

theorem removeUser {modified : Bool} (h : Consistent s)
    (hs : s.removeUser c f o modified = some s') : Consistent s' := by
  unfold SharedCache.removeUser at hs
  split_ifs at hs with hm
  obtain ⟨file, ho, hs⟩ := Option.bind_eq_some_iff.1 hs
  split_ifs at hs with hpos
  obtain rfl := Option.some.inj hs
  have hev := h.not_evicting hm.1 ho
  refine h.modify (f := f) ho rfl (.refl _) rfl rfl
    (fun c' g o' hm' => h.held c' g o' (Multiset.mem_of_mem_erase hm')) ?_ (fun o' hoo => ?_)
    (fun he => absurd he hev) (fun _ => .inr (h.held c f o hm.1))
    (fun _ _ _ _ => id) h.pending
  · rw [uses_erase hm.1, if_pos rfl]
    exact Nat.sub_le_sub_right (h.users o file ho) 1
  · rw [uses_erase hm.1, if_neg (Ne.symm hoo), Nat.sub_zero]

/-- Every step keeps the invariant, if it does not push a file that is already there. -/
theorem step {e : SharedEvent ι} (h : Consistent s) (hok : InsertsAbsent s e)
    (hs : SharedCache.step cfg e s = some s') : Consistent s' := by
  cases e with
  | getNodeFile c f => exact h.getNodeFile hs
  | request c modified => exact h.request hs
  | createNodeFile c f => exact h.createNodeFile hs
  | insert c => exact h.insertStep hok hs
  | maintain c busy => exact h.maintain hs
  | update c f o data modified added => exact h.update hs
  | addUser c f o => exact h.addUser hs
  | removeUser c f o modified => exact h.removeUser hs
  | complete f o r => exact h.complete hs
  | callback f o r => exact h.callback hs
  | maintenance busy =>
    simp only [SharedCache.step] at hs
    split_ifs at hs
    have h' : Consistent { s with loaders := s.loaders - 1 } :=
      h.congr rfl rfl rfl rfl rfl (fun _ _ _ _ => id) h.pending
    exact h'.cacheMaintenance hs

end Consistent

/-- **One cached copy per file**, in every state of a run that never pushes a file that is already
in the cache. -/
theorem one_copy_of_absent [DecidableEq ι] {storage : LongId → Option ByteVec}
    (h : Reach (SharedCache.step cfg) InsertsAbsent (SharedCache.opened storage) s) : OneCopy s :=
  (h.invariant (I := Consistent) Consistent.opened fun _ _ _ hi hok hs => hi.step hok hs).oneCopy

/-- One client opens the first file and takes its root. -/
theorem one_copy_of_absent_single : ∃ s : SharedCache (Fin 2),
    Reach (SharedCache.step .sample) InsertsAbsent
      (SharedCache.opened fun _ => some (serialize .empty)) s ∧
    OneCopy s ∧ s.list = [(.ofValue 0, 0)] := by
  have hrun : Reach (SharedCache.step .sample) InsertsAbsent
      (SharedCache.opened fun _ => some (serialize .empty) : SharedCache (Fin 2)) _ :=
    .tail (.insert 0) (.tail (.request 0 false) (.tail (.getNodeFile 0 (.ofValue 0)) .refl
      trivial rfl) trivial rfl) (by rintro f o create -; rfl) rfl
  exact ⟨_, hrun, one_copy_of_absent hrun, rfl⟩

/-- Two clients miss the same file, and both push an object. -/
theorem oneCopy_race : ∃ s : SharedCache (Fin 2),
    Reach (SharedCache.step .sample) (fun _ _ => True)
      (SharedCache.opened fun _ => some (serialize .empty)) s ∧ ¬ OneCopy s := by
  obtain ⟨s, hs, hlist⟩ : ∃ s, play (SharedCache.step .sample)
      [.getNodeFile 0 (.ofValue 0), .getNodeFile 1 (.ofValue 0), .request 0 false,
        .request 1 false, .insert 0, .insert 1]
      (SharedCache.opened fun _ => some (serialize .empty) : SharedCache (Fin 2)) = some s ∧
      s.list.map Prod.fst = [.ofValue 0, .ofValue 0] := ⟨_, rfl, rfl⟩
  refine ⟨s, .of_play hs, fun h => ?_⟩
  have := h.once
  rw [hlist] at this
  simp at this

end MegaTree
