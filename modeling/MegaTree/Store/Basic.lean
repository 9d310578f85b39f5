import MegaTree.Tree.Op

/-!
# The store that never evicts

The reference meaning of the operations of the file cache: every file that was ever created stays
in memory, so a node is always found where it was put.  The store also keeps the books about the
client, and refuses (`none`) an operation that the client may not call:

* a file is used only while it has a user, and its nodes are read only after the client has seen
  the file `LOADED`;
* a user is given back once, and a handle that was modified is released as modified;
* a write through the bare `Node*` of `copyToChildNode` needs a file that is modified anyway.

## Main definitions

* `Store`, `Store.step` : the states and the meaning of the operations.
* `Live σ L` : the handles and users of the client are exactly the tokens in the list `L`.

The `wp_` lemmas are the rules for the operations in these terms.
-/

namespace MegaTree

open Effect

/-- What the client currently holds of a file. -/
structure FileUse where
  /-- Number of users: handles, and functions that work on the file. -/
  users : ℕ
  /-- Number of handles that are marked as modified. -/
  marked : ℕ
  /-- The client has seen the file `LOADED` since it became a user. -/
  ready : Bool
  /-- The file became modified since the client became a user. -/
  dirty : Bool

namespace FileUse

/-- One user more; the first one knows nothing about the file. -/
def addUser (u : FileUse) : FileUse :=
  if u.users = 0 then ⟨1, 0, false, false⟩ else { u with users := u.users + 1 }

/-- One user less; `modified` says whether it was a handle that is marked as modified. -/
def removeUser (u : FileUse) (modified : Bool) : FileUse :=
  { u with
    users := u.users - 1
    marked := u.marked - modified.toNat
    dirty := u.dirty || modified }

end FileUse

/-- The files, what the client holds of them, and whether it is inside `flushCache`. -/
structure Store where
  /-- The contents of every file. -/
  files : LongId → Option FileData
  /-- The users of every file. -/
  uses : LongId → FileUse
  /-- The client is inside `flushCache`. -/
  flushing : Bool

/-- What an operation leaves open. -/
structure Choice where
  /-- Whether a file that the client has not waited for happens to be loaded. -/
  loaded : Bool
  /-- The files in the order in which `flushCache` visits them. -/
  listing : List LongId
  /-- What a node object held before it was allocated again. -/
  stale : Node

/-- The choice of a client that meets all files loaded and all nodes fresh. -/
def Choice.plain : Choice := ⟨true, [], .new⟩

namespace Store

/-- The store without files. -/
def init : Store := ⟨fun _ => none, fun _ => ⟨0, 0, false, false⟩, false⟩

/-- The node with a short id in a file. -/
def lookup (σ : Store) (f : LongId) (s : ShortId) : Option Node :=
  (σ.files f).bind fun d => d.nodeCache[s]?

/-- Replace the contents of a file. -/
def setFile (σ : Store) (f : LongId) (d : FileData) : Store :=
  { σ with files := Function.update σ.files f (some d) }

/-- Replace what the client holds of a file. -/
def setUse (σ : Store) (f : LongId) (u : FileUse) : Store :=
  { σ with uses := Function.update σ.uses f u }

/-- The reply `x`, if the client is not inside `flushCache` and the condition `b` holds. -/
def check {α : Type} (σ : Store) (b : Bool) (x : α) : Option α :=
  if σ.flushing = false ∧ b = true then some x else none

/-- Whether a handle may be written in the way `w` says. -/
def mayWrite (u : FileUse) : Write → Bool
  | .first => decide (u.marked < u.users)
  | .again => decide (0 < u.marked)
  | .copy => u.dirty || decide (0 < u.marked)
  | .merge => true

/-- The meaning of the operations. -/
def step (c : Choice) (o : CacheOp) (σ : Store) : Option (o.Res × Store) :=
  match o with
  | .getNodeFile f => σ.check (σ.files f).isSome ((), σ.setUse f (σ.uses f).addUser)
  | .createNodeFile f => σ.check (σ.files f).isNone
      ((), (σ.setFile f .empty).setUse f { (σ.uses f).addUser with ready := true, dirty := true })
  | .cacheMaintenance => σ.check true ((), σ)
  | .waitUntilLoaded f => σ.check (decide (0 < (σ.uses f).users))
      ((), σ.setUse f { σ.uses f with ready := true })
  | .isLoaded f => σ.check (decide (0 < (σ.uses f).users))
      ((σ.uses f).ready || c.loaded,
        σ.setUse f { σ.uses f with ready := (σ.uses f).ready || c.loaded })
  | .hasChildFile f child =>
    match σ.files f with
    | some d => σ.check (decide (0 < (σ.uses f).users) && (σ.uses f).ready)
        (d.hasChildFile child, σ)
    | none => none
  | .setChildFile f child =>
    match σ.files f with
    | some d => σ.check (decide (0 < (σ.uses f).users) && (σ.uses f).ready)
        ((), (σ.setFile f (d.setChildFile child)).setUse f { σ.uses f with dirty := true })
    | none => none
  | .readNode f s =>
    match σ.lookup f s with
    | some _ => σ.check (decide (0 < (σ.uses f).users)) (true, σ.setUse f (σ.uses f).addUser)
    | none => σ.check (decide (0 < (σ.uses f).users) && (σ.uses f).ready) (false, σ)
  | .createNode f s =>
    match σ.files f with
    | some d => σ.check (decide (0 < (σ.uses f).users) && (σ.uses f).ready &&
        (d.nodeCache[s]?).isNone) ((), (σ.setFile f (d.setNode s c.stale.reset)).setUse f
          { (σ.uses f).addUser with dirty := true })
    | none => none
  | .countNode => σ.check true ((), σ)
  | .removeUser f => σ.check (decide ((σ.uses f).marked < (σ.uses f).users))
      ((), σ.setUse f ((σ.uses f).removeUser false))
  | .getNode f s =>
    match σ.lookup f s with
    | some n => σ.check (decide (0 < (σ.uses f).users) && (σ.uses f).ready) (n, σ)
    | none => none
  | .setNode f s n w =>
    match σ.files f with
    | some d => σ.check (decide (0 < (σ.uses f).users) && (σ.uses f).ready &&
        (d.nodeCache[s]?).isSome && mayWrite (σ.uses f) w)
        ((), (σ.setFile f (d.setNode s n)).setUse f
          { σ.uses f with marked := (σ.uses f).marked + (if w = .first then 1 else 0) })
    | none => none
  | .releaseNode f modified => σ.check (decide (0 < (σ.uses f).users) &&
      if modified then decide (0 < (σ.uses f).marked)
      else decide ((σ.uses f).marked < (σ.uses f).users))
        ((), σ.setUse f ((σ.uses f).removeUser modified))
  | .flushBegin => σ.check true
      (c.listing, { σ with uses := fun f => { σ.uses f with dirty := false }, flushing := true })
  | .flushFile _ => if σ.flushing then some ((), σ) else none
  | .flushWait => if σ.flushing then some ((), { σ with flushing := false }) else none

@[simp] theorem setFile_files (σ : Store) (f : LongId) (d : FileData) :
    (σ.setFile f d).files = Function.update σ.files f (some d) := rfl
@[simp] theorem setFile_uses (σ : Store) (f : LongId) (d : FileData) :
    (σ.setFile f d).uses = σ.uses := rfl
@[simp] theorem setFile_flushing (σ : Store) (f : LongId) (d : FileData) :
    (σ.setFile f d).flushing = σ.flushing := rfl
@[simp] theorem setUse_files (σ : Store) (f : LongId) (u : FileUse) :
    (σ.setUse f u).files = σ.files := rfl
@[simp] theorem setUse_uses (σ : Store) (f : LongId) (u : FileUse) :
    (σ.setUse f u).uses = Function.update σ.uses f u := rfl
@[simp] theorem setUse_flushing (σ : Store) (f : LongId) (u : FileUse) :
    (σ.setUse f u).flushing = σ.flushing := rfl

theorem check_eq_some {α : Type} {σ : Store} {b : Bool} {x : α} (h : σ.flushing = false)
    (hb : b = true) : σ.check b x = some x := by simp [check, h, hb]

end Store

/-! ### The books -/

/-- One user of a file and what is known about it. -/
structure Token where
  /-- The file. -/
  file : LongId
  /-- The user is a handle that is marked as modified. -/
  modified : Bool
  /-- The file is known to be loaded. -/
  loaded : Bool
  /-- The file is known to be modified. -/
  dirty : Bool

/-- The users of the files are exactly the tokens in `L`, and what the tokens know is true. -/
structure Live (σ : Store) (L : List Token) : Prop where
  idle : σ.flushing = false
  users : ∀ f, (σ.uses f).users = L.countP fun t => decide (t.file = f)
  marked : ∀ f, (σ.uses f).marked = L.countP fun t => decide (t.file = f) && t.modified
  ready : ∀ t ∈ L, t.loaded = true → (σ.uses t.file).ready = true
  dirty : ∀ t ∈ L, t.dirty = true → (σ.uses t.file).dirty = true
  stored : ∀ t ∈ L, (σ.files t.file).isSome

namespace Live

variable {σ : Store} {L L' : List Token} {t : Token} {f : LongId}

theorem init : Live .init [] where
  idle := rfl
  users _ := rfl
  marked _ := rfl
  ready _ h := nomatch h
  dirty _ h := nomatch h
  stored _ h := nomatch h

theorem perm (h : Live σ L) (hp : L.Perm L') : Live σ L' where
  idle := h.idle
  users f := (h.users f).trans (hp.countP_eq _)
  marked f := (h.marked f).trans (hp.countP_eq _)
  ready t ht := h.ready t (hp.mem_iff.2 ht)
  dirty t ht := h.dirty t (hp.mem_iff.2 ht)
  stored t ht := h.stored t (hp.mem_iff.2 ht)

theorem swap {t u : Token} (h : Live σ (t :: u :: L)) : Live σ (u :: t :: L) :=
  h.perm (.swap u t L)

/-- Forget that the file of a token is modified. -/
theorem forget {m l d : Bool} (h : Live σ (⟨f, m, l, d⟩ :: L)) :
    Live σ (⟨f, m, l, false⟩ :: L) where
  idle := h.idle
  users := h.users
  marked := h.marked
  ready u hu hr := by
    rcases List.mem_cons.1 hu with rfl | hu
    · exact h.ready ⟨f, m, l, d⟩ List.mem_cons_self hr
    · exact h.ready u (List.mem_cons_of_mem _ hu) hr
  dirty u hu hr := by
    rcases List.mem_cons.1 hu with rfl | hu
    · cases hr
    · exact h.dirty u (List.mem_cons_of_mem _ hu) hr
  stored u hu := by
    rcases List.mem_cons.1 hu with rfl | hu
    · exact h.stored ⟨f, m, l, d⟩ List.mem_cons_self
    · exact h.stored u (List.mem_cons_of_mem _ hu)

/-- Forget that the file of a token is loaded. -/
theorem unload {m l d : Bool} (h : Live σ (⟨f, m, l, d⟩ :: L)) :
    Live σ (⟨f, m, false, d⟩ :: L) where
  idle := h.idle
  users := h.users
  marked := h.marked
  ready u hu hr := by
    rcases List.mem_cons.1 hu with rfl | hu
    · cases hr
    · exact h.ready u (List.mem_cons_of_mem _ hu) hr
  dirty u hu hr := by
    rcases List.mem_cons.1 hu with rfl | hu
    · exact h.dirty ⟨f, m, l, d⟩ List.mem_cons_self hr
    · exact h.dirty u (List.mem_cons_of_mem _ hu) hr
  stored u hu := by
    rcases List.mem_cons.1 hu with rfl | hu
    · exact h.stored ⟨f, m, l, d⟩ List.mem_cons_self
    · exact h.stored u (List.mem_cons_of_mem _ hu)

theorem users_pos (h : Live σ L) (ht : t ∈ L) : 0 < (σ.uses t.file).users := by
  rw [h.users, List.countP_pos_iff]
  exact ⟨t, ht, by simp⟩

theorem marked_le (h : Live σ L) (f : LongId) : (σ.uses f).marked ≤ (σ.uses f).users := by
  rw [h.users, h.marked]
  exact List.countP_mono_left fun t _ ht => by simp_all

theorem marked_pos (h : Live σ L) (ht : t ∈ L) (hm : t.modified = true) :
    0 < (σ.uses t.file).marked := by
  rw [h.marked, List.countP_pos_iff]
  exact ⟨t, ht, by simp [hm]⟩

theorem marked_lt (h : Live σ (t :: L)) (hm : t.modified = false) :
    (σ.uses t.file).marked < (σ.uses t.file).users := by
  rw [h.users, h.marked, List.countP_cons_of_neg (by simp [hm]),
    List.countP_cons_of_pos (by simp)]
  exact Nat.lt_succ_of_le (List.countP_mono_left fun t _ ht => by simp_all)

/-- Without tokens of a file the client holds nothing of it. -/
theorem users_eq_zero (h : Live σ []) (f : LongId) : (σ.uses f).users = 0 := h.users f

/-! What the changes of the books do to the tokens. -/

theorem addUser (h : Live σ L) (hs : (σ.files f).isSome) {l d : Bool} :
    Live (σ.setUse f ⟨(σ.uses f).addUser.users, (σ.uses f).addUser.marked,
      (σ.uses f).addUser.ready || l, (σ.uses f).addUser.dirty || d⟩) (⟨f, false, l, d⟩ :: L) := by
  have hz : (σ.uses f).users = 0 → ∀ t ∈ L, t.file ≠ f := fun hu t ht hf => by
    have := h.users_pos ht
    rw [hf] at this
    omega
  have old : ∀ t ∈ L, ∀ b : FileUse → Bool, b (σ.uses t.file) = true →
      (∀ u : FileUse, b ⟨u.users + 1, u.marked, u.ready || l, u.dirty || d⟩ = true ∨ b u = false) →
      b (Function.update σ.uses f ⟨(σ.uses f).addUser.users, (σ.uses f).addUser.marked,
        (σ.uses f).addUser.ready || l, (σ.uses f).addUser.dirty || d⟩ t.file) = true := by
    intro t ht b hb hmono
    by_cases hf : t.file = f
    · have hu : (σ.uses f).users ≠ 0 := fun hu => hz hu t ht hf
      have hmono := hmono (σ.uses f)
      rw [hf] at hb
      rw [hf, Function.update_self]
      simp only [FileUse.addUser, hu, if_false]
      rcases hmono with h' | h'
      · exact h'
      · rw [hb] at h'; exact absurd h' (by simp)
    · rw [Function.update_of_ne hf]; exact hb
  refine ⟨h.idle, fun g => ?_, fun g => ?_, fun t ht hl => ?_, fun t ht hd => ?_, fun t ht => ?_⟩
  · have hg := h.users g
    by_cases hfg : g = f
    · subst hfg
      simp only [Store.setUse_uses, Function.update_self, FileUse.addUser, List.countP_cons,
        decide_true, if_true]
      split_ifs with hu
      · simp only; omega
      · simp only; omega
    · have hfg' : f ≠ g := fun e => hfg e.symm
      simp [hfg, hfg', hg]
  · have hg := h.marked g
    by_cases hfg : g = f
    · subst hfg
      have := h.marked_le g
      by_cases hu : (σ.uses g).users = 0
      · simp only [Store.setUse_uses, Function.update_self, FileUse.addUser, hu, if_true]
        rw [List.countP_cons_of_neg (by simp)]
        omega
      · simp [FileUse.addUser, hu, hg]
    · have hfg' : f ≠ g := fun e => hfg e.symm
      simp [hfg, hfg', hg]
  · rcases List.mem_cons.1 ht with rfl | ht
    · simp only at hl; simp [hl]
    · exact old t ht FileUse.ready (h.ready t ht hl) fun u => by cases u.ready <;> simp
  · rcases List.mem_cons.1 ht with rfl | ht
    · simp only at hd; simp [hd]
    · exact old t ht FileUse.dirty (h.dirty t ht hd) fun u => by cases u.dirty <;> simp
  · rcases List.mem_cons.1 ht with rfl | ht
    · exact hs
    · exact h.stored t ht

theorem removeUser (h : Live σ (t :: L)) :
    Live (σ.setUse t.file ((σ.uses t.file).removeUser t.modified)) L := by
  have mono : ∀ u ∈ L, ∀ b : FileUse → Bool, b (σ.uses u.file) = true →
      (∀ v : FileUse, b (v.removeUser t.modified) = true ∨ b v = false) →
      b (Function.update σ.uses t.file ((σ.uses t.file).removeUser t.modified) u.file) = true := by
    intro u hu b hb hmono
    by_cases hf : u.file = t.file
    · rw [hf] at hb
      rw [hf, Function.update_self]
      rcases hmono (σ.uses t.file) with h' | h'
      · exact h'
      · rw [hb] at h'; exact absurd h' (by simp)
    · rw [Function.update_of_ne hf]; exact hb
  refine ⟨h.idle, fun g => ?_, fun g => ?_, fun u hu hl => ?_, fun u hu hd => ?_,
    fun u hu => h.stored u (List.mem_cons_of_mem _ hu)⟩
  · have hg := h.users g
    by_cases hfg : g = t.file
    · subst hfg
      simp only [Store.setUse_uses, Function.update_self, FileUse.removeUser, hg]
      rw [List.countP_cons_of_pos (by simp)]
      rfl
    · have hfg' : t.file ≠ g := fun e => hfg e.symm
      rw [List.countP_cons_of_neg (by simpa using hfg')] at hg
      simp [hfg, hg]
  · have hg := h.marked g
    by_cases hfg : g = t.file
    · subst hfg
      simp only [Store.setUse_uses, Function.update_self, FileUse.removeUser, hg]
      cases hm : t.modified <;> simp [hm]
    · have hfg' : t.file ≠ g := fun e => hfg e.symm
      rw [List.countP_cons_of_neg (by simp [hfg'])] at hg
      simp [hfg, hg]
  · exact mono u hu FileUse.ready (h.ready u (List.mem_cons_of_mem _ hu) hl) fun v => by
      cases hv : v.ready <;> simp [FileUse.removeUser, hv]
  · exact mono u hu FileUse.dirty (h.dirty u (List.mem_cons_of_mem _ hu) hd) fun v => by
      cases hv : v.dirty <;> simp [FileUse.removeUser, hv]

/-- The flags of a file are raised, and a handle is possibly marked as modified. -/
theorem mark (h : Live σ (t :: L)) {m l d : Bool} (hm : t.modified = true → m = true) :
    Live (σ.setUse t.file ⟨(σ.uses t.file).users,
      (σ.uses t.file).marked + (m.toNat - t.modified.toNat), (σ.uses t.file).ready || l,
      (σ.uses t.file).dirty || d⟩) (⟨t.file, m, t.loaded || l, t.dirty || d⟩ :: L) := by
  refine ⟨h.idle, fun g => ?_, fun g => ?_, fun u hu hl => ?_, fun u hu hd => ?_, fun u hu => ?_⟩
  · have hg := h.users g
    by_cases hfg : g = t.file
    · subst hfg
      simp only [Store.setUse_uses, Function.update_self, hg, List.countP_cons]
    · have hfg' : t.file ≠ g := fun e => hfg e.symm
      simp only [List.countP_cons] at hg
      simp [hfg, hfg', hg]
  · have hg := h.marked g
    by_cases hfg : g = t.file
    · subst hfg
      simp only [Store.setUse_uses, Function.update_self, hg, List.countP_cons]
      cases ht : t.modified
      · cases m <;> simp
      · simp [hm ht]
    · have hfg' : t.file ≠ g := fun e => hfg e.symm
      simp only [List.countP_cons] at hg
      simp [hfg, hfg', hg]
  · rcases List.mem_cons.1 hu with rfl | hu
    · have := h.ready t List.mem_cons_self
      cases hx : t.loaded <;> simp_all
    · have := h.ready u (List.mem_cons_of_mem _ hu) hl
      by_cases hf : u.file = t.file
      · rw [hf] at this; simp [hf, this]
      · simpa [hf] using this
  · rcases List.mem_cons.1 hu with rfl | hu
    · have := h.dirty t List.mem_cons_self
      cases hx : t.dirty <;> simp_all
    · have := h.dirty u (List.mem_cons_of_mem _ hu) hd
      by_cases hf : u.file = t.file
      · rw [hf] at this; simp [hf, this]
      · simpa [hf] using this
  · rcases List.mem_cons.1 hu with rfl | hu
    · exact h.stored t List.mem_cons_self
    · exact h.stored u (List.mem_cons_of_mem _ hu)

/-- The contents of the files do not matter for the books. -/
theorem setFile (h : Live σ L) (f : LongId) (d : FileData) : Live (σ.setFile f d) L where
  idle := h.idle
  users := h.users
  marked := h.marked
  ready := h.ready
  dirty := h.dirty
  stored t ht := by
    by_cases hf : t.file = f
    · rw [Store.setFile_files, hf, Function.update_self]; rfl
    · rw [Store.setFile_files, Function.update_of_ne hf]; exact h.stored t ht

end Live

/-! ### Rules for the operations -/

/-- `p` misuses no operation of the store, returns only with `Q` and fails only with errors in
`X`. -/
abbrev Spec {α : Type} (p : TreeM α) (Q : α → Store → Prop) (X : Err → Prop) (σ : Store) : Prop :=
  p.wp Store.step Q X σ

section Rules

variable {σ : Store} {L : List Token} {t : Token} {f : LongId} {s : ShortId} {n : Node}
  {d : FileData} {X : Err → Prop}

theorem wp_getNodeFile {Q : Unit → Store → Prop} (hL : Live σ L) (hf : (σ.files f).isSome)
    (hQ : ∀ σ', σ'.files = σ.files → Live σ' (⟨f, false, false, false⟩ :: L) → Q () σ') :
    Spec (perform (.getNodeFile f)) Q X σ := fun _ =>
  ⟨(), _, Store.check_eq_some hL.idle hf,
    hQ _ rfl (by simpa using hL.addUser hf (l := false) (d := false))⟩

theorem wp_createNodeFile {Q : Unit → Store → Prop} (hL : Live σ L) (hf : σ.files f = none)
    (hQ : ∀ σ', σ'.files = Function.update σ.files f (some .empty) →
      Live σ' (⟨f, false, true, true⟩ :: L) → Q () σ') :
    Spec (perform (.createNodeFile f)) Q X σ := fun _ =>
  ⟨(), _, Store.check_eq_some hL.idle (by simp [hf]),
    hQ _ rfl (by simpa using (hL.setFile f .empty).addUser (f := f) (by simp) (l := true) (d := true))⟩

theorem wp_cacheMaintenance {Q : Unit → Store → Prop} (hL : Live σ L) (hQ : Q () σ) :
    Spec (perform .cacheMaintenance) Q X σ := fun _ =>
  ⟨(), σ, Store.check_eq_some hL.idle rfl, hQ⟩

theorem wp_countNode {Q : Unit → Store → Prop} (hL : Live σ L) (hQ : Q () σ) :
    Spec (perform .countNode) Q X σ := fun _ =>
  ⟨(), σ, Store.check_eq_some hL.idle rfl, hQ⟩

theorem wp_waitUntilLoaded {Q : Unit → Store → Prop} (hL : Live σ (t :: L))
    (hQ : ∀ σ', σ'.files = σ.files → Live σ' (⟨t.file, t.modified, true, t.dirty⟩ :: L) →
      Q () σ') : Spec (perform (.waitUntilLoaded t.file)) Q X σ := fun _ =>
  ⟨(), _, Store.check_eq_some hL.idle (by simpa using hL.users_pos List.mem_cons_self),
    hQ _ rfl (by simpa using hL.mark (m := t.modified) (l := true) (d := false) id)⟩

theorem wp_isLoaded_of_loaded {Q : Bool → Store → Prop} (hL : Live σ L) (ht : t ∈ L)
    (hl : t.loaded = true) (hQ : Q true σ) : Spec (perform (.isLoaded t.file)) Q X σ := fun c => by
  have hr := hL.ready t ht hl
  refine ⟨true, σ, ?_, hQ⟩
  have hu : σ.setUse t.file { σ.uses t.file with ready := true } = σ := by
    rw [Store.setUse, ← hr, Function.update_eq_self]
  simp only [Store.step, hr, Bool.true_or, hu]
  exact Store.check_eq_some hL.idle (by simpa using hL.users_pos ht)

theorem wp_isLoaded {Q : Bool → Store → Prop} (hL : Live σ (t :: L))
    (hQ : ∀ b σ', σ'.files = σ.files → Live σ' (⟨t.file, t.modified, t.loaded || b, t.dirty⟩ :: L) →
      Q b σ') : Spec (perform (.isLoaded t.file)) Q X σ := fun c => by
  refine ⟨_, _, Store.check_eq_some hL.idle (by simpa using hL.users_pos List.mem_cons_self),
    hQ _ _ rfl ?_⟩
  simpa using hL.mark (m := t.modified) (l := (σ.uses t.file).ready || c.loaded) (d := false) id

theorem wp_hasChildFile {Q : Bool → Store → Prop} {i : ChildNr} (hL : Live σ L) (ht : t ∈ L)
    (hl : t.loaded = true) (hf : σ.files t.file = some d) (hQ : Q (d.hasChildFile i) σ) :
    Spec (perform (.hasChildFile t.file i)) Q X σ := fun c => by
  refine ⟨_, σ, ?_, hQ⟩
  simp only [Store.step, hf]
  exact Store.check_eq_some hL.idle (by simp [hL.users_pos ht, hL.ready t ht hl])

theorem wp_setChildFile {Q : Unit → Store → Prop} {i : ChildNr} (hL : Live σ (t :: L))
    (hl : t.loaded = true) (hf : σ.files t.file = some d)
    (hQ : ∀ σ', σ'.files = Function.update σ.files t.file (some (d.setChildFile i)) →
      Live σ' (⟨t.file, t.modified, true, true⟩ :: L) → Q () σ') :
    Spec (perform (.setChildFile t.file i)) Q X σ := fun c => by
  refine ⟨(), (σ.setFile t.file (d.setChildFile i)).setUse t.file
    { σ.uses t.file with dirty := true }, ?_, hQ _ rfl ?_⟩
  · simp only [Store.step, hf]
    exact Store.check_eq_some hL.idle
      (by simp [hL.users_pos List.mem_cons_self, hL.ready t List.mem_cons_self hl])
  · simpa [hl] using (hL.setFile t.file (d.setChildFile i)).mark (m := t.modified) (l := false)
      (d := true) id

theorem wp_readNode {Q : Bool → Store → Prop} (hL : Live σ L) (ht : t ∈ L)
    (hn : σ.lookup t.file s = some n)
    (hQ : ∀ σ', σ'.files = σ.files → Live σ' (⟨t.file, false, t.loaded, t.dirty⟩ :: L) →
      Q true σ') : Spec (perform (.readNode t.file s)) Q X σ := fun c => by
  refine ⟨true, σ.setUse t.file (σ.uses t.file).addUser, ?_, hQ _ rfl ?_⟩
  · simp only [Store.step, hn]
    exact Store.check_eq_some hL.idle (by simpa using hL.users_pos ht)
  · have hu := hL.users_pos ht
    have h := hL.addUser (hL.stored t ht) (l := t.loaded) (d := t.dirty)
    have hr := hL.ready t ht
    have hd := hL.dirty t ht
    have hne : (σ.uses t.file).users ≠ 0 := Nat.ne_of_gt hu
    have er : ((σ.uses t.file).ready || t.loaded) = (σ.uses t.file).ready := by
      cases hx : t.loaded
      · simp
      · simp [hr hx]
    have ed : ((σ.uses t.file).dirty || t.dirty) = (σ.uses t.file).dirty := by
      cases hx : t.dirty
      · simp
      · simp [hd hx]
    simpa [FileUse.addUser, hne, er, ed] using h

theorem wp_createNode {Q : Unit → Store → Prop} (hL : Live σ L) (ht : t ∈ L)
    (hl : t.loaded = true) (hf : σ.files t.file = some d) (hn : d.nodeCache[s]? = none)
    (hQ : ∀ (stale : Node) σ', σ'.files = Function.update σ.files t.file (some (d.setNode s stale.reset)) →
      Live σ' (⟨t.file, false, true, true⟩ :: L) → Q () σ') :
    Spec (perform (.createNode t.file s)) Q X σ := fun c => by
  refine ⟨(), (σ.setFile t.file (d.setNode s c.stale.reset)).setUse t.file
    { (σ.uses t.file).addUser with dirty := true }, ?_, hQ c.stale _ rfl ?_⟩
  · simp only [Store.step, hf]
    exact Store.check_eq_some hL.idle (by simp [hL.users_pos ht, hL.ready t ht hl, hn])
  · have hr := hL.ready t ht hl
    have hne : (σ.uses t.file).users ≠ 0 := Nat.ne_of_gt (hL.users_pos ht)
    have h := (hL.setFile t.file (d.setNode s c.stale.reset)).addUser (f := t.file) (by simp)
      (l := true) (d := true)
    simpa [FileUse.addUser, hne, hr] using h

theorem wp_removeUser {Q : Unit → Store → Prop} (hL : Live σ (t :: L)) (hm : t.modified = false)
    (hQ : ∀ σ', σ'.files = σ.files → Live σ' L → Q () σ') :
    Spec (perform (.removeUser t.file)) Q X σ := fun _ =>
  ⟨(), _, Store.check_eq_some hL.idle (by simpa using hL.marked_lt hm),
    hQ _ rfl (hm ▸ hL.removeUser)⟩

theorem wp_getNode {Q : Node → Store → Prop} (hL : Live σ L) (ht : t ∈ L) (hl : t.loaded = true)
    (hn : σ.lookup t.file s = some n) (hQ : Q n σ) : Spec (perform (.getNode t.file s)) Q X σ :=
  fun c => by
    refine ⟨n, σ, ?_, hQ⟩
    simp only [Store.step, hn]
    exact Store.check_eq_some hL.idle (by simp [hL.users_pos ht, hL.ready t ht hl])

/-- A write through a mutator of a handle marks it as modified. -/
theorem wp_setNode {Q : Unit → Store → Prop} {n' : Node} (hL : Live σ (t :: L))
    (hl : t.loaded = true) (hf : σ.files t.file = some d) (hn : d.nodeCache[s]? = some n)
    (hQ : ∀ σ', σ'.files = Function.update σ.files t.file (some (d.setNode s n')) →
      Live σ' (⟨t.file, true, true, t.dirty⟩ :: L) → Q () σ') :
    Spec (perform (.setNode t.file s n' (if t.modified then .again else .first))) Q X σ :=
  fun c => by
    have hu := hL.users_pos List.mem_cons_self
    have hr := hL.ready t List.mem_cons_self hl
    refine ⟨(), (σ.setFile t.file (d.setNode s n')).setUse t.file
      ⟨(σ.uses t.file).users, (σ.uses t.file).marked + (true.toNat - t.modified.toNat),
        (σ.uses t.file).ready || false, (σ.uses t.file).dirty || false⟩, ?_, hQ _ rfl ?_⟩
    · have hw : Store.mayWrite (σ.uses t.file) (if t.modified then .again else .first) = true := by
        cases hm : t.modified with
        | true => simpa [Store.mayWrite] using hL.marked_pos List.mem_cons_self hm
        | false => simpa [Store.mayWrite] using hL.marked_lt hm
      simp only [Store.step, hf]
      rw [Store.check_eq_some hL.idle (by simp [hu, hr, hn, hw])]
      cases t.modified <;> simp
    · simpa [hl] using (hL.setFile t.file (d.setNode s n')).mark (m := true) (l := false)
        (d := false) fun _ => rfl

/-- A write through the bare `Node*` leaves the books as they are. -/
theorem wp_setNode_bare {Q : Unit → Store → Prop} {n' : Node} {w : Write} (hL : Live σ L)
    (ht : t ∈ L) (hl : t.loaded = true) (hf : σ.files t.file = some d)
    (hn : d.nodeCache[s]? = some n) (hw : w = .copy ∧ t.dirty = true ∨ w = .merge)
    (hQ : ∀ σ', σ'.files = Function.update σ.files t.file (some (d.setNode s n')) →
      Live σ' L → Q () σ') : Spec (perform (.setNode t.file s n' w)) Q X σ := fun c => by
  have hu := hL.users_pos ht
  have hr := hL.ready t ht hl
  have hfirst : w ≠ .first := by rcases hw with ⟨rfl, -⟩ | rfl <;> decide
  refine ⟨(), σ.setFile t.file (d.setNode s n'), ?_, hQ _ rfl (hL.setFile _ _)⟩
  have hw : Store.mayWrite (σ.uses t.file) w = true := by
    rcases hw with ⟨rfl, hd⟩ | rfl
    · simp [Store.mayWrite, hL.dirty t ht hd]
    · rfl
  simp only [Store.step, hf]
  rw [Store.check_eq_some hL.idle (by simp [hu, hr, hn, hw])]
  simp [hfirst, Store.setUse, Store.setFile]

theorem wp_releaseNode {Q : Unit → Store → Prop} (hL : Live σ (t :: L))
    (hQ : ∀ σ', σ'.files = σ.files → Live σ' L → Q () σ') :
    Spec (perform (.releaseNode t.file t.modified)) Q X σ := fun _ => by
  refine ⟨(), _, Store.check_eq_some hL.idle ?_, hQ _ rfl hL.removeUser⟩
  have hu := hL.users_pos List.mem_cons_self
  cases hm : t.modified with
  | true => simpa [hu] using hL.marked_pos List.mem_cons_self hm
  | false => simpa [hu] using hL.marked_lt hm

end Rules

end MegaTree
