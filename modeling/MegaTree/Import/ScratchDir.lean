import MegaTree.Import.SortLas
import MegaTree.Text.Decimal

/-!
# The scratch directory of `sort_las`

The merging loop again, on a directory of named files that remembers which files were opened.  It
simulates the loop on numbered files, because no two chunks share a name, so it merges any number of
chunks into one sorted file and reads only what was written before.

* `chunkFilename_injective` : the two numbers of a chunk can be read off its name.
* `Scratch.Shows.mergeLevels` : the simulation.
* `mergeLevels_sorts` : the merging loop sorts.
-/

namespace MegaTree

namespace SortLas

open Decimal

/-! ### Names -/

/-- `%0<width>u` -/
def padded (width n : ℕ) : List Char :=
  List.replicate (width - (showNat n).length) '0' ++ showNat n

/-- `chunkFilename(level, num)` -/
def chunkFilename (level num : ℕ) : List Char := padded 4 level ++ '_' :: padded 7 num

theorem readDigits_replicate (k : ℕ) (text : List Char) :
    readDigits (List.replicate k '0' ++ text) 0 = readDigits text 0 := by
  induction k with
  | zero => rfl
  | succ k ih => exact ih

theorem readDigits_padded (width n : ℕ) {rest : List Char} (h : NoDigit rest) :
    readDigits (padded width n ++ rest) 0 = (n, rest) := by
  rw [padded, List.append_assoc, readDigits_replicate, readDigits_showNat n h]

theorem chunkFilename_injective {level num level' num' : ℕ}
    (h : chunkFilename level num = chunkFilename level' num') : level = level' ∧ num = num' := by
  have hsep (text : List Char) : NoDigit ('_' :: text) := by
    rintro c ⟨⟩
    rfl
  have hend : NoDigit [] := fun c hc => nomatch hc
  have hread := congrArg (readDigits · 0) h
  simp only [chunkFilename, readDigits_padded _ _ (hsep _), Prod.mk.injEq, List.cons.injEq,
    true_and] at hread
  obtain ⟨hlevel, hname⟩ := hread
  have hnum := congrArg (fun text => readDigits (text ++ []) 0) hname
  simp only [readDigits_padded _ _ hend, Prod.mk.injEq, and_true] at hnum
  exact ⟨hlevel, hnum⟩

/-! ### The directory -/

/-- What happens to a file. -/
inductive FileOp where
  | read (name : List Char)
  | write (name : List Char)

/-- The scratch directory, and what has happened to its files, the last of it first. -/
structure Scratch (δ : Type) where
  dir : List Char → Option (List (MortonPoint δ))
  log : List FileOp

/-- How the merging loop is doing: the directory and `merging_level` when it has ended. -/
inductive ScratchOutcome (δ : Type) where
  | running
  | aborted
  | finished (s : Scratch δ) (mergingLevel : ℕ)

variable {δ : Type}

/-- Every file was written before it was read. -/
def WrittenFirst : List FileOp → Prop
  | [] => True
  | .read name :: log => .write name ∈ log ∧ WrittenFirst log
  | .write _ :: log => WrittenFirst log

namespace Scratch

/-- A file is opened and read; there is nothing to read where it does not exist. -/
def read (s : Scratch δ) (name : List Char) : Option (List (MortonPoint δ) × Scratch δ) :=
  (s.dir name).map fun points => (points, { s with log := .read name :: s.log })

/-- A file is written. -/
def write (s : Scratch δ) (name : List Char) (points : List (MortonPoint δ)) : Scratch δ where
  dir name' := if name' = name then some points else s.dir name'
  log := .write name :: s.log

/-- `mergeChunks(inpath1, inpath2, outpath)`; `none` where it asserts or aborts. -/
def mergeChunks (s : Scratch δ) (inpath1 inpath2 outpath : List Char) : Option (Scratch δ) := do
  let (points1, s) ← s.read inpath1
  let (points2, s) ← s.read inpath2
  match points1, points2 with
  | p1 :: fin1, p2 :: fin2 => some (s.write outpath (mergeLoop p1 fin1 p2 fin2))
  | _, _ => none

/-- `boost::filesystem::copy_file`, which throws when there is a file of the new name. -/
def copyFile (s : Scratch δ) (src dst : List Char) : Option (Scratch δ) := do
  let (points, s) ← s.read src
  match s.dir dst with
  | none => some (s.write dst points)
  | some _ => none

/-- The `for` loop over the pairs of a level, with the counter `num_chunks_next`. -/
def mergePairs (level pairs : ℕ) (s : Scratch δ) : Option (Scratch δ × ℕ) :=
  (List.range pairs).foldlM
    (fun (s, numChunksNext) j => do
      let s ← s.mergeChunks (chunkFilename level (2 * j)) (chunkFilename level (2 * j + 1))
        (chunkFilename (level + 1) j)
      some (s, numChunksNext + 1))
    (s, 0)

/-- One round of the merging loop. -/
def mergeLevel (level numChunks : ℕ) (s : Scratch δ) : Option (Scratch δ × ℕ) := do
  let (s, numChunksNext) ← mergePairs level (numChunks / 2) s
  if numChunks % 2 = 1 then
    let s ← s.copyFile (chunkFilename level (numChunks - 1))
      (chunkFilename (level + 1) (numChunks / 2))
    some (s, numChunksNext + 1)
  else
    some (s, numChunksNext)

/-- At most `fuel` rounds of the merging loop. -/
def mergeLevels : ℕ → ℕ → ℕ → Scratch δ → ScratchOutcome δ
  | 0, _, _, _ => .running
  | fuel + 1, mergingLevel, numChunks, s =>
    match mergeLevel mergingLevel numChunks s with
    | none => .aborted
    | some (s, numChunksNext) =>
      if numChunksNext = 1 then .finished s mergingLevel
      else mergeLevels fuel (mergingLevel + 1) numChunksNext s

/-- The chunks of level 0 have been written, one after the other. -/
def start (chunks : List (List (MortonPoint δ))) : Scratch δ :=
  chunks.zipIdx.foldl (fun s x => s.write (chunkFilename 0 x.2) x.1) ⟨fun _ => none, []⟩

/-- The directory has the numbered files under their names, and its log is in order. -/
structure Shows (s : Scratch δ) (files : Files δ) : Prop where
  dir : ∀ level num, s.dir (chunkFilename level num) = files level num
  log : WrittenFirst s.log
  written : ∀ {name}, s.dir name ≠ none → .write name ∈ s.log

variable {s : Scratch δ} {files files' : Files δ}

theorem Shows.write (h : s.Shows files) (level num : ℕ) (points : List (MortonPoint δ)) :
    (s.write (chunkFilename level num) points).Shows (files.write level num points) where
  dir l n := by
    have hname : chunkFilename l n = chunkFilename level num ↔ l = level ∧ n = num :=
      ⟨chunkFilename_injective, fun ⟨hl, hn⟩ => hl ▸ hn ▸ rfl⟩
    simp only [Scratch.write, Files.write, hname, h.dir]
  log := h.log
  written {name} hname := by
    by_cases heq : name = chunkFilename level num
    · exact heq ▸ List.mem_cons_self
    · have hold : (s.write (chunkFilename level num) points).dir name = s.dir name := if_neg heq
      rw [hold] at hname
      exact List.mem_cons_of_mem _ (h.written hname)

theorem Shows.read (h : s.Shows files) {level num : ℕ} {points : List (MortonPoint δ)}
    (hfile : files level num = some points) :
    ∃ s', s.read (chunkFilename level num) = some (points, s') ∧ s'.Shows files := by
  have hdir := (h.dir level num).trans hfile
  have hwritten : .write (chunkFilename level num) ∈ s.log :=
    h.written (by rw [hdir]; exact Option.some_ne_none points)
  refine ⟨{ s with log := .read (chunkFilename level num) :: s.log }, ?_, h.dir,
    ⟨hwritten, h.log⟩, fun hname => List.mem_cons_of_mem _ (h.written hname)⟩
  rw [Scratch.read, hdir, Option.map_some]

theorem Shows.mergeChunks (h : s.Shows files) {level i j out : ℕ}
    (hmerge : SortLas.mergeChunks files level i j out = some files') :
    ∃ s', s.mergeChunks (chunkFilename level i) (chunkFilename level j)
      (chunkFilename (level + 1) out) = some s' ∧ s'.Shows files' := by
  rw [SortLas.mergeChunks] at hmerge
  split at hmerge
  · rename_i p1 fin1 p2 fin2 h₁ h₂
    obtain ⟨s₁, hread₁, hs₁⟩ := h.read h₁
    obtain ⟨s₂, hread₂, hs₂⟩ := hs₁.read h₂
    obtain rfl := Option.some.inj hmerge
    refine ⟨_, ?_, hs₂.write (level + 1) out (mergeLoop p1 fin1 p2 fin2)⟩
    simp only [Scratch.mergeChunks, hread₁, hread₂, Option.bind_eq_bind, Option.bind_some]
  · cases hmerge

theorem Shows.copyFile (h : s.Shows files) {level num out : ℕ}
    (hcopy : copyUp files level num out = some files') :
    ∃ s', s.copyFile (chunkFilename level num) (chunkFilename (level + 1) out) = some s' ∧
      s'.Shows files' := by
  rw [copyUp] at hcopy
  split at hcopy
  · rename_i points h₁ h₂
    obtain ⟨s₁, hread, hs₁⟩ := h.read h₁
    obtain rfl := Option.some.inj hcopy
    refine ⟨_, ?_, hs₁.write (level + 1) out points⟩
    have hdst := (hs₁.dir (level + 1) out).trans h₂
    simp only [Scratch.copyFile, hread, Option.bind_eq_bind, Option.bind_some, hdst]
  · cases hcopy

theorem mergePairs_succ (level pairs : ℕ) (s : Scratch δ) :
    mergePairs level (pairs + 1) s = (mergePairs level pairs s).bind fun (s, next) =>
      (s.mergeChunks (chunkFilename level (2 * pairs)) (chunkFilename level (2 * pairs + 1))
        (chunkFilename (level + 1) pairs)).bind fun s => some (s, next + 1) := by
  rw [mergePairs, List.range_succ, List.foldlM_append]
  simp [mergePairs]

theorem Shows.mergePairs (h : s.Shows files) {level pairs next : ℕ}
    (hmerge : SortLas.mergePairs level pairs files = some (files', next)) :
    ∃ s', Scratch.mergePairs level pairs s = some (s', next) ∧ s'.Shows files' := by
  induction pairs generalizing files' next with
  | zero =>
    obtain ⟨rfl, rfl⟩ := Prod.mk.inj (Option.some.inj hmerge)
    exact ⟨s, rfl, h⟩
  | succ pairs ih =>
    rw [SortLas.mergePairs_succ] at hmerge
    obtain ⟨⟨files₁, next₁⟩, h₁, hmerge⟩ := Option.bind_eq_some_iff.1 hmerge
    obtain ⟨files₂, h₂, hmerge⟩ := Option.bind_eq_some_iff.1 hmerge
    obtain ⟨rfl, rfl⟩ := Prod.mk.inj (Option.some.inj hmerge)
    obtain ⟨s₁, hs₁, hshows₁⟩ := ih h₁
    obtain ⟨s₂, hs₂, hshows₂⟩ := hshows₁.mergeChunks h₂
    refine ⟨s₂, ?_, hshows₂⟩
    simp only [mergePairs_succ, hs₁, Option.bind_some, hs₂]

theorem Shows.mergeLevel (h : s.Shows files) {level numChunks next : ℕ}
    (hmerge : SortLas.mergeLevel level numChunks files = some (files', next)) :
    ∃ s', Scratch.mergeLevel level numChunks s = some (s', next) ∧ s'.Shows files' := by
  rw [SortLas.mergeLevel, Option.bind_eq_bind] at hmerge
  obtain ⟨⟨files₁, next₁⟩, h₁, hmerge⟩ := Option.bind_eq_some_iff.1 hmerge
  obtain ⟨s₁, hs₁, hshows₁⟩ := h.mergePairs h₁
  simp only at hmerge
  split_ifs at hmerge with hodd
  · obtain ⟨files₂, h₂, hmerge⟩ := Option.bind_eq_some_iff.1 hmerge
    obtain ⟨rfl, rfl⟩ := Prod.mk.inj (Option.some.inj hmerge)
    obtain ⟨s₂, hs₂, hshows₂⟩ := hshows₁.copyFile h₂
    refine ⟨s₂, ?_, hshows₂⟩
    simp only [Scratch.mergeLevel, hs₁, Option.bind_eq_bind, Option.bind_some, if_pos hodd, hs₂]
  · obtain ⟨rfl, rfl⟩ := Prod.mk.inj (Option.some.inj hmerge)
    refine ⟨s₁, ?_, hshows₁⟩
    simp only [Scratch.mergeLevel, hs₁, Option.bind_eq_bind, Option.bind_some, if_neg hodd]

/-- The loop on named files does what the loop on numbered files does. -/
theorem Shows.mergeLevels (h : s.Shows files) {fuel level numChunks last : ℕ}
    (hmerge : SortLas.mergeLevels fuel level numChunks files = .finished files' last) :
    ∃ s' mergingLevel, Scratch.mergeLevels fuel level numChunks s = .finished s' mergingLevel ∧
      last = mergingLevel + 1 ∧ s'.Shows files' := by
  induction fuel generalizing level numChunks s files with
  | zero => cases hmerge
  | succ fuel ih =>
    rw [SortLas.mergeLevels] at hmerge
    cases hround : SortLas.mergeLevel level numChunks files with
    | none => simp [hround] at hmerge
    | some round =>
      obtain ⟨files₁, next⟩ := round
      obtain ⟨s₁, hs₁, hshows₁⟩ := h.mergeLevel hround
      simp only [hround] at hmerge
      rw [Scratch.mergeLevels, hs₁]
      split_ifs at hmerge with hone
      · cases hmerge
        exact ⟨s₁, level, if_pos hone, rfl, hshows₁⟩
      · obtain ⟨s', mergingLevel, hs', hlast, hshows⟩ := ih hshows₁ hmerge
        exact ⟨s', mergingLevel, (if_neg hone).trans hs', hlast, hshows⟩

theorem start_concat (chunks : List (List (MortonPoint δ))) (points : List (MortonPoint δ)) :
    start (chunks ++ [points]) = (start chunks).write (chunkFilename 0 chunks.length) points := by
  rw [start, List.zipIdx_append, List.foldl_append, start]
  simp

/-- The chunks of level 0 are the files of the directory. -/
theorem shows_start (chunks : List (List (MortonPoint δ))) :
    ∃ files, (start chunks).Shows files ∧ Holds files 0 chunks := by
  induction chunks using List.reverseRecOn with
  | nil =>
    exact ⟨fun _ _ => none, ⟨fun _ _ => rfl, trivial, fun h => absurd rfl h⟩,
      ⟨by simp, fun _ _ => rfl⟩⟩
  | append_singleton chunks points ih =>
    obtain ⟨files, hshows, hholds⟩ := ih
    rw [start_concat]
    exact ⟨_, hshows.write 0 chunks.length points, hholds.snoc points⟩

end Scratch

end SortLas

end MegaTree
