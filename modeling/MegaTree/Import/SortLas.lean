import MegaTree.Core.Basic
import MegaTree.Import.PairUp
import Mathlib.Data.Nat.Basic
import Mathlib.Data.Rat.Floor
import Mathlib.Tactic.Ring

/-!
# The external sort of `sort_las`

The points of the input files are buffered in chunks of `chunk_size` points.  A full chunk is sorted
and written to the scratch directory; a level of the merge combines the chunks of one level two by
two into those of the next, until one chunk is left.

* `mergeLoop_eq`, `mergeFiles_merges` : the loop of `mergeChunks` merges two files.
* `mergeLevels_finished`, `mergeLevels_zero` : the levels end with one ordered chunk of all points
  when there is a chunk, and do not end when there is none.
* `sortLas_sorts_iff` : the program ends with the points it has read, in order, exactly when there
  are points and they fill their chunks.
-/

namespace MegaTree

namespace SortLas

/-! ### Points -/

/-- `Part1By2`: two zero bits after each of the ten low bits of `x`. -/
def part1By2 (x : UInt32) : UInt32 :=
  let x := x &&& 0x000003ff
  let x := (x ^^^ (x <<< 16)) &&& 0xff0000ff
  let x := (x ^^^ (x <<< 8)) &&& 0x0300f00f
  let x := (x ^^^ (x <<< 4)) &&& 0x030c30c3
  (x ^^^ (x <<< 2)) &&& 0x09249249

/-- `EncodeMorton3` -/
def encodeMorton3 (x y z : UInt32) : UInt32 :=
  (part1By2 z <<< 2) + (part1By2 y <<< 1) + part1By2 x

/-- `MortonPoint`, over the type `δ` of the doubles. -/
structure MortonPoint (δ : Type) where
  morton : UInt32
  x : δ
  y : δ
  z : δ
  r : δ
  g : δ
  b : δ
deriving DecidableEq

/-- What the program reads of a point of a LAS file. -/
structure LasPoint (δ : Type) where
  x : δ
  y : δ
  z : δ
  intensity : UInt16

/-- The floating-point expressions of the loop that reads the points.

* `zero` : `0.0`
* `fixedCoord lo hi p` : `(uint32_t)((p - lo) / (hi - lo) * (1<<10))`
* `gray i` : `double(i) / 65536.0 * 255.0` -/
structure Doubles (δ : Type) where
  zero : δ
  fixedCoord : δ → δ → δ → UInt32
  gray : UInt16 → δ

variable {δ : Type}

/-- The entry of the buffer for a point; `lo` and `hi` are those of `getExtents`. -/
def readPoint (d : Doubles δ) (lo hi : Fin 3 → δ) (p : LasPoint δ) : MortonPoint δ where
  morton := encodeMorton3 (d.fixedCoord (lo 0) (hi 0) p.x) (d.fixedCoord (lo 1) (hi 1) p.y)
    (d.fixedCoord (lo 2) (hi 2) p.z)
  x := p.x
  y := p.y
  z := p.z
  r := d.gray p.intensity
  g := d.gray p.intensity
  b := d.gray p.intensity

/-- The order of a sorted file. -/
abbrev LeMorton (p q : MortonPoint δ) : Prop := p.morton ≤ q.morton

theorem leMorton_trans (p q r : MortonPoint δ) (hpq : decide (LeMorton p q) = true)
    (hqr : decide (LeMorton q r) = true) : decide (LeMorton p r) = true :=
  decide_eq_true (UInt32.le_trans (of_decide_eq_true hpq) (of_decide_eq_true hqr))

theorem leMorton_total (p q : MortonPoint δ) :
    (decide (LeMorton p q) || decide (LeMorton q p)) = true := by
  simpa using UInt32.le_total p.morton q.morton

/-- `std::sort`, which does not say how it orders points with equal codes. -/
structure StdSort (δ : Type) where
  sort : List (MortonPoint δ) → List (MortonPoint δ)
  perm : ∀ points, (sort points).Perm points
  pairwise : ∀ points, (sort points).Pairwise LeMorton

/-! ### The scratch directory -/

/-- The files of the scratch directory, by the two numbers in `chunkFilename`. -/
abbrev Files (δ : Type) := ℕ → ℕ → Option (List (MortonPoint δ))

/-- `fopen` for writing and the writes to the file. -/
def Files.write (files : Files δ) (level num : ℕ) (points : List (MortonPoint δ)) : Files δ :=
  fun l n => if l = level ∧ n = num then some points else files l n

@[simp] theorem Files.write_same (files : Files δ) (level num : ℕ) (points : List (MortonPoint δ)) :
    files.write level num points level num = some points := if_pos ⟨rfl, rfl⟩

theorem Files.write_of_num_ne {n num : ℕ} (h : n ≠ num) (files : Files δ) (level l : ℕ)
    (points : List (MortonPoint δ)) : files.write level num points l n = files l n :=
  if_neg fun heq => h heq.2

theorem Files.write_of_level_ne {l level : ℕ} (h : l ≠ level) (files : Files δ) (n num : ℕ)
    (points : List (MortonPoint δ)) : files.write level num points l n = files l n :=
  if_neg fun heq => h heq.1

/-! ### Chunking -/

/-- The variables of the chunking phase. -/
structure Chunking (δ : Type) where
  files : Files δ
  mortonPoints : List (MortonPoint δ)
  pointIndex : ℕ
  chunkNumber : ℕ

/-- A point is put into the buffer, which is sorted and written when it is full. -/
def Chunking.push (std : StdSort δ) (chunkSize : ℕ) (s : Chunking δ) (p : MortonPoint δ) :
    Chunking δ :=
  let mortonPoints := s.mortonPoints.set s.pointIndex p
  let pointIndex := s.pointIndex + 1
  if pointIndex = chunkSize then
    let mortonPoints := std.sort mortonPoints
    { files := s.files.write 0 s.chunkNumber mortonPoints
      mortonPoints
      pointIndex := 0
      chunkNumber := (s.chunkNumber + 1) % 2 ^ 32 }
  else
    { s with mortonPoints, pointIndex }

/-- An empty scratch directory and a buffer of `chunk_size` zero points. -/
def Chunking.start (zero : δ) (chunkSize : ℕ) : Chunking δ where
  files := fun _ _ => none
  mortonPoints := List.replicate chunkSize ⟨0, zero, zero, zero, zero, zero, zero⟩
  pointIndex := 0
  chunkNumber := 0

/-- The chunking phase: the buffer is carried over from one file to the next. -/
def chunking (std : StdSort δ) (d : Doubles δ) (lo hi : Fin 3 → δ) (chunkSize : ℕ)
    (lasFiles : List (List (LasPoint δ))) : Chunking δ :=
  lasFiles.foldl
    (fun s points => points.foldl (fun s p => s.push std chunkSize (readPoint d lo hi p)) s)
    (.start d.zero chunkSize)

/-! ### Merging -/

/-- The loops of `mergeChunks`: `p1` and `p2` are the points in hand, `fin1` and `fin2` what is left
of the two files. -/
def mergeLoop (p1 : MortonPoint δ) (fin1 : List (MortonPoint δ)) (p2 : MortonPoint δ)
    (fin2 : List (MortonPoint δ)) : List (MortonPoint δ) :=
  if p1.morton < p2.morton then
    p1 :: match fin1 with
      | [] => p2 :: fin2
      | p :: fin1 => mergeLoop p fin1 p2 fin2
  else
    p2 :: match fin2 with
      | [] => p1 :: fin1
      | p :: fin2 => mergeLoop p1 fin1 p fin2
termination_by fin1.length + fin2.length

/-- `mergeChunks` of the chunks `i` and `j` of a level; `none` where it asserts or aborts. -/
def mergeChunks (files : Files δ) (level i j out : ℕ) : Option (Files δ) :=
  match files level i, files level j with
  | some (p1 :: fin1), some (p2 :: fin2) =>
    some (files.write (level + 1) out (mergeLoop p1 fin1 p2 fin2))
  | _, _ => none

/-- `boost::filesystem::copy_file`, which throws when there is a file of the new name. -/
def copyUp (files : Files δ) (level num out : ℕ) : Option (Files δ) :=
  match files level num, files (level + 1) out with
  | some points, none => some (files.write (level + 1) out points)
  | _, _ => none

/-- The `for` loop over the pairs of a level, with the counter `num_chunks_next`. -/
def mergePairs (level pairs : ℕ) (files : Files δ) : Option (Files δ × ℕ) :=
  (List.range pairs).foldlM
    (fun (files, numChunksNext) j => do
      let files ← mergeChunks files level (2 * j) (2 * j + 1) j
      some (files, numChunksNext + 1))
    (files, 0)

/-- One round of the merging loop. -/
def mergeLevel (level numChunks : ℕ) (files : Files δ) : Option (Files δ × ℕ) := do
  let (files, numChunksNext) ← mergePairs level (numChunks / 2) files
  if numChunks % 2 = 1 then
    let files ← copyUp files level (numChunks - 1) (numChunks / 2)
    some (files, numChunksNext + 1)
  else
    some (files, numChunksNext)

/-- How the program is doing: its files, and the level of the last chunk, when it has finished. -/
inductive Outcome (δ : Type) where
  | running
  | aborted
  | finished (files : Files δ) (level : ℕ)

/-- At most `fuel` rounds of the merging loop. -/
def mergeLevels : ℕ → ℕ → ℕ → Files δ → Outcome δ
  | 0, _, _, _ => .running
  | fuel + 1, level, numChunks, files =>
    match mergeLevel level numChunks files with
    | none => .aborted
    | some (files, numChunksNext) =>
      if numChunksNext = 1 then .finished files (level + 1)
      else mergeLevels fuel (level + 1) numChunksNext files

/-- Both phases, with at most `fuel` rounds of the second. -/
def sortLas (std : StdSort δ) (d : Doubles δ) (lo hi : Fin 3 → δ) (chunkSize fuel : ℕ)
    (lasFiles : List (List (LasPoint δ))) : Outcome δ :=
  let s := chunking std d lo hi chunkSize lasFiles
  mergeLevels fuel 0 s.chunkNumber s.files

/-! ### One level of the merge -/

/-- Two files merged; where the codes are equal the point of the second file comes first. -/
def mergeFiles (points1 points2 : List (MortonPoint δ)) : List (MortonPoint δ) :=
  points2.merge points1 fun p q => decide (LeMorton p q)

theorem mergeLoop_eq (p1 : MortonPoint δ) (fin1 : List (MortonPoint δ)) (p2 : MortonPoint δ)
    (fin2 : List (MortonPoint δ)) :
    mergeLoop p1 fin1 p2 fin2 = mergeFiles (p1 :: fin1) (p2 :: fin2) := by
  unfold mergeFiles
  fun_induction mergeLoop p1 fin1 p2 fin2 with
  | case1 p1 fin1 p2 fin2 hlt ih =>
    have hle := UInt32.not_le.mpr hlt
    cases fin1 with
    | nil => simp [hle]
    | cons p fin1 => simp_all [List.merge]
  | case2 p1 fin1 p2 fin2 hlt ih =>
    have hle := UInt32.not_lt.mp hlt
    cases fin2 with
    | nil => simp [hle]
    | cons p fin2 => simp_all [List.merge]

theorem mergeFiles_merges : Merges LeMorton (mergeFiles (δ := δ)) where
  perm points1 points2 := (List.merge_perm_append _).trans List.perm_append_comm
  pairwise {points1 points2} h₁ h₂ := by
    have h := List.pairwise_merge leMorton_trans leMorton_total points2 points1
      (by simpa using h₂) (by simpa using h₁)
    exact h.imp of_decide_eq_true

/-- The first files of a level hold the given chunks, and there are no files above it. -/
structure Holds (files : Files δ) (level : ℕ) (chunks : List (List (MortonPoint δ))) : Prop where
  chunk : ∀ {num points}, chunks[num]? = some points → files level num = some points
  above : ∀ {l}, level < l → ∀ num, files l num = none

/-- The first `pairs` pairs of a level are merged, and nothing else has been done. -/
structure PairsDone (files : Files δ) (level : ℕ) (chunks : List (List (MortonPoint δ)))
    (pairs : ℕ) (files' : Files δ) : Prop where
  frame : ∀ {l}, l ≠ level + 1 → ∀ num, files' l num = files l num
  merged : ∀ {j}, j < pairs → files' (level + 1) j = (pairUp mergeFiles chunks)[j]?
  above : ∀ {j}, pairs ≤ j → files' (level + 1) j = none

section Level

variable {files : Files δ} {level : ℕ} {chunks : List (List (MortonPoint δ))}

theorem Holds.mergeChunks (h : Holds files level chunks) (hne : ∀ points ∈ chunks, points ≠ [])
    {pairs : ℕ} {files' : Files δ} (hdone : PairsDone files level chunks pairs files')
    (hlt : 2 * pairs + 1 < chunks.length) :
    ∃ files'', mergeChunks files' level (2 * pairs) (2 * pairs + 1) pairs = some files'' ∧
      PairsDone files level chunks (pairs + 1) files'' := by
  have h₁ := List.getElem?_eq_getElem (Nat.lt_of_succ_lt hlt)
  have h₂ := List.getElem?_eq_getElem hlt
  have hfile₁ := (hdone.frame (Nat.ne_of_lt (Nat.lt_succ_self level)) _).trans (h.chunk h₁)
  have hfile₂ := (hdone.frame (Nat.ne_of_lt (Nat.lt_succ_self level)) _).trans (h.chunk h₂)
  have hout := getElem?_pairUp (m := mergeFiles) h₁ h₂
  obtain ⟨p1, fin1, hp1⟩ := List.exists_cons_of_ne_nil (hne _ (List.mem_of_getElem? h₁))
  obtain ⟨p2, fin2, hp2⟩ := List.exists_cons_of_ne_nil (hne _ (List.mem_of_getElem? h₂))
  rw [hp1] at hfile₁ hout
  rw [hp2] at hfile₂ hout
  refine ⟨files'.write (level + 1) pairs (mergeLoop p1 fin1 p2 fin2),
    by simp only [SortLas.mergeChunks, hfile₁, hfile₂], ?_, ?_, ?_⟩
  · intro l hl num
    rw [Files.write_of_level_ne hl, hdone.frame hl]
  · intro j hj
    by_cases heq : j = pairs
    · rw [heq, Files.write_same, hout, mergeLoop_eq]
    · rw [Files.write_of_num_ne heq, hdone.merged (by omega)]
  · intro j hj
    rw [Files.write_of_num_ne (by omega), hdone.above (by omega)]

theorem mergePairs_succ (level pairs : ℕ) (files : Files δ) :
    mergePairs level (pairs + 1) files = (mergePairs level pairs files).bind fun (files, next) =>
      (mergeChunks files level (2 * pairs) (2 * pairs + 1) pairs).bind fun files =>
        some (files, next + 1) := by
  rw [mergePairs, List.range_succ, List.foldlM_append]
  simp [mergePairs]

theorem Holds.mergePairs (h : Holds files level chunks) (hne : ∀ points ∈ chunks, points ≠ [])
    {pairs : ℕ} (hle : 2 * pairs ≤ chunks.length) :
    ∃ files', mergePairs level pairs files = some (files', pairs) ∧
      PairsDone files level chunks pairs files' := by
  induction pairs with
  | zero =>
    exact ⟨files, rfl, fun _ _ => rfl, fun hj => absurd hj (Nat.not_lt_zero _),
      fun _ => h.above (Nat.lt_succ_self level) _⟩
  | succ pairs ih =>
    obtain ⟨files', heq, hdone⟩ := ih (by omega)
    obtain ⟨files'', heq', hdone'⟩ := h.mergeChunks hne hdone (by omega)
    exact ⟨files'', by rw [mergePairs_succ, heq]; simp [heq'], hdone'⟩

/-- A level of the merge pairs up the chunks. -/
theorem Holds.mergeLevel (h : Holds files level chunks) (hne : ∀ points ∈ chunks, points ≠ []) :
    ∃ files', mergeLevel level chunks.length files =
        some (files', (pairUp mergeFiles chunks).length) ∧
      Holds files' (level + 1) (pairUp mergeFiles chunks) := by
  obtain ⟨files', heq, hdone⟩ :=
    h.mergePairs hne (Nat.mul_div_le chunks.length 2)
  have hlen := length_pairUp (m := mergeFiles) chunks
  have habove : ∀ {l}, level + 1 < l → ∀ num, files' l num = none := fun hl num =>
    (hdone.frame (by omega) num).trans (h.above (by omega) num)
  by_cases hodd : chunks.length % 2 = 1
  -- the last chunk is copied
  · have hlast := List.getElem?_eq_getElem (show chunks.length - 1 < chunks.length by omega)
    have hfile := (hdone.frame (Nat.ne_of_lt (Nat.lt_succ_self level)) _).trans (h.chunk hlast)
    have hcopy := getElem?_pairUp_last (m := mergeFiles) (j := chunks.length / 2)
      (by rwa [show 2 * (chunks.length / 2) = chunks.length - 1 by omega]) (by omega)
    refine ⟨files'.write (level + 1) (chunks.length / 2) chunks[chunks.length - 1], ?_, ?_, ?_⟩
    · simp only [SortLas.mergeLevel, heq, Option.bind_eq_bind, Option.bind_some, if_pos hodd,
        copyUp, hfile, hdone.above (Nat.le_refl _), hlen]
      congr 2
      omega
    · intro num points hnum
      by_cases heq : num = chunks.length / 2
      · rw [heq, Files.write_same, ← hcopy, ← heq, hnum]
      · have hlt := (List.getElem?_eq_some_iff.mp hnum).1
        rw [Files.write_of_num_ne heq, hdone.merged (by omega), hnum]
    · intro l hl num
      rw [Files.write_of_level_ne (by omega), habove hl]
  · refine ⟨files', ?_, ?_, habove⟩
    · simp only [SortLas.mergeLevel, heq, Option.bind_eq_bind, Option.bind_some, if_neg hodd, hlen]
      congr 2
      omega
    · intro num points hnum
      have hlt := (List.getElem?_eq_some_iff.mp hnum).1
      rw [hdone.merged (by omega), hnum]

end Level

/-! ### All levels -/

/-- Without a chunk no level has one, and the loop goes on. -/
theorem mergeLevels_zero (fuel level : ℕ) (files : Files δ) :
    mergeLevels fuel level 0 files = .running := by
  induction fuel generalizing level with
  | zero => rfl
  | succ fuel ih => exact ih (level + 1)

theorem mergeLevels_add {fuel level numChunks : ℕ} {files files' : Files δ} {level' : ℕ}
    (h : mergeLevels fuel level numChunks files = .finished files' level') (more : ℕ) :
    mergeLevels (fuel + more) level numChunks files = .finished files' level' := by
  induction fuel generalizing level numChunks files with
  | zero => cases h
  | succ fuel ih =>
    rw [Nat.succ_add]
    rw [mergeLevels] at h ⊢
    cases hround : mergeLevel level numChunks files with
    | none => simp [hround] at h
    | some next =>
      simp only [hround] at h ⊢
      split_ifs at h ⊢ with hone
      · exact h
      · exact ih h

/-- How many rounds are allowed makes no difference to how the loop ends. -/
theorem mergeLevels_unique {fuel₁ fuel₂ level numChunks : ℕ} {files files₁ files₂ : Files δ}
    {level₁ level₂ : ℕ} (h₁ : mergeLevels fuel₁ level numChunks files = .finished files₁ level₁)
    (h₂ : mergeLevels fuel₂ level numChunks files = .finished files₂ level₂) :
    files₁ = files₂ ∧ level₁ = level₂ := by
  have h₁' := mergeLevels_add h₁ fuel₂
  rw [Nat.add_comm, mergeLevels_add h₂] at h₁'
  cases h₁'
  exact ⟨rfl, rfl⟩

/-- With a chunk the loop ends with one chunk of all points, in order. -/
theorem mergeLevels_finished {chunks : List (List (MortonPoint δ))} (hpos : 0 < chunks.length)
    {files : Files δ} {level : ℕ} (h : Holds files level chunks)
    (hne : ∀ points ∈ chunks, points ≠ []) (hord : ∀ points ∈ chunks, points.Pairwise LeMorton) :
    ∃ fuel files' level' points,
      mergeLevels fuel level chunks.length files = .finished files' level' ∧
        files' level' 0 = some points ∧ points.Perm chunks.flatten ∧ points.Pairwise LeMorton := by
  obtain ⟨files', heq, hnext⟩ := h.mergeLevel hne
  have hne' := ne_nil_of_mem_pairUp mergeFiles_merges hne
  have hord' := pairwise_of_mem_pairUp mergeFiles_merges hord
  have hperm := flatten_pairUp_perm mergeFiles_merges chunks
  have hlen := length_pairUp (m := mergeFiles) chunks
  by_cases hone : (pairUp mergeFiles chunks).length = 1
  · obtain ⟨points, hpoints⟩ := List.length_eq_one_iff.mp hone
    rw [hpoints] at hord' hperm hnext
    refine ⟨1, files', level + 1, points, ?_, hnext.chunk rfl, by simpa using hperm,
      hord' points (List.mem_singleton.mpr rfl)⟩
    rw [mergeLevels, heq]
    exact if_pos hone
  · obtain ⟨fuel, files'', level', points, hfin, hfile, hperm', hpairwise⟩ :=
      mergeLevels_finished (by omega) hnext hne' hord'
    refine ⟨fuel + 1, files'', level', points, ?_, hfile, hperm'.trans hperm, hpairwise⟩
    rw [mergeLevels, heq]
    exact (if_neg hone).trans hfin
termination_by chunks.length
decreasing_by omega

/-! ### All chunks -/

/-- The next file of a level is written. -/
theorem Holds.snoc {files : Files δ} {level : ℕ} {chunks : List (List (MortonPoint δ))}
    (h : Holds files level chunks) (points : List (MortonPoint δ)) :
    Holds (files.write level chunks.length points) level (chunks ++ [points]) where
  chunk {num points'} hget := by
    by_cases hlt : num < chunks.length
    · rw [List.getElem?_append_left hlt] at hget
      rw [Files.write_of_num_ne (Nat.ne_of_lt hlt), h.chunk hget]
    · obtain ⟨hlast, heq⟩ := List.getElem?_eq_some_iff.mp hget
      rw [List.length_append, List.length_singleton] at hlast
      obtain rfl : num = chunks.length := by omega
      rw [List.getElem_append_right (Nat.le_refl _)] at heq
      simp only [List.getElem_singleton] at heq
      rw [← heq, Files.write_same]
  above hl num := by rw [Files.write_of_level_ne (Nat.ne_of_gt hl), h.above hl]

/-- What the chunking phase has done with the points that it has read: `total` chunks are complete,
and the directory has those since the chunk number was `0`. -/
structure Chunked (chunkSize : ℕ) (read : List (MortonPoint δ)) (total : ℕ)
    (chunks : List (List (MortonPoint δ))) (s : Chunking δ) : Prop where
  length_buffer : s.mortonPoints.length = chunkSize
  pointIndex_lt : s.pointIndex < chunkSize
  length_read : read.length = chunkSize * total + s.pointIndex
  chunkNumber_eq : s.chunkNumber = total % 2 ^ 32
  length_chunks : chunks.length = s.chunkNumber
  holds : Holds s.files 0 chunks
  length_chunk : ∀ points ∈ chunks, points.length = chunkSize
  pairwise : ∀ points ∈ chunks, points.Pairwise LeMorton
  perm : total < 2 ^ 32 → (chunks.flatten ++ s.mortonPoints.take s.pointIndex).Perm read

theorem Chunked.start {chunkSize : ℕ} (h : 1 ≤ chunkSize) (zero : δ) :
    Chunked chunkSize [] 0 [] (.start zero chunkSize) where
  length_buffer := List.length_replicate
  pointIndex_lt := h
  length_read := rfl
  chunkNumber_eq := rfl
  length_chunks := rfl
  holds := ⟨by simp, fun _ _ => rfl⟩
  length_chunk := by simp
  pairwise := by simp
  perm _ := by simp [Chunking.start]

section Push

variable {chunkSize total : ℕ} {read : List (MortonPoint δ)} {chunks : List (List (MortonPoint δ))}
  {s : Chunking δ}

/-- The buffer up to the new point. -/
theorem Chunked.take_set (h : Chunked chunkSize read total chunks s) (p : MortonPoint δ) :
    (s.mortonPoints.set s.pointIndex p).take (s.pointIndex + 1) =
      s.mortonPoints.take s.pointIndex ++ [p] := by
  have hindex : s.pointIndex < s.mortonPoints.length := h.length_buffer ▸ h.pointIndex_lt
  rw [List.take_add_one, List.take_set_of_le (Nat.le_refl _)]
  simp [hindex]

theorem Chunked.perm_push (h : Chunked chunkSize read total chunks s) (hlt : total < 2 ^ 32)
    (p : MortonPoint δ) :
    (chunks.flatten ++ (s.mortonPoints.set s.pointIndex p).take (s.pointIndex + 1)).Perm
      (read ++ [p]) := by
  rw [h.take_set, ← List.append_assoc]
  exact (h.perm hlt).append_right [p]

/-- The buffer is not full yet. -/
theorem Chunked.push_of_ne (h : Chunked chunkSize read total chunks s)
    (hne : s.pointIndex + 1 ≠ chunkSize) (std : StdSort δ) (p : MortonPoint δ) :
    Chunked chunkSize (read ++ [p]) total chunks (s.push std chunkSize p) := by
  have hpush : s.push std chunkSize p =
      ⟨s.files, s.mortonPoints.set s.pointIndex p, s.pointIndex + 1, s.chunkNumber⟩ := if_neg hne
  rw [hpush]
  exact {
    length_buffer := (List.length_set).trans h.length_buffer
    pointIndex_lt := lt_of_le_of_ne h.pointIndex_lt hne
    length_read := by rw [List.length_append, h.length_read]; rfl
    chunkNumber_eq := h.chunkNumber_eq
    length_chunks := h.length_chunks
    holds := h.holds
    length_chunk := h.length_chunk
    pairwise := h.pairwise
    perm := fun hlt => h.perm_push hlt p }

/-- The buffer is full: one more chunk, or none where the chunk number starts again. -/
theorem Chunked.push_of_eq (h : Chunked chunkSize read total chunks s)
    (hfull : s.pointIndex + 1 = chunkSize) (std : StdSort δ) (p : MortonPoint δ) :
    ∃ chunks', Chunked chunkSize (read ++ [p]) (total + 1) chunks' (s.push std chunkSize p) := by
  set buffer := s.mortonPoints.set s.pointIndex p with hbuffer
  have hpush : s.push std chunkSize p = ⟨s.files.write 0 s.chunkNumber (std.sort buffer),
      std.sort buffer, 0, (s.chunkNumber + 1) % 2 ^ 32⟩ := if_pos hfull
  have hlen : buffer.length = chunkSize := List.length_set.trans h.length_buffer
  have hsort : (std.sort buffer).length = chunkSize := (std.perm buffer).length_eq.trans hlen
  have hread : (read ++ [p]).length = chunkSize * (total + 1) + 0 := by
    rw [List.length_append, h.length_read, List.length_singleton, Nat.add_assoc, hfull,
      Nat.mul_succ, Nat.add_zero]
  have hnum := h.chunkNumber_eq
  have hchunks := h.length_chunks
  rw [hpush]
  by_cases hwrap : s.chunkNumber + 1 = 2 ^ 32
  · exact ⟨[], {
      length_buffer := hsort
      pointIndex_lt := by rw [← hfull]; exact Nat.succ_pos _
      length_read := hread
      chunkNumber_eq := by simp only; omega
      length_chunks := by simp only [hwrap]; rfl
      holds := ⟨by simp, fun hl num =>
        (Files.write_of_level_ne (Nat.ne_of_gt hl) ..).trans (h.holds.above hl num)⟩
      length_chunk := by simp
      pairwise := by simp
      perm := fun hlt => by omega }⟩
  · refine ⟨chunks ++ [std.sort buffer], {
      length_buffer := hsort
      pointIndex_lt := by rw [← hfull]; exact Nat.succ_pos _
      length_read := hread
      chunkNumber_eq := by simp only; omega
      length_chunks := by simp only [List.length_append, List.length_singleton]; omega
      holds := h.length_chunks ▸ h.holds.snoc (std.sort buffer)
      length_chunk := by
        simpa only [List.forall_mem_append, List.forall_mem_singleton] using
          ⟨h.length_chunk, hsort⟩
      pairwise := by
        simpa only [List.forall_mem_append, List.forall_mem_singleton] using
          ⟨h.pairwise, std.pairwise buffer⟩
      perm := fun hlt => ?_ }⟩
    have hperm := h.perm_push (by omega) p
    rw [← hbuffer, hfull, List.take_of_length_le (Nat.le_of_eq hlen)] at hperm
    simp only [List.flatten_append, List.flatten_singleton, List.take_zero, List.append_nil]
    exact ((std.perm buffer).append_left _).trans hperm

theorem Chunked.push (h : Chunked chunkSize read total chunks s) (std : StdSort δ)
    (p : MortonPoint δ) :
    ∃ total' chunks', Chunked chunkSize (read ++ [p]) total' chunks' (s.push std chunkSize p) := by
  by_cases hfull : s.pointIndex + 1 = chunkSize
  · exact ⟨total + 1, h.push_of_eq hfull std p⟩
  · exact ⟨total, chunks, h.push_of_ne hfull std p⟩

theorem Chunked.pushes (std : StdSort δ) (points : List (MortonPoint δ))
    (h : Chunked chunkSize read total chunks s) :
    ∃ total' chunks', Chunked chunkSize (read ++ points) total' chunks'
      (points.foldl (Chunking.push std chunkSize) s) := by
  induction points generalizing read total chunks s with
  | nil => exact ⟨total, chunks, by rwa [List.append_nil]⟩
  | cons p points ih =>
    obtain ⟨total', chunks', h'⟩ := h.push std p
    have := ih h'
    rwa [List.append_assoc, List.singleton_append] at this

end Push

/-- The boundaries between the files make no difference. -/
theorem chunking_eq (std : StdSort δ) (d : Doubles δ) (lo hi : Fin 3 → δ) (chunkSize : ℕ)
    (lasFiles : List (List (LasPoint δ))) :
    chunking std d lo hi chunkSize lasFiles =
      (lasFiles.flatten.map (readPoint d lo hi)).foldl (Chunking.push std chunkSize)
        (.start d.zero chunkSize) := by
  rw [chunking, List.foldl_map, List.foldl_flatten]

/-- The program ends, and its last chunk holds the points it has read, in order. -/
def Sorts (std : StdSort δ) (d : Doubles δ) (lo hi : Fin 3 → δ) (chunkSize : ℕ)
    (lasFiles : List (List (LasPoint δ))) : Prop :=
  ∃ fuel files level points,
    sortLas std d lo hi chunkSize fuel lasFiles = .finished files level ∧
      files level 0 = some points ∧
      points.Perm (lasFiles.flatten.map (readPoint d lo hi)) ∧ points.Pairwise LeMorton

/-- Only complete chunks are written, so the program sorts exactly the inputs that consist of them:
at least one, and no more than there are chunk numbers. -/
theorem sortLas_sorts_iff (std : StdSort δ) (d : Doubles δ) (lo hi : Fin 3 → δ) {chunkSize : ℕ}
    (hsize : 1 ≤ chunkSize) (lasFiles : List (List (LasPoint δ))) :
    Sorts std d lo hi chunkSize lasFiles ↔
      0 < lasFiles.flatten.length ∧ chunkSize ∣ lasFiles.flatten.length ∧
        lasFiles.flatten.length / chunkSize < 2 ^ 32 := by
  obtain ⟨total, chunks, h⟩ := (Chunked.start hsize d.zero).pushes std
    (lasFiles.flatten.map (readPoint d lo hi))
  rw [← chunking_eq, List.nil_append] at h
  simp only [Sorts, sortLas]
  set s := chunking std d lo hi chunkSize lasFiles
  have hread := h.length_read
  rw [List.length_map] at hread
  have hindex := h.pointIndex_lt
  have hnum := h.chunkNumber_eq
  have hdiv : lasFiles.flatten.length / chunkSize = total := by
    rw [hread, Nat.mul_add_div hsize, Nat.div_eq_of_lt hindex, Nat.add_zero]
  have hfinished := fun hpos => h.length_chunks ▸ mergeLevels_finished hpos h.holds
    (fun points hmem hnil => by
      have := h.length_chunk points hmem
      rw [hnil, List.length_nil] at this
      omega)
    h.pairwise
  constructor
  · rintro ⟨fuel, files, level, points, hfin, hfile, hperm, -⟩
    have hpos : 0 < chunks.length := by
      rw [h.length_chunks]
      refine Nat.pos_of_ne_zero fun hzero => ?_
      rw [hzero, mergeLevels_zero] at hfin
      cases hfin
    obtain ⟨fuel', files', level', points', hfin', hfile', hperm', -⟩ := hfinished hpos
    obtain ⟨rfl, rfl⟩ := mergeLevels_unique hfin hfin'
    obtain rfl := Option.some.inj (hfile.symm.trans hfile')
    -- the chunks make up all the points
    have hlen : chunkSize * s.chunkNumber = chunkSize * total + s.pointIndex := by
      have hlen := hperm.length_eq.symm.trans hperm'.length_eq
      rw [List.length_map, hread, List.length_flatten,
        List.map_congr_left h.length_chunk] at hlen
      rw [hlen]
      simp [h.length_chunks, Nat.mul_comm]
    have hle : chunkSize * s.chunkNumber ≤ chunkSize * total :=
      Nat.mul_le_mul_left _ (hnum ▸ Nat.mod_le _ _)
    have htotal : s.chunkNumber = total := Nat.eq_of_mul_eq_mul_left hsize (by omega)
    have hzero : s.pointIndex = 0 := by omega
    rw [h.length_chunks] at hpos
    refine ⟨?_, ?_, by omega⟩
    · rw [hread]
      have := Nat.mul_pos hsize (htotal ▸ hpos)
      omega
    · rw [hread, hzero]
      exact Nat.dvd_mul_right _ _
  · rintro ⟨hpos, hdvd, hlt⟩
    have hzero : s.pointIndex = 0 := by
      rw [hread] at hdvd
      exact Nat.eq_zero_of_dvd_of_lt ((Nat.dvd_add_right (Nat.dvd_mul_right _ _)).mp hdvd) hindex
    have hperm := h.perm (by omega)
    rw [hzero, List.take_zero, List.append_nil] at hperm
    have htotal : 0 < total := by
      refine Nat.pos_of_ne_zero fun h0 => ?_
      rw [h0] at hread
      omega
    obtain ⟨fuel, files, level, points, hfin, hfile, hpoints, hord⟩ := hfinished (by
      rw [h.length_chunks]
      omega)
    exact ⟨fuel, files, level, points, hfin, hfile, hpoints.trans hperm, hord⟩

/-- A sort that fits `std::sort`. -/
def StdSort.merge : StdSort δ where
  sort points := points.mergeSort fun p q => decide (LeMorton p q)
  perm points := points.mergeSort_perm _
  pairwise points :=
    (List.pairwise_mergeSort leMorton_trans leMorton_total points).imp of_decide_eq_true

/-- The expressions on doubles without rounding. -/
def Doubles.exact : Doubles ℚ where
  zero := 0
  fixedCoord lo hi p := .ofNat ⌊(p - lo) / (hi - lo) * 1024⌋.toNat
  gray i := i.toNat / 65536 * 255

theorem sortLas_sorts_four :
    Sorts .merge .exact (fun _ => 0) (fun _ => 8) 2
      [[⟨7, 1, 2, 40⟩, ⟨1, 2, 3, 50⟩, ⟨5, 5, 0, 60⟩], [⟨0, 6, 4, 70⟩]] :=
  (sortLas_sorts_iff .merge .exact (fun _ => 0) (fun _ => 8) (by decide) _).mpr
    ⟨by decide, by decide, by decide⟩

/-- One point does not fill a chunk of two, and the merging loop does not end. -/
theorem sortLas_one (fuel : ℕ) :
    sortLas .merge .exact (fun _ => 0) (fun _ => 8) 2 fuel [[⟨7, 1, 2, 40⟩]] = .running :=
  mergeLevels_zero fuel 0 _

theorem not_sortLas_sorts :
    ¬ ∀ (chunkSize : ℕ) (lasFiles : List (List (LasPoint ℚ))), 1 ≤ chunkSize →
      Sorts .merge .exact (fun _ => 0) (fun _ => 8) chunkSize lasFiles := by
  intro h
  obtain ⟨fuel, files, level, points, hfin, -⟩ := h 2 [[⟨7, 1, 2, 40⟩]] (by decide)
  rw [sortLas_one] at hfin
  cases hfin

end SortLas

end MegaTree
