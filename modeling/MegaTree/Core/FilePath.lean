import MegaTree.Core.LongId
import Mathlib.Data.List.Basic

/-!
# Paths of files

`toPath` prints the digits of a file id: the last `level % folder_depth` of them in the name of the
file, the others in folders of `folder_depth` digits.  The digits can be read off again
(`octalDigits_filePath`), so two files never share a path (`filePath_injective`).
-/

namespace MegaTree

namespace LongId

/-- `(char)((int)'0' + (id.ints[num-1] & 7))` -/
def digitChar (id : LongId) : Char := Char.ofNat (48 + id.getChildNr.val)

/-- The loop of `toPath` that writes the file name from the back: the rest of the id, and the
characters. -/
def fileLoop : ℕ → LongId → List Char → LongId × List Char
  | 0, id, file => (id, file)
  | n + 1, id, file => fileLoop n (id.getParent 1) (id.digitChar :: file)

/-- The loop of `toPath` that writes the folders from the back; `i` digits are written already. -/
def pathLoop (folderDepth : ℕ) : ℕ → ℕ → LongId → List Char → List Char
  | 0, _, _, path => path
  | n + 1, i, id, path =>
    let path := if i % folderDepth = 0 then '/' :: path else path
    pathLoop folderDepth n (i + 1) (id.getParent 1) (id.digitChar :: path)

/-- `toPath(folder_depth, path, file)` -/
def toPath (id : LongId) (folderDepth : ℕ) : String × String :=
  let fileSize := id.level % folderDepth
  let pathSize := id.level - fileSize
  let (rest, file) := fileLoop fileSize id []
  (.ofList (pathLoop folderDepth pathSize 0 rest []), .ofList ('f' :: file))

/-- `boost::filesystem::path(relative_path) / filename`; a relative path ends with a separator. -/
def filePath (id : LongId) (folderDepth : ℕ) : String :=
  (id.toPath folderDepth).1 ++ (id.toPath folderDepth).2

/-! ### Reading the digits off -/

/-- The last `n` digits of an id, the first of them first. -/
def lastDigits : ℕ → LongId → List Char
  | 0, _ => []
  | n + 1, id => lastDigits n (id.getParent 1) ++ [id.digitChar]

/-- The octal digits among some characters. -/
def octalDigits (s : List Char) : List Char := s.filter fun c => decide ('0' ≤ c ∧ c ≤ '7')

theorem octalDigits_digitChar (id : LongId) (s : List Char) :
    octalDigits (id.digitChar :: s) = id.digitChar :: octalDigits s := by
  have h : ∀ c : ChildNr, decide ('0' ≤ Char.ofNat (48 + c.val) ∧ Char.ofNat (48 + c.val) ≤ '7') := by
    decide
  exact List.filter_cons_of_pos (h id.getChildNr)

/-- The file loop takes the last digits and leaves the others. -/
theorem fileLoop_spec (k n : ℕ) (id : LongId) (file : List Char) :
    lastDigits k (fileLoop n id file).1 ++ octalDigits (fileLoop n id file).2 =
      lastDigits (k + n) id ++ octalDigits file := by
  induction n generalizing id file with
  | zero => rfl
  | succ n ih =>
    rw [fileLoop, ih, octalDigits_digitChar, ← Nat.add_assoc, lastDigits, List.append_assoc]
    rfl

theorem octalDigits_pathLoop (d n i : ℕ) (id : LongId) (path : List Char) :
    octalDigits (pathLoop d n i id path) = lastDigits n id ++ octalDigits path := by
  induction n generalizing i id path with
  | zero => rfl
  | succ n ih =>
    have hsep : octalDigits (if i % d = 0 then '/' :: path else path) = octalDigits path := by
      split_ifs
      · exact List.filter_cons_of_neg (by decide)
      · rfl
    rw [pathLoop, ih, octalDigits_digitChar, hsep, lastDigits, List.append_assoc]
    rfl

/-- The digits of a path are those of the id. -/
theorem octalDigits_filePath (id : LongId) (d : ℕ) :
    octalDigits (id.filePath d).toList = lastDigits id.level id := by
  have hsize : id.level - id.level % d + id.level % d = id.level :=
    Nat.sub_add_cancel (Nat.mod_le _ _)
  have hf : octalDigits ('f' :: (fileLoop (id.level % d) id []).2) =
      octalDigits (fileLoop (id.level % d) id []).2 := List.filter_cons_of_neg (by decide)
  have hspec := fileLoop_spec (id.level - id.level % d) (id.level % d) id []
  have happ : ∀ s t : List Char, octalDigits (s ++ t) = octalDigits s ++ octalDigits t :=
    fun _ _ => List.filter_append ..
  rw [hsize] at hspec
  simp only [filePath, toPath, String.toList_append, String.toList_ofList, happ, hf,
    octalDigits_pathLoop]
  simpa [octalDigits] using hspec

end LongId

/-! ### The ids of the files -/

theorem getParent_idOf_cons {c : ChildNr} {π : Path} (h : π.length + 1 ≤ maxDepth) :
    (idOf (c :: π)).getParent 1 = idOf π :=
  getParent_idOf (by simpa using h) le_rfl (by decide) (by simp)

theorem getChildNr_idOf_cons {c : ChildNr} {π : Path} (h : π.length + 1 ≤ maxDepth) :
    (idOf (c :: π)).getChildNr = c := by
  have hn := toNat_idOf (π := c :: π) (by simpa using h)
  apply Fin.ext
  have hc := c.isLt
  simp only [LongId.toNat, octal] at hn
  simp only [LongId.getChildNr, UInt64.toNat_and]
  rw [show (7 : UInt64).toNat = 2 ^ 3 - 1 from rfl, Nat.and_two_pow_sub_one_eq_mod]
  omega

/-- The digits of the id of a path. -/
theorem lastDigits_idOf {π : Path} (h : π.length ≤ maxDepth) :
    LongId.lastDigits (idOf π).level (idOf π) =
      '1' :: (π.reverse.map fun c => Char.ofNat (48 + c.val)) := by
  induction π with
  | nil => rfl
  | cons c π ih =>
    have hlen : π.length + 1 ≤ maxDepth := by simpa using h
    have hlevel : (idOf (c :: π)).level = (idOf π).level + 1 := by
      simp only [LongId.level, idOf_idLevel, List.length_cons]
    rw [hlevel, LongId.lastDigits, getParent_idOf_cons hlen, ih (by omega), LongId.digitChar,
      getChildNr_idOf_cons hlen]
    simp

/-- The id of a file: the first file, or the file with the nodes below the path `π`. -/
def IsFileId (id : LongId) : Prop := id = .ofValue 0 ∨ ∃ π : Path, π.length ≤ maxDepth ∧ id = idOf π

/-- Two files never share a path. -/
theorem filePath_injective {a b : LongId} {d : ℕ} (ha : IsFileId a) (hb : IsFileId b)
    (h : a.filePath d = b.filePath d) : a = b := by
  have hd : LongId.lastDigits a.level a = LongId.lastDigits b.level b := by
    rw [← LongId.octalDigits_filePath a d, ← LongId.octalDigits_filePath b d, h]
  have hroot : LongId.lastDigits (LongId.ofValue 0).level (.ofValue 0) = [] := rfl
  have hdigit : Function.Injective fun c : ChildNr => Char.ofNat (48 + c.val) := by
    unfold Function.Injective
    decide
  rcases ha with rfl | ⟨π, hπ, rfl⟩ <;> rcases hb with rfl | ⟨ρ, hρ, rfl⟩
  · rfl
  · rw [hroot, lastDigits_idOf hρ] at hd
    cases hd
  · rw [hroot, lastDigits_idOf hπ] at hd
    cases hd
  · rw [lastDigits_idOf hπ, lastDigits_idOf hρ] at hd
    have := List.map_injective_iff.2 hdigit (List.cons.inj hd).2
    rw [List.reverse_injective this]

end MegaTree
