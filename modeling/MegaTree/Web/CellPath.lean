import MegaTree.Core.FilePath
import MegaTree.Tree.Basic
import MegaTree.Web.CellObject

/-!
# The files that the viewer asks for

The viewer forms the id of a cell by appending digits to the root of its tree and asks the server
for the file of that name, while the tree stores a file under the path of `toPath`, which starts a
new folder after every `subfolder_depth` digits.

* `LongId.filePath_of_lt` : the path of a file above the first folder.
* `LongId.filePath_of_le` : the path of any other file starts with a digit.
* `asksForFile_iff` : the files that the viewer finds.
-/

namespace MegaTree

namespace LongId

/-! ### The path of a file -/

/-- The file loop writes the last digits. -/
theorem fileLoop_snd (n : ℕ) (id : LongId) (file : List Char) :
    (fileLoop n id file).2 = lastDigits n id ++ file := by
  induction n generalizing id file with
  | zero => rfl
  | succ n ih => rw [fileLoop, ih, lastDigits, List.append_assoc, List.singleton_append]

/-- A file whose level does not fill a folder is stored at the top. -/
theorem filePath_of_lt {id : LongId} {d : ℕ} (h : id.level < d) :
    (id.filePath d).toList = 'f' :: lastDigits id.level id := by
  simp only [filePath, toPath, Nat.mod_eq_of_lt h, Nat.sub_self, pathLoop, fileLoop_snd]
  simp

/-- The folder loop ends with a digit. -/
theorem pathLoop_cons (d n i : ℕ) (id : LongId) (path : List Char) :
    ∃ (id' : LongId) (rest : List Char), pathLoop d (n + 1) i id path = id'.digitChar :: rest := by
  induction n generalizing i id path with
  | zero => exact ⟨id, _, rfl⟩
  | succ n ih => exact ih (i + 1) (id.getParent 1) _

/-- Every other file is stored in a folder, whose name starts with a digit. -/
theorem filePath_of_le {id : LongId} {d : ℕ} (hd : 0 < d) (h : d ≤ id.level) :
    ∃ (id' : LongId) (rest : List Char), (id.filePath d).toList = id'.digitChar :: rest := by
  obtain ⟨n, hn⟩ : ∃ n, id.level - id.level % d = n + 1 := by
    have hmod := Nat.mod_lt id.level hd
    exact ⟨id.level - id.level % d - 1, by omega⟩
  obtain ⟨id', rest, hpath⟩ :=
    pathLoop_cons d n 0 (fileLoop (id.level % d) id []).1 []
  refine ⟨id', rest ++ 'f' :: (fileLoop (id.level % d) id []).2, ?_⟩
  simp only [filePath, toPath, hn, hpath]
  simp

end LongId

namespace Web

/-! ### The text of an id -/

/-- `parent_id`: `id.substr(0, id.length-1)` -/
def parentId (id : List Char) : List Char := id.dropLast

/-- `parseInt` of one character, or `none` for `NaN`. -/
def parseDigit (c : Char) : Option ℕ := if c.isDigit then some (c.toNat - 48) else none

/-- `which_child`: `parseInt(id.charAt(id.length-1))` -/
def whichChild (id : List Char) : Option ℕ := id.getLast?.bind parseDigit

/-- The name of the tree and the path under which it stores the file. -/
def storedAs (name : List Char) (fileId : LongId) (subfolderDepth : ℕ) : List Char :=
  name ++ "/".toList ++ (fileId.filePath subfolderDepth).toList

/-- The viewer reaches the file through the digits `π` below the root of its tree, and finds the
ids of the file, of its parent and of the child in the text. -/
structure AsksForFile (name : List Char) (subfolderDepth : ℕ) (fileId : LongId) (π : Path) :
    Prop where
  id : CellId.text ⟨name, π⟩ = storedAs name fileId subfolderDepth
  parent : parentId (CellId.text ⟨name, π⟩) = storedAs name (fileId.getParent 1) subfolderDepth
  child : whichChild (CellId.text ⟨name, π⟩) = some fileId.getChildNr.val

theorem parseDigit_digit (c : ChildNr) : parseDigit (CellId.digit c) = some c.val := by
  revert c
  decide

theorem text_eq (name : List Char) (π : Path) :
    CellId.text ⟨name, π⟩ = name ++ '/' :: 'f' :: '1' :: π.reverse.map CellId.digit := by
  simp [CellId.text]

/-- The text of an id is the path of a file at the top of the tree. -/
theorem storedAs_idOf {π : Path} {d : ℕ} (name : List Char) (hπ : π.length ≤ maxDepth)
    (h : (idOf π).level < d) : storedAs name (idOf π) d = CellId.text ⟨name, π⟩ := by
  rw [storedAs, LongId.filePath_of_lt h, lastDigits_idOf hπ, text_eq]
  simp [CellId.digit]

theorem storedAs_root {d : ℕ} (name : List Char) (h : 0 < d) :
    storedAs name (.ofValue 0) d = name ++ ['/', 'f'] := by
  have hlevel : (LongId.ofValue 0).level = 0 := rfl
  rw [storedAs, LongId.filePath_of_lt (hlevel ▸ h), hlevel]
  simp [LongId.lastDigits]

theorem whichChild_concat (s : List Char) (c : ChildNr) :
    whichChild (s ++ [CellId.digit c]) = some c.val := by
  rw [whichChild, List.getLast?_concat, Option.bind_some, parseDigit_digit]

/-- A file at the top of the tree is found, and so is its parent. -/
theorem asksForFile_of_lt {π : Path} {d : ℕ} (name : List Char) (hπ : π.length ≤ maxDepth)
    (h : (idOf π).level < d) : AsksForFile name d (idOf π) π where
  id := (storedAs_idOf name hπ h).symm
  parent := by
    cases π with
    | nil =>
      have hroot : (idOf []).getParent 1 = .ofValue 0 := rfl
      rw [hroot, storedAs_root name (Nat.zero_lt_of_lt h), text_eq, parentId]
      simp
    | cons c π =>
      have hlevel : (idOf π).level < d := by
        simp only [LongId.level, idOf_idLevel, List.length_cons] at h ⊢
        omega
      have hlen : π.length + 1 ≤ maxDepth := hπ
      rw [getParent_idOf_cons hlen, storedAs_idOf name (by omega) hlevel, parentId,
        show CellId.text ⟨name, c :: π⟩ = _ from CellId.text_child ⟨name, π⟩ c,
          List.dropLast_concat]
  child := by
    cases π with
    | nil =>
      have hroot : CellId.text ⟨name, []⟩ = (name ++ ['/', 'f']) ++ [CellId.digit 1] := by
        rw [text_eq]
        simp [CellId.digit]
      rw [hroot, whichChild_concat]
      rfl
    | cons c π =>
      rw [show CellId.text ⟨name, c :: π⟩ = _ from CellId.text_child ⟨name, π⟩ c, whichChild_concat,
        getChildNr_idOf_cons hπ]

theorem width_le_of_level {cfg : Config} {ρ : Path} (h : 1 ≤ (getFileId cfg (idOf ρ)).level) :
    cfg.subtreeWidth ≤ ρ.length := by
  by_contra hlt
  have hle : (idOf ρ).idLevel ≤ cfg.subtreeWidth := by
    rw [idOf_idLevel]
    omega
  rw [getFileId, LongId.getParent, if_pos hle] at h
  exact absurd h (by decide)

/-- The viewer finds the files whose level does not fill a folder: the client accepts every folder
depth from 30 on, and the files of a tree can lie 41 levels deep. -/
theorem asksForFile_iff {cfg : Config} {d : ℕ} {ρ : Path} (name : List Char) (hd : 30 ≤ d)
    (hρ : ρ.length ≤ maxDepth) (hfile : 1 ≤ (getFileId cfg (idOf ρ)).level) :
    AsksForFile name d (getFileId cfg (idOf ρ)) (ρ.drop cfg.subtreeWidth) ↔
      (getFileId cfg (idOf ρ)).level < d := by
  have hwidth := width_le_of_level hfile
  rw [getFileId, getParent_idOf hρ cfg.width_pos cfg.width_le hwidth]
  have hlen : (ρ.drop cfg.subtreeWidth).length ≤ maxDepth := by
    rw [List.length_drop]
    omega
  refine ⟨fun h => ?_, asksForFile_of_lt name hlen⟩
  by_contra hle
  obtain ⟨id', rest, hpath⟩ := LongId.filePath_of_le (by omega) (Nat.le_of_not_lt hle)
  have hdigit : ∀ c : ChildNr, Char.ofNat (48 + c.val) ≠ 'f' := by decide
  have hid := h.id
  rw [text_eq, storedAs, hpath, List.append_assoc, List.append_cancel_left_eq] at hid
  exact hdigit _ (List.cons.inj (List.cons.inj hid).2).1.symm

/-- The file with the nodes right below the root of a small tree. -/
theorem asksForFile_first :
    AsksForFile "tree".toList 30 (getFileId .sample (idOf [3, 5, 2])) [2] :=
  (asksForFile_iff "tree".toList le_rfl (by decide) (by decide)).2 (by decide)

/-- A file at level 30: its folder has the 30 digits that the viewer puts behind the `f`. -/
theorem not_asksForFile :
    ¬ AsksForFile "tree".toList 30 (getFileId .sample (idOf (List.replicate 31 0)))
      (List.replicate 29 0) := by
  intro h
  have hid := h.id
  revert hid
  decide +kernel

end Web

end MegaTree
