import MegaTree.Core.Basic
import Mathlib.Tactic.IntervalCases
import Mathlib.Tactic.Positivity
import Mathlib.Tactic.Ring

/-!
# Node and file ids

`LongId` is `LongId<2>`: the octal digits of the path from the root to a node, packed into two
64-bit words, with the number of digits.  `LongId.getChild` appends a digit, `LongId.getParent`
drops digits and `LongId.getBits` keeps the low bits, exactly with the shifts and masks of the
source.

A node of the tree is reached from the root by a list of child numbers (`Path`, the last step
first), and `idOf` is its id.  `toNat_idOf` says that nothing is lost: up to 41 steps the id, read
as a 128-bit number, is the octal number of the path (`octal`), and `idOf_injective` that the id
determines the path.
-/

namespace MegaTree

/-- `LongId<2>`: two 64-bit words, most significant first, and the number of octal digits. -/
structure LongId where
  /-- `ints[0]`, the upper word. -/
  ints₀ : UInt64
  /-- `ints[1]`, the lower word. -/
  ints₁ : UInt64
  /-- `id_level`, the number of octal digits. -/
  idLevel : ℕ
  deriving DecidableEq, Repr

namespace LongId

/-- The `while (value != 0)` loop of the constructor; a 64-bit value has at most 22 digits. -/
def countDigits : ℕ → UInt64 → ℕ
  | 0, _ => 0
  | n + 1, value => if value = 0 then 0 else countDigits n (value >>> 3) + 1

/-- The constructor `LongId(uint64_t value)`. -/
def ofValue (value : UInt64) : LongId := ⟨0, value, countDigits 22 value⟩

/-- `level()` -/
def level (id : LongId) : ℕ := id.idLevel

/-- `isRootFile()` -/
def isRootFile (id : LongId) : Bool := id.idLevel == 0

/-- `isValid()` -/
def isValid (id : LongId) : Bool := id.idLevel != 0

/-- `getChildNr()` -/
def getChildNr (id : LongId) : ChildNr := ⟨(id.ints₁ &&& 7).toNat, by
  rw [UInt64.toNat_and, show (7 : UInt64).toNat = 2 ^ 3 - 1 from rfl,
    Nat.and_two_pow_sub_one_eq_mod]
  exact Nat.mod_lt _ (by decide)⟩

/-- `(1 << bits) - 1`, computed in a 32-bit `int` and then converted to 64 bits.  From 31 bits on
the shift is undefined in C++; the usual hardware takes it modulo 32. -/
def intMask (bits : ℕ) : UInt64 :=
  ⟨((1#32 <<< (bits % 32)) - 1#32).signExtend 64⟩

/-- `getBits(nr_bits)`, as the 32-bit value the callers store. -/
def getBits (id : LongId) (nrBits : ℕ) : ShortId := (id.ints₁ &&& intMask nrBits).toUInt32

/-- `getParent(generations)`: drop that many digits, or the invalid id when there are not enough.
The source asserts `3 * generations < 64`. -/
def getParent (id : LongId) (generations : ℕ) : LongId :=
  if id.idLevel ≤ generations then ofValue 0
  else
    let shift := 3 * generations
    { ints₁ := (id.ints₁ >>> .ofNat shift) +
        ((id.ints₀ &&& intMask shift) <<< .ofNat (64 - shift))
      ints₀ := id.ints₀ >>> .ofNat shift
      idLevel := id.idLevel - generations }

/-- The id that `getChild` computes, before its assertion. -/
def childId (id : LongId) (childNr : ChildNr) : LongId :=
  { ints₀ := (id.ints₀ <<< 3) + ((id.ints₁ &&& ((7 : UInt64) <<< 61)) >>> 61)
    ints₁ := (id.ints₁ <<< 3) + .ofNat childNr.val
    idLevel := id.idLevel + 1 }

/-- `getChild(child_nr)`, with `assert(id_level < num*64/3)`. -/
def getChild (id : LongId) (childNr : ChildNr) : Except Err LongId :=
  if id.idLevel < 2 * 64 / 3 then .ok (id.childId childNr) else .error .depthLimit

/-- The two words as one number. -/
def toNat (id : LongId) : ℕ := id.ints₀.toNat * 2 ^ 64 + id.ints₁.toNat

theorem ext_toNat {a b : LongId} (hv : a.toNat = b.toNat) (hl : a.idLevel = b.idLevel) :
    a = b := by
  have h₀ := a.ints₀.toNat_lt
  have h₁ := a.ints₁.toNat_lt
  have h₂ := b.ints₁.toNat_lt
  obtain ⟨a₀, a₁, al⟩ := a
  obtain ⟨b₀, b₁, bl⟩ := b
  simp only [toNat] at hv
  simp only [mk.injEq]
  simp only at h₁ h₂ hl
  exact ⟨UInt64.toNat_inj.1 (by omega), UInt64.toNat_inj.1 (by omega), hl⟩

@[simp] theorem childId_idLevel (id : LongId) (c : ChildNr) :
    (id.childId c).idLevel = id.idLevel + 1 := rfl

theorem getChild_of_lt {id : LongId} (h : id.idLevel < 42) (c : ChildNr) :
    id.getChild c = .ok (id.childId c) := by simp [getChild, h]

theorem getChild_of_le {id : LongId} (h : 42 ≤ id.idLevel) (c : ChildNr) :
    id.getChild c = .error .depthLimit := by simp [getChild, h]

/-- The digit carried from the lower to the upper word by `getChild`. -/
theorem carry_toNat (x : UInt64) :
    ((x &&& ((7 : UInt64) <<< 61)) >>> 61).toNat = x.toNat / 2 ^ 61 := by
  have hx := x.toNat_lt
  have h : (x &&& ((7 : UInt64) <<< 61)).toNat = x.toNat &&& (7 <<< 61) := by
    rw [UInt64.toNat_and]; rfl
  rw [UInt64.toNat_shiftRight, h, show (61 : UInt64).toNat % 64 = 61 from rfl,
    Nat.shiftRight_and_distrib, show (7 <<< 61 : ℕ) >>> 61 = 2 ^ 3 - 1 from rfl,
    Nat.and_two_pow_sub_one_eq_mod, Nat.shiftRight_eq_div_pow, Nat.mod_eq_of_lt]
  omega

theorem toNat_childId {id : LongId} (h : id.toNat < 2 ^ 125) (c : ChildNr) :
    (id.childId c).toNat = 8 * id.toNat + c.val := by
  have h₁ := id.ints₁.toNat_lt
  have hc := c.isLt
  simp only [toNat] at h
  have e₁ : (id.ints₁ <<< 3).toNat = id.ints₁.toNat * 8 % 2 ^ 64 := by
    rw [UInt64.toNat_shiftLeft, show (3 : UInt64).toNat % 64 = 3 from rfl, Nat.shiftLeft_eq]
  have e₀ : (id.ints₀ <<< 3).toNat = id.ints₀.toNat * 8 % 2 ^ 64 := by
    rw [UInt64.toNat_shiftLeft, show (3 : UInt64).toNat % 64 = 3 from rfl, Nat.shiftLeft_eq]
  simp only [toNat, childId, UInt64.toNat_add, carry_toNat, e₀, e₁]
  have ec : (UInt64.ofNat c.val).toNat = c.val := by
    rw [UInt64.toNat_ofNat']; exact Nat.mod_eq_of_lt (by omega)
  rw [ec]
  omega

theorem intMask_toNat {bits : ℕ} (h : bits ≤ 30) : (intMask bits).toNat = 2 ^ bits - 1 := by
  interval_cases bits <;> rfl

theorem getBits_toNat {id : LongId} {n : ℕ} (h : n ≤ 30) :
    (id.getBits n).toNat = id.toNat % 2 ^ n := by
  have hlt : id.ints₁.toNat % 2 ^ n < 2 ^ 32 :=
    (Nat.mod_lt _ (by positivity)).trans_le (Nat.pow_le_pow_right (by decide) (by omega))
  rw [getBits, UInt64.toNat_toUInt32, UInt64.toNat_and, intMask_toNat h,
    Nat.and_two_pow_sub_one_eq_mod, Nat.mod_eq_of_lt hlt, toNat]
  obtain ⟨k, hk⟩ := Nat.exists_eq_add_of_le (show n ≤ 64 by omega)
  rw [hk, Nat.pow_add, ← mul_assoc, mul_comm _ (2 ^ n), mul_assoc, Nat.mul_add_mod]

theorem getParent_of_le {id : LongId} {g : ℕ} (h : id.idLevel ≤ g) :
    id.getParent g = ofValue 0 := by simp [getParent, h]

theorem getParent_idLevel {id : LongId} {g : ℕ} (h : g < id.idLevel) :
    (id.getParent g).idLevel = id.idLevel - g := by simp [getParent, Nat.not_le.2 h]

theorem toNat_getParent {id : LongId} {g : ℕ} (hg : g < id.idLevel) (h₁ : 1 ≤ g) (h₂ : g ≤ 10) :
    (id.getParent g).toNat = id.toNat / 8 ^ g := by
  have hx := id.ints₁.toNat_lt
  have hy := id.ints₀.toNat_lt
  have hp : (8 : ℕ) ^ g = 2 ^ (3 * g) := by rw [pow_mul]; rfl
  have h3 : 3 * g ≤ 30 := by omega
  have s₁ : (UInt64.ofNat (3 * g)).toNat % 64 = 3 * g := by
    rw [UInt64.toNat_ofNat']; omega
  have s₂ : (UInt64.ofNat (64 - 3 * g)).toNat % 64 = 64 - 3 * g := by
    rw [UInt64.toNat_ofNat']; omega
  simp only [getParent, Nat.not_le.2 hg, if_false, toNat, UInt64.toNat_add,
    UInt64.toNat_shiftRight, UInt64.toNat_shiftLeft, UInt64.toNat_and, s₁, s₂, intMask_toNat h3,
    Nat.and_two_pow_sub_one_eq_mod, Nat.shiftRight_eq_div_pow, Nat.shiftLeft_eq, hp]
  obtain ⟨k, hk⟩ := Nat.exists_eq_add_of_le (show 3 * g ≤ 64 by omega)
  have e64 : (2 : ℕ) ^ 64 = 2 ^ (3 * g) * 2 ^ k := by rw [← Nat.pow_add, ← hk]
  have ek : 64 - 3 * g = k := by omega
  rw [ek]
  set a := id.ints₀.toNat
  set b := id.ints₁.toNat
  set P := (2 : ℕ) ^ (3 * g) with hP
  set K := (2 : ℕ) ^ k with hK
  have hPpos : 0 < P := by positivity
  have hKpos : 0 < K := by positivity
  have hb : b / P < K := by rw [Nat.div_lt_iff_lt_mul hPpos, mul_comm, ← e64]; exact hx
  have ha := Nat.div_add_mod a P
  have hr := Nat.mod_lt a hPpos
  have hmul : a % P * K < 2 ^ 64 := by rw [e64]; exact Nat.mul_lt_mul_of_pos_right hr hKpos
  have hsum : b / P + a % P * K < 2 ^ 64 := by
    have h' : (a % P + 1) * K ≤ P * K := Nat.mul_le_mul_right K hr
    have h'' : (a % P + 1) * K = a % P * K + K := by ring
    omega
  rw [Nat.mod_eq_of_lt hmul, Nat.mod_eq_of_lt hsum, e64,
    show a * (P * K) + b = b + P * (a * K) by ring, Nat.add_mul_div_left _ _ hPpos]
  have hsplit : a * K = (a / P * (P * K)) + a % P * K := by
    conv_lhs => rw [← ha]
    ring
  omega

end LongId

/-! ### Paths -/

/-- The way from the root to a node, the last child number first. -/
abbrev Path := List ChildNr

/-- The octal number of a path: the digit `1` of the root followed by the child numbers. -/
def octal : Path → ℕ
  | [] => 1
  | c :: π => 8 * octal π + c.val

/-- The id of the node at a path. -/
def idOf : Path → LongId
  | [] => .ofValue 1
  | c :: π => (idOf π).childId c

/-- The deepest node has 42 digits, so it is 41 steps below the root. -/
def maxDepth : ℕ := 41

theorem octal_pos (π : Path) : 0 < octal π := by
  cases π with
  | nil => decide
  | cons c π => have := octal_pos π; simp only [octal]; omega

theorem octal_lt (π : Path) : octal π < 2 * 8 ^ π.length := by
  induction π with
  | nil => decide
  | cons c π ih =>
    have := c.isLt
    simp only [octal, List.length_cons, pow_succ]
    omega

theorem le_octal (π : Path) : 8 ^ π.length ≤ octal π := by
  induction π with
  | nil => decide
  | cons c π ih => simp only [octal, List.length_cons, pow_succ]; omega

theorem octal_injective {π ρ : Path} (h : octal π = octal ρ) : π = ρ := by
  induction π generalizing ρ with
  | nil =>
    cases ρ with
    | nil => rfl
    | cons c ρ => have := octal_pos ρ; simp only [octal] at h; omega
  | cons c π ih =>
    cases ρ with
    | nil => have := octal_pos π; simp only [octal] at h; omega
    | cons d ρ =>
      have hc := c.isLt
      have hd := d.isLt
      simp only [octal] at h
      have hcd : c = d := Fin.ext (by omega)
      rw [hcd, ih (show octal π = octal ρ by omega)]

theorem octal_div (π : Path) (n : ℕ) (h : n ≤ π.length) :
    octal π / 8 ^ n = octal (π.drop n) := by
  induction n generalizing π with
  | zero => simp
  | succ n ih =>
    cases π with
    | nil => simp at h
    | cons c π =>
      have hc := c.isLt
      rw [pow_succ', ← Nat.div_div_eq_div_mul, octal,
        show (8 * octal π + c.val) / 8 = octal π by omega, ih π (by simpa using h)]
      rfl

@[simp] theorem idOf_idLevel (π : Path) : (idOf π).idLevel = π.length + 1 := by
  induction π with
  | nil => rfl
  | cons c π ih => simp [idOf, ih]

theorem toNat_idOf {π : Path} (h : π.length ≤ maxDepth) : (idOf π).toNat = octal π := by
  induction π with
  | nil => rfl
  | cons c π ih =>
    have hl : π.length ≤ 40 := by simp only [List.length_cons, maxDepth] at h; omega
    have ih' := ih (by simp only [maxDepth]; omega)
    have hlt : octal π < 2 ^ 125 := by
      refine (octal_lt π).trans_le ?_
      calc 2 * 8 ^ π.length ≤ 2 * 8 ^ 40 :=
            Nat.mul_le_mul_left 2 (Nat.pow_le_pow_right (by decide) hl)
        _ ≤ 2 ^ 125 := by norm_num
    rw [idOf, LongId.toNat_childId (by omega), ih', octal]

/-- Up to ten generations up the path loses its last steps. -/
theorem getParent_idOf {π : Path} {g : ℕ} (h : π.length ≤ maxDepth) (h₁ : 1 ≤ g) (h₂ : g ≤ 10)
    (hg : g ≤ π.length) : (idOf π).getParent g = idOf (π.drop g) := by
  have hlt : g < (idOf π).idLevel := by rw [idOf_idLevel]; omega
  have hd : (π.drop g).length ≤ maxDepth := by rw [List.length_drop]; omega
  refine LongId.ext_toNat ?_ ?_
  · rw [LongId.toNat_getParent hlt h₁ h₂, toNat_idOf h, octal_div π _ hg, toNat_idOf hd]
  · rw [LongId.getParent_idLevel hlt, idOf_idLevel, idOf_idLevel, List.length_drop]
    omega

theorem idOf_injective {π ρ : Path} (hπ : π.length ≤ maxDepth) (hρ : ρ.length ≤ maxDepth)
    (h : idOf π = idOf ρ) : π = ρ := by
  apply octal_injective
  rw [← toNat_idOf hπ, ← toNat_idOf hρ, h]

end MegaTree
