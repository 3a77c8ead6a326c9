import CoVault.Library.Positional
import CoVault.PathStore.Store

/-!
# Comparing lookup keys

Keys are compared byte by byte in one vector instruction. The comparison leaves one
bit per byte, and two such masks, read as numbers, decide.
-/

namespace CoVault.PathStore

open Library

/-- Byte `i` of a 256-bit word. -/
def byte (x : BitVec 256) (i : Nat) : BitVec 8 := x.extractLsb' (8 * i) 8

/-- `_mm256_movemask_epi8` of a comparison that holds at the bytes `p`. -/
def movemask (p : Nat → Bool) : Nat := Positional.value 2 (fun i => (p i).toNat) 32

/-- `_mm256_cmpgt_epi8`: signed bytes. -/
def cmpgt (x y : BitVec 256) (i : Nat) : Bool := (byte y i).slt (byte x i)

def compareHash (x y : BitVec 256) : Bool :=
  decide (movemask (cmpgt x y) > movemask (cmpgt y x))

def compareHashEq (x y : BitVec 256) : Bool :=
  movemask (fun i => byte x i == byte y i) == 0xFFFFFFFF

/-- A signed byte as a digit. -/
def digit (x : BitVec 256) (i : Nat) : Nat := ((byte x i).toInt + 128).toNat

theorem digit_lt (x : BitVec 256) (i : Nat) : digit x i < 256 := by
  have := BitVec.toInt_lt (x := byte x i)
  unfold digit
  omega

theorem digit_inj {x y : BitVec 256} {i : Nat} (h : digit x i = digit y i) :
    byte x i = byte y i := by
  have h1 := BitVec.le_toInt (byte x i)
  have h2 := BitVec.le_toInt (byte y i)
  unfold digit at h
  exact BitVec.toInt_inj.mp (by omega)

theorem cmpgt_iff (x y : BitVec 256) (i : Nat) : cmpgt x y i = true ↔ digit y i < digit x i := by
  have h1 := BitVec.le_toInt (byte x i)
  have h2 := BitVec.le_toInt (byte y i)
  rw [cmpgt, BitVec.slt_iff_toInt_lt]
  unfold digit
  omega

/-- The number a key stands for in the order. -/
@[irreducible] def rank (x : BitVec 256) : Nat := Positional.value 256 (digit x) 32

theorem byte_inj {x y : BitVec 256} (h : ∀ i < 32, byte x i = byte y i) : x = y := by
  apply BitVec.eq_of_getLsbD_eq
  intro j hj
  have := congrArg (fun b : BitVec 8 => b.getLsbD (j % 8)) (h (j / 8) (by omega))
  simpa [byte, Nat.mod_lt, Nat.div_add_mod] using this

theorem rank_injective : Function.Injective rank := fun x y h => by
  unfold rank at h
  have hdigit := (Positional.value_inj (fun i _ => digit_lt x i) (fun i _ => digit_lt y i)).mp h
  exact byte_inj fun i hi => digit_inj (hdigit i hi)

/-- `compareHash` is the order of the ranks. -/
theorem compareHash_iff (x y : BitVec 256) : compareHash x y = true ↔ rank y < rank x := by
  have hlt := Positional.mask_lt_iff (B := 256) (f := digit y) (g := digit x) (n := 32)
    (fun _ _ => digit_lt ..) (fun _ _ => digit_lt ..)
  have hxy : (fun i => (cmpgt x y i).toNat) = fun i => (decide (digit y i < digit x i)).toNat := by
    funext i
    rw [Bool.eq_iff_iff.mpr ((cmpgt_iff x y i).trans decide_eq_true_iff.symm)]
  have hyx : (fun i => (cmpgt y x i).toNat) = fun i => (decide (digit x i < digit y i)).toNat := by
    funext i
    rw [Bool.eq_iff_iff.mpr ((cmpgt_iff y x i).trans decide_eq_true_iff.symm)]
  rw [compareHash, decide_eq_true_iff, movemask, movemask, hxy, hyx, rank, rank]
  exact hlt

theorem compareHash_eq_false (x y : BitVec 256) : compareHash x y = false ↔ rank x ≤ rank y := by
  rw [← Bool.not_eq_true, compareHash_iff, Nat.not_lt]

theorem compareHashEq_iff (x y : BitVec 256) : compareHashEq x y = true ↔ x = y := by
  have hfull : Positional.value 2 (fun _ => 1) 32 = 0xFFFFFFFF := by decide
  rw [compareHashEq, beq_iff_eq, movemask, ← hfull,
    Positional.value_inj (fun i _ => Bool.toNat_lt _) (fun _ _ => by omega)]
  constructor
  · intro h
    exact byte_inj fun i hi => by simpa using h i hi
  · rintro rfl i _
    simp

/-! ## A strict total order -/

theorem compareHash_trans {x y z : BitVec 256} (hxy : compareHash x y = true)
    (hyz : compareHash y z = true) : compareHash x z = true := by
  rw [compareHash_iff] at hxy hyz ⊢
  exact hyz.trans hxy

/-- The three comparisons are those of the ranks. -/
theorem compareHash_trichotomy (x y : BitVec 256) :
    [compareHash x y, compareHash y x, compareHashEq x y].count true = 1 := by
  have hgreater : ∀ x y, compareHash x y = decide (rank y < rank x) := fun x y =>
    Bool.eq_iff_iff.mpr ((compareHash_iff x y).trans decide_eq_true_iff.symm)
  have hequal : compareHashEq x y = decide (rank x = rank y) :=
    Bool.eq_iff_iff.mpr (((compareHashEq_iff x y).trans rank_injective.eq_iff.symm).trans
      decide_eq_true_iff.symm)
  rw [hgreater x y, hgreater y x, hequal]
  rcases lt_trichotomy (rank x) (rank y) with hlt | heq | hlt
  · simp [hlt, hlt.ne, hlt.le]
  · simp [heq]
  · simp [hlt, hlt.ne', hlt.le]

/-- Exactly one of greater, smaller and equal holds, and greater is transitive. -/
theorem compareHash_strictTotal (x y z : BitVec 256) :
    [compareHash x y, compareHash y x, compareHashEq x y].count true = 1 ∧
      (compareHash x y = true → compareHash y z = true → compareHash x z = true) :=
  ⟨compareHash_trichotomy x y, compareHash_trans⟩

/-- A byte of 255 counts as -1. -/
theorem compareHash_one_zero_255 : compareHash 1 0 = true ∧ compareHash 0 255 = true ∧
    compareHash 1 255 = true := by
  have hgreater : compareHash 1 0 = true := by decide
  have hsigned : compareHash 0 255 = true := by decide
  exact ⟨hgreater, hsigned, (compareHash_strictTotal 1 0 255).2 hgreater hsigned⟩

end CoVault.PathStore
