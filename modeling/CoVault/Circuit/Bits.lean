import Mathlib
import CoVault.Library.Slices

/-!
# In-circuit integers

An in-circuit integer is the list of the values of its bits, lowest first. Fixed-size
fields in memory are bit vectors, and `bitsOf` and `ofBits` go between the two: they
are the byte-wise `to_bool` and `from_bool` of the circuit library, since a byte keeps
its lowest bit first too.
-/

namespace CoVault.Circuit

/-- The bits of an in-circuit integer. -/
abbrev Integer := List Bool

def bitsOf {w : Nat} (x : BitVec w) : Integer := List.ofFn fun i : Fin w => x.getLsb i

/-- The value of the first `w` bits; missing ones count as zero. -/
def ofBits (w : Nat) (xs : Integer) : BitVec w :=
  (BitVec.ofBoolListLE xs).setWidth w

variable {w : Nat}

@[simp] theorem length_bitsOf (x : BitVec w) : (bitsOf x).length = w := by simp [bitsOf]

theorem getD_bitsOf (x : BitVec w) (i : Nat) : (bitsOf x).getD i false = x.getLsbD i := by
  by_cases h : i < w
  · simp [bitsOf, List.getD_eq_getElem?_getD, h, BitVec.getElem_eq_testBit_toNat]
  · rw [List.getD_eq_getElem?_getD, List.getElem?_eq_none (by simpa using h),
      BitVec.getLsbD_of_ge _ _ (by omega), Option.getD_none]

theorem getLsbD_ofBits (xs : Integer) (i : Nat) :
    (ofBits w xs).getLsbD i = (decide (i < w) && xs.getD i false) := by
  simp [ofBits, BitVec.getLsbD_setWidth]

@[simp] theorem ofBits_bitsOf (x : BitVec w) : ofBits w (bitsOf x) = x := by
  apply BitVec.eq_of_getLsbD_eq
  intro i hi
  rw [getLsbD_ofBits, getD_bitsOf]
  simp [hi]

theorem bitsOf_ofBits {xs : Integer} (h : xs.length = w) : bitsOf (ofBits w xs) = xs := by
  apply List.ext_getElem (by simp [h])
  intro i hi hi'
  have hw : i < w := by simpa using hi
  have := getD_bitsOf (ofBits w xs) i
  rw [getLsbD_ofBits, List.getD_eq_getElem?_getD, List.getD_eq_getElem?_getD,
    List.getElem?_eq_getElem hi, List.getElem?_eq_getElem hi'] at this
  simpa [hw] using this

theorem bitsOf_injective : Function.Injective (bitsOf (w := w)) := fun x y h => by
  rw [← ofBits_bitsOf x, h, ofBits_bitsOf]

/-- Taking fewer bits of a word. -/
theorem ofBits_bitsOf_setWidth (v : Nat) (x : BitVec w) : ofBits v (bitsOf x) = x.setWidth v := by
  apply BitVec.eq_of_getLsbD_eq
  intro i hi
  rw [getLsbD_ofBits, getD_bitsOf, BitVec.getLsbD_setWidth]

theorem ofBits_append (x : BitVec w) (ys : Integer) : ofBits w (bitsOf x ++ ys) = x := by
  have h : ofBits w (bitsOf x ++ ys) = ofBits w (bitsOf x) := by
    apply BitVec.eq_of_getLsbD_eq
    intro i hi
    rw [getLsbD_ofBits, getLsbD_ofBits, List.getD_eq_getElem?_getD, List.getD_eq_getElem?_getD,
      List.getElem?_append_left (by simpa using hi)]
  rw [h, ofBits_bitsOf]

/-- Of more bits than the word has, the first are kept. -/
theorem bitsOf_ofBits_of_le {xs : Integer} (h : w ≤ xs.length) :
    bitsOf (ofBits w xs) = xs.take w := by
  have hfirst : bitsOf (ofBits w (xs.take w)) = xs.take w :=
    bitsOf_ofBits (by rw [List.length_take, Nat.min_eq_left h])
  calc bitsOf (ofBits w xs) = bitsOf (ofBits w (xs.take w ++ xs.drop w)) := by
        rw [List.take_append_drop]
    _ = bitsOf (ofBits w (xs.take w)) := by rw [← hfirst, ofBits_append, ofBits_bitsOf]
    _ = xs.take w := hfirst

end CoVault.Circuit
