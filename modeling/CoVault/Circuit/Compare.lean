import Mathlib

/-!
# Comparisons in the circuit

The circuit library compares by the sign of a difference, so it compares as the integers
do only as long as the difference does not wrap.
-/

namespace CoVault.Circuit

variable {w : Nat}

/-- `a.geq(b)`: the complement of the top bit of `a - b`. -/
def geq (a b : BitVec w) : Bool := !(a - b).msb

/-- `a < b`. -/
def less (a b : BitVec w) : Bool := !geq a b

/-- A value in the lower half of its range. -/
def Small (x : BitVec w) : Prop := 2 * x.toNat < 2 ^ w

instance (x : BitVec w) : Decidable (Small x) := inferInstanceAs (Decidable (_ < _))

theorem geq_iff {a b : BitVec w} (ha : Small a) (hb : Small b) :
    geq a b = true ↔ b.toNat ≤ a.toNat := by
  unfold Small at ha hb
  rw [geq, Bool.not_eq_true', BitVec.msb_eq_decide, decide_eq_false_iff_not, Nat.not_le,
    BitVec.toNat_sub]
  cases w with
  | zero => simp at ha hb ⊢; omega
  | succ w =>
    have hpow : 2 ^ (w + 1) = 2 * 2 ^ w := Nat.pow_succ'
    rw [Nat.add_sub_cancel]
    rcases Nat.le_total b.toNat a.toNat with hle | hle
    · rw [show 2 ^ (w + 1) - b.toNat + a.toNat = a.toNat - b.toNat + 2 ^ (w + 1) by omega,
        Nat.add_mod_right, Nat.mod_eq_of_lt (by omega)]
      omega
    · rcases Nat.eq_or_lt_of_le hle with heq | hlt
      · rw [heq, Nat.sub_add_cancel (by omega), Nat.mod_self]
        exact iff_of_true (Nat.two_pow_pos w) le_rfl
      · rw [Nat.mod_eq_of_lt (by omega)]
        omega

theorem less_iff {a b : BitVec w} (ha : Small a) (hb : Small b) :
    less a b = true ↔ a.toNat < b.toNat := by
  rw [less, Bool.not_eq_true', ← Bool.not_eq_true, geq_iff ha hb, Nat.not_le]

/-- The difference of the numbers is a signed number of their width. -/
def Near (a b : BitVec w) : Prop :=
  a.toNat < b.toNat + 2 ^ (w - 1) ∧ b.toNat ≤ a.toNat + 2 ^ (w - 1)

instance (a b : BitVec w) : Decidable (Near a b) := inferInstanceAs (Decidable (_ ∧ _))

/-- The comparison is the one of unsigned numbers if and only if the difference does not wrap. -/
theorem geq_eq_iff (a b : BitVec w) : geq a b = decide (b.toNat ≤ a.toNat) ↔ Near a b := by
  rw [Bool.eq_iff_iff, geq, Bool.not_eq_true', BitVec.msb_eq_decide, decide_eq_false_iff_not,
    Nat.not_le, BitVec.toNat_sub, decide_eq_true_eq, Near]
  have ha := a.isLt
  have hb := b.isLt
  cases w with
  | zero => simp at ha hb; simp [ha, hb]
  | succ w =>
    have hpow : 2 ^ (w + 1) = 2 * 2 ^ w := Nat.pow_succ'
    rw [Nat.add_sub_cancel]
    rcases Nat.lt_or_ge a.toNat b.toNat with hlt | hle
    · rw [Nat.mod_eq_of_lt (by omega)]
      omega
    · rw [show 2 ^ (w + 1) - b.toNat + a.toNat = a.toNat - b.toNat + 2 ^ (w + 1) by omega,
        Nat.add_mod_right, Nat.mod_eq_of_lt (by omega)]
      omega

theorem less_eq_iff (a b : BitVec w) : less a b = decide (a.toNat < b.toNat) ↔ Near a b := by
  have hnot : decide (a.toNat < b.toNat) = !decide (b.toNat ≤ a.toNat) := by
    simp [← decide_not]
  rw [← geq_eq_iff, less, hnot, Bool.not_inj_iff]

end CoVault.Circuit
