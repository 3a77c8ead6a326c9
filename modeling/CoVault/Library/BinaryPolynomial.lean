import Mathlib

/-!
# Words as polynomials

The bits of a word are the coefficients of a polynomial over the field with two elements.
Sums are exclusive ors, and a shift by one place multiplies by `X` up to the bit that is
shifted out. A loop that adds the first factor for every bit of the second, and between two
bits takes a step that multiplies by `X` modulo `q`, gives the product modulo `q`.
-/

namespace CoVault.Library.BinaryPolynomial

open Polynomial

variable {w v : Nat}

noncomputable def toPoly (x : BitVec w) : (ZMod 2)[X] :=
  ∑ i ∈ Finset.range w, if x.getLsbD i then X ^ i else 0

theorem coeff_toPoly (x : BitVec w) (i : Nat) :
    (toPoly x).coeff i = if x.getLsbD i then 1 else 0 := by
  have hterm : ∀ j, (if x.getLsbD j then X ^ j else 0 : (ZMod 2)[X]).coeff i =
      if i = j then (if x.getLsbD i then 1 else 0) else 0 := by
    intro j
    split_ifs <;> simp_all [coeff_X_pow]
  rw [toPoly, finsetSum_coeff, Finset.sum_congr rfl fun j _ => hterm j, Finset.sum_ite_eq]
  by_cases hi : i < w
  · rw [if_pos (Finset.mem_range.mpr hi)]
  · rw [if_neg (by simpa using hi), BitVec.getLsbD_of_ge x i (not_lt.mp hi)]
    rfl

theorem toPoly_injective : Function.Injective (toPoly (w := w)) := by
  intro x y h
  refine BitVec.eq_of_getLsbD_eq fun i _ => ?_
  have hcoeff := congrArg (coeff · i) h
  simp only [coeff_toPoly] at hcoeff
  cases hx : x.getLsbD i <;> cases hy : y.getLsbD i <;> simp_all

@[simp] theorem toPoly_zero : toPoly (0#w) = 0 := by
  ext i
  simp [coeff_toPoly]

theorem toPoly_twoPow {i : Nat} (hi : i < w) : toPoly (BitVec.twoPow w i) = X ^ i := by
  ext j
  rw [coeff_toPoly, BitVec.getLsbD_twoPow, coeff_X_pow]
  simp [hi, eq_comm]

theorem toPoly_eq_zero_iff {x : BitVec w} : toPoly x = 0 ↔ x = 0 :=
  ⟨fun h => toPoly_injective (h.trans toPoly_zero.symm), fun h => h ▸ toPoly_zero⟩

@[simp] theorem toPoly_xor (x y : BitVec w) : toPoly (x ^^^ y) = toPoly x + toPoly y := by
  ext i
  simp only [coeff_toPoly, coeff_add, BitVec.getLsbD_xor]
  cases x.getLsbD i <;> cases y.getLsbD i <;> decide

theorem degree_toPoly_lt (x : BitVec w) : (toPoly x).degree < w := by
  refine (degree_lt_iff_coeff_zero _ w).mpr fun i hi => ?_
  rw [coeff_toPoly, BitVec.getLsbD_of_ge x i hi]
  rfl

/-- The degree is the place of the highest bit. -/
theorem natDegree_toPoly {x : BitVec w} (hx : x ≠ 0) : (toPoly x).natDegree = x.toNat.log2 := by
  have hnat : x.toNat ≠ 0 := fun h => hx (BitVec.eq_of_toNat_eq h)
  refine natDegree_eq_of_le_of_coeff_ne_zero ?_ ?_
  · refine natDegree_le_iff_coeff_eq_zero.mpr fun i hi => ?_
    have hzero : x.getLsbD i = false :=
      Nat.testBit_lt_two_pow ((Nat.log2_lt hnat).mp hi)
    rw [coeff_toPoly, hzero]
    rfl
  · have hone : x.getLsbD x.toNat.log2 = true := Nat.testBit_log2 hnat
    rw [coeff_toPoly, hone]
    exact one_ne_zero

theorem degree_toPoly_mul_lt_iff (x : BitVec w) (y : BitVec v) (n : Nat) :
    (toPoly x * toPoly y).degree < n ↔ x = 0 ∨ y = 0 ∨ x.toNat.log2 + y.toNat.log2 < n := by
  by_cases hx : x = 0
  · simp [hx]
  by_cases hy : y = 0
  · simp [hy]
  have hxpoly : toPoly x ≠ 0 := toPoly_eq_zero_iff.not.mpr hx
  have hypoly : toPoly y ≠ 0 := toPoly_eq_zero_iff.not.mpr hy
  rw [degree_eq_natDegree (mul_ne_zero hxpoly hypoly), natDegree_mul hxpoly hypoly,
    natDegree_toPoly hx, natDegree_toPoly hy, or_iff_right hx, or_iff_right hy, Nat.cast_lt]

/-- The bit that a shift by one place moves out is the coefficient of `X ^ w`. -/
theorem X_mul_toPoly (x : BitVec w) :
    X * toPoly x = toPoly (x <<< 1) + if x.msb then X ^ w else 0 := by
  have hlast : (if x.msb then X ^ w else 0 : (ZMod 2)[X]) =
      C (if x.getLsbD (w - 1) then 1 else 0) * X ^ w := by
    rw [BitVec.msb_eq_getLsbD_last]
    split_ifs <;> simp
  rw [hlast]
  ext i
  rw [coeff_add, coeff_C_mul, coeff_X_pow, coeff_toPoly, BitVec.getLsbD_shiftLeft]
  cases i with
  | zero =>
    rw [coeff_X_mul_zero]
    cases w with
    | zero => simp
    | succ w => simp
  | succ i =>
    rw [coeff_X_mul, coeff_toPoly]
    rcases Nat.lt_trichotomy (i + 1) w with hlt | heq | hgt
    · simp [hlt, hlt.ne]
    · subst heq
      simp
    · simp [BitVec.getLsbD_of_ge x i (by omega), hgt.ne']

/-! ## Remainders -/

/-- Remainders modulo two coprime polynomials of one degree differ as soon as there is
something to reduce. -/
theorem modByMonic_eq_iff {q f a : (ZMod 2)[X]} (hq : q.Monic) (hf : f.Monic)
    (hdegree : f.degree = q.degree) (hcoprime : IsCoprime q f) (ha : a.degree < (q * f).degree) :
    a %ₘ q = a %ₘ f ↔ a.degree < q.degree := by
  constructor
  · intro hsame
    have hdvd : ∀ {p : (ZMod 2)[X]}, a %ₘ p = a %ₘ q → p ∣ a - a %ₘ q := by
      intro p hp
      rw [← hp, ← neg_sub, dvd_neg]
      exact dvd_modByMonic_sub a p
    have hboth : q * f ∣ a - a %ₘ q := hcoprime.mul_dvd (hdvd rfl) (hdvd hsame.symm)
    have hlow : (a %ₘ q).degree < (q * f).degree := by
      refine (degree_modByMonic_lt a hq).trans_le ?_
      exact degree_le_of_dvd (dvd_mul_right q f) (hq.mul hf).ne_zero
    have hsmall : (a - a %ₘ q).degree < (q * f).degree :=
      (degree_sub_le _ _).trans_lt (max_lt ha hlow)
    have hzero : a - a %ₘ q = 0 := eq_zero_of_dvd_of_degree_lt hboth hsmall
    exact (modByMonic_eq_self_iff hq).mp (sub_eq_zero.mp hzero).symm
  · intro hsmall
    rw [(modByMonic_eq_self_iff hq).mpr hsmall,
      (modByMonic_eq_self_iff hf).mpr (hdegree ▸ hsmall)]

theorem degree_mul_toPoly_lt {q f : (ZMod 2)[X]} (hq : q.degree = w) (hf : f.degree = v)
    (x : BitVec w) (y : BitVec v) : (toPoly x * toPoly y).degree < (q * f).degree := by
  rw [degree_mul (p := q), hq, hf, ← Nat.cast_add, degree_toPoly_mul_lt_iff]
  by_cases hx : x = 0
  · exact .inl hx
  by_cases hy : y = 0
  · exact .inr (.inl hy)
  have hxnat : x.toNat ≠ 0 := fun h => hx (BitVec.eq_of_toNat_eq h)
  have hynat : y.toNat ≠ 0 := fun h => hy (BitVec.eq_of_toNat_eq h)
  exact .inr (.inr (add_lt_add ((Nat.log2_lt hxnat).mpr x.isLt) ((Nat.log2_lt hynat).mpr y.isLt)))

/-- A remainder is given by its congruence class and its degree. -/
theorem eq_modByMonic {q r a : (ZMod 2)[X]} (hq : q.Monic) (hr : r.degree < q.degree)
    (hdvd : q ∣ r - a) : r = a %ₘ q := by
  rw [← modByMonic_eq_of_dvd_sub hq hdvd, (modByMonic_eq_self_iff hq).mpr hr]

theorem dvd_sub_of_eq_modByMonic {q r a : (ZMod 2)[X]} (h : r = a %ₘ q) : q ∣ r - a := by
  rw [h]
  exact dvd_modByMonic_sub a q

/-! ## Multiplication by shifting and adding -/

section ShiftAdd

variable (step : BitVec w → BitVec w)

/-- The sum so far and the first factor after as many steps. -/
def round (y : BitVec v) (s : BitVec w × BitVec w) (i : Nat) : BitVec w × BitVec w :=
  (if y.getLsbD i then s.1 ^^^ s.2 else s.1, step s.2)

def shiftAdd (x : BitVec w) (y : BitVec v) : BitVec w :=
  ((List.range v).foldl (round step y) (0, x)).1

theorem foldl_round (x : BitVec w) (y : BitVec v) (n : Nat) :
    toPoly ((List.range n).foldl (round step y) (0, x)).1 =
        ∑ i ∈ Finset.range n, (if y.getLsbD i then toPoly (step^[i] x) else 0) ∧
      ((List.range n).foldl (round step y) (0, x)).2 = step^[n] x := by
  induction n with
  | zero => simp
  | succ n ih =>
    rw [List.range_succ, List.foldl_append, List.foldl_cons, List.foldl_nil]
    refine ⟨?_, ?_⟩
    · rw [Finset.sum_range_succ, ← ih.1, round, ih.2]
      split_ifs
      · exact toPoly_xor _ _
      · exact (add_zero _).symm
    · rw [round, ih.2, Function.iterate_succ_apply']

/-- One term for each bit of the second factor. -/
theorem toPoly_shiftAdd (x : BitVec w) (y : BitVec v) : toPoly (shiftAdd step x y) =
    ∑ i ∈ Finset.range v, if y.getLsbD i then toPoly (step^[i] x) else 0 :=
  (foldl_round step x y v).1

theorem shiftAdd_xor_right (x : BitVec w) (y y' : BitVec v) :
    shiftAdd step x (y ^^^ y') = shiftAdd step x y ^^^ shiftAdd step x y' := by
  apply toPoly_injective
  rw [toPoly_xor, toPoly_shiftAdd, toPoly_shiftAdd, toPoly_shiftAdd, ← Finset.sum_add_distrib]
  refine Finset.sum_congr rfl fun i _ => ?_
  rw [BitVec.getLsbD_xor]
  cases y.getLsbD i <;> cases y'.getLsbD i <;> simp [CharTwo.add_self_eq_zero]

variable {step}

theorem iterate_xor (hstep : ∀ x x', step (x ^^^ x') = step x ^^^ step x') (n : Nat)
    (x x' : BitVec w) : step^[n] (x ^^^ x') = step^[n] x ^^^ step^[n] x' := by
  induction n with
  | zero => rfl
  | succ n ih => rw [Function.iterate_succ_apply', ih, hstep, ← Function.iterate_succ_apply' step,
      ← Function.iterate_succ_apply' step]

theorem shiftAdd_xor_left (hstep : ∀ x x', step (x ^^^ x') = step x ^^^ step x')
    (x x' : BitVec w) (y : BitVec v) :
    shiftAdd step (x ^^^ x') y = shiftAdd step x y ^^^ shiftAdd step x' y := by
  apply toPoly_injective
  rw [toPoly_xor, toPoly_shiftAdd, toPoly_shiftAdd, toPoly_shiftAdd, ← Finset.sum_add_distrib]
  refine Finset.sum_congr rfl fun i _ => ?_
  rw [iterate_xor hstep, toPoly_xor]
  split_ifs
  · rfl
  · exact (add_zero 0).symm

/-- Steps that multiply by `X` modulo `q` multiply by its powers. -/
theorem dvd_iterate {q : (ZMod 2)[X]} {x : BitVec w} {n : Nat}
    (hstep : ∀ i < n, q ∣ toPoly (step^[i + 1] x) - X * toPoly (step^[i] x)) :
    q ∣ toPoly (step^[n] x) - toPoly x * X ^ n := by
  induction n with
  | zero => simp
  | succ n ih =>
    have hsplit : toPoly (step^[n + 1] x) - toPoly x * X ^ (n + 1) =
        (toPoly (step^[n + 1] x) - X * toPoly (step^[n] x)) +
          X * (toPoly (step^[n] x) - toPoly x * X ^ n) := by ring
    rw [hsplit]
    exact dvd_add (hstep n n.lt_succ_self)
      (dvd_mul_of_dvd_right (ih fun i hi => hstep i (Nat.lt_succ_of_lt hi)) X)

/-- The loop multiplies modulo `q` if the steps between the first bit and the last do. -/
theorem toPoly_shiftAdd_eq {q : (ZMod 2)[X]} {x : BitVec w} (hq : q.Monic) (hdegree : q.degree = w)
    (hstep : ∀ i, i + 1 < v → q ∣ toPoly (step^[i + 1] x) - X * toPoly (step^[i] x))
    (y : BitVec v) : toPoly (shiftAdd step x y) = (toPoly x * toPoly y) %ₘ q := by
  refine eq_modByMonic hq ((degree_toPoly_lt _).trans_eq hdegree.symm) ?_
  have hy : toPoly y = ∑ i ∈ Finset.range v, if y.getLsbD i then X ^ i else 0 := rfl
  rw [toPoly_shiftAdd, hy, Finset.mul_sum, ← Finset.sum_sub_distrib]
  refine Finset.dvd_sum fun i hi => ?_
  split_ifs
  · exact dvd_iterate fun j hj => hstep j (by have := Finset.mem_range.mp hi; omega)
  · simp

end ShiftAdd

end CoVault.Library.BinaryPolynomial
