import CoVault.Library.BinaryPolynomial

/-!
# The multiplication of the polynomial MAC

Bit `i` of a word is the coefficient of `X ^ i`: the bits of an in-circuit integer start
with the lowest, and `<<` moves them up. `multGF2` reads `p2` from bit 0 up and shifts `p1`
after each bit, but what it asks before it reduces is bit 0 of `p1`, not the bit that the
shift moves out. An even word is therefore never reduced, and is multiplied modulo `X ^ 64`.
There is one odd word whose bit 0 and bit 63 are both set all along the loop; with it the
product is right, and any other odd word is its sum with an even one.
-/

namespace CoVault.Macs

open Library.BinaryPolynomial Polynomial

abbrev LAMBDA : Nat := 64

/-- `LAMBDA` is not a macro, so `#if (LAMBDA == 32)` takes the second branch. -/
def IRRED_POLY : BitVec LAMBDA := if LAMBDA = 128 then 0b10000111 else 0b11011

/-- Words of other widths end the program. -/
def multGF2 {n m : Nat} (p1 : BitVec n) (p2 : BitVec m) (poly : BitVec LAMBDA) :
    Option (BitVec LAMBDA) :=
  if n ≠ LAMBDA ∨ m ≠ LAMBDA then none
  else
    some ((List.range LAMBDA).foldl
      (fun (p, p1) i =>
        (if p2.getLsbD i then p ^^^ p1 else p,
          if p1.getLsbD 0 then (p1 <<< 1) ^^^ poly else p1 <<< 1))
      (0, p1.setWidth LAMBDA)).1

/-- What the reduction is modulo. -/
noncomputable def modulus : (ZMod 2)[X] := X ^ 64 + X ^ 4 + X ^ 3 + X + 1

/-- What the code says that it returns. -/
def IsProduct (p p1 p2 : BitVec LAMBDA) : Prop := toPoly p = (toPoly p1 * toPoly p2) %ₘ modulus

/-! ## The loop -/

/-- The new `p1` of a round. -/
def shiftReduce (poly p1 : BitVec LAMBDA) : BitVec LAMBDA :=
  if p1.getLsbD 0 then (p1 <<< 1) ^^^ poly else p1 <<< 1

theorem multGF2_eq (p1 p2 poly : BitVec LAMBDA) :
    multGF2 p1 p2 poly = some (shiftAdd (shiftReduce poly) p1 p2) := by
  rw [multGF2, if_neg (by simp), BitVec.setWidth_eq]
  exact congrArg (fun loop => some (List.foldl loop (0, p1) (List.range LAMBDA)).1) rfl

/-- The product with the constant of the code. -/
def product (p1 p2 : BitVec LAMBDA) : BitVec LAMBDA := shiftAdd (shiftReduce IRRED_POLY) p1 p2

theorem shiftReduce_of_even {x : BitVec LAMBDA} (heven : x.getLsbD 0 = false)
    (poly : BitVec LAMBDA) : shiftReduce poly x = x <<< 1 := by
  rw [shiftReduce, heven]
  rfl

theorem shiftReduce_of_odd {x : BitVec LAMBDA} (hodd : x.getLsbD 0 = true)
    (poly : BitVec LAMBDA) : shiftReduce poly x = (x <<< 1) ^^^ poly := by
  rw [shiftReduce, hodd]
  rfl

theorem shiftReduce_xor (poly x x' : BitVec LAMBDA) :
    shiftReduce poly (x ^^^ x') = shiftReduce poly x ^^^ shiftReduce poly x' := by
  have hstep : ∀ x, shiftReduce poly x = (x <<< 1) ^^^ if x.getLsbD 0 then poly else 0 := by
    intro x
    rw [shiftReduce]
    split_ifs
    · rfl
    · exact BitVec.xor_zero.symm
  have hpoly : (if (x ^^^ x').getLsbD 0 then poly else 0) =
      (if x.getLsbD 0 then poly else 0) ^^^ if x'.getLsbD 0 then poly else 0 := by
    rw [BitVec.getLsbD_xor]
    cases x.getLsbD 0 <;> cases x'.getLsbD 0 <;> simp
  rw [hstep, hstep, hstep, hpoly, BitVec.shiftLeft_xor_distrib]
  ac_rfl

theorem product_xor_left (x x' y : BitVec LAMBDA) :
    product (x ^^^ x') y = product x y ^^^ product x' y :=
  shiftAdd_xor_left (shiftReduce_xor _) x x' y

theorem product_xor_right (x y y' : BitVec LAMBDA) :
    product x (y ^^^ y') = product x y ^^^ product x y' := shiftAdd_xor_right _ x y y'

theorem product_zero_left (y : BitVec LAMBDA) : product 0#_ y = 0#_ := by
  have hxor := product_xor_left 0#_ 0#_ y
  rwa [BitVec.xor_self, BitVec.xor_self] at hxor

/-! ## The modulus -/

theorem toPoly_IRRED_POLY : X ^ 64 + toPoly IRRED_POLY = modulus := by
  have hbits : IRRED_POLY = BitVec.twoPow LAMBDA 4 ^^^ BitVec.twoPow LAMBDA 3 ^^^
      BitVec.twoPow LAMBDA 1 ^^^ BitVec.twoPow LAMBDA 0 := by decide
  rw [hbits, toPoly_xor, toPoly_xor, toPoly_xor, toPoly_twoPow (by decide),
    toPoly_twoPow (by decide), toPoly_twoPow (by decide), toPoly_twoPow (by decide), modulus]
  ring

theorem modulus_monic : modulus.Monic := by
  rw [← toPoly_IRRED_POLY]
  exact monic_X_pow_add (degree_toPoly_lt IRRED_POLY)

theorem degree_modulus : modulus.degree = 64 := by
  rw [← toPoly_IRRED_POLY, degree_add_eq_left_of_degree_lt, degree_X_pow]
  · rfl
  · rw [degree_X_pow]
    exact degree_toPoly_lt IRRED_POLY

/-- The constant term is one. -/
theorem isCoprime_modulus : IsCoprime (X ^ 64) modulus := by
  refine IsCoprime.pow_left ⟨-(X ^ 63 + X ^ 3 + X ^ 2 + 1), 1, ?_⟩
  rw [modulus]
  ring

/-! ## Even words -/

/-- An even word stays even. -/
theorem even_iterate {x : BitVec LAMBDA} (heven : x.getLsbD 0 = false) (poly : BitVec LAMBDA)
    (n : Nat) : ((shiftReduce poly)^[n] x).getLsbD 0 = false := by
  induction n with
  | zero => exact heven
  | succ n ih =>
    rw [Function.iterate_succ_apply', shiftReduce_of_even ih, BitVec.getLsbD_shiftLeft]
    rfl

theorem toPoly_product_even {x : BitVec LAMBDA} (heven : x.getLsbD 0 = false)
    (y : BitVec LAMBDA) : toPoly (product x y) = (toPoly x * toPoly y) %ₘ X ^ 64 := by
  refine toPoly_shiftAdd_eq (monic_X_pow 64) (degree_X_pow 64) (fun i _ => ?_) y
  rw [Function.iterate_succ_apply', X_mul_toPoly, shiftReduce_of_even (even_iterate heven _ i),
    sub_add_cancel_left, dvd_neg]
  split_ifs
  · exact dvd_rfl
  · exact dvd_zero _

/-! ## The odd word whose product is right -/

/-- All bits but bit 3. -/
def alwaysReduced : BitVec LAMBDA := ~~~8

theorem iterate_odd (n : Nat) :
    (BitVec.allOnes LAMBDA <<< (n + 1) ^^^ 9).getLsbD 0 = true := by
  rw [BitVec.getLsbD_xor, BitVec.getLsbD_shiftLeft, decide_eq_true (Nat.succ_pos n)]
  rfl

theorem iterate_msb {n : Nat} (hn : n < 63) :
    (BitVec.allOnes LAMBDA <<< (n + 1) ^^^ 9).msb = true := by
  have hkept : ¬ 64 - 1 < n + 1 := by omega
  have hinside : 64 - 1 - (n + 1) < 64 := by omega
  rw [BitVec.msb_eq_getLsbD_last, BitVec.getLsbD_xor, BitVec.getLsbD_shiftLeft,
    decide_eq_false hkept, BitVec.getLsbD_allOnes, decide_eq_true hinside]
  rfl

/-- Bits 0 and 3 come back in every round. -/
theorem iterate_alwaysReduced (n : Nat) : (shiftReduce IRRED_POLY)^[n] alwaysReduced =
    BitVec.allOnes LAMBDA <<< (n + 1) ^^^ 9 := by
  induction n with
  | zero => decide
  | succ n ih =>
    rw [Function.iterate_succ_apply', ih, shiftReduce_of_odd (iterate_odd n),
      BitVec.shiftLeft_xor_distrib, ← BitVec.shiftLeft_add, BitVec.xor_assoc]
    rfl

theorem toPoly_product_alwaysReduced (y : BitVec LAMBDA) :
    toPoly (product alwaysReduced y) = (toPoly alwaysReduced * toPoly y) %ₘ modulus := by
  refine toPoly_shiftAdd_eq modulus_monic degree_modulus (fun i hi => ?_) y
  have hmsb : (BitVec.allOnes LAMBDA <<< (i + 1) ^^^ 9).msb = true :=
    iterate_msb (Nat.lt_sub_of_add_lt hi)
  have hstep : ∀ x : BitVec LAMBDA, x.getLsbD 0 = true → x.msb = true →
      toPoly (shiftReduce IRRED_POLY x) - X * toPoly x = toPoly IRRED_POLY - X ^ 64 := by
    intro x hodd hmsb
    rw [shiftReduce_of_odd hodd, toPoly_xor, X_mul_toPoly, if_pos hmsb, add_sub_add_left_eq_sub]
  rw [Function.iterate_succ_apply', iterate_alwaysReduced, hstep _ (iterate_odd i) hmsb,
    CharTwo.sub_eq_add, add_comm, toPoly_IRRED_POLY]

/-! ## When the product is right -/

def oddPart (p1 : BitVec LAMBDA) : BitVec LAMBDA := if p1.getLsbD 0 then alwaysReduced else 0#_

/-- An odd factor without the word above; an even one as it is. -/
def evenPart (p1 : BitVec LAMBDA) : BitVec LAMBDA := p1 ^^^ oddPart p1

/-- No term of the product of the even part and `p2` reaches `X ^ 64`. -/
def Unreduced (p1 p2 : BitVec LAMBDA) : Prop :=
  evenPart p1 = 0 ∨ p2 = 0 ∨ (evenPart p1).toNat.log2 + p2.toNat.log2 < 64

instance (p1 p2 : BitVec LAMBDA) : Decidable (Unreduced p1 p2) :=
  inferInstanceAs (Decidable (_ ∨ _ ∨ _))

/-- The two remainders agree where there is nothing to reduce. -/
theorem modByMonic_modulus_iff (x y : BitVec LAMBDA) :
    (toPoly x * toPoly y) %ₘ X ^ 64 = (toPoly x * toPoly y) %ₘ modulus ↔
      x = 0 ∨ y = 0 ∨ x.toNat.log2 + y.toNat.log2 < 64 := by
  have hpower : (X ^ 64 : (ZMod 2)[X]).degree = 64 := degree_X_pow 64
  have hbelow := degree_mul_toPoly_lt hpower degree_modulus x y
  rw [modByMonic_eq_iff (monic_X_pow 64) modulus_monic (degree_modulus.trans hpower.symm)
    isCoprime_modulus hbelow, hpower]
  exact degree_toPoly_mul_lt_iff x y 64

theorem getLsbD_evenPart (p1 : BitVec LAMBDA) : (evenPart p1).getLsbD 0 = false := by
  rw [evenPart, BitVec.getLsbD_xor, oddPart]
  cases p1.getLsbD 0 <;> rfl

theorem toPoly_evenPart (p1 : BitVec LAMBDA) :
    toPoly (evenPart p1) + toPoly (oddPart p1) = toPoly p1 := by
  rw [evenPart, toPoly_xor, add_assoc, CharTwo.add_self_eq_zero, add_zero]

theorem toPoly_product_oddPart (p1 p2 : BitVec LAMBDA) :
    toPoly (product (oddPart p1) p2) = (toPoly (oddPart p1) * toPoly p2) %ₘ modulus := by
  rw [oddPart]
  split_ifs
  · exact toPoly_product_alwaysReduced p2
  · rw [product_zero_left, toPoly_zero, zero_mul, zero_modByMonic]

/-- The even part is multiplied modulo `X ^ 64`, and only the odd part modulo the modulus. -/
theorem toPoly_product (p1 p2 : BitVec LAMBDA) :
    toPoly (product p1 p2) = (toPoly (evenPart p1) * toPoly p2) %ₘ X ^ 64 +
      (toPoly (oddPart p1) * toPoly p2) %ₘ modulus := by
  have hsplit : evenPart p1 ^^^ oddPart p1 = p1 := by
    apply toPoly_injective
    rw [toPoly_xor, toPoly_evenPart]
  calc toPoly (product p1 p2) = toPoly (product (evenPart p1 ^^^ oddPart p1) p2) := by rw [hsplit]
    _ = toPoly (product (evenPart p1) p2) + toPoly (product (oddPart p1) p2) := by
        rw [product_xor_left, toPoly_xor]
    _ = _ := by rw [toPoly_product_even (getLsbD_evenPart p1), toPoly_product_oddPart]

theorem isProduct_product_iff (p1 p2 : BitVec LAMBDA) :
    IsProduct (product p1 p2) p1 p2 ↔ Unreduced p1 p2 := by
  rw [IsProduct, toPoly_product, ← toPoly_evenPart p1, add_mul, add_modByMonic, add_left_inj,
    modByMonic_modulus_iff, Unreduced]

/-! ## When the factors may be exchanged -/

/-- What a reduction changes. -/
noncomputable def reduced (x y : BitVec LAMBDA) : (ZMod 2)[X] :=
  (toPoly x * toPoly y) %ₘ X ^ 64 + (toPoly x * toPoly y) %ₘ modulus

theorem reduced_zero_left (y : BitVec LAMBDA) : reduced 0#_ y = 0 := by
  rw [reduced, toPoly_zero, zero_mul, zero_modByMonic, zero_modByMonic, add_zero]

theorem reduced_xor_right (x y y' : BitVec LAMBDA) :
    reduced x (y ^^^ y') = reduced x y + reduced x y' := by
  rw [reduced, toPoly_xor, mul_add, add_modByMonic, add_modByMonic, reduced, reduced]
  ring

/-- With the odd word, anything even but zero is reduced. -/
theorem reduced_alwaysReduced {y : BitVec LAMBDA} (heven : y.getLsbD 0 = false) :
    reduced alwaysReduced y = 0 ↔ y = 0 := by
  have hlog : alwaysReduced.toNat.log2 = 63 := by decide
  have hone : ¬ (alwaysReduced.toNat.log2 + y.toNat.log2 < 64 ∧ y ≠ 0) := by
    rintro ⟨hlt, hy⟩
    have hnat : y.toNat ≠ 0 := fun h => hy (BitVec.eq_of_toNat_eq h)
    have hsmall : y.toNat < 2 ^ 1 := (Nat.log2_lt hnat).mp (by omega)
    have hyone : y = 1 := BitVec.eq_of_toNat_eq (show y.toNat = 1 by omega)
    rw [hyone] at heven
    exact absurd heven (by decide)
  rw [reduced, CharTwo.add_eq_zero, modByMonic_modulus_iff, or_iff_right (by decide)]
  tauto

theorem toPoly_product_eq (p1 p2 : BitVec LAMBDA) : toPoly (product p1 p2) =
    (toPoly p1 * toPoly p2) %ₘ X ^ 64 + reduced (oddPart p1) p2 := by
  have heven : toPoly (evenPart p1) = toPoly p1 + toPoly (oddPart p1) := by
    rw [evenPart, toPoly_xor]
  rw [toPoly_product, heven, reduced, add_mul, add_modByMonic, add_assoc]

/-- Two even factors may be exchanged, and otherwise only equal ones and zero. -/
theorem product_comm_iff (p1 p2 : BitVec LAMBDA) : product p1 p2 = product p2 p1 ↔
    p1 = p2 ∨ p1 = 0 ∨ p2 = 0 ∨ p1.getLsbD 0 = false ∧ p2.getLsbD 0 = false := by
  have hodds : product p1 p2 = product p2 p1 ↔
      reduced (oddPart p1) p2 = reduced (oddPart p2) p1 := by
    rw [← toPoly_injective.eq_iff, toPoly_product_eq, toPoly_product_eq, mul_comm (toPoly p2),
      add_right_inj]
  have hne : ∀ {x y : BitVec LAMBDA}, x.getLsbD 0 = false → y.getLsbD 0 = true → x ≠ y := by
    rintro x y hx hy rfl
    exact absurd (hx.symm.trans hy) Bool.false_ne_true
  have hnonzero : ∀ {x : BitVec LAMBDA}, x.getLsbD 0 = true → x ≠ 0 := fun hx =>
    (hne (x := 0) rfl hx).symm
  rw [hodds, oddPart, oddPart]
  cases h1 : p1.getLsbD 0 <;> cases h2 : p2.getLsbD 0
  · simp only [Bool.false_eq_true, if_false, reduced_zero_left, and_self, or_true]
  · simp only [Bool.false_eq_true, if_false, if_true, reduced_zero_left]
    rw [eq_comm, reduced_alwaysReduced h1]
    refine ⟨fun h => .inr (.inl h), ?_⟩
    rintro (h | h | h | ⟨-, h⟩)
    · exact absurd h (hne h1 h2)
    · exact h
    · exact absurd h (hnonzero h2)
    · cases h
  · simp only [Bool.false_eq_true, if_false, if_true, reduced_zero_left]
    rw [reduced_alwaysReduced h2]
    refine ⟨fun h => .inr (.inr (.inl h)), ?_⟩
    rintro (h | h | h | ⟨h, -⟩)
    · exact absurd h.symm (hne h2 h1)
    · exact absurd h (hnonzero h1)
    · exact h
    · cases h
  · have heven : (p1 ^^^ p2).getLsbD 0 = false := by
      rw [BitVec.getLsbD_xor, h1, h2]
      rfl
    have hequal : p1 ^^^ p2 = 0 ↔ p1 = p2 := BitVec.xor_eq_zero_iff
    simp only [if_true]
    rw [← CharTwo.add_eq_zero, add_comm, ← reduced_xor_right, reduced_alwaysReduced heven, hequal]
    refine ⟨.inl, ?_⟩
    rintro (h | h | h | ⟨h, -⟩)
    · exact h
    · exact absurd h (hnonzero h1)
    · exact absurd h (hnonzero h2)
    · cases h

/-! ## The code -/

/-- The product is right if and only if nothing had to be reduced next to the odd word. Sums
are multiplied term by term, but the factors may hardly ever be exchanged. -/
theorem multGF2_isProduct_iff (p1 p2 : BitVec LAMBDA) :
    ((∃ p, multGF2 p1 p2 IRRED_POLY = some p ∧ IsProduct p p1 p2) ↔ Unreduced p1 p2) ∧
    (multGF2 p1 p2 IRRED_POLY = multGF2 p2 p1 IRRED_POLY ↔
      p1 = p2 ∨ p1 = 0 ∨ p2 = 0 ∨ p1.getLsbD 0 = false ∧ p2.getLsbD 0 = false) ∧
    ∀ y : BitVec LAMBDA, ∃ p p' q q',
      multGF2 p1 y IRRED_POLY = some p ∧ multGF2 p2 y IRRED_POLY = some p' ∧
      multGF2 (p1 ^^^ p2) y IRRED_POLY = some (p ^^^ p') ∧
      multGF2 y p1 IRRED_POLY = some q ∧ multGF2 y p2 IRRED_POLY = some q' ∧
      multGF2 y (p1 ^^^ p2) IRRED_POLY = some (q ^^^ q') := by
  have hproduct : ∀ p1 p2 : BitVec LAMBDA, multGF2 p1 p2 IRRED_POLY = some (product p1 p2) :=
    fun p1 p2 => multGF2_eq p1 p2 IRRED_POLY
  refine ⟨?_, ?_, fun y => ?_⟩
  · rw [hproduct, ← isProduct_product_iff]
    simp only [Option.some.injEq, exists_eq_left']
  · rw [hproduct, hproduct, Option.some.injEq, product_comm_iff]
  · have hleft : multGF2 (p1 ^^^ p2) y IRRED_POLY = some (product p1 y ^^^ product p2 y) := by
      rw [hproduct, product_xor_left]
    have hright : multGF2 y (p1 ^^^ p2) IRRED_POLY = some (product y p1 ^^^ product y p2) := by
      rw [hproduct, product_xor_right]
    exact ⟨product p1 y, product p2 y, product y p1, product y p2, hproduct p1 y, hproduct p2 y,
      hleft, hproduct y p1, hproduct y p2, hright⟩

/-- One times two is 25, and two times one is two. -/
theorem multGF2_one_two :
    ¬ (∃ p, multGF2 (1 : BitVec LAMBDA) (2 : BitVec LAMBDA) IRRED_POLY = some p ∧
      IsProduct p 1 2) ∧
    multGF2 (1 : BitVec LAMBDA) (2 : BitVec LAMBDA) IRRED_POLY = some 25 ∧
    multGF2 (2 : BitVec LAMBDA) (1 : BitVec LAMBDA) IRRED_POLY = some 2 := by
  have hcode : multGF2 (1 : BitVec LAMBDA) (2 : BitVec LAMBDA) IRRED_POLY = some 25 := by
    decide +kernel
  refine ⟨?_, hcode, by decide +kernel⟩
  rintro ⟨p, hp, hproduct⟩
  have hone : toPoly (1 : BitVec LAMBDA) = 1 := toPoly_twoPow (w := LAMBDA) (i := 0) (by decide)
  have hsmall : (toPoly (2 : BitVec LAMBDA)).degree < modulus.degree :=
    (degree_toPoly_lt _).trans_eq degree_modulus.symm
  rw [IsProduct, hone, one_mul, (modByMonic_eq_self_iff modulus_monic).mpr hsmall] at hproduct
  rw [hcode, toPoly_injective hproduct] at hp
  exact absurd hp (by decide)

end CoVault.Macs
