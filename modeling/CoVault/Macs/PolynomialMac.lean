import CoVault.Circuit.Bits
import CoVault.Macs.MultGF2

/-!
# The polynomial MAC

A message is cut into blocks of 64 bits, which are the coefficients of a polynomial without
a constant term. Horner's rule evaluates it at the first half of the key, and the second
half blinds the value. The blocks are what is multiplied by the key, so it is their parity
that decides how `multGF2` reduces: the even part of a message is evaluated modulo `X ^ 64`,
where the high bits of a block hardly meet the key.
-/

namespace CoVault.Macs

open Circuit Library.BinaryPolynomial Polynomial

/-! ## The code -/

/-- The bits from `i` on, at most `LAMBDA` of them. -/
def block (message : Integer) (i : Nat) : Integer := (message.drop i).take LAMBDA

section Code

-- `Integer(LAMBDA, 1 << (LAMBDA - block.bits.size()))` for a block of that many bits: nothing
-- orders the call of `size` and the `resize` beside it, and the shift is one of an `int`
variable (lastBit : Nat → BitVec LAMBDA)

/-- A block as it is added: a short one is filled up. -/
def paddedBlock (bits : Integer) : BitVec LAMBDA :=
  if bits.length ≠ LAMBDA then ofBits LAMBDA bits ^^^ lastBit bits.length
  else ofBits LAMBDA bits

variable {n : Nat} (key : BitVec n × BitVec LAMBDA)

/-- The loop over the blocks of one integer. -/
def absorb (k : BitVec n) (y : BitVec LAMBDA) (message : Integer) : Option (BitVec LAMBDA) :=
  (List.range' 0 ((message.length + LAMBDA - 1) / LAMBDA) LAMBDA).foldlM
    (fun y i => multGF2 (y ^^^ paddedBlock lastBit (block message i)) k IRRED_POLY) y

/-- `mac` of one integer. -/
def mac (message : Integer) : Option (BitVec LAMBDA) := do
  let y ← absorb lastBit key.1 0 message
  return y ^^^ key.2

/-- `mac` of a vector. -/
def macVector (messageVec : List Integer) : Option (BitVec LAMBDA) := do
  let y ← messageVec.foldlM (absorb lastBit key.1) 0
  return y ^^^ key.2

def macNmal (messageVec : List Integer) (r0 : Integer) : Option (BitVec LAMBDA × Integer) := do
  let messageVec := messageVec ++ [r0]
  let y ← messageVec.foldlM (absorb lastBit key.1) 0
  return (y ^^^ key.2, r0)

/-- `verify` of one integer. -/
def verify (message : Integer) (tag : BitVec LAMBDA) : Option Bool := do
  return (← mac lastBit key message) == tag

/-- `verify` of a vector. -/
def verifyVector (messageVec : List Integer) (tag : BitVec LAMBDA) : Option Bool := do
  return (← macVector lastBit key messageVec) == tag

def verifyNmal (messageVec : List Integer) (tag : BitVec LAMBDA × Integer) : Option Bool := do
  let newTag ← macNmal lastBit key messageVec tag.2
  return newTag.1 == tag.1

end Code

/-! ## The blocks -/

/-- The blocks of an integer as they are added. -/
def words (lastBit : Nat → BitVec LAMBDA) (message : Integer) : List (BitVec LAMBDA) :=
  (List.range' 0 ((message.length + LAMBDA - 1) / LAMBDA) LAMBDA).map
    fun i => paddedBlock lastBit (block message i)

variable {lastBit : Nat → BitVec LAMBDA} {n : Nat}

theorem absorb_eq_foldlM (k : BitVec n) (y : BitVec LAMBDA) (message : Integer) :
    absorb lastBit k y message =
      (words lastBit message).foldlM (fun y w => multGF2 (y ^^^ w) k IRRED_POLY) y := by
  rw [absorb, words, List.foldlM_map]

@[simp] theorem words_nil : words lastBit [] = [] := rfl

theorem words_of_ne_nil {message : Integer} (h : message ≠ []) : words lastBit message =
    paddedBlock lastBit (message.take LAMBDA) :: words lastBit (message.drop LAMBDA) := by
  have hpos : 0 < message.length := List.length_pos_iff.mpr h
  have hcount : (message.length + LAMBDA - 1) / LAMBDA =
      ((message.drop LAMBDA).length + LAMBDA - 1) / LAMBDA + 1 := by
    rw [List.length_drop]
    unfold LAMBDA
    omega
  have hnext : ∀ i, block message (LAMBDA + i) = block (message.drop LAMBDA) i := by
    intro i
    rw [block, block, List.drop_drop]
  have hrange : ∀ count, List.range' LAMBDA count LAMBDA =
      (List.range' 0 count LAMBDA).map (LAMBDA + ·) := by
    intro count
    rw [List.map_add_range', Nat.add_zero]
  rw [words, hcount, List.range'_succ, List.map_cons, words, Nat.zero_add, block, List.drop_zero,
    hrange, List.map_map]
  simp only [Function.comp_def, hnext]

/-- An integer without bits, and one with a block more. -/
theorem block_induction {p : Integer → Prop} (nil : p [])
    (step : ∀ message, message ≠ [] → p (message.drop LAMBDA) → p message) (message : Integer) :
    p message := by
  induction hlen : message.length using Nat.strong_induction_on generalizing message with
  | _ len ih =>
    by_cases h : message = []
    · exact h ▸ nil
    · have hpos : 0 < message.length := List.length_pos_iff.mpr h
      apply step message h
      have hshorter : (message.drop LAMBDA).length < len := by
        rw [List.length_drop, ← hlen]
        exact Nat.sub_lt hpos (by decide)
      exact ih _ hshorter _ rfl

/-- Full blocks are not changed by what comes after them. -/
theorem words_append {message : Integer} (h : LAMBDA ∣ message.length) (rest : Integer) :
    words lastBit (message ++ rest) = words lastBit message ++ words lastBit rest := by
  induction message using block_induction with
  | nil => rfl
  | step message hne ih =>
    have hpos : 0 < message.length := List.length_pos_iff.mpr hne
    have hfull : LAMBDA ≤ message.length := Nat.le_of_dvd hpos h
    have hdrop : LAMBDA ∣ (message.drop LAMBDA).length := by
      rw [List.length_drop]
      exact Nat.dvd_sub h dvd_rfl
    rw [words_of_ne_nil hne, words_of_ne_nil (List.append_ne_nil_of_left_ne_nil hne rest),
      List.take_append_of_le_length hfull, List.drop_append_of_le_length hfull, ih hdrop,
      List.cons_append]

theorem ofBits_zipWith_xor {w : Nat} {xs ys : Integer} (h : xs.length = ys.length) :
    ofBits w (List.zipWith xor xs ys) = ofBits w xs ^^^ ofBits w ys := by
  apply BitVec.eq_of_getLsbD_eq
  intro i hi
  rw [BitVec.getLsbD_xor, getLsbD_ofBits, getLsbD_ofBits, getLsbD_ofBits]
  grind

/-- What is filled up cancels out. -/
theorem zipWith_words {m m' : Integer} (h : m.length = m'.length) :
    List.zipWith (· ^^^ ·) (words lastBit m) (words lastBit m') =
      words (fun _ => 0) (List.zipWith xor m m') := by
  have hlen : (List.zipWith xor m m').length = m.length := by
    rw [List.length_zipWith, ← h, Nat.min_self]
  rw [words, words, words, ← h, hlen, List.zipWith_map, List.zipWith_self]
  apply List.map_congr_left
  intro i _
  have hblock : (block m i).length = (block m' i).length := by simp [block, h]
  have hxor : block (List.zipWith xor m m') i = List.zipWith xor (block m i) (block m' i) := by
    rw [block, block, block, List.drop_zipWith, List.take_zipWith]
  rw [hxor, paddedBlock, paddedBlock, paddedBlock, List.length_zipWith, ← hblock, Nat.min_self,
    ofBits_zipWith_xor hblock]
  split_ifs
  · calc ofBits LAMBDA (block m i) ^^^ lastBit (block m i).length ^^^
          (ofBits LAMBDA (block m' i) ^^^ lastBit (block m i).length) =
        ofBits LAMBDA (block m i) ^^^ ofBits LAMBDA (block m' i) ^^^
          (lastBit (block m i).length ^^^ lastBit (block m i).length) := by ac_rfl
      _ = ofBits LAMBDA (block m i) ^^^ ofBits LAMBDA (block m' i) ^^^ 0#64 := by
        rw [BitVec.xor_self]
  · rfl

/-! ## Horner's rule -/

/-- The loop with a key of the right width. -/
def horner (k : BitVec LAMBDA) (ws : List (BitVec LAMBDA)) (y : BitVec LAMBDA) : BitVec LAMBDA :=
  ws.foldl (fun y w => product (y ^^^ w) k) y

variable (k : BitVec LAMBDA)

theorem absorb_eq_horner (y : BitVec LAMBDA) (message : Integer) :
    absorb lastBit k y message = some (horner k (words lastBit message) y) := by
  have hproduct : ∀ x : BitVec LAMBDA, multGF2 x k IRRED_POLY = pure (product x k) :=
    fun x => multGF2_eq x k IRRED_POLY
  simp only [absorb_eq_foldlM, hproduct, List.foldlM_pure]
  rfl

/-- The rule is linear in the blocks. -/
theorem horner_xor {ws ws' : List (BitVec LAMBDA)} (h : ws.length = ws'.length)
    (y y' : BitVec LAMBDA) : horner k ws y ^^^ horner k ws' y' =
      horner k (List.zipWith (· ^^^ ·) ws ws') (y ^^^ y') := by
  induction ws generalizing ws' y y' with
  | nil =>
    obtain rfl : ws' = [] := List.length_eq_zero_iff.mp h.symm
    rfl
  | cons w ws ih =>
    obtain ⟨w', ws', rfl⟩ := List.exists_cons_of_length_eq_add_one h.symm
    have hrest : ws.length = ws'.length := Nat.succ_injective h
    have hword : y ^^^ w ^^^ (y' ^^^ w') = y ^^^ y' ^^^ (w ^^^ w') := by ac_rfl
    calc horner k ws (product (y ^^^ w) k) ^^^ horner k ws' (product (y' ^^^ w') k) =
          horner k (List.zipWith (· ^^^ ·) ws ws')
            (product (y ^^^ w) k ^^^ product (y' ^^^ w') k) := ih hrest _ _
      _ = horner k (List.zipWith (· ^^^ ·) ws ws')
            (product (y ^^^ y' ^^^ (w ^^^ w')) k) := by rw [← product_xor_left, hword]

/-- The difference of two messages, without what is filled up. -/
def differenceWords (m m' : Integer) : List (BitVec LAMBDA) :=
  words (fun _ => 0) (List.zipWith xor m m')

variable {m m' : Integer}

theorem horner_words_xor (lastBit : Nat → BitVec LAMBDA) (h : m.length = m'.length) :
    horner k (words lastBit m) 0 ^^^ horner k (words lastBit m') 0 =
      horner k (differenceWords m m') 0 := by
  have hcount : (words lastBit m).length = (words lastBit m').length := by simp [words, h]
  rw [horner_xor k hcount, zipWith_words h, differenceWords]
  rfl

theorem xor_eq_xor_iff {w : Nat} (t t' r e : BitVec w) :
    t' ^^^ r = t ^^^ r ^^^ e ↔ t ^^^ t' = e := by
  have hswap : t ^^^ r ^^^ e = t ^^^ e ^^^ r := by ac_rfl
  rw [hswap, BitVec.xor_left_inj]
  constructor
  · rintro rfl
    rw [← BitVec.xor_assoc, BitVec.xor_self, BitVec.zero_xor]
  · rintro rfl
    rw [← BitVec.xor_assoc, BitVec.xor_self, BitVec.zero_xor]

/-- A tag is accepted for another message of the same length if and only if it is off by the
value of their difference; the blinding has no part in this. -/
theorem verify_eq_some_true_iff (lastBit : Nat → BitVec LAMBDA)
    (key : BitVec LAMBDA × BitVec LAMBDA) (h : m.length = m'.length) :
    ∃ tag, mac lastBit key m = some tag ∧ ∀ e, (verify lastBit key m' (tag ^^^ e) = some true ↔
      horner key.1 (differenceWords m m') 0 = e) := by
  have hmac : ∀ message, mac lastBit key message =
      some (horner key.1 (words lastBit message) 0 ^^^ key.2) := by
    intro message
    rw [mac, absorb_eq_horner]
    rfl
  refine ⟨_, hmac m, fun e => ?_⟩
  rw [verify, hmac m', ← horner_words_xor key.1 lastBit h]
  generalize horner key.1 (words lastBit m) 0 = t
  generalize horner key.1 (words lastBit m') 0 = t'
  change some (t' ^^^ key.2 == t ^^^ key.2 ^^^ e) = some true ↔ _
  rw [Option.some.injEq, beq_iff_eq]
  exact xor_eq_xor_iff t t' key.2 e

/-! ## Differences in even words -/

/-- `m_1 X^l + ... + m_l X` at a point. -/
noncomputable def valueAt (x : (ZMod 2)[X]) : List (BitVec LAMBDA) → (ZMod 2)[X]
  | [] => 0
  | w :: ws => toPoly w * x ^ (ws.length + 1) + valueAt x ws

theorem even_product {x : BitVec LAMBDA} (heven : x.getLsbD 0 = false) (y : BitVec LAMBDA) :
    (product x y).getLsbD 0 = false := by
  have hzero : (toPoly (product x y)).coeff 0 = 0 := by
    rw [product, toPoly_shiftAdd, finsetSum_coeff]
    apply Finset.sum_eq_zero
    intro i _
    split_ifs
    · rw [coeff_toPoly, even_iterate heven IRRED_POLY i, if_neg Bool.false_ne_true]
    · exact coeff_zero 0
  rw [coeff_toPoly] at hzero
  grind

theorem dvd_toPoly_product {x : BitVec LAMBDA} (heven : x.getLsbD 0 = false)
    (y : BitVec LAMBDA) : X ^ 64 ∣ toPoly (product x y) - toPoly x * toPoly y :=
  dvd_sub_of_eq_modByMonic (toPoly_product_even heven y)

/-- Even blocks are evaluated modulo `X ^ 64`. -/
theorem dvd_horner {ws : List (BitVec LAMBDA)} (hws : ∀ w ∈ ws, w.getLsbD 0 = false)
    {y : BitVec LAMBDA} (hy : y.getLsbD 0 = false) :
    X ^ 64 ∣ toPoly (horner k ws y) -
      (toPoly y * toPoly k ^ ws.length + valueAt (toPoly k) ws) := by
  induction ws generalizing y with
  | nil => simp [horner, valueAt]
  | cons w ws ih =>
    have hyw : (y ^^^ w).getLsbD 0 = false := by
      rw [BitVec.getLsbD_xor, hy, hws w List.mem_cons_self]
      rfl
    have hrest := ih (fun w hw => hws w (List.mem_cons_of_mem _ hw)) (even_product hyw k)
    have hstep : horner k (w :: ws) y = horner k ws (product (y ^^^ w) k) := rfl
    have hsplit : toPoly (horner k (w :: ws) y) -
        (toPoly y * toPoly k ^ (w :: ws).length + valueAt (toPoly k) (w :: ws)) =
        (toPoly (horner k ws (product (y ^^^ w) k)) -
          (toPoly (product (y ^^^ w) k) * toPoly k ^ ws.length + valueAt (toPoly k) ws)) +
        (toPoly (product (y ^^^ w) k) - toPoly (y ^^^ w) * toPoly k) * toPoly k ^ ws.length := by
      rw [hstep, List.length_cons, valueAt, toPoly_xor]
      ring
    rw [hsplit]
    exact dvd_add hrest (dvd_mul_of_dvd_left (dvd_toPoly_product hyw k) _)

theorem horner_eq_zero_iff {ws : List (BitVec LAMBDA)} (hws : ∀ w ∈ ws, w.getLsbD 0 = false) :
    horner k ws 0 = 0 ↔ X ^ 64 ∣ valueAt (toPoly k) ws := by
  have hdvd := dvd_horner k hws (y := 0) rfl
  have hzero : toPoly (0 : BitVec LAMBDA) = 0 := toPoly_zero
  rw [hzero, zero_mul, zero_add] at hdvd
  rw [← toPoly_eq_zero_iff, ← dvd_iff_dvd_of_dvd_sub hdvd]
  constructor
  · intro heq
    exact heq ▸ dvd_zero _
  · intro hmultiple
    have hdegree : (toPoly (horner k ws 0)).degree < (X ^ 64 : (ZMod 2)[X]).degree := by
      rw [degree_X_pow]
      exact degree_toPoly_lt _
    exact eq_zero_of_dvd_of_degree_lt hmultiple hdegree

theorem paddedBlock_zero (bits : Integer) :
    paddedBlock (fun _ => 0) bits = ofBits LAMBDA bits := by
  rw [paddedBlock]
  split_ifs
  · exact BitVec.xor_zero
  · rfl

theorem getLsbD_paddedBlock (message : Integer) (i : Nat) {j : Nat} (hj : j < LAMBDA) :
    (paddedBlock (fun _ => 0) (block message i)).getLsbD j = message.getD (i + j) false := by
  rw [paddedBlock_zero, getLsbD_ofBits, decide_eq_true hj, Bool.true_and, block,
    List.getD_eq_getElem?_getD, List.getElem?_take_of_lt hj, List.getElem?_drop,
    List.getD_eq_getElem?_getD]

theorem getD_zipWith_xor (h : m.length = m'.length) (i : Nat) :
    (List.zipWith xor m m').getD i false = (m.getD i false ^^ m'.getD i false) := by
  grind

/-- Two messages of one length that agree in the first bit of each block: the blinding, and
what fills up the last block, play no part in whether the tag of one is accepted for the
other, and of the difference it is only the value modulo `X ^ 64` that does. -/
theorem verify_evenDifference_iff (lastBit : Nat → BitVec LAMBDA)
    (key : BitVec LAMBDA × BitVec LAMBDA) {m m' : Integer} (hlen : m.length = m'.length)
    (heven : ∀ i, m.getD i false ≠ m'.getD i false → i % LAMBDA ≠ 0) :
    ∃ tag, mac lastBit key m = some tag ∧ (verify lastBit key m' tag = some true ↔
      X ^ 64 ∣ valueAt (toPoly key.1) (differenceWords m m')) := by
  have hws : ∀ w ∈ differenceWords m m', w.getLsbD 0 = false := by
    intro w hw
    obtain ⟨i, hi, rfl⟩ := List.mem_map.mp hw
    obtain ⟨j, -, rfl⟩ := List.mem_range'.mp hi
    rw [getLsbD_paddedBlock _ _ (by decide), getD_zipWith_xor hlen]
    have hplace := heven (0 + LAMBDA * j + 0)
    grind
  obtain ⟨tag, htag, hverify⟩ := verify_eq_some_true_iff lastBit key hlen
  refine ⟨tag, htag, ?_⟩
  have hsame := hverify 0#64
  rw [BitVec.xor_zero] at hsame
  exact hsame.trans (horner_eq_zero_iff key.1 hws)

/-- What the circuit library makes of the shift if `size` is called first. -/
def shiftedBit (size : Nat) : BitVec LAMBDA := BitVec.twoPow LAMBDA (LAMBDA - size)

/-- One block that is zero, and one with bit 1 set, under a key with its highest bit alone. -/
theorem verify_evenDifference_two :
    ∃ tag, mac shiftedBit (BitVec.twoPow LAMBDA 63, 5) (List.replicate 64 false) = some tag ∧
      verify shiftedBit (BitVec.twoPow LAMBDA 63, 5) (false :: true :: List.replicate 62 false)
        tag = some true := by
  have hplaces : ∀ i, (List.replicate 64 false).getD i false ≠
      (false :: true :: List.replicate 62 false).getD i false → i % LAMBDA ≠ 0 := by
    intro i hi
    match i, hi with
    | 0, hi => exact absurd rfl hi
    | 1, _ => decide
    | i + 2, hi => exact absurd (by grind) hi
  have hlen : (List.replicate 64 false).length =
      (false :: true :: List.replicate 62 false).length := rfl
  obtain ⟨tag, htag, hverify⟩ :=
    verify_evenDifference_iff shiftedBit (BitVec.twoPow LAMBDA 63, 5) hlen hplaces
  refine ⟨tag, htag, hverify.mpr ?_⟩
  have hwords : differenceWords (List.replicate 64 false)
      (false :: true :: List.replicate 62 false) = [BitVec.twoPow LAMBDA 1] := by
    decide +kernel
  rw [hwords, valueAt, valueAt, toPoly_twoPow (by decide), toPoly_twoPow (by decide)]
  exact Dvd.intro 1 (by rw [List.length_nil]; ring)

/-! ## Differences in the last bits of the blocks -/

/-- A word with at most its highest bit. -/
def topWord (b : Bool) : BitVec LAMBDA := if b then BitVec.twoPow LAMBDA 63 else 0

theorem topWord_eq_zero_iff (b : Bool) : topWord b = 0#64 ↔ b = false := by
  cases b <;> decide

theorem topWord_eq_twoPow_iff (b : Bool) : topWord b = BitVec.twoPow LAMBDA 63 ↔ b = true := by
  cases b <;> decide

theorem topWord_xor (b c : Bool) : topWord b ^^^ topWord c = topWord (b ^^ c) := by
  cases b <;> cases c <;> decide

/-- It comes out as it went in if the key is odd, and otherwise vanishes. -/
theorem product_topWord (b : Bool) : product (topWord b) k = topWord (b && k.getLsbD 0) := by
  cases b with
  | false => exact product_zero_left k
  | true =>
    have hgone : ∀ i ∈ Finset.range LAMBDA, i ≠ 0 →
        (if k.getLsbD i then toPoly ((shiftReduce IRRED_POLY)^[i] (topWord true)) else 0) = 0 := by
      intro i _ hi
      obtain ⟨i, rfl⟩ := Nat.exists_eq_succ_of_ne_zero hi
      have hshifted : shiftReduce IRRED_POLY (topWord true) = 0#64 := by decide
      have hzero : shiftReduce IRRED_POLY 0#64 = 0#64 := by decide
      rw [Function.iterate_succ_apply, hshifted, Function.iterate_fixed hzero, toPoly_zero,
        ite_self]
    apply toPoly_injective
    rw [product, toPoly_shiftAdd,
      Finset.sum_eq_single_of_mem 0 (Finset.mem_range.mpr (by decide)) hgone, Bool.true_and]
    cases k.getLsbD 0 with
    | false => exact toPoly_zero.symm
    | true => rfl

/-- Only the parity of the words is left. -/
theorem horner_topWords (bs : List Bool) (p : Bool) :
    horner k (bs.map topWord) (topWord (p && k.getLsbD 0)) =
      topWord ((p ^^ decide (Odd (bs.count true))) && k.getLsbD 0) := by
  induction bs generalizing p with
  | nil => simp [horner]
  | cons b bs ih =>
    have hstep : horner k ((b :: bs).map topWord) (topWord (p && k.getLsbD 0)) =
        horner k (bs.map topWord) (product (topWord (p && k.getLsbD 0) ^^^ topWord b) k) := rfl
    have hbit : (((p && k.getLsbD 0) ^^ b) && k.getLsbD 0) = ((p ^^ b) && k.getLsbD 0) := by
      cases p <;> cases b <;> cases k.getLsbD 0 <;> rfl
    rw [hstep, topWord_xor, product_topWord, hbit, ih]
    cases b <;> grind

/-- A block in which at most the last bit is set. -/
theorem paddedBlock_of_last {bits : Integer} (hlen : bits.length ≤ LAMBDA)
    (hlast : ∀ i, bits.getD i false = true → i = 63) :
    paddedBlock (fun _ => 0) bits = topWord (bits.getD 63 false) ∧
      bits.count true = (bits.getD 63 false).toNat := by
  constructor
  · apply BitVec.eq_of_getLsbD_eq
    intro i hi
    have hbit : (topWord (bits.getD 63 false)).getLsbD i =
        (bits.getD 63 false && decide (i = 63)) := by
      cases bits.getD 63 false with
      | false => exact BitVec.getLsbD_zero
      | true =>
        rw [topWord, if_pos rfl, BitVec.getLsbD_twoPow, Bool.true_and]
        grind
    rw [paddedBlock_zero, getLsbD_ofBits, decide_eq_true hi, Bool.true_and, hbit]
    grind
  · have hlow : (bits.take 63).count true = 0 := by
      apply List.count_eq_zero.mpr
      intro hmem
      obtain ⟨i, hi, htrue⟩ := List.getElem_of_mem hmem
      have hplace := hlast i
      grind
    have hhigh : (bits.drop 63).count true = (bits.getD 63 false).toNat := by
      have hshort : (bits.drop 63).length ≤ 1 := by
        rw [List.length_drop]
        exact Nat.sub_le_of_le_add hlen
      have hhead : bits.getD 63 false = (bits.drop 63).getD 0 false := by grind
      rw [hhead]
      match bits.drop 63, hshort with
      | [], _ => rfl
      | [b], _ => cases b <;> rfl
    rw [← hhigh, ← List.take_append_drop 63 bits, List.count_append, hlow, Nat.zero_add]
    simp

theorem words_of_last {message : Integer}
    (hlast : ∀ i, message.getD i false = true → i % LAMBDA = 63) :
    ∃ bs : List Bool, words (fun _ => 0) message = bs.map topWord ∧
      bs.count true = message.count true := by
  induction message using block_induction with
  | nil => exact ⟨[], rfl, rfl⟩
  | step message hne ih =>
    have hfirst : ∀ i, (message.take LAMBDA).getD i false = true → i = 63 := by
      intro i hi
      have hplace := hlast i
      grind
    have hrest : ∀ i, (message.drop LAMBDA).getD i false = true → i % LAMBDA = 63 := by
      intro i hi
      have hplace := hlast (LAMBDA + i)
      grind
    obtain ⟨bs, hwords, hcount⟩ := ih hrest
    obtain ⟨hword, hone⟩ := paddedBlock_of_last (List.length_take_le _ _) hfirst
    refine ⟨(message.take LAMBDA).getD 63 false :: bs, ?_, ?_⟩
    · rw [words_of_ne_nil hne, hword, hwords, List.map_cons]
    · have hsplit : message.count true =
          (message.take LAMBDA).count true + (message.drop LAMBDA).count true := by
        rw [← List.count_append, List.take_append_drop]
      rw [hsplit, hone, ← hcount, List.count_cons]
      cases (message.take LAMBDA).getD 63 false <;> simp [Nat.add_comm]

/-- In how many places two messages differ. -/
def differences (m m' : Integer) : Nat := (List.zipWith xor m m').count true

/-- Two messages of one length that agree except for last bits of blocks. A tag of one is
accepted for the other if the places are even in number, or the key is; otherwise it is with
its highest bit turned over. -/
theorem verify_lastBits_iff (lastBit : Nat → BitVec LAMBDA) (key : BitVec LAMBDA × BitVec LAMBDA)
    {m m' : Integer} (hlen : m.length = m'.length)
    (hlast : ∀ i, m.getD i false ≠ m'.getD i false → i % LAMBDA = 63) :
    ∃ tag, mac lastBit key m = some tag ∧
      (verify lastBit key m' tag = some true ↔
        Even (differences m m') ∨ key.1.getLsbD 0 = false) ∧
      (verify lastBit key m' (tag ^^^ BitVec.twoPow LAMBDA 63) = some true ↔
        Odd (differences m m') ∧ key.1.getLsbD 0 = true) := by
  have hplaces : ∀ i, (List.zipWith xor m m').getD i false = true → i % LAMBDA = 63 := by
    intro i hi
    rw [getD_zipWith_xor hlen] at hi
    have hplace := hlast i
    grind
  obtain ⟨bs, hwords, hcount⟩ := words_of_last hplaces
  have hvalue : horner key.1 (differenceWords m m') 0 =
      topWord (decide (Odd (differences m m')) && key.1.getLsbD 0) := by
    rw [differenceWords, hwords, differences, ← hcount]
    simpa [topWord] using horner_topWords key.1 bs false
  obtain ⟨tag, htag, hverify⟩ := verify_eq_some_true_iff lastBit key hlen
  refine ⟨tag, htag, ?_, ?_⟩
  · have hsame := hverify 0#64
    rw [BitVec.xor_zero, hvalue, topWord_eq_zero_iff] at hsame
    rw [hsame]
    grind
  · rw [hverify, hvalue, topWord_eq_twoPow_iff]
    grind

def oddKey : BitVec LAMBDA × BitVec LAMBDA := (3, 5)

/-- The last bits of both blocks, and an odd key. -/
theorem verify_lastBits_two : ∃ tag, mac shiftedBit oddKey (List.replicate 128 false) = some tag ∧
    verify shiftedBit oddKey (List.replicate 63 false ++ true :: List.replicate 63 false ++ [true])
      tag = some true := by
  have hplaces : ∀ i, (List.replicate 128 false).getD i false ≠
      (List.replicate 63 false ++ true :: List.replicate 63 false ++ [true]).getD i false →
      i % LAMBDA = 63 := by
    intro i hi
    have hplace : i = 63 ∨ i = 127 := by grind
    grind
  have hlen : (List.replicate 128 false).length =
      (List.replicate 63 false ++ true :: List.replicate 63 false ++ [true]).length := rfl
  obtain ⟨tag, htag, hsame, -⟩ := verify_lastBits_iff shiftedBit oddKey hlen hplaces
  exact ⟨tag, htag, hsame.mpr (.inl (by decide +kernel))⟩

/-! ## Vectors -/

section Vectors

variable (lastBit : Nat → BitVec LAMBDA) (key : BitVec n × BitVec LAMBDA)

/-- The loop over blocks, with a key of any width. -/
def absorbWords (ws : List (BitVec LAMBDA)) : Option (BitVec LAMBDA) := do
  let y ← ws.foldlM (fun y w => multGF2 (y ^^^ w) key.1 IRRED_POLY) 0
  return y ^^^ key.2

variable {lastBit}

theorem words_flatten_append (lastBit : Nat → BitVec LAMBDA) {messageVec : List Integer}
    (h : ∀ message ∈ messageVec, LAMBDA ∣ message.length) (rest : Integer) :
    words lastBit (messageVec.flatten ++ rest) =
      messageVec.flatMap (words lastBit) ++ words lastBit rest := by
  induction messageVec with
  | nil => rfl
  | cons message messageVec ih =>
    have hrest := ih fun message hmem => h message (List.mem_cons_of_mem _ hmem)
    rw [List.flatten_cons, List.append_assoc, words_append (h message List.mem_cons_self), hrest,
      List.flatMap_cons, List.append_assoc]

theorem foldlM_absorb (messageVec : List Integer) (y : BitVec LAMBDA) :
    messageVec.foldlM (absorb lastBit key.1) y = (messageVec.flatMap (words lastBit)).foldlM
      (fun y w => multGF2 (y ^^^ w) key.1 IRRED_POLY) y := by
  induction messageVec generalizing y with
  | nil => rfl
  | cons message messageVec ih =>
    rw [List.foldlM_cons, List.flatMap_cons, List.foldlM_append, absorb_eq_foldlM]
    exact bind_congr ih

theorem mac_eq (message : Integer) :
    mac lastBit key message = absorbWords key (words lastBit message) := by
  rw [mac, absorb_eq_foldlM, absorbWords]

theorem macVector_eq (messageVec : List Integer) : macVector lastBit key messageVec =
    absorbWords key (messageVec.flatMap (words lastBit)) := by
  rw [macVector, foldlM_absorb, absorbWords]

theorem macNmal_eq (messageVec : List Integer) (r0 : Integer) :
    macNmal lastBit key messageVec r0 =
      (macVector lastBit key (messageVec ++ [r0])).map (·, r0) := by
  rw [macNmal, macVector]
  cases (messageVec ++ [r0]).foldlM (absorb lastBit key.1) 0 <;> rfl

theorem verifyNmal_eq (messageVec : List Integer) (tag : BitVec LAMBDA × Integer) :
    verifyNmal lastBit key messageVec tag =
      (macVector lastBit key (messageVec ++ [tag.2])).map (· == tag.1) := by
  rw [verifyNmal, macNmal_eq]
  cases macVector lastBit key (messageVec ++ [tag.2]) <;> rfl

/-- The tag does not say where the parts of a vector end, as long as all but the last are
whole blocks: it is the tag of one long integer, and the end of a message passes for the
beginning of the random part. -/
theorem verifyNmal_moved (lastBit : Nat → BitVec LAMBDA) {n : Nat}
    (key : BitVec n × BitVec LAMBDA) (messageVec : List Integer) {moved : List Integer}
    (h : ∀ message ∈ moved, LAMBDA ∣ message.length) (r0 : Integer) :
    macVector lastBit key (moved ++ [r0]) = mac lastBit key (moved.flatten ++ r0) ∧
      macNmal lastBit key moved r0 = (mac lastBit key (moved.flatten ++ r0)).map (·, r0) ∧
      (∀ tag, verifyVector lastBit key (moved ++ [r0]) tag =
        verify lastBit key (moved.flatten ++ r0) tag) ∧
      ∀ tag, verifyNmal lastBit key messageVec (tag, moved.flatten ++ r0) =
        verifyNmal lastBit key (messageVec ++ moved) (tag, r0) := by
  have hwords := words_flatten_append lastBit h r0
  have hlong : macVector lastBit key (moved ++ [r0]) = mac lastBit key (moved.flatten ++ r0) := by
    rw [macVector_eq, mac_eq, hwords, List.flatMap_append, List.flatMap_singleton]
  refine ⟨hlong, ?_, fun tag => ?_, fun tag => ?_⟩
  · rw [macNmal_eq, hlong]
  · rw [verifyVector, hlong, verify]
  · have hsame : (messageVec ++ [moved.flatten ++ r0]).flatMap (words lastBit) =
        (messageVec ++ moved ++ [r0]).flatMap (words lastBit) := by
      simp only [List.flatMap_append, List.flatMap_singleton, List.append_assoc, hwords]
    rw [verifyNmal_eq, verifyNmal_eq, macVector_eq, macVector_eq, hsame]

/-- A block moved from a message of two blocks to the random part. -/
theorem verifyNmal_moved_one : verifyNmal shiftedBit oddKey [List.replicate 64 true]
      (7, List.replicate 64 false ++ [true]) =
    verifyNmal shiftedBit oddKey [List.replicate 64 true, List.replicate 64 false] (7, [true]) := by
  have hfull : ∀ message ∈ [List.replicate 64 false], LAMBDA ∣ message.length := by simp
  exact (verifyNmal_moved shiftedBit oddKey [List.replicate 64 true] hfull [true]).2.2.2 7

end Vectors

end CoVault.Macs
