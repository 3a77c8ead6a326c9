import Mathlib

/-!
# Gaussian noise

A Gaussian sample is made of a number of uniform draws. The fraction of a float between one and
two is filled with random bits, and 1.5 is taken from it. The float is then used again for the next
draw, with the sign and the exponent that the subtraction has left. Here floats are rationals, and
all operations are exact.
-/

namespace CoVault.Noise

/-- `random_ints[i].bits[j]` for `j < 23`. -/
def mantissa (r : BitVec 32) : Nat := r.toNat % 2 ^ 23

/-- The exponent is kept, also that of a float that is zero or subnormal. -/
def magnitude (x : ℚ) (r : BitVec 32) : ℚ :=
  if |x| < (2 : ℚ) ^ (-126 : ℤ) then mantissa r / (2 : ℚ) ^ 149
  else (1 + mantissa r / 2 ^ 23) * (2 : ℚ) ^ Int.log 2 |x|

/-- The 23 bits of the fraction are set, and the sign is kept. -/
def setFraction (x : ℚ) (r : BitVec 32) : ℚ := if x < 0 then -magnitude x r else magnitude x r

/-- The loop of `generate_random_floats`, with `tmp` from the last pass. -/
def randomFloats (tmp : ℚ) : List (BitVec 32) → List ℚ
  | [] => []
  | r :: rest =>
    let tmp := setFraction tmp r - 3 / 2
    tmp :: randomFloats tmp rest

/-- `generate_random_floats`. A float with the exponent 127 and nothing else is one. -/
def generateRandomFloats (randomInts : List (BitVec 32)) : List ℚ := randomFloats 1 randomInts

structure GaussianGenerator where
  nUniformVars : Nat
  stdDevSum : ℚ
  dpNoiseStdDev : ℚ
  mean : ℚ

namespace GaussianGenerator

/-- `generate_random_integers`, number `k` of its calls: each party draws all integers, and its own
ones count. -/
def generateRandomIntegers (alice bob : Nat → Nat) (n k : Nat) : List (BitVec 32) :=
  let random (rand : Nat → Nat) (i : Nat) : BitVec 32 := BitVec.ofNat 32 (rand i % 102400)
  (List.range n).map fun i => random alice (2 * n * k + i) ^^^ random bob (2 * n * k + n + i)

variable (g : GaussianGenerator) (randomInts : Nat → List (BitVec 32))

/-- The sum of sample `i`; without a float at that index there is none. -/
def sumSamples (i : Nat) : Option ℚ :=
  let floats := generateRandomFloats (randomInts i)
  (List.range g.nUniformVars).foldlM (fun sum _ => floats[i]?.map (sum + ·)) 0

/-- `generate_gaussian_samples`, with the random integers that are drawn for each sample. -/
def generateGaussianSamples (sampleSize : Nat) : Option (List ℚ) :=
  (List.range sampleSize).mapM fun i =>
    (g.sumSamples randomInts i).map fun sum => g.mean + g.dpNoiseStdDev * (sum / g.stdDevSum)

/-- A draw that depends on one random integer only. -/
def uniform (r : BitVec 32) : ℚ := 1 + mantissa r / 2 ^ 23 - 3 / 2

/-- Every draw is uniform, and every sample is made of all its draws. -/
structure Right (sampleSize : Nat) : Prop where
  draws : ∀ i < sampleSize, generateRandomFloats (randomInts i) = (randomInts i).map uniform
  inRange : ∀ i < sampleSize, ∀ x ∈ generateRandomFloats (randomInts i), -1 / 2 ≤ x ∧ x < 1 / 2
  samples : g.generateGaussianSamples randomInts sampleSize =
    some ((List.range sampleSize).map fun i =>
      g.mean + g.dpNoiseStdDev * ((generateRandomFloats (randomInts i)).sum / g.stdDevSum))

end GaussianGenerator

/-! ## One draw -/

theorem mantissa_lt (r : BitVec 32) : (mantissa r : ℚ) < 2 ^ 23 := by
  exact_mod_cast Nat.mod_lt _ (by decide)

theorem setFraction_one (r : BitVec 32) : setFraction 1 r = 1 + mantissa r / 2 ^ 23 := by
  have hone : ¬ (1 : ℚ) < (2 : ℚ) ^ (-126 : ℤ) := by norm_num
  rw [setFraction, if_neg (by norm_num), magnitude, abs_one, if_neg hone, Int.log_one_right,
    zpow_zero, mul_one]

theorem fraction_range (r : BitVec 32) :
    (0 : ℚ) ≤ mantissa r / 2 ^ 23 ∧ (mantissa r : ℚ) / 2 ^ 23 < 1 :=
  ⟨by positivity, (div_lt_one (by norm_num)).mpr (mantissa_lt r)⟩

theorem uniform_range (r : BitVec 32) :
    -1 / 2 ≤ GaussianGenerator.uniform r ∧ GaussianGenerator.uniform r < 1 / 2 := by
  obtain ⟨hnonneg, hlt⟩ := fraction_range r
  unfold GaussianGenerator.uniform
  constructor <;> linarith

/-- A float below one stays below one. -/
theorem magnitude_range {x : ℚ} (h : |x| < 1) (r : BitVec 32) :
    0 ≤ magnitude x r ∧ magnitude x r < 1 := by
  obtain ⟨hnonneg, hlt⟩ := fraction_range r
  unfold magnitude
  by_cases hsmall : |x| < (2 : ℚ) ^ (-126 : ℤ)
  · rw [if_pos hsmall]
    refine ⟨by positivity, ?_⟩
    calc (mantissa r : ℚ) / 2 ^ 149 ≤ mantissa r / 2 ^ 23 := by
          gcongr <;> norm_num
      _ < 1 := hlt
  · rw [if_neg hsmall]
    have hx : 0 < |x| := lt_of_lt_of_le (by positivity) (not_lt.mp hsmall)
    have hlog : Int.log 2 |x| < 0 := (Int.lt_zpow_iff_log_lt one_lt_two hx).mp (by simpa using h)
    have hpow : (2 : ℚ) ^ Int.log 2 |x| ≤ 2⁻¹ := by
      calc (2 : ℚ) ^ Int.log 2 |x| ≤ 2 ^ (-1 : ℤ) :=
            zpow_le_zpow_right₀ one_le_two (Int.le_sub_one_of_lt hlog)
        _ = 2⁻¹ := zpow_neg_one 2
    refine ⟨by positivity, ?_⟩
    calc (1 + (mantissa r : ℚ) / 2 ^ 23) * 2 ^ Int.log 2 |x|
        ≤ (1 + mantissa r / 2 ^ 23) * 2⁻¹ := by gcongr
      _ < 1 := by linarith

theorem setFraction_lt_one {x : ℚ} (h : |x| < 1) (r : BitVec 32) : setFraction x r < 1 := by
  obtain ⟨hnonneg, hlt⟩ := magnitude_range h r
  unfold setFraction
  split_ifs <;> linarith

/-- The first draw is uniform. -/
theorem generateRandomFloats_cons (r : BitVec 32) (rest : List (BitVec 32)) :
    generateRandomFloats (r :: rest) =
      GaussianGenerator.uniform r :: randomFloats (GaussianGenerator.uniform r) rest := by
  simp only [generateRandomFloats, randomFloats, setFraction_one, GaussianGenerator.uniform]

/-- The second draw is below the range of the uniform ones. -/
theorem second_lt (r r' : BitVec 32) :
    setFraction (GaussianGenerator.uniform r) r' - 3 / 2 < -1 / 2 := by
  obtain ⟨hlow, hhigh⟩ := uniform_range r
  have hlt := setFraction_lt_one (abs_lt.mpr ⟨by linarith, by linarith⟩) r'
  linarith

namespace GaussianGenerator

@[simp] theorem length_generateRandomIntegers (alice bob : Nat → Nat) (n k : Nat) :
    (generateRandomIntegers alice bob n k).length = n := by
  simp [generateRandomIntegers]

variable {g : GaussianGenerator} {randomInts : Nat → List (BitVec 32)} {sampleSize : Nat}

/-- With two draws or more to a sample, the second is not uniform. -/
theorem Right.length_lt_two (h : g.Right randomInts sampleSize) (hsize : 0 < sampleSize) :
    (randomInts 0).length < 2 := by
  have hdraws := h.draws 0 hsize
  rcases hints : randomInts 0 with _ | ⟨r, _ | ⟨r', rest⟩⟩
  · decide
  · exact Nat.lt_succ_self 1
  · rw [hints, generateRandomFloats_cons, randomFloats] at hdraws
    simp only [List.map_cons, List.cons.injEq] at hdraws
    have hlow := (uniform_range r').1
    have hsecond := second_lt r r'
    rw [hdraws.2.1] at hsecond
    linarith

/-- The second sample looks for a second float. -/
theorem Right.size_lt_two (h : g.Right randomInts sampleSize) (hn : g.nUniformVars = 1)
    (hlength : (randomInts 1).length = 1) : sampleSize < 2 := by
  by_contra hge
  obtain ⟨k, rfl⟩ := Nat.exists_eq_add_of_le (Nat.not_lt.mp hge)
  obtain ⟨r, hints⟩ := List.length_eq_one_iff.mp hlength
  have hnone : g.sumSamples randomInts 1 = none := by
    rw [sumSamples, hints, generateRandomFloats_cons, hn]
    rfl
  have hsamples := h.samples
  rw [generateGaussianSamples, Nat.add_comm 2 k, List.range_succ_eq_map, List.range_succ_eq_map,
    List.map_cons, List.mapM_cons, List.mapM_cons, hnone] at hsamples
  cases hzero : g.sumSamples randomInts 0 <;> simp [hzero] at hsamples

/-- One draw makes one sample. -/
theorem right_one (hn : g.nUniformVars = 1) (hlength : (randomInts 0).length = 1) :
    g.Right randomInts 1 := by
  obtain ⟨r, hints⟩ := List.length_eq_one_iff.mp hlength
  have hfloats : generateRandomFloats (randomInts 0) = [uniform r] := by
    rw [hints, generateRandomFloats_cons, randomFloats]
  refine ⟨fun i hi => ?_, fun i hi => ?_, ?_⟩
  · obtain rfl : i = 0 := by omega
    rw [hfloats, hints, List.map_cons, List.map_nil]
  · obtain rfl : i = 0 := by omega
    simpa [hfloats] using uniform_range r
  · simp [generateGaussianSamples, sumSamples, hfloats, hn]

/-- Only one sample of one draw is as it should be. -/
theorem right_iff (hlength : ∀ i, (randomInts i).length = g.nUniformVars)
    (hn : 1 ≤ g.nUniformVars) : g.Right randomInts sampleSize ↔
      sampleSize = 0 ∨ sampleSize = 1 ∧ g.nUniformVars = 1 := by
  constructor
  · intro h
    rcases Nat.eq_zero_or_pos sampleSize with hzero | hpos
    · exact .inl hzero
    · have hone : g.nUniformVars = 1 := by
        have hlt := h.length_lt_two hpos
        rw [hlength] at hlt
        omega
      have hsize := h.size_lt_two hone (by rw [hlength, hone])
      exact .inr ⟨by omega, hone⟩
  · rintro (rfl | ⟨rfl, hone⟩)
    · exact ⟨nofun, nofun, rfl⟩
    · exact right_one hone (by rw [hlength, hone])

/-- The generator of the program; the standard deviation of the sum is rounded. -/
def deployed : GaussianGenerator := ⟨50, 2041 / 1000, 505146 / 1000, 0⟩

/-- The first sample, with zeros for all random integers. -/
theorem deployed_notRight :
    ¬ deployed.Right (generateRandomIntegers (fun _ => 0) (fun _ => 0) 50) 1 := fun h => by
  have hlt := h.length_lt_two one_pos
  simp at hlt

/-- One draw instead of fifty. -/
theorem oneDraw_right : ({ deployed with nUniformVars := 1 } : GaussianGenerator).Right
    (generateRandomIntegers (fun _ => 0) (fun _ => 0) 1) 1 :=
  (right_iff (fun i => length_generateRandomIntegers _ _ 1 i) le_rfl).mpr (.inr ⟨rfl, rfl⟩)

end GaussianGenerator

end CoVault.Noise
