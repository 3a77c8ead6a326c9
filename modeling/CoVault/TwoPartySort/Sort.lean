import CoVault.TwoPartySort.Shares

/-!
# A sort in circuits of limited size

An array that is too large for one circuit is cut at the greatest power of two below its length.
Both parts are sorted, the first one against the direction, and then the parts are compared with
each other in chunks, and each is merged. What fits is sorted, or merged, in one circuit.

The power of two is found with 32 bits of the length.
-/

namespace CoVault.TwoPartySort

open Library.Cells Library.SortNetwork

/-- `_lzcnt_u32` of a number other than zero. -/
def lzcnt (y : Nat) : Nat := 31 - Nat.log 2 y

/-- `highestPowerOfTwoLessThan`; a shift by all 32 bits has no value. -/
def highestPowerOfTwoLessThan (x : Nat) : Option Nat :=
  let y := (((x : Int) - 1) % 2 ^ 32).toNat
  if y = 0 then none else some (2147483648 >>> lzcnt y)

theorem highestPowerOfTwoLessThan_eq {x : Nat} (hx : 0 < x) : highestPowerOfTwoLessThan x =
    if (x - 1) % 2 ^ 32 = 0 then none else some (2 ^ Nat.log 2 ((x - 1) % 2 ^ 32)) := by
  have hy : (((x : Int) - 1) % 2 ^ 32).toNat = (x - 1) % 2 ^ 32 := by omega
  have hlog : Nat.log 2 ((x - 1) % 2 ^ 32) ≤ 31 :=
    Nat.lt_succ_iff.mp (Nat.log_lt_of_lt_pow' (by decide) (Nat.mod_lt _ (by decide)))
  unfold highestPowerOfTwoLessThan
  rw [hy]
  refine if_congr Iff.rfl rfl (congrArg some ?_)
  rw [lzcnt, Nat.shiftRight_eq_div_pow, show 2147483648 = 2 ^ 31 from rfl,
    Nat.pow_div (by omega) (by decide), Nat.sub_sub_self hlog]

/-- The power is the highest one in the lower bits. -/
theorem highestPowerOfTwoLessThan_bounds {x k : Nat} (hx : 0 < x)
    (hk : highestPowerOfTwoLessThan x = some k) :
    0 < k ∧ k ≤ (x - 1) % 2 ^ 32 ∧ (x - 1) % 2 ^ 32 < 2 * k := by
  rw [highestPowerOfTwoLessThan_eq hx] at hk
  split_ifs at hk with hzero
  obtain rfl := Option.some.inj hk
  generalize (x - 1) % 2 ^ 32 = y at hzero ⊢
  have hlt := Nat.lt_pow_succ_log_self (b := 2) (by decide) y
  rw [pow_succ'] at hlt
  exact ⟨Nat.two_pow_pos _, Nat.pow_log_le_self 2 hzero, hlt⟩

/-- The power has 32 bits itself. -/
theorem highestPowerOfTwoLessThan_le {x k : Nat} (hx : 0 < x)
    (hk : highestPowerOfTwoLessThan x = some k) : k ≤ 2 ^ 31 := by
  rw [highestPowerOfTwoLessThan_eq hx] at hk
  split_ifs at hk with hzero
  obtain rfl := Option.some.inj hk
  have hlog := Nat.log_lt_of_lt_pow hzero (Nat.mod_lt (x - 1) (show 0 < 2 ^ 32 by decide))
  exact Nat.pow_le_pow_right (by decide) (Nat.le_of_lt_succ hlog)

/-- The power is at least one and below the length. -/
theorem highestPowerOfTwoLessThan_lt {x k : Nat} (hx : 0 < x)
    (hk : highestPowerOfTwoLessThan x = some k) : 0 < k ∧ k < x := by
  obtain ⟨hpos, hle, _⟩ := highestPowerOfTwoLessThan_bounds hx hk
  have hmod := Nat.mod_le (x - 1) (2 ^ 32)
  exact ⟨hpos, by omega⟩

theorem highestPowerOfTwoLessThan_of_le {x : Nat} (hx : 1 < x) (hle : x ≤ 2 ^ 32) :
    highestPowerOfTwoLessThan x = some (greatestPowerBelow x) := by
  rw [highestPowerOfTwoLessThan_eq (by omega), Nat.mod_eq_of_lt (by omega), if_neg (by omega),
    greatestPowerBelow]

/-- The comparison and the networks of the circuit library, by direction and length. -/
structure Circuits (β : Type) where
  rank : BitVec 288 → β
  bitonicSort : (m : Mode) → Bool → Nat → (Nat → Item m) → Nat → Item m
  bitonicMerge : (m : Mode) → Bool → Nat → (Nat → Item m) → Nat → Item m

section Model

variable {β : Type} [LinearOrder β] (c : Circuits β) (m : Mode)
  (rand : Nat → Nat → IndexedEncounter) (perCircuit : Nat)

/-- One round of the loop of `bitonic2PCMerge`. -/
def mergeChunk (ascending : Bool) (low k count : Nat) (s : Shares) (chunkIndex : Nat) : Shares :=
  let half := perCircuit / 2
  let rest := count - k - chunkIndex * half
  let sizeOfSmallerArray := if rest > half then half else rest
  s.mergeChunks2PC rand sizeOfSmallerArray c.rank (low + chunkIndex * half)
    (low + k + chunkIndex * half) ascending m

/-- The loop of `bitonic2PCMerge`, over the indices with `k + chunkIndex * half < count`. -/
def mergeChunks (ascending : Bool) (low k count : Nat) (s : Shares) : Shares :=
  let half := perCircuit / 2
  (List.range ((count - k + half - 1) / half)).foldl
    (mergeChunk c m rand perCircuit ascending low k count) s

def bitonic2PCMerge (ascending : Bool) (low count : Nat) (s : Shares) : Option Shares :=
  -- the power is computed for every length, but looked at only for those that are cut
  if hbig : perCircuit < count then
    match hk : highestPowerOfTwoLessThan count with
    | none => none
    | some k =>
      have := highestPowerOfTwoLessThan_lt (Nat.zero_lt_of_lt hbig) hk
      let s := mergeChunks c m rand perCircuit ascending low k count s
      (bitonic2PCMerge ascending low k s).bind fun s =>
        bitonic2PCMerge ascending (low + k) (count - k) s
  else if 1 < count then
    some (s.circuit rand low count (c.bitonicMerge m ascending count))
  else some s
termination_by count

def bitonic2PCSort (ascending : Bool) (low count : Nat) (s : Shares) : Option Shares :=
  if hbig : perCircuit < count then
    match hk : highestPowerOfTwoLessThan count with
    | none => none
    | some k =>
      have := highestPowerOfTwoLessThan_lt (Nat.zero_lt_of_lt hbig) hk
      (bitonic2PCSort (!ascending) low k s).bind fun s =>
        (bitonic2PCSort ascending (low + k) (count - k) s).bind fun s =>
          bitonic2PCMerge c m rand perCircuit ascending low count s
  else if 1 < count then
    some (s.circuit rand low count (c.bitonicSort m ascending count))
  else some s
termination_by count

def sort2PC (count : Nat) (ascending : Bool) (s : Shares) : Option Shares :=
  bitonic2PCSort c m rand perCircuit ascending 0 count s

end Model

/-! ## What one call does -/

section Calls

variable {β : Type} [LinearOrder β] {c : Circuits β} {m : Mode}
  {rand : Nat → Nat → IndexedEncounter} {perCircuit : Nat} {ascending : Bool}
  {low count k : Nat} {s s' : Shares}

theorem bitonic2PCMerge_of_some (hbig : perCircuit < count)
    (hk : highestPowerOfTwoLessThan count = some k) :
    bitonic2PCMerge c m rand perCircuit ascending low count s =
      (bitonic2PCMerge c m rand perCircuit ascending low k
        (mergeChunks c m rand perCircuit ascending low k count s)).bind
          (bitonic2PCMerge c m rand perCircuit ascending (low + k) (count - k)) := by
  rw [bitonic2PCMerge, dif_pos hbig]
  split
  · simp_all
  · simp_all

theorem bitonic2PCSort_of_some (hbig : perCircuit < count)
    (hk : highestPowerOfTwoLessThan count = some k) :
    bitonic2PCSort c m rand perCircuit ascending low count s =
      (bitonic2PCSort c m rand perCircuit (!ascending) low k s).bind fun s =>
        (bitonic2PCSort c m rand perCircuit ascending (low + k) (count - k) s).bind
          (bitonic2PCMerge c m rand perCircuit ascending low count) := by
  rw [bitonic2PCSort, dif_pos hbig]
  split
  · simp_all
  · simp_all

theorem bitonic2PCMerge_of_none (hbig : perCircuit < count)
    (hk : highestPowerOfTwoLessThan count = none) :
    bitonic2PCMerge c m rand perCircuit ascending low count s = none := by
  rw [bitonic2PCMerge, dif_pos hbig]
  split
  · rfl
  · simp_all

theorem bitonic2PCSort_of_none (hbig : perCircuit < count)
    (hk : highestPowerOfTwoLessThan count = none) :
    bitonic2PCSort c m rand perCircuit ascending low count s = none := by
  rw [bitonic2PCSort, dif_pos hbig]
  split
  · rfl
  · simp_all

theorem bitonic2PCMerge_of_le (h : count ≤ perCircuit) :
    bitonic2PCMerge c m rand perCircuit ascending low count s =
      if 1 < count then some (s.circuit rand low count (c.bitonicMerge m ascending count))
      else some s := by
  rw [bitonic2PCMerge, dif_neg (by omega)]

theorem bitonic2PCSort_of_le (h : count ≤ perCircuit) :
    bitonic2PCSort c m rand perCircuit ascending low count s =
      if 1 < count then some (s.circuit rand low count (c.bitonicSort m ascending count))
      else some s := by
  rw [bitonic2PCSort, dif_neg (by omega)]

/-- What a merge that returns has done. -/
theorem bitonic2PCMerge_cases
    (h : bitonic2PCMerge c m rand perCircuit ascending low count s = some s') :
    (count ≤ perCircuit ∧
      (s' = s ∨ s' = s.circuit rand low count (c.bitonicMerge m ascending count))) ∨
    ∃ k s₁, perCircuit < count ∧ highestPowerOfTwoLessThan count = some k ∧
      bitonic2PCMerge c m rand perCircuit ascending low k
        (mergeChunks c m rand perCircuit ascending low k count s) = some s₁ ∧
      bitonic2PCMerge c m rand perCircuit ascending (low + k) (count - k) s₁ = some s' := by
  by_cases hbig : perCircuit < count
  · cases hk : highestPowerOfTwoLessThan count with
    | none => exact absurd (h.symm.trans (bitonic2PCMerge_of_none hbig hk)) nofun
    | some k =>
      rw [bitonic2PCMerge_of_some hbig hk, Option.bind_eq_some_iff] at h
      obtain ⟨s₁, hfirst, hsecond⟩ := h
      exact Or.inr ⟨k, s₁, hbig, rfl, hfirst, hsecond⟩
  · rw [bitonic2PCMerge_of_le (by omega)] at h
    refine Or.inl ⟨by omega, ?_⟩
    split_ifs at h
    · exact Or.inr (Option.some.inj h).symm
    · exact Or.inl (Option.some.inj h).symm

/-- What a sort that returns has done. -/
theorem bitonic2PCSort_cases
    (h : bitonic2PCSort c m rand perCircuit ascending low count s = some s') :
    (count ≤ perCircuit ∧
      (s' = s ∨ s' = s.circuit rand low count (c.bitonicSort m ascending count))) ∨
    ∃ k s₁ s₂, perCircuit < count ∧ highestPowerOfTwoLessThan count = some k ∧
      bitonic2PCSort c m rand perCircuit (!ascending) low k s = some s₁ ∧
      bitonic2PCSort c m rand perCircuit ascending (low + k) (count - k) s₁ = some s₂ ∧
      bitonic2PCMerge c m rand perCircuit ascending low count s₂ = some s' := by
  by_cases hbig : perCircuit < count
  · cases hk : highestPowerOfTwoLessThan count with
    | none => exact absurd (h.symm.trans (bitonic2PCSort_of_none hbig hk)) nofun
    | some k =>
      rw [bitonic2PCSort_of_some hbig hk, Option.bind_eq_some_iff] at h
      obtain ⟨s₁, hfirst, hrest⟩ := h
      obtain ⟨s₂, hsecond, hmerge⟩ := Option.bind_eq_some_iff.mp hrest
      exact Or.inr ⟨k, s₁, s₂, hbig, rfl, hfirst, hsecond, hmerge⟩
  · rw [bitonic2PCSort_of_le (by omega)] at h
    refine Or.inl ⟨by omega, ?_⟩
    split_ifs at h
    · exact Or.inr (Option.some.inj h).symm
    · exact Or.inl (Option.some.inj h).symm

end Calls

/-! ## Lengths that fit 32 bits -/

/-- The rounds leave chunks to compare. -/
theorem chunkIndex_mul_lt {half rest chunkIndex : Nat} (h : chunkIndex < (rest + half - 1) / half) :
    chunkIndex * half < rest := by
  have hpos : 0 < half := Nat.pos_of_ne_zero (by rintro rfl; simp at h)
  have hmul := Nat.mul_le_of_le_div _ _ _ h
  rw [Nat.succ_mul] at hmul
  omega

section Refinement

variable {β : Type} [LinearOrder β] {c : Circuits β} {m : Mode}
  {rand : Nat → Nat → IndexedEncounter} {perCircuit : Nat}

theorem opened_circuit_eq_onWindow {rand : Nat → Nat → IndexedEncounter} {low count : Nat}
    {s : Shares} (net : Nat → (Nat → Item m) → Nat → Item m) :
    (s.circuit rand low count (net count)).opened m = onWindow net low count (s.opened m) :=
  Shares.opened_circuit (net count)

/-- After `n` rounds the first `n * half` comparisons of the layer are made, when the chunks that
are compared are disjoint. -/
theorem opened_rounds {half : Nat} (hhalf : perCircuit / 2 = half) {low k count : Nat}
    (hk : count - k ≤ k) (ascending : Bool) (s : Shares) {n : Nat}
    (hn : n ≤ (count - k + half - 1) / half) :
    ((List.range n).foldl (mergeChunk c m rand perCircuit ascending low k count) s).opened m =
      layer (cmpSwap (c.rank ∘ Item.key) ascending) low k (min (n * half) (count - k))
        (s.opened m) := by
  induction n with
  | zero => rw [Nat.zero_mul, Nat.zero_min]; rfl
  | succ n ih =>
    have hlt : n * half < count - k := chunkIndex_mul_lt hn
    have hsize : min ((n + 1) * half) (count - k) = n * half +
        if count - k - n * half > half then half else count - k - n * half := by
      rw [Nat.succ_mul]
      split_ifs <;> omega
    have ih := ih (by omega)
    rw [min_eq_left hlt.le] at ih
    rw [List.range_succ, List.foldl_concat, mergeChunk, hhalf, Shares.opened_mergeChunks2PC, ih,
      hsize, layer_add]
    generalize layer _ low k (n * half) _ = g
    rw [layer_cmpSwap _ _ (by split_ifs <;> omega), Nat.add_right_comm low k]

/-- The loop makes the layer of the merge. -/
theorem opened_mergeChunks (hp : 2 ≤ perCircuit) {low k count : Nat} (hk : count - k ≤ k)
    (ascending : Bool) (s : Shares) :
    (mergeChunks c m rand perCircuit ascending low k count s).opened m =
      layer (cmpSwap (c.rank ∘ Item.key) ascending) low k (count - k) (s.opened m) := by
  obtain ⟨half, hhalf⟩ : ∃ half, perCircuit / 2 = half := ⟨_, rfl⟩
  have hall := Nat.lt_div_mul_add (a := count - k + half - 1) (b := half) (by omega)
  rw [mergeChunks, hhalf, opened_rounds hhalf hk ascending s (le_refl _), min_eq_right (by omega)]

theorem bitonic2PCMerge_refines (hp : 2 ≤ perCircuit) (ascending : Bool) {count : Nat}
    (hle : count ≤ 2 ^ 32 ∨ count ≤ perCircuit) (low : Nat) (s : Shares) :
    ∃ s', bitonic2PCMerge c m rand perCircuit ascending low count s = some s' ∧
      s'.opened m = mergeInPieces (cmpSwap (c.rank ∘ Item.key) ascending)
        (c.bitonicMerge m ascending) perCircuit low count (s.opened m) := by
  induction count using Nat.strong_induction_on generalizing low s with
  | _ count ih =>
    by_cases hbig : perCircuit < count
    · have hone : 1 < count := by omega
      have hk := highestPowerOfTwoLessThan_of_le hone (by omega)
      have hlt := greatestPowerBelow_lt hone
      have hpos := greatestPowerBelow_pos count
      have htwice := le_two_mul_greatestPowerBelow count
      obtain ⟨s₁, hs₁, hopened₁⟩ := ih (greatestPowerBelow count) hlt (by omega) low
        (mergeChunks c m rand perCircuit ascending low (greatestPowerBelow count) count s)
      obtain ⟨s₂, hs₂, hopened₂⟩ := ih (count - greatestPowerBelow count) (by omega) (by omega)
        (low + greatestPowerBelow count) s₁
      refine ⟨s₂, ?_, ?_⟩
      · rw [bitonic2PCMerge_of_some hbig hk, hs₁, Option.bind_some, hs₂]
      · rw [hopened₂, hopened₁, opened_mergeChunks hp (by omega),
          mergeInPieces_of_lt _ _ _ hone hbig]
    · rw [bitonic2PCMerge_of_le (by omega), mergeInPieces_of_le _ _ _ (by omega)]
      split_ifs
      · exact ⟨_, rfl, opened_circuit_eq_onWindow (c.bitonicMerge m ascending)⟩
      · exact ⟨s, rfl, rfl⟩

theorem bitonic2PCSort_refines (hp : 2 ≤ perCircuit) {count : Nat}
    (hle : count ≤ 2 ^ 32 ∨ count ≤ perCircuit) (ascending : Bool) (low : Nat) (s : Shares) :
    ∃ s', bitonic2PCSort c m rand perCircuit ascending low count s = some s' ∧
      s'.opened m = sortInPieces (cmpSwap (c.rank ∘ Item.key)) (c.bitonicSort m)
        (c.bitonicMerge m) perCircuit low count ascending (s.opened m) := by
  induction count using Nat.strong_induction_on generalizing ascending low s with
  | _ count ih =>
    by_cases hbig : perCircuit < count
    · have hone : 1 < count := by omega
      have hk := highestPowerOfTwoLessThan_of_le hone (by omega)
      have hlt := greatestPowerBelow_lt hone
      have hpos := greatestPowerBelow_pos count
      obtain ⟨s₁, hs₁, hopened₁⟩ := ih (greatestPowerBelow count) hlt (by omega) (!ascending) low s
      obtain ⟨s₂, hs₂, hopened₂⟩ := ih (count - greatestPowerBelow count) (by omega) (by omega)
        ascending (low + greatestPowerBelow count) s₁
      obtain ⟨s₃, hs₃, hopened₃⟩ : ∃ s₃, bitonic2PCMerge c m rand perCircuit ascending low count
        s₂ = some s₃ ∧ _ := bitonic2PCMerge_refines hp ascending hle low s₂
      refine ⟨s₃, ?_, ?_⟩
      · rw [bitonic2PCSort_of_some hbig hk, hs₁, Option.bind_some, hs₂, Option.bind_some, hs₃]
      · rw [hopened₃, hopened₂, hopened₁, sortInPieces_of_lt _ _ _ _ hone hbig]
    · rw [bitonic2PCSort_of_le (by omega), sortInPieces_of_le _ _ _ _ (by omega)]
      split_ifs
      · exact ⟨_, rfl, opened_circuit_eq_onWindow (c.bitonicSort m ascending)⟩
      · exact ⟨s, rfl, rfl⟩

end Refinement

end CoVault.TwoPartySort
