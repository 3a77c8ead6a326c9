import CoVault.TwoPartySort.Sort

/-!
# Which arrays are sorted

An array of at most 2^32 records is cut where it should be, and the pieces make a sorting network. A
longer array is cut too early: the parts are longer than their distance, and where the chunks that
are compared overlap, a record is put back twice and another one is gone. Or the cuts use up the
lower bits of the length, and there is no power of two left.
-/

namespace CoVault.TwoPartySort

open Library.Cells Library.SortNetwork

/-! ## Longer arrays -/

section Overflow

variable {β : Type} [LinearOrder β] {c : Circuits β} {m : Mode}
  {rand : Nat → Nat → IndexedEncounter} {perCircuit low count k : Nat} {s s' : Shares}
  {ascending : Bool}

/-- The lower bits of the length are used up until there is nothing to shift. -/
theorem bitonic2PCSort_eq_none (hp : 2 ≤ perCircuit)
    (hle : perCircuit ≤ (count - 1) / 2 ^ 32 * 2 ^ 32) :
    bitonic2PCSort c m rand perCircuit ascending low count s = none := by
  induction count using Nat.strong_induction_on generalizing ascending low s with
  | _ count ih =>
    have hbig : perCircuit < count := by omega
    cases hk : highestPowerOfTwoLessThan count with
    | none => exact bitonic2PCSort_of_none hbig hk
    | some k =>
      obtain ⟨hpos, hlower, _⟩ := highestPowerOfTwoLessThan_bounds (Nat.zero_lt_of_lt hbig) hk
      have hquotient : (count - k - 1) / 2 ^ 32 = (count - 1) / 2 ^ 32 := by omega
      rw [bitonic2PCSort_of_some hbig hk]
      cases bitonic2PCSort c m rand perCircuit (!ascending) low k s with
      | none => rfl
      | some s₁ =>
        have hrest : bitonic2PCSort c m rand perCircuit ascending (low + k) (count - k) s₁ = none :=
          ih (count - k) (by omega) (by rwa [hquotient])
        rw [Option.bind_some, hrest, Option.bind_none]

theorem mergeChunks2PC_drawnFrom {lower higher size : Nat} (hlower : low ≤ lower)
    (hlower' : lower + size ≤ low + count) (hhigher : low ≤ higher)
    (hhigher' : higher + size ≤ low + count) : DrawnFrom low count (s.opened m)
      ((s.mergeChunks2PC rand size c.rank lower higher ascending m).opened m) := by
  rw [Shares.opened_mergeChunks2PC]
  have hpair : ∀ x : Item m, ∀ i < size, x = s.opened m (lower + i) ∨ x = s.opened m (higher + i) →
      ∃ j < count, x = s.opened m (low + j) := by
    rintro x i hi (rfl | rfl)
    · exact ⟨lower + i - low, by omega, by rw [Nat.add_sub_cancel' (by omega)]⟩
    · exact ⟨higher + i - low, by omega, by rw [Nat.add_sub_cancel' (by omega)]⟩
  have hlow := (DrawnFrom.refl low count (s.opened m)).putWindow hlower hlower'
    fun i hi => hpair _ i hi (lowCell_eq_or (c.rank ∘ Item.key) ascending _ _)
  exact hlow.putWindow hhigher hhigher'
    fun i hi => hpair _ i hi (highCell_eq_or (c.rank ∘ Item.key) ascending _ _)

/-- One round draws its records from the window. -/
theorem mergeChunk_drawnFrom {chunkIndex : Nat}
    (hlt : chunkIndex * (perCircuit / 2) < count - k) :
    DrawnFrom low count (s.opened m)
      ((mergeChunk c m rand perCircuit ascending low k count s chunkIndex).opened m) := by
  refine mergeChunks2PC_drawnFrom (by omega) ?_ (by omega) ?_
  all_goals
    split_ifs <;> omega

theorem rounds_drawnFrom (l : List Nat) (hl : ∀ i ∈ l, i * (perCircuit / 2) < count - k) :
    DrawnFrom low count (s.opened m)
      ((l.foldl (mergeChunk c m rand perCircuit ascending low k count) s).opened m) := by
  induction l generalizing s with
  | nil => exact DrawnFrom.refl low count _
  | cons i l ih =>
    exact (mergeChunk_drawnFrom (hl i (List.mem_cons_self ..))).trans
      (ih fun j hj => hl j (List.mem_cons_of_mem i hj))

theorem mergeChunks_drawnFrom : DrawnFrom low count (s.opened m)
    ((mergeChunks c m rand perCircuit ascending low k count s).opened m) :=
  rounds_drawnFrom _ fun _ hi => chunkIndex_mul_lt (List.mem_range.mp hi)

variable (hnets : ∀ m, TwoWayNets (c.rank ∘ Item.key) (c.bitonicSort m) (c.bitonicMerge m))

include hnets

theorem bitonic2PCMerge_drawnFrom
    (h : bitonic2PCMerge c m rand perCircuit ascending low count s = some s') :
    DrawnFrom low count (s.opened m) (s'.opened m) := by
  induction count using Nat.strong_induction_on generalizing low s s' with
  | _ count ih =>
    obtain ⟨_, rfl | rfl⟩ | ⟨k, s₁, hbig, hk, hfirst, hsecond⟩ := bitonic2PCMerge_cases h
    · exact DrawnFrom.refl low count _
    · rw [opened_circuit_eq_onWindow]
      exact DrawnFrom.of_rearranged
        (onWindow_rearranged ((hnets m).merge_rearranged ascending) low count _)
    · obtain ⟨hpos, hlt⟩ := highestPowerOfTwoLessThan_lt (Nat.zero_lt_of_lt hbig) hk
      have hlow : DrawnFrom low count _ _ := (ih k hlt hfirst).mono (le_refl low) (by omega)
      have hhigh : DrawnFrom low count _ _ := (ih (count - k) (by omega) hsecond).mono
        (by omega) (by omega)
      exact mergeChunks_drawnFrom.trans (hlow.trans hhigh)

theorem bitonic2PCSort_drawnFrom
    (h : bitonic2PCSort c m rand perCircuit ascending low count s = some s') :
    DrawnFrom low count (s.opened m) (s'.opened m) := by
  induction count using Nat.strong_induction_on generalizing ascending low s s' with
  | _ count ih =>
    obtain ⟨_, rfl | rfl⟩ | ⟨k, s₁, s₂, hbig, hk, hfirst, hsecond, hmerge⟩ :=
      bitonic2PCSort_cases h
    · exact DrawnFrom.refl low count _
    · rw [opened_circuit_eq_onWindow]
      exact DrawnFrom.of_rearranged
        (onWindow_rearranged ((hnets m).sort_rearranged ascending) low count _)
    · obtain ⟨hpos, hlt⟩ := highestPowerOfTwoLessThan_lt (Nat.zero_lt_of_lt hbig) hk
      have hlow : DrawnFrom low count _ _ := (ih k hlt hfirst).mono (le_refl low) (by omega)
      have hhigh : DrawnFrom low count _ _ := (ih (count - k) (by omega) hsecond).mono
        (by omega) (by omega)
      exact hlow.trans (hhigh.trans (bitonic2PCMerge_drawnFrom hnets hmerge))

end Overflow

/-! ## Chunks that overlap -/

section Overlap

variable {β : Type} [LinearOrder β] {c : Circuits β} {m : Mode}
  {rand : Nat → Nat → IndexedEncounter} {perCircuit low count k : Nat} {s s' : Shares}

/-- In a first chunk longer than the distance of the parts, the record of the cell `low + k` gets
into the cells `low` and `low + 2 * k`. -/
theorem opened_mergeChunk_repeats {half : Nat} (hhalf : perCircuit / 2 = half) (hpos : 0 < k)
    (hover : k < half) (htwice : 2 * k < count) {r : β}
    (hkeys : ∀ i < count, c.rank (s.opened m (low + i)).key = r) :
    (mergeChunk c m rand perCircuit false low k count s 0).opened m (low + 0) =
      (mergeChunk c m rand perCircuit false low k count s 0).opened m (low + (k + k)) := by
  have hkey : ∀ i j, i < count → j < count →
      (c.rank ∘ Item.key) (s.opened m (low + i)) = (c.rank ∘ Item.key) (s.opened m (low + j)) :=
    fun i j hi hj => (hkeys i hi).trans (hkeys j hj).symm
  have hsize : k < if count - k - 0 * half > half then half else count - k - 0 * half := by
    split_ifs <;> omega
  rw [mergeChunk, hhalf, Shares.opened_mergeChunks2PC]
  generalize (if count - k - 0 * half > half then half else count - k - 0 * half) = size
    at hsize ⊢
  rw [Nat.zero_mul, Nat.add_zero, Nat.add_zero, ← Nat.add_assoc low k k,
    putWindow_of_not (by omega), putWindow_of_lt hsize, highCell_false_of_eq]
  · refine (putWindow_of_lt (i := 0) (by omega) _ _).trans (lowCell_false_of_eq _ ?_)
    exact hkey 0 k (by omega) (by omega)
  · rw [Nat.add_assoc]
    exact hkey k (k + k) (by omega) (by omega)

/-- The rounds after the first one do not bring back what it has lost. -/
theorem mergeChunks_not_distinctOn (hpos : 0 < k) (hover : k < perCircuit / 2)
    (htwice : 2 * k < count) {r : β} (hkeys : ∀ i < count, c.rank (s.opened m (low + i)).key = r) :
    ¬ DistinctOn low count
      ((mergeChunks c m rand perCircuit false low k count s).opened m) := by
  obtain ⟨half, hhalf⟩ : ∃ half, perCircuit / 2 = half := ⟨_, rfl⟩
  obtain ⟨n, hn⟩ : ∃ n, (count - k + half - 1) / half = n + 1 :=
    Nat.exists_eq_succ_of_ne_zero (Nat.div_pos (by omega) (by omega)).ne'
  have hcells : (mergeChunk c m rand perCircuit false low k count s 0).opened m (low + 0) = _ :=
    opened_mergeChunk_repeats hhalf hpos (by omega) htwice hkeys
  have hrest : DrawnFrom low count
      ((mergeChunk c m rand perCircuit false low k count s 0).opened m)
      ((mergeChunks c m rand perCircuit false low k count s).opened m) := by
    rw [mergeChunks, hhalf, hn, List.range_succ_eq_map, List.foldl_cons]
    refine rounds_drawnFrom _ fun i hi => ?_
    obtain ⟨j, hj, rfl⟩ := List.mem_map.mp hi
    rw [hhalf]
    exact chunkIndex_mul_lt (by rw [hn]; exact Nat.succ_lt_succ (List.mem_range.mp hj))
  intro hdistinct
  have := hrest.distinctOn hdistinct 0 (by omega) (k + k) (by omega) hcells
  omega

theorem bitonic2PCMerge_not_distinctOn
    (hnets : ∀ m, TwoWayNets (c.rank ∘ Item.key) (c.bitonicSort m) (c.bitonicMerge m))
    (hbig : perCircuit < count) (hk : highestPowerOfTwoLessThan count = some k)
    (hover : k < perCircuit / 2) (htwice : 2 * k < count) {r : β}
    (hkeys : ∀ i < count, c.rank (s.opened m (low + i)).key = r)
    (h : bitonic2PCMerge c m rand perCircuit false low count s = some s') :
    ¬ DistinctOn low count (s'.opened m) := by
  obtain ⟨hpos, hlt⟩ := highestPowerOfTwoLessThan_lt (Nat.zero_lt_of_lt hbig) hk
  rw [bitonic2PCMerge_of_some hbig hk, Option.bind_eq_some_iff] at h
  obtain ⟨s₁, hfirst, hsecond⟩ := h
  have hlow : DrawnFrom low count _ _ := (bitonic2PCMerge_drawnFrom hnets hfirst).mono
    (le_refl low) (by omega)
  have hhigh : DrawnFrom low count _ _ := (bitonic2PCMerge_drawnFrom hnets hsecond).mono
    (by omega) (by omega)
  intro hdistinct
  exact mergeChunks_not_distinctOn hpos hover htwice hkeys
    ((hlow.trans hhigh).distinctOn hdistinct)

end Overlap

/-! ## The sort -/

section Sorting

variable {β : Type} [LinearOrder β] (c : Circuits β) (perCircuit count : Nat)

/-- Whatever is shared and drawn, the records are sorted like in one circuit. -/
def SortsArrays : Prop :=
  ∀ (m : Mode) (ascending : Bool) (rand : Nat → Nat → IndexedEncounter) (s : Shares),
    ∃ s', sort2PC c m rand perCircuit count ascending s = some s' ∧
      Rearranged 0 count (s.opened m) (s'.opened m) ∧
      SortedIn ascending (keys (c.rank ∘ Item.key) (s'.opened m) 0) count ∧
      ∀ i < count, c.rank (s'.opened m i).key =
        c.rank (c.bitonicSort m ascending count (s.opened m) i).key

variable {c perCircuit count}
  (hnets : ∀ m, TwoWayNets (c.rank ∘ Item.key) (c.bitonicSort m) (c.bitonicMerge m))

include hnets

theorem sortsArrays_of_le (hp : 2 ≤ perCircuit) (hle : count ≤ 2 ^ 32 ∨ count ≤ perCircuit) :
    SortsArrays c perCircuit count := by
  intro m ascending rand s
  obtain ⟨s', hs', hopened⟩ : ∃ s', sort2PC c m rand perCircuit count ascending s = some s' ∧ _ :=
    bitonic2PCSort_refines hp hle ascending 0 s
  have hc := twoWay_cmpSwap (c.rank ∘ Item.key (m := m))
  have hrearranged := TwoWayNets.sortInPieces_rearranged perCircuit hc (hnets m) 0 count ascending
    (s.opened m)
  have hsorted := TwoWayNets.sortInPieces_sortedIn perCircuit hc (hnets m) 0 count ascending
    (s.opened m)
  rw [← hopened] at hrearranged hsorted
  refine ⟨s', hs', hrearranged, hsorted, fun i hi => ?_⟩
  have hone := (hnets m).sort_rearranged ascending count (s.opened m)
  have hkeys := SortedIn.eq_of_rearranged ((hnets m).sort_sortedIn ascending count (s.opened m))
    hsorted (hone.symm.trans hrearranged) hi
  rwa [keys, keys, Nat.zero_add] at hkeys

end Sorting

/-- Records with the same key and different payloads. -/
def numbered : Shares where
  alice p := ⟨0, 0, 0, BitVec.ofNat 256 p⟩
  bob _ := ⟨0, 0, 0, 0⟩
  drawn := 0

theorem numbered_distinctOn {count : Nat} (hcount : count < 2 ^ 64) :
    DistinctOn 0 count (numbered.opened ⟨false, false⟩) := by
  have hdata : ∀ p, (numbered.opened ⟨false, false⟩ p).data = BitVec.ofNat 256 p :=
    fun p => @BitVec.xor_zero 256 _
  have hmod : ∀ p < count, p % 2 ^ 256 = p := fun p hp =>
    Nat.mod_eq_of_lt ((hp.trans hcount).trans (Nat.pow_lt_pow_right (by decide) (by decide)))
  intro i hi j hj heq
  rw [Nat.zero_add, Nat.zero_add] at heq
  have hsame : BitVec.ofNat 256 i = BitVec.ofNat 256 j := by rw [← hdata, ← hdata, heq]
  have hnat := congrArg BitVec.toNat hsame
  rwa [BitVec.toNat_ofNat, BitVec.toNat_ofNat, hmod i hi, hmod j hj] at hnat

section Sorting

variable {β : Type} [LinearOrder β] {c : Circuits β} {perCircuit count : Nat}
  (hnets : ∀ m, TwoWayNets (c.rank ∘ Item.key) (c.bitonicSort m) (c.bitonicMerge m))

/-- In which cases of a long array two chunks overlap, here or in the upper part. -/
theorem overlap_cases {k : Nat} (hover : (count - 1) / 2 ^ 32 * 2 ^ 32 < perCircuit)
    (hbig : perCircuit < count) (hlong : 2 ^ 32 < count)
    (hcorner : ¬ (count = 2 ^ 32 + 2 ^ 31 + 1 ∧ perCircuit = 2 ^ 32 + 1))
    (hk : highestPowerOfTwoLessThan count = some k) :
    2 * k < count ∧ (k < perCircuit / 2 ∨
      perCircuit < count - k ∧ ∀ k', highestPowerOfTwoLessThan (count - k) = some k' →
        k' < perCircuit / 2 ∧ 2 * k' < count - k) := by
  obtain ⟨hpos, hlower, hupper⟩ := highestPowerOfTwoLessThan_bounds (by omega) hk
  have hle := highestPowerOfTwoLessThan_le (by omega) hk
  refine ⟨by omega, or_iff_not_imp_left.mpr fun hhalf => ⟨by omega, fun k' hk' => ?_⟩⟩
  obtain ⟨-, hlower', -⟩ := highestPowerOfTwoLessThan_bounds (by omega) hk'
  constructor <;> omega

include hnets

/-- A merge of equal keys that returns has lost a record. -/
theorem bitonic2PCMerge_long_not_distinctOn {m : Mode} {rand : Nat → Nat → IndexedEncounter}
    {low : Nat} {s s' : Shares} (hover : (count - 1) / 2 ^ 32 * 2 ^ 32 < perCircuit)
    (hbig : perCircuit < count) (hlong : 2 ^ 32 < count)
    (hcorner : ¬ (count = 2 ^ 32 + 2 ^ 31 + 1 ∧ perCircuit = 2 ^ 32 + 1)) {r : β}
    (hkeys : ∀ i < count, c.rank (s.opened m (low + i)).key = r)
    (h : bitonic2PCMerge c m rand perCircuit false low count s = some s') :
    ¬ DistinctOn low count (s'.opened m) := by
  obtain ⟨hle, -⟩ | ⟨k, s₁, -, hk, hlow, hhigh⟩ := bitonic2PCMerge_cases h
  · omega
  obtain ⟨hpos, hlt⟩ := highestPowerOfTwoLessThan_lt (by omega) hk
  obtain ⟨htwice, hhalf | ⟨hbig', hover'⟩⟩ := overlap_cases hover hbig hlong hcorner hk
  · exact bitonic2PCMerge_not_distinctOn hnets hbig hk hhalf htwice hkeys h
  · -- the chunks overlap where the upper part is merged
    obtain ⟨hle, -⟩ | ⟨k', -, -, hk', -, -⟩ := bitonic2PCMerge_cases hhigh
    · omega
    have hmerged : DrawnFrom low count _ _ := (bitonic2PCMerge_drawnFrom hnets hlow).mono
      (le_refl low) (by omega)
    have hkeys₁ : ∀ i < count, c.rank (s₁.opened m (low + i)).key = r :=
      (mergeChunks_drawnFrom.trans hmerged).forall_of_forall (P := fun x => c.rank x.key = r) hkeys
    have hupper : ∀ i < count - k, c.rank (s₁.opened m (low + k + i)).key = r := by
      intro i hi
      rw [Nat.add_assoc]
      exact hkeys₁ (k + i) (by omega)
    intro hdistinct
    exact bitonic2PCMerge_not_distinctOn hnets hbig' hk' (hover' k' hk').1 (hover' k' hk').2
      hupper hhigh (hdistinct.mono (by omega) (by omega))

/-- A sort of equal keys that returns has lost a record. -/
theorem bitonic2PCSort_not_distinctOn {m : Mode} {rand : Nat → Nat → IndexedEncounter} {low : Nat}
    {s s' : Shares} (hp : 2 ≤ perCircuit) (hbig : perCircuit < count) (hlong : 2 ^ 32 < count)
    (hcorner : ¬ (count = 2 ^ 32 + 2 ^ 31 + 1 ∧ perCircuit = 2 ^ 32 + 1)) {r : β}
    (hkeys : ∀ i < count, c.rank (s.opened m (low + i)).key = r)
    (h : bitonic2PCSort c m rand perCircuit false low count s = some s') :
    ¬ DistinctOn low count (s'.opened m) := by
  by_cases hover : (count - 1) / 2 ^ 32 * 2 ^ 32 < perCircuit
  · obtain ⟨hle, -⟩ | ⟨k, s₁, s₂, -, hk, hfirst, hsecond, hmerge⟩ := bitonic2PCSort_cases h
    · omega
    obtain ⟨hpos, hlt⟩ := highestPowerOfTwoLessThan_lt (by omega) hk
    have hlower : DrawnFrom low count _ _ := (bitonic2PCSort_drawnFrom hnets hfirst).mono
      (le_refl low) (by omega)
    have hupper : DrawnFrom low count _ _ := (bitonic2PCSort_drawnFrom hnets hsecond).mono
      (by omega) (by omega)
    exact bitonic2PCMerge_long_not_distinctOn hnets hover hbig hlong hcorner
      ((hlower.trans hupper).forall_of_forall (P := fun x => c.rank x.key = r) hkeys) hmerge
  · exact absurd (h.symm.trans (bitonic2PCSort_eq_none hp (by omega))) nofun

/-- Which lengths and sizes of circuits sort every array. -/
theorem sortsArrays_iff (hp : 2 ≤ perCircuit) (hcount : count < 2 ^ 64)
    (hcorner : ¬ (count = 2 ^ 32 + 2 ^ 31 + 1 ∧ perCircuit = 2 ^ 32 + 1)) :
    SortsArrays c perCircuit count ↔ count ≤ 2 ^ 32 ∨ count ≤ perCircuit := by
  refine ⟨fun hsorts => ?_, sortsArrays_of_le hnets hp⟩
  by_contra hlong
  obtain ⟨hlong, hbig⟩ := not_or.mp hlong
  obtain ⟨s', hs', hrearranged, -, -⟩ := hsorts ⟨false, false⟩ false (fun _ _ => ⟨0, 0, 0, 0⟩)
    numbered
  have hkeys : ∀ i < count, c.rank (numbered.opened ⟨false, false⟩ (0 + i)).key =
      c.rank (numbered.opened ⟨false, false⟩ 0).key := fun _ _ => rfl
  exact bitonic2PCSort_not_distinctOn hnets hp (by omega) (by omega) hcorner hkeys hs'
    ((DrawnFrom.of_rearranged hrearranged.symm).distinctOn (numbered_distinctOn hcount))

end Sorting

/-- Bitonic networks. -/
def bitonicCircuits {β : Type} [LinearOrder β] (rank : BitVec 288 → β) : Circuits β where
  rank := rank
  bitonicSort m ascending n := sort (cmpSwap (rank ∘ Item.key (m := m))) 0 n ascending
  bitonicMerge m ascending n := merge (cmpSwap (rank ∘ Item.key (m := m)) ascending) 0 n

theorem bitonicCircuits_twoWayNets {β : Type} [LinearOrder β] (rank : BitVec 288 → β) (m : Mode) :
    TwoWayNets ((bitonicCircuits rank).rank ∘ Item.key (m := m))
      ((bitonicCircuits rank).bitonicSort m) ((bitonicCircuits rank).bitonicMerge m) :=
  TwoWayNets.of_twoWay (twoWay_cmpSwap (rank ∘ Item.key))

/-- Integers are compared as signed numbers, in circuits of the size that `unitTestSort` takes. -/
theorem unitTestSort_sorts : SortsArrays (bitonicCircuits BitVec.toInt) (512 * 1024) (2 ^ 20) :=
  (sortsArrays_iff (bitonicCircuits_twoWayNets BitVec.toInt) (by decide) (by decide)
    (by decide)).mpr (.inl (by decide))

/-- Where both parts fit a circuit, no more powers of two are looked for, and the sort returns. -/
theorem exists_bitonic2PCSort {β : Type} [LinearOrder β] {c : Circuits β} {m : Mode}
    {rand : Nat → Nat → IndexedEncounter} {perCircuit low count k : Nat} {ascending : Bool}
    {s : Shares} (hbig : perCircuit < count) (hk : highestPowerOfTwoLessThan count = some k)
    (hlow : k ≤ perCircuit) (hhigh : count - k ≤ perCircuit) :
    ∃ s', bitonic2PCSort c m rand perCircuit ascending low count s = some s' := by
  have hsort : ∀ ascending low n s, n ≤ perCircuit →
      ∃ s', bitonic2PCSort c m rand perCircuit ascending low n s = some s' := fun _ _ _ _ hn => by
    rw [bitonic2PCSort_of_le hn]
    split_ifs <;> exact ⟨_, rfl⟩
  have hmerge : ∀ ascending low n s, n ≤ perCircuit →
      ∃ s', bitonic2PCMerge c m rand perCircuit ascending low n s = some s' := fun _ _ _ _ hn => by
    rw [bitonic2PCMerge_of_le hn]
    split_ifs <;> exact ⟨_, rfl⟩
  obtain ⟨s₁, hfirst⟩ := hsort (!ascending) low k s hlow
  obtain ⟨s₂, hsecond⟩ := hsort ascending (low + k) (count - k) s₁ hhigh
  obtain ⟨s₃, hthird⟩ := hmerge ascending low k
    (mergeChunks c m rand perCircuit ascending low k count s₂) hlow
  obtain ⟨s₄, hfourth⟩ := hmerge ascending (low + k) (count - k) s₃ hhigh
  refine ⟨s₄, ?_⟩
  rw [bitonic2PCSort_of_some hbig hk, hfirst, Option.bind_some, hsecond, Option.bind_some,
    bitonic2PCMerge_of_some hbig hk, hthird, Option.bind_some, hfourth]

/-- The lower bits of the last index are those of one, and so the array is cut behind its first
record. The chunks that are then compared lie one record apart. -/
theorem longArray_notSorted :
    ¬ SortsArrays (bitonicCircuits BitVec.toInt) (2 ^ 32 + 1) (2 ^ 32 + 2) ∧
    ∃ s', sort2PC (bitonicCircuits BitVec.toInt) ⟨false, false⟩ (fun _ _ => ⟨0, 0, 0, 0⟩)
        (2 ^ 32 + 1) (2 ^ 32 + 2) false numbered = some s' ∧
      ¬ Rearranged 0 (2 ^ 32 + 2) (numbered.opened ⟨false, false⟩)
        (s'.opened ⟨false, false⟩) := by
  have hk : highestPowerOfTwoLessThan (2 ^ 32 + 2) = some 1 := by
    rw [highestPowerOfTwoLessThan_eq (by decide)]
    norm_num
  let rank := (bitonicCircuits BitVec.toInt).rank
  have hkey : ∀ i, (numbered.opened ⟨false, false⟩ i).key =
      (numbered.opened ⟨false, false⟩ 0).key := fun _ => rfl
  have hkeys : ∀ i < 2 ^ 32 + 2, rank (numbered.opened ⟨false, false⟩ (0 + i)).key =
      rank (numbered.opened ⟨false, false⟩ 0).key := fun i _ => by rw [hkey (0 + i)]
  have hlost : ∀ s', sort2PC (bitonicCircuits BitVec.toInt) ⟨false, false⟩
      (fun _ _ => ⟨0, 0, 0, 0⟩) (2 ^ 32 + 1) (2 ^ 32 + 2) false numbered = some s' →
      ¬ Rearranged 0 (2 ^ 32 + 2) (numbered.opened ⟨false, false⟩)
        (s'.opened ⟨false, false⟩) := fun s' hs' hrearranged =>
    bitonic2PCSort_not_distinctOn (bitonicCircuits_twoWayNets BitVec.toInt) (by decide)
      (by decide) (by decide) (by decide) hkeys hs'
      ((DrawnFrom.of_rearranged hrearranged.symm).distinctOn (numbered_distinctOn (by decide)))
  obtain ⟨s', hs'⟩ : ∃ s', sort2PC (bitonicCircuits BitVec.toInt) ⟨false, false⟩
      (fun _ _ => ⟨0, 0, 0, 0⟩) (2 ^ 32 + 1) (2 ^ 32 + 2) false numbered = some s' :=
    exists_bitonic2PCSort (by decide) hk (by decide) (by decide)
  refine ⟨fun hsorts => ?_, s', hs', hlost s' hs'⟩
  obtain ⟨s₁, hs₁, hrearranged, -⟩ := hsorts ⟨false, false⟩ false (fun _ _ => ⟨0, 0, 0, 0⟩) numbered
  exact hlost s₁ hs₁ hrearranged

end CoVault.TwoPartySort
