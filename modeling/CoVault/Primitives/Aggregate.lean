import CoVault.Primitives.Compact

/-!
# Counting groups

The last word of every group keeps its value and gets the size of the group; all others become
none. The counts have as many bits as the last index, and a count of all ones marks a removed
entry, so that a group must be smaller than the largest number of that many bits.
-/

namespace CoVault.Primitives

open Library Library.Cells MapReduce

variable {w size : Nat}

/-- `list` and `count`. -/
structure Aggregating (w size : Nat) where
  list : Nat → BitVec w
  count : Nat → BitVec (nBits size)

/-- The count of word `i`, and what becomes of the word before it. -/
def aggregateCell (s : Aggregating w size) (i : Nat) : Aggregating w size :=
  let condition := s.list i == s.list (i - 1)
  let count := Function.update s.count i (if condition then s.count (i - 1) + 1 else 1)
  let list :=
    Function.update s.list (i - 1) (if condition then BitVec.allOnes w else s.list (i - 1))
  let conditionMask := BitVec.fill (nBits size) condition
  ⟨list, Function.update count (i - 1) (count (i - 1) ||| conditionMask)⟩

/-- The list and the counts; for fewer than two words the number of bits is not defined. -/
def aggregate (size : Nat) (list : Nat → BitVec w) : Option (Aggregating w size) :=
  if size < 2 then none
  else some ((List.range' 1 (size - 1)).foldl aggregateCell
    ⟨list, Function.update (fun _ => 0) 0 1⟩)

/-- The words before `n` are done, and word `n` is counted. -/
structure Aggregated (list : Nat → BitVec w) (n : Nat) (s : Aggregating w size) : Prop where
  done : ∀ k < n, s.list k = (if list (k + 1) = list k then BitVec.allOnes w else list k) ∧
    s.count k = if list (k + 1) = list k then BitVec.allOnes _
      else BitVec.ofNat _ (Duplicates.run list k)
  ahead : ∀ k, n ≤ k → s.list k = list k
  count : s.count n = BitVec.ofNat _ (Duplicates.run list n)

theorem aggregated_aggregateCell {list : Nat → BitVec w} {n : Nat} {s : Aggregating w size}
    (h : Aggregated list n s) : Aggregated list (n + 1) (aggregateCell s (n + 1)) := by
  simp only [aggregateCell, Nat.add_sub_cancel, or_fill, beq_iff_eq, h.ahead (n + 1) (by omega),
    h.ahead n le_rfl, h.count]
  refine ⟨fun k hk => ?_, fun k hk => ?_, ?_⟩ <;> dsimp only
  · by_cases hkn : k = n
    · subst hkn
      rw [Function.update_self, Function.update_self, Function.update_of_ne (by omega), h.count]
      exact ⟨rfl, rfl⟩
    · rw [Function.update_of_ne hkn, Function.update_of_ne hkn, Function.update_of_ne (by omega)]
      exact h.done k (by omega)
  · rw [Function.update_of_ne (by omega), h.ahead k (by omega)]
  · rw [Function.update_of_ne (by omega), Function.update_self, Duplicates.run]
    split_ifs
    · exact BitVec.ofNat_add _ _ |>.symm
    · rfl

theorem aggregated_foldl (list : Nat → BitVec w) (n : Nat) :
    Aggregated list n ((List.range' 1 n).foldl aggregateCell
      (⟨list, Function.update (fun _ => 0) 0 1⟩ : Aggregating w size)) := by
  induction n with
  | zero => exact ⟨by omega, fun _ _ => rfl, by simp [Duplicates.run]⟩
  | succ n ih =>
    rw [List.range'_1_concat, List.foldl_concat, Nat.add_comm 1 n]
    exact aggregated_aggregateCell ih

/-- The last word of every run keeps its value and the count of its run, all others are none. -/
theorem aggregate_spec (hsize : 2 ≤ size) (list : Nat → BitVec w) :
    ∃ s, aggregate size list = some s ∧ ∀ k < size,
      if Duplicates.IsLast list size k then
        s.list k = list k ∧ s.count k = BitVec.ofNat _ (Duplicates.run list k)
      else s.list k = BitVec.allOnes w ∧ s.count k = BitVec.allOnes _ := by
  refine ⟨_, if_neg (by omega), fun k hk => ?_⟩
  have h : Aggregated list (size - 1) ((List.range' 1 (size - 1)).foldl aggregateCell
      (⟨list, Function.update (fun _ => 0) 0 1⟩ : Aggregating w size)) := aggregated_foldl ..
  generalize (List.range' 1 (size - 1)).foldl aggregateCell _ = s at h
  rcases Nat.lt_or_ge k (size - 1) with hlt | hge
  · obtain ⟨hlist, hcount⟩ := h.done k hlt
    rw [hlist, hcount]
    by_cases hnext : list (k + 1) = list k
    · rw [if_neg (by rintro (hend | hne) <;> [omega; exact hne hnext]), if_pos hnext, if_pos hnext]
      exact ⟨rfl, rfl⟩
    · rw [if_pos (.inr hnext), if_neg hnext, if_neg hnext]
      exact ⟨rfl, rfl⟩
  · obtain rfl : k = size - 1 := by omega
    rw [if_pos (.inl (by omega))]
    exact ⟨h.ahead _ le_rfl, h.count⟩

/-- The last word of every group keeps its value and has the size of the group, which is not the
mark of a removed entry; all other entries are removed. -/
def CountsGroups (size : Nat) (list : Nat → BitVec w) (s : Aggregating w size) : Prop :=
  ∀ k < size,
    if Duplicates.IsLast list size k then
      s.list k = list k ∧ (s.count k).toNat = (window list 0 size).count (list k) ∧
        s.count k ≠ BitVec.allOnes _
    else s.list k = BitVec.allOnes w ∧ s.count k = BitVec.allOnes _

/-- The groups are counted exactly if each of them is smaller than the mark. -/
theorem aggregate_countsGroups_iff (hsize : 2 ≤ size) (list : Nat → BitVec w)
    (hadjacent : ∀ x, Duplicates.Adjacent list size x) :
    (∃ s, aggregate size list = some s ∧ CountsGroups size list s) ↔
      ∀ k < size, (window list 0 size).count (list k) + 1 < 2 ^ nBits size := by
  obtain ⟨s, hs, hspec⟩ := aggregate_spec hsize list
  constructor
  · rintro ⟨s', hs', hcounts⟩ k hk
    obtain rfl : s = s' := Option.some.inj (hs.symm.trans hs')
    obtain ⟨i, -, hi, heq, hlast⟩ := Duplicates.exists_isLast list hk
    have hcount := hcounts i hi
    rw [if_pos hlast, heq] at hcount
    have hlt := (s.count i).isLt
    have hne : (s.count i).toNat ≠ 2 ^ nBits size - 1 := fun heq => hcount.2.2
      (BitVec.eq_of_toNat_eq (heq.trans (BitVec.toNat_allOnes ..).symm))
    omega
  · intro hsmall
    refine ⟨s, hs, fun k hk => ?_⟩
    have hcell := hspec k hk
    split_ifs at hcell ⊢ with hlast
    · obtain ⟨hlist, hcount⟩ := hcell
      have hgroup := hsmall k hk
      rw [Duplicates.run_of_isLast hadjacent hk hlast] at hcount
      have hnat : (s.count k).toNat = (window list 0 size).count (list k) := by
        rw [hcount, BitVec.toNat_ofNat, Nat.mod_eq_of_lt (by omega)]
      refine ⟨hlist, hnat, fun heq => ?_⟩
      rw [heq, BitVec.toNat_allOnes] at hnat
      omega
    · exact hcell

/-- Four equal words have a count of zero in two bits. -/
theorem aggregate_four : (∀ x, Duplicates.Adjacent (fun _ => (5 : BitVec 8)) 4 x) ∧
    (∀ k < 4, (fun _ => (5 : BitVec 8)) k ≠ BitVec.allOnes 8) ∧
    ¬ ∃ s, aggregate 4 (fun _ => (5 : BitVec 8)) = some s ∧
      CountsGroups 4 (fun _ => (5 : BitVec 8)) s := by
  refine ⟨fun x i j k _ _ _ hi _ => hi, by decide, ?_⟩
  rintro ⟨s, hs, hcounts⟩
  obtain rfl := Option.some.inj hs
  have hlast := hcounts 3 (by omega)
  revert hlast
  decide

/-- Two groups of two among five words. -/
theorem aggregate_countsGroups_iff_five :
    (∃ s, aggregate 5 (ofList [1, 1, 2, 3, 3] (0 : BitVec 8)) = some s ∧
      CountsGroups 5 (ofList [1, 1, 2, 3, 3] (0 : BitVec 8)) s) ↔
    ∀ k < 5, (window (ofList [1, 1, 2, 3, 3] (0 : BitVec 8)) 0 5).count
      (ofList [1, 1, 2, 3, 3] (0 : BitVec 8) k) + 1 < 2 ^ nBits 5 := by
  have hcells : ∀ k < 5, ∀ j < k + 1, ∀ i < j + 1,
      ofList [1, 1, 2, 3, 3] (0 : BitVec 8) i = ofList [1, 1, 2, 3, 3] 0 k →
      ofList [1, 1, 2, 3, 3] (0 : BitVec 8) j = ofList [1, 1, 2, 3, 3] 0 i := by decide
  refine aggregate_countsGroups_iff (by omega) _ fun x i j k hij hjk hk hi hk' => ?_
  rw [hcells k hk j (by omega) i (by omega) (hi.trans hk'.symm), hi]

end CoVault.Primitives
