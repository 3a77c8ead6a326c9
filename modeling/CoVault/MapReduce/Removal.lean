import CoVault.MapReduce.Reducer

/-!
# Removing duplicates

On a list in which equal words are adjacent, marking and compaction leave every word once. On
the way no distance is too large for its bits, and no word is moved onto another one.
-/

namespace CoVault.MapReduce

open Library Library.Cells

variable {size : Nat}

/-- The marking when the first `n` cells are done. -/
def markProgress (size : Nat) (list : Nat → Word) (n : Nat) : Marking size :=
  (List.range n).foldl markCell ⟨list, fun _ => 0, 0⟩

/-- The compaction when the first `n` cells of round `i` are done. -/
def compactProgress (size : Nat) (distance : Nat → BitVec (nBits size)) (data : Nat → Word)
    (i n : Nat) : Compacting size :=
  (List.range' (2 ^ i) n).foldl (compactCell i) ((List.range i).foldl
    (fun s i => (List.range' (2 ^ i) (size - 2 ^ i)).foldl (compactCell i) s) ⟨distance, data⟩)

example (distance : Nat → BitVec (nBits size)) (data : Nat → Word) :
    compactProgress size distance data (nBits size) 0 = compact size distance data := rfl

theorem toState_compactProgress (distance : Nat → BitVec (nBits size)) (data : Nat → Word)
    (i n : Nat) : (compactProgress size distance data i n).toState =
      Compaction.progress noneWord size i n ⟨data, BitVec.toNat ∘ distance⟩ :=
  Compaction.progress_of_move _ _ _ toState_compactCell ..

/-- A number of nones before a cell fits into the bits of a distance. -/
theorem gaps_lt_two_pow (hsize : 2 ≤ size) (list : Nat → Word) {k : Nat} (hk : k < size) :
    Compaction.gaps noneWord list k < 2 ^ nBits size :=
  (Compaction.gaps_le noneWord list k).trans_lt (hk.trans_le (size_le_two_pow_nBits hsize))

/-- Before each cell the counter holds the number of nones. -/
theorem countNone_markProgress (hsize : 2 ≤ size) (list : Nat → Word) {k : Nat} (hk : k < size) :
    (markProgress size list k).countNone.toNat =
      Compaction.gaps noneWord (Duplicates.mark noneWord size list) k := by
  have hmarked : Marked list k (markProgress size list k) := marked_foldl list k hk.le
  rw [hmarked.count, BitVec.toNat_ofNat, Nat.mod_eq_of_lt (gaps_lt_two_pow hsize _ hk)]

/-- A cell whose distance is odd moves to a cell that is none. -/
theorem compactProgress_target {distance : Nat → BitVec (nBits size)} {data : Nat → Word}
    (h : Compaction.Measured noneWord data size (BitVec.toNat ∘ distance)) (i n : Nat)
    (hn : 2 ^ i + n < size)
    (hmove : ((compactProgress size distance data i n).distance (2 ^ i + n) &&& 1 != 0) = true) :
    (compactProgress size distance data i n).data n = noneWord := by
  rw [Compaction.and_one_ne_zero (w := nBits size) (Nat.succ_pos _), decide_eq_true_iff] at hmove
  have hstate := toState_compactProgress distance data i n
  have hfree := Compaction.target_free h i n hn
  rw [← hstate] at hfree
  exact hfree hmove

/-- The words stay once and in their order, and none follows. Up to the last cell the counter is
the number of nones, a distance is that of its cell, and whatever moves goes to a cell that is
none. -/
theorem markAndCompact_adjacent (hsize : 2 ≤ size) (list : Nat → Word)
    (hadjacent : ∀ w, w ≠ noneWord → Duplicates.Adjacent list size w) :
    ∃ marked distance words, computeDistanceMarkDuplicates size list = some (marked, distance) ∧
      (window (compact size distance marked).data 0 size =
          words ++ List.replicate (size - words.length) noneWord ∧
        words.Nodup ∧ words.Sublist (window list 0 size) ∧
        ∀ w, w ∈ words ↔ w ≠ noneWord ∧ w ∈ window list 0 size) ∧
      (∀ k < size,
        (markProgress size list k).countNone.toNat = Compaction.gaps noneWord marked k ∧
        (distance k).toNat =
          if marked k = noneWord then 0 else Compaction.gaps noneWord marked k) ∧
      ∀ i n, 2 ^ i + n < size →
        ((compactProgress size distance marked i n).distance (2 ^ i + n) &&& 1 != 0) = true →
        (compactProgress size distance marked i n).data n = noneWord := by
  obtain ⟨marked, distance, hmark, hmarked, hmeasured⟩ :=
    computeDistanceMarkDuplicates_spec hsize list
  obtain ⟨cells, hcells, hwindow⟩ := markAndCompact_spec hsize list
  rw [markAndCompact, hmark] at hcells
  obtain rfl : (compact size distance marked).data = cells := Option.some.inj hcells
  refine ⟨marked, distance, Duplicates.unmarked noneWord (window list 0 size), hmark,
    ⟨hwindow, Duplicates.nodup_unmarked hadjacent, Duplicates.unmarked_sublist .., fun w =>
      Duplicates.mem_unmarked⟩, fun k hk => ⟨?_, hmeasured k hk⟩, compactProgress_target hmeasured⟩
  rw [countNone_markProgress hsize list hk]
  exact Compaction.gaps_congr fun i hi => (hmarked i (hi.trans hk)).symm

/-- Two words with a none between them, one of them twice. -/
theorem markAndCompact_adjacent_four : ∃ marked distance words,
    computeDistanceMarkDuplicates 4 (ofList [7, 7, noneWord, 9] 0) = some (marked, distance) ∧
      (window (compact 4 distance marked).data 0 4 =
          words ++ List.replicate (4 - words.length) noneWord ∧
        words.Nodup ∧ words.Sublist (window (ofList [7, 7, noneWord, 9] 0) 0 4) ∧
        ∀ w, w ∈ words ↔ w ≠ noneWord ∧ w ∈ window (ofList [7, 7, noneWord, 9] 0) 0 4) ∧
      (∀ k < 4, (markProgress 4 (ofList [7, 7, noneWord, 9] 0) k).countNone.toNat =
          Compaction.gaps noneWord marked k ∧
        (distance k).toNat =
          if marked k = noneWord then 0 else Compaction.gaps noneWord marked k) ∧
      ∀ i n, 2 ^ i + n < 4 →
        ((compactProgress 4 distance marked i n).distance (2 ^ i + n) &&& 1 != 0) = true →
        (compactProgress 4 distance marked i n).data n = noneWord := by
  have hcells : ∀ k < 4, ∀ j < k + 1, ∀ i < j + 1,
      ofList [7, 7, noneWord, 9] 0 i = ofList [7, 7, noneWord, 9] 0 k →
      ofList [7, 7, noneWord, 9] 0 i = noneWord ∨
        ofList [7, 7, noneWord, 9] 0 j = ofList [7, 7, noneWord, 9] 0 i := by decide
  refine markAndCompact_adjacent (by omega) _ fun w hw i j k hij hjk hk hi hk' => ?_
  have heq := hcells k hk j (by omega) i (by omega) (hi.trans hk'.symm)
  rw [heq.resolve_left (hi ▸ hw), hi]

end CoVault.MapReduce
