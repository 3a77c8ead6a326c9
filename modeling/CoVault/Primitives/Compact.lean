import CoVault.MapReduce.Reducer

/-!
# Compaction of vectors

Here none has all bits set, for words of any width. A vacated cell becomes none by setting all
its bits.
-/

namespace CoVault.Primitives

open Library Library.Cells MapReduce

variable {w size : Nat}

/-- `distance` and `data`. -/
structure Compacting (w size : Nat) where
  distance : Nat → BitVec (nBits size)
  data : Nat → BitVec w

/-- Obliviously move `data[j]` by `2^i` or not at all. -/
def compactCell (i : Nat) (s : Compacting w size) (j : Nat) : Compacting w size :=
  let index := j - 2 ^ i
  let modulo := s.distance j &&& 1
  let newDistance := s.distance j >>> 1
  let move := modulo != 0
  let data := Function.update s.data index (if move then s.data j else s.data index)
  let distance := Function.update s.distance index (if move then newDistance else s.distance index)
  let moveMask := BitVec.fill (nBits size) (!move)
  let distance := Function.update distance j (newDistance &&& moveMask)
  let moveDataMask := BitVec.fill w move
  ⟨distance, Function.update data j (data j ||| moveDataMask)⟩

def compact (size : Nat) (distance : Nat → BitVec (nBits size)) (data : Nat → BitVec w) :
    Compacting w size :=
  (List.range (nBits size)).foldl
    (fun s i => (List.range' (2 ^ i) (size - 2 ^ i)).foldl (compactCell i) s) ⟨distance, data⟩

/-- `distance` and `count_none`. -/
structure Measuring (size : Nat) where
  distance : Nat → BitVec (nBits size)
  countNone : BitVec (nBits size)

def measureCell (list : Nat → BitVec w) (s : Measuring size) (i : Nat) : Measuring size :=
  let condition := list i == BitVec.allOnes w
  ⟨Function.update s.distance i (if condition then 0 else s.countNone),
    s.countNone + if condition then 1 else 0⟩

/-- For fewer than two words the number of bits is not defined. -/
def computeDistance (size : Nat) (list : Nat → BitVec w) : Option (Nat → BitVec (nBits size)) :=
  if size < 2 then none
  else some ((List.range size).foldl (measureCell list) (⟨fun _ => 0, 0⟩ : Measuring size)).distance

/-! ## Distances -/

/-- The first `n` cells are measured. -/
structure Measured (list : Nat → BitVec w) (n : Nat) (s : Measuring size) : Prop where
  distance : ∀ k < n, s.distance k = if list k = BitVec.allOnes w then 0
    else BitVec.ofNat _ (Compaction.gaps (BitVec.allOnes w) list k)
  count : s.countNone = BitVec.ofNat _ (Compaction.gaps (BitVec.allOnes w) list n)

theorem measured_measureCell {list : Nat → BitVec w} {n : Nat} {s : Measuring size}
    (h : Measured list n s) : Measured list (n + 1) (measureCell list s n) := by
  obtain ⟨hdistance, hcount⟩ := Compaction.measure_step h.distance h.count
  unfold measureCell
  simp only [beq_iff_eq]
  exact ⟨hdistance, hcount⟩

theorem measured_foldl (list : Nat → BitVec w) (n : Nat) :
    Measured list n ((List.range n).foldl (measureCell list) (⟨fun _ => 0, 0⟩ : Measuring size)) := by
  induction n with
  | zero => exact ⟨by omega, rfl⟩
  | succ n ih =>
    rw [List.range_succ, List.foldl_concat]
    exact measured_measureCell ih

/-- Every distance is the number of nones before its word. -/
theorem computeDistance_spec (hsize : 2 ≤ size) (list : Nat → BitVec w) :
    ∃ distance, computeDistance size list = some distance ∧
      Compaction.Measured (BitVec.allOnes w) list size (BitVec.toNat ∘ distance) := by
  refine ⟨_, if_neg (by omega), fun k hk => ?_⟩
  have hlt : Compaction.gaps (BitVec.allOnes w) list k < 2 ^ nBits size :=
    (Compaction.gaps_le _ list k).trans_lt (hk.trans_le (size_le_two_pow_nBits hsize))
  rw [Function.comp_apply, (measured_foldl list size).distance k hk]
  split_ifs
  · rfl
  · rw [BitVec.toNat_ofNat, Nat.mod_eq_of_lt hlt]

/-! ## Compaction -/

/-- The cells, with distances as numbers. -/
def Compacting.toState (s : Compacting w size) : Compaction.State (BitVec w) :=
  ⟨s.data, BitVec.toNat ∘ s.distance⟩

theorem or_fill (x : BitVec w) (move : Bool) :
    x ||| BitVec.fill w move = if move then BitVec.allOnes w else x := by
  cases move
  · simp [BitVec.fill]
  · rw [BitVec.fill_true, BitVec.or_allOnes, if_pos rfl]

/-- The circuit moves words as the compaction of the library does. -/
theorem toState_compactCell (i : Nat) (s : Compacting w size) (j : Nat) :
    (compactCell i s j).toState = Compaction.move (BitVec.allOnes w) i s.toState j := by
  simp only [compactCell, Compaction.and_fill, or_fill, Compacting.toState]
  exact (Compaction.move_toNat (Nat.succ_pos _) _ i s.data s.distance j).symm

/-- What is left of the words stands first, in their order, and all other cells are none. -/
theorem compact_computeDistance (hsize : 2 ≤ size) (list : Nat → BitVec w) :
    ∃ distance, computeDistance size list = some distance ∧
      window (compact size distance list).data 0 size =
        (window list 0 size).filter (· ≠ BitVec.allOnes w) ++
          List.replicate ((window list 0 size).count (BitVec.allOnes w)) (BitVec.allOnes w) := by
  obtain ⟨distance, hdistance, hmeasured⟩ := computeDistance_spec hsize list
  refine ⟨distance, hdistance, ?_⟩
  have hcompact := Compaction.window_compact hmeasured (size_le_two_pow_nBits hsize)
  have hstate : (compact size distance list).toState = Compaction.compact (BitVec.allOnes w) size
      (nBits size) ⟨list, BitVec.toNat ∘ distance⟩ :=
    Compaction.compact_of_move _ _ _ toState_compactCell ..
  rw [← hstate] at hcompact
  have hgaps : Compaction.gaps (BitVec.allOnes w) list size =
      (window list 0 size).count (BitVec.allOnes w) := by
    rw [Compaction.gaps, List.count, window, List.countP_map]
    refine List.countP_congr fun k _ => ?_
    simp
  rw [← hgaps]
  exact hcompact

/-- A word that is there twice, between nones. -/
theorem compact_computeDistance_five : ∃ distance,
    computeDistance 5 (ofList [255, 4, 255, 4, 9] (0 : BitVec 8)) = some distance ∧
      window (compact 5 distance (ofList [255, 4, 255, 4, 9] 0)).data 0 5 =
        (window (ofList [255, 4, 255, 4, 9] (0 : BitVec 8)) 0 5).filter (· ≠ BitVec.allOnes 8) ++
          List.replicate ((window (ofList [255, 4, 255, 4, 9] (0 : BitVec 8)) 0 5).count
            (BitVec.allOnes 8)) (BitVec.allOnes 8) :=
  compact_computeDistance (by omega) _

end CoVault.Primitives
