import CoVault.Circuit.Bits
import CoVault.Library.Slices

/-!
# Confirming encounters

A row of a tile gets its last bit set if a neighbour has the same key, and copies the device
of a neighbour into its own encountered field. No row changes its device, so that it does not
matter which rows are done when a row looks at its neighbours.
-/

namespace CoVault.Ingress

open Circuit Library.Slices

/-- `DEVICE_ID_SIZE * CHAR_BIT`. -/
def deviceIdBits : Nat := 32 * 8

/-- `set_encountered_device_id`. -/
def setEncounteredDeviceId (encounter1 encounter2 : Integer)
    (startDeviceIdx startMetIdx size : Nat) : Integer :=
  (List.range size).foldl (fun e j =>
    e.set (startMetIdx + j) (encounter2.getD (startDeviceIdx + j) false)) encounter1

/-- One row: the last bit, and the device of a neighbour. -/
def confirmRow (confIdx i : Nat) (bit : Bool) (tmp : Integer) (tile : Nat → Integer) :
    Nat → Integer :=
  let tile := Function.update tile i ((tile i).set confIdx bit)
  Function.update tile i (setEncounteredDeviceId (tile i) tmp 0 deviceIdBits deviceIdBits)

/-- `confirm_encounters`; with fewer than two rows it reads outside the arrays. -/
def confirmEncounters (tile sortKey : Nat → Integer) (tileSize : Nat) : Option (Nat → Integer) :=
  if tileSize < 2 then none
  else
    let confIdx := (tile 0).length - 1
    let tile := confirmRow confIdx 0 (sortKey 0 == sortKey 1) (tile 1) tile
    let tile := (List.range' 1 (tileSize - 2)).foldl (fun tile i =>
      let tmp := if sortKey i == sortKey (i + 1) then tile (i + 1) else tile (i - 1)
      confirmRow confIdx i (sortKey i == sortKey (i - 1) || sortKey i == sortKey (i + 1)) tmp tile)
      tile
    some (confirmRow confIdx (tileSize - 1) (sortKey (tileSize - 1) == sortKey (tileSize - 2))
      (tile (tileSize - 2)) tile)

/-! ## One row -/

theorem length_setEncounteredDeviceId (e₁ e₂ : Integer) (dev met n : Nat) :
    (setEncounteredDeviceId e₁ e₂ dev met n).length = e₁.length := by
  induction n with
  | zero => rfl
  | succ n ih =>
    rw [setEncounteredDeviceId, List.range_succ, List.foldl_append, ← setEncounteredDeviceId]
    simpa using ih

theorem getElem?_setEncounteredDeviceId (e₁ e₂ : Integer) (dev met n k : Nat) :
    (setEncounteredDeviceId e₁ e₂ dev met n)[k]? =
      if met ≤ k ∧ k < met + n ∧ k < e₁.length then some (e₂.getD (dev + (k - met)) false)
      else e₁[k]? := by
  induction n with
  | zero => rw [if_neg (by omega)]; rfl
  | succ n ih =>
    rw [setEncounteredDeviceId, List.range_succ, List.foldl_append, ← setEncounteredDeviceId]
    simp only [List.foldl_cons, List.foldl_nil, List.getElem?_set, ih,
      length_setEncounteredDeviceId]
    by_cases hk : met + n = k
    · subst hk
      by_cases hlt : met + n < e₁.length
      · simp [hlt]
      · simp [hlt]
    · rw [if_neg hk]
      congr 1
      simp only [eq_iff_iff]
      omega

/-- What becomes of row `i`. -/
def confirmed (confIdx : Nat) (bit : Bool) (row neighbour : Integer) : Integer :=
  setEncounteredDeviceId (row.set confIdx bit) neighbour 0 deviceIdBits deviceIdBits

theorem confirmRow_eq (confIdx i : Nat) (bit : Bool) (tmp : Integer) (tile : Nat → Integer) :
    confirmRow confIdx i bit tmp tile =
      Function.update tile i (confirmed confIdx bit (tile i) tmp) := by
  simp [confirmRow, confirmed]

section Row

variable {confIdx k : Nat} {bit : Bool} {row neighbour : Integer}

@[simp] theorem length_confirmed : (confirmed confIdx bit row neighbour).length = row.length := by
  simp [confirmed, length_setEncounteredDeviceId]

theorem getElem?_confirmed_of_met (hk : deviceIdBits ≤ k ∧ k < deviceIdBits + deviceIdBits)
    (hrow : k < row.length) : (confirmed confIdx bit row neighbour)[k]? =
      some (neighbour.getD (k - deviceIdBits) false) := by
  rw [confirmed, getElem?_setEncounteredDeviceId, if_pos ⟨hk.1, hk.2, by simpa using hrow⟩,
    Nat.zero_add]

theorem getElem?_confirmed_of_conf (hconf : deviceIdBits + deviceIdBits ≤ confIdx)
    (hrow : confIdx < row.length) : (confirmed confIdx bit row neighbour)[confIdx]? = some bit := by
  rw [confirmed, getElem?_setEncounteredDeviceId, if_neg (by omega), List.getElem?_set_self hrow]

theorem getElem?_confirmed_of_ne (hk : k < deviceIdBits ∨ deviceIdBits + deviceIdBits ≤ k)
    (hconf : k ≠ confIdx) : (confirmed confIdx bit row neighbour)[k]? = row[k]? := by
  rw [confirmed, getElem?_setEncounteredDeviceId, if_neg (by omega),
    List.getElem?_set_ne (Ne.symm hconf)]

/-- Only the device of the neighbour is looked at. -/
theorem confirmed_congr {neighbour' : Integer}
    (h : ∀ j < deviceIdBits, neighbour'.getD j false = neighbour.getD j false) :
    confirmed confIdx bit row neighbour' = confirmed confIdx bit row neighbour := by
  apply List.ext_getElem?
  intro k
  rw [confirmed, confirmed, getElem?_setEncounteredDeviceId, getElem?_setEncounteredDeviceId]
  split_ifs with hk
  · rw [h _ (by omega)]
  · rfl

end Row

/-! ## All rows -/

section Rows

variable (tile sortKey : Nat → Integer) (tileSize : Nat)

/-- Whether a neighbour has the same key. -/
def matched (i : Nat) : Bool :=
  decide (0 < i) && sortKey i == sortKey (i - 1) ||
    decide (i + 1 < tileSize) && sortKey i == sortKey (i + 1)

/-- The neighbour whose device is copied. -/
def neighbour (i : Nat) : Nat :=
  if i = 0 then 1
  else if i + 1 < tileSize ∧ sortKey i = sortKey (i + 1) then i + 1
  else i - 1

/-- Row `i` in the end. -/
def confirmedRow (i : Nat) : Integer :=
  confirmed ((tile 0).length - 1) (matched sortKey tileSize i) (tile i)
    (tile (neighbour sortKey tileSize i))

/-- One row by its number. -/
def confirmAt (confIdx : Nat) (tile : Nat → Integer) (i : Nat) : Nat → Integer :=
  confirmRow confIdx i (matched sortKey tileSize i) (tile (neighbour sortKey tileSize i)) tile

variable {tile sortKey tileSize}

theorem confirmEncounters_eq_foldl (hsize : 2 ≤ tileSize) :
    confirmEncounters tile sortKey tileSize = some ((List.range tileSize).foldl
      (confirmAt sortKey tileSize ((tile 0).length - 1)) tile) := by
  have hrows : List.range tileSize = 0 :: (List.range' 1 (tileSize - 2) ++ [tileSize - 1]) := by
    obtain ⟨n, rfl⟩ : ∃ n, tileSize = n + 2 := ⟨tileSize - 2, by omega⟩
    rw [List.range_eq_range', List.range'_succ, List.range'_concat]
    simp [Nat.add_comm]
  rw [confirmEncounters, if_neg (by omega), hrows, List.foldl_cons, List.foldl_append,
    List.foldl_cons, List.foldl_nil]
  have hfirst : confirmAt sortKey tileSize ((tile 0).length - 1) tile 0 =
      confirmRow ((tile 0).length - 1) 0 (sortKey 0 == sortKey 1) (tile 1) tile := by
    simp [confirmAt, matched, neighbour, show 1 < tileSize by omega]
  have hmiddle : ∀ (t : Nat → Integer), ∀ i ∈ List.range' 1 (tileSize - 2),
      confirmAt sortKey tileSize ((tile 0).length - 1) t i =
        confirmRow ((tile 0).length - 1) i
          (sortKey i == sortKey (i - 1) || sortKey i == sortKey (i + 1))
          (if sortKey i == sortKey (i + 1) then t (i + 1) else t (i - 1)) t := by
    intro t i hi
    rw [List.mem_range'_1] at hi
    simp only [confirmAt, matched, neighbour, show 0 < i by omega, show i + 1 < tileSize by omega,
      show i ≠ 0 by omega, decide_true, Bool.true_and, if_false, true_and, beq_iff_eq]
    congr 1
    split <;> rfl
  have hlast : ∀ t : Nat → Integer,
      confirmAt sortKey tileSize ((tile 0).length - 1) t (tileSize - 1) =
        confirmRow ((tile 0).length - 1) (tileSize - 1)
          (sortKey (tileSize - 1) == sortKey (tileSize - 2)) (t (tileSize - 2)) t := by
    intro t
    simp [confirmAt, matched, neighbour, show 0 < tileSize - 1 by omega,
      show ¬ tileSize - 1 + 1 < tileSize by omega, show tileSize - 1 ≠ 0 by omega,
      show tileSize - 1 - 1 = tileSize - 2 by omega]
  rw [hlast, hfirst, List.foldl_ext _ _ _ hmiddle]

theorem neighbour_ne (i : Nat) : neighbour sortKey tileSize i ≠ i := by
  rw [neighbour]
  split_ifs <;> omega

variable (sortKey) in
theorem neighbour_lt {i : Nat} (hi : i < tileSize) (hsize : 2 ≤ tileSize) :
    neighbour sortKey tileSize i < tileSize := by
  rw [neighbour]
  split_ifs <;> omega

/-- A row whose key a neighbour has copies the device of such a neighbour. -/
theorem sortKey_neighbour {i : Nat} (h : matched sortKey tileSize i = true) :
    sortKey (neighbour sortKey tileSize i) = sortKey i := by
  simp only [matched, Bool.or_eq_true, Bool.and_eq_true, decide_eq_true_eq, beq_iff_eq] at h
  rw [neighbour]
  split_ifs with hzero hnext
  · subst hzero
    rcases h with ⟨hpos, -⟩ | ⟨-, heq⟩
    · omega
    · exact heq.symm
  · exact hnext.2.symm
  · rcases h with ⟨-, heq⟩ | hnext'
    · exact heq.symm
    · exact absurd hnext' hnext

/-- Equal keys are adjacent. -/
def Grouped (sortKey : Nat → Integer) (tileSize : Nat) : Prop :=
  ∀ i j k, i ≤ j → j ≤ k → k < tileSize → sortKey i = sortKey k → sortKey j = sortKey i

/-- Among grouped keys, any row with the same key shows in a neighbour. -/
theorem matched_iff (hgrouped : Grouped sortKey tileSize) {i : Nat} (hi : i < tileSize) :
    matched sortKey tileSize i = true ↔ ∃ j < tileSize, j ≠ i ∧ sortKey j = sortKey i := by
  constructor
  · intro h
    simp only [matched, Bool.or_eq_true, Bool.and_eq_true, decide_eq_true_eq, beq_iff_eq] at h
    rcases h with ⟨hpos, heq⟩ | ⟨hlt, heq⟩
    · exact ⟨i - 1, by omega, by omega, heq.symm⟩
    · exact ⟨i + 1, hlt, by omega, heq.symm⟩
  · rintro ⟨j, hj, hne, heq⟩
    simp only [matched, Bool.or_eq_true, Bool.and_eq_true, decide_eq_true_eq, beq_iff_eq]
    rcases Nat.lt_or_gt_of_ne hne with hlt | hgt
    · have hprev := hgrouped j (i - 1) i (by omega) (by omega) hi heq
      exact Or.inl ⟨by omega, by rw [hprev, heq]⟩
    · have hnext := hgrouped i (i + 1) j (by omega) (by omega) hj heq.symm
      exact Or.inr ⟨by omega, hnext.symm⟩

/-- The rows done so far are as in the end, the others as in the beginning. -/
theorem foldl_confirmAt (hwide : deviceIdBits + deviceIdBits < (tile 0).length) (m : Nat) :
    (List.range m).foldl (confirmAt sortKey tileSize ((tile 0).length - 1)) tile =
      fun i => if i < m then confirmedRow tile sortKey tileSize i else tile i := by
  induction m with
  | zero => simp
  | succ m ih =>
    rw [List.range_succ, List.foldl_append, ih, List.foldl_cons, List.foldl_nil, confirmAt,
      confirmRow_eq]
    funext i
    rcases Nat.lt_trichotomy i m with hi | rfl | hi
    · rw [Function.update_of_ne (by omega), if_pos hi, if_pos (by omega)]
    · rw [Function.update_self, if_neg (Nat.lt_irrefl i), if_pos (Nat.lt_succ_self i), confirmedRow]
      refine confirmed_congr fun j hj => ?_
      have hconf : j ≠ (tile 0).length - 1 := by omega
      by_cases hdone : neighbour sortKey tileSize i < i
      · rw [if_pos hdone, List.getD_eq_getElem?_getD, List.getD_eq_getElem?_getD,
          getElem?_confirmed_of_ne (Or.inl hj) hconf]
      · rw [if_neg hdone]
    · rw [Function.update_of_ne (by omega), if_neg (by omega), if_neg (by omega)]

variable (sortKey) in
/-- All rows. -/
theorem confirmEncounters_eq_confirmedRow (hsize : 2 ≤ tileSize)
    (hwide : deviceIdBits + deviceIdBits < (tile 0).length) :
    confirmEncounters tile sortKey tileSize = some fun i =>
      if i < tileSize then confirmedRow tile sortKey tileSize i else tile i := by
  rw [confirmEncounters_eq_foldl hsize, foldl_confirmAt hwide]

variable (sortKey) in
theorem confirmEncounters_eq (hsize : 2 ≤ tileSize)
    (hwide : deviceIdBits + deviceIdBits < (tile 0).length) :
    ∃ tile', confirmEncounters tile sortKey tileSize = some tile' ∧
      ∀ i < tileSize, tile' i = confirmedRow tile sortKey tileSize i :=
  ⟨_, confirmEncounters_eq_confirmedRow sortKey hsize hwide, fun _ hi => if_pos hi⟩

/-! ## Pairs -/

/-- No key occurs more than twice. -/
def AtMostTwice (sortKey : Nat → Integer) (tileSize : Nat) : Prop :=
  ∀ i j k, i < tileSize → j < tileSize → k < tileSize → sortKey j = sortKey i →
    sortKey k = sortKey i → j ≠ i → k ≠ i → j = k

/-- The row with the same key is the one whose device is copied. -/
theorem neighbour_eq (hgrouped : Grouped sortKey tileSize) (htwice : AtMostTwice sortKey tileSize)
    {i j : Nat} (hi : i < tileSize) (hj : j < tileSize) (hne : j ≠ i)
    (hkey : sortKey j = sortKey i) : neighbour sortKey tileSize i = j := by
  have hmatched := (matched_iff hgrouped hi).mpr ⟨j, hj, hne, hkey⟩
  exact htwice i _ j hi (neighbour_lt sortKey hi (by omega)) hj (sortKey_neighbour hmatched) hkey
    (neighbour_ne i) hne

/-- The last bit of a row says whether another row has its key. If so, the device of that row is
in the encountered field. Nothing else changes. -/
theorem confirmEncounters_grouped {width : Nat} (hsize : 2 ≤ tileSize)
    (hwidth : ∀ i < tileSize, (tile i).length = width) (hwide : deviceIdBits + deviceIdBits < width)
    (hgrouped : Grouped sortKey tileSize) (htwice : AtMostTwice sortKey tileSize) :
    ∃ tile', confirmEncounters tile sortKey tileSize = some tile' ∧
      (∀ i < tileSize,
        ((tile' i)[width - 1]? = some true ↔ ∃ j < tileSize, j ≠ i ∧ sortKey j = sortKey i) ∧
        (∀ j < tileSize, j ≠ i → sortKey j = sortKey i →
          ∀ k < deviceIdBits, (tile' i)[deviceIdBits + k]? = (tile j)[k]?) ∧
        (tile' i).length = width ∧
        ∀ k, k < deviceIdBits ∨ deviceIdBits + deviceIdBits ≤ k → k ≠ width - 1 →
          (tile' i)[k]? = (tile i)[k]?) ∧
      ∀ i, tileSize ≤ i → tile' i = tile i := by
  have hfirst := hwidth 0 (by omega)
  refine ⟨_, confirmEncounters_eq_confirmedRow sortKey hsize (by omega), fun i hi => ?_,
    fun i hi => if_neg (by omega)⟩
  have hrow := hwidth i hi
  rw [if_pos hi, confirmedRow, hfirst]
  refine ⟨?_, fun j hj hne hkey k hk => ?_, by rw [length_confirmed, hrow], fun k hk hlast => ?_⟩
  · rw [getElem?_confirmed_of_conf (by omega) (by omega), Option.some_inj, matched_iff hgrouped hi]
  · have hpartner := hwidth j hj
    rw [neighbour_eq hgrouped htwice hi hj hne hkey,
      getElem?_confirmed_of_met (by omega) (by omega), Nat.add_sub_cancel_left,
      List.getD_eq_getElem?_getD, List.getElem?_eq_getElem (by omega), Option.getD_some]
  · exact getElem?_confirmed_of_ne hk hlast

end Rows

/-- Three rows, the first two with the same key: these get each other's device. -/
theorem confirmEncounters_grouped_three : ∃ tile',
    confirmEncounters (fun i => bitsOf (BitVec.ofNat 568 (i + 1))) (fun i => [decide (i < 2)]) 3 =
        some tile' ∧
      (tile' 0)[567]? = some true ∧ (tile' 2)[567]? ≠ some true ∧
      (∀ k < deviceIdBits, (tile' 0)[deviceIdBits + k]? = (bitsOf (2 : BitVec 568))[k]?) ∧
      ∀ k < deviceIdBits, (tile' 1)[deviceIdBits + k]? = (bitsOf (1 : BitVec 568))[k]? := by
  have hkey : ∀ i j : Nat, [decide (i < 2)] = [decide (j < 2)] ↔ (i < 2 ↔ j < 2) := by simp
  have hgrouped : Grouped (fun i => [decide (i < 2)]) 3 := fun i j k hij hjk hk h => by
    have := (hkey ..).mp h
    exact (hkey ..).mpr (by omega)
  have htwice : AtMostTwice (fun i => [decide (i < 2)]) 3 := fun i j k hi hj hk hji hki _ _ => by
    have := (hkey ..).mp hji
    have := (hkey ..).mp hki
    omega
  obtain ⟨tile', htile', hrows, -⟩ := confirmEncounters_grouped (by omega)
    (fun i _ => length_bitsOf (BitVec.ofNat 568 (i + 1))) (by decide) hgrouped htwice
  refine ⟨tile', htile', ?_, fun h => ?_, ?_, ?_⟩
  · exact (hrows 0 (by omega)).1.mpr ⟨1, by omega, by omega, rfl⟩
  · obtain ⟨j, hj, hne, h⟩ := (hrows 2 (by omega)).1.mp h
    have := (hkey ..).mp h
    omega
  · exact (hrows 0 (by omega)).2.1 1 (by omega) (by omega) rfl
  · exact (hrows 1 (by omega)).2.1 0 (by omega) (by omega) rfl

end CoVault.Ingress
