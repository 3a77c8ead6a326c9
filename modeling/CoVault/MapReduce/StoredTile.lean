import CoVault.MapReduce.Counting
import CoVault.MapReduce.PlainShares

/-!
# Querying a stored tile

The ingress writes the rows of a tile one after the other, and the queries read the two device
ids and the last byte of each row at offsets of their own. Both agree on where a row is.
-/

namespace CoVault.MapReduce

open Circuit Library.Slices

/-- A confirmed row with its sort key. -/
structure TileRow where
  sortKey : BitVec didbits
  device : BitVec didbits
  encountered : BitVec didbits
  time : BitVec 32
  duration : BitVec 16
  confirmed : BitVec 8

namespace TileRow

variable (sick : BitVec didbits) (row : TileRow)

/-- The fields in the order in which they stand in the tile. -/
def bits : Integer :=
  bitsOf row.device ++ bitsOf row.encountered ++ bitsOf row.time ++ bitsOf row.duration ++
    bitsOf row.confirmed

/-- What is stored of a row; nothing is blinded. -/
def stored : StoredRow := ⟨row.sortKey, ofBits tilebits row.bits, 0, 0⟩

/-- The row is of the device asked for, and its last bit is set. -/
def isOf : Bool := row.device == sick && row.bits.getLastD false

/-- What the query takes from a row. -/
def word : Word := if row.isOf sick then row.encountered.setWidth hashbits else noneWord

end TileRow

/-- One word more at the end of the list, or over the cell at `start_idx`. -/
def insertWord (inPlace : Bool) (s : List Word × Nat) (w : Word) : List Word × Nat :=
  if inPlace then (s.1.set s.2 w, s.2 + 1) else (s.1 ++ [w], s.2)

/-- `run_query_unique_devices` on the value of its key. If there is none, the program ends. -/
def queryUniqueDevices (value : Value) (beyond : Nat → Bool) (tile : List Word) (tileSize : Nat)
    (sick : BitVec didbits) (inPlace : Bool) (startIdx : Nat) : Option (List Word) :=
  if value.isEmpty then none
  else some ((runQueryUniqueDevices tileSize sick (value.memory beyond)).foldl (insertWord inPlace)
    (tile, startIdx)).1

/-- `count` after the first `n` encounters. -/
def countProgress (tileSize : Nat) (sick : BitVec didbits) (redisValue : Tile) (n : Nat) :
    BitVec (counterBits tileSize) :=
  (List.range n).foldl (fun count j => count + if redisValue.isMatch j sick then 1 else 0) 0

/-- `run_query_count_encounters` on the value of its key. -/
def queryCountEncounters (value : Value) (beyond : Nat → Bool) (tileSize : Nat)
    (sick : BitVec didbits) : Option (BitVec (counterBits tileSize)) :=
  if value.isEmpty then none else some (runQueryCountEncounters tileSize sick (value.memory beyond))

/-! ## Rows -/

namespace TileRow

variable (row : TileRow)

@[simp] theorem length_bits : row.bits.length = tilebits := by
  simp only [bits, List.length_append, length_bitsOf]
  rfl

theorem bitsOf_data : bitsOf row.stored.data = row.bits := by
  rw [stored, bitsOf_ofBits row.length_bits]

theorem getElem?_bits_device {i : Nat} (hi : i < didbits) :
    row.bits[i]? = (bitsOf row.device)[i]? := by
  simp only [bits, List.append_assoc]
  rw [List.getElem?_append_left (by simpa using hi)]

theorem getElem?_bits_encountered {i : Nat} (hi : i < didbits) :
    row.bits[didbits + i]? = (bitsOf row.encountered)[i]? := by
  simp only [bits, List.append_assoc]
  rw [List.getElem?_append_right (by simp), List.getElem?_append_left (by simpa using hi),
    length_bitsOf, Nat.add_sub_cancel_left]

theorem getElem?_bits_last : row.bits[tilebits - 1]? = some (row.bits.getLastD false) := by
  have hlast : tilebits - 1 < row.bits.length := by
    rw [row.length_bits]
    decide
  rw [List.getLastD_eq_getLast?, List.getLast?_eq_getElem?, row.length_bits,
    List.getElem?_eq_getElem hlast, Option.getD_some]

end TileRow

/-! ## Reading what was written -/

section Read

variable {rows : List TileRow} {sick : BitVec didbits}

/-- The tile that the queries see. -/
def tileOfRows (rows : List TileRow) (beyond : Nat → Bool) : Tile :=
  (storeGarbledData (rows.map TileRow.stored)).tile.memory beyond

theorem tile_storeGarbledData (rows : List TileRow) :
    (storeGarbledData (rows.map TileRow.stored)).tile = rows.flatMap TileRow.bits := by
  simp only [storeGarbledData, List.flatMap_map, TileRow.bitsOf_data]

/-- Bit `i` of row `j`. -/
theorem tileOfRows_bit {row : TileRow} {i j : Nat} (hrow : rows[j]? = some row) (hi : i < tilebits)
    (beyond : Nat → Bool) : some (tileOfRows rows beyond (j * tilebits + i)) = row.bits[i]? := by
  have hbit := getElem?_flatMap TileRow.length_bits rows (j := j) hi
  have hin : i < row.bits.length := by rwa [row.length_bits]
  rw [hrow, Option.bind_some, List.getElem?_eq_getElem hin] at hbit
  rw [tileOfRows, Value.memory, tile_storeGarbledData, List.getD_eq_getElem?_getD, hbit,
    Option.getD_some, List.getElem?_eq_getElem hin]

theorem did1_tileOfRows {row : TileRow} {j : Nat} (hrow : rows[j]? = some row)
    (beyond : Nat → Bool) : (tileOfRows rows beyond).did1 j = row.device := by
  refine BitVec.eq_of_getLsbD_eq fun i hi => ?_
  have hbit := tileOfRows_bit hrow (hi.trans (by decide)) beyond
  rw [row.getElem?_bits_device hi] at hbit
  rw [Tile.did1, getLsbD_ofBits, List.getD_eq_getElem?_getD, List.getElem?_map,
    List.getElem?_range hi, Option.map_some, Option.getD_some, ← getD_bitsOf,
    List.getD_eq_getElem?_getD, ← hbit, Option.getD_some, decide_eq_true hi, Bool.true_and]

theorem did2_tileOfRows {row : TileRow} {j : Nat} (hrow : rows[j]? = some row)
    (beyond : Nat → Bool) : (tileOfRows rows beyond).did2 j = row.encountered := by
  refine BitVec.eq_of_getLsbD_eq fun i hi => ?_
  have hbit := tileOfRows_bit hrow (i := didbits + i)
    (by simp only [tilebits, didbits] at *; omega) beyond
  rw [row.getElem?_bits_encountered hi, ← Nat.add_assoc] at hbit
  rw [Tile.did2, getLsbD_ofBits, List.getD_eq_getElem?_getD, List.getElem?_map,
    List.getElem?_range hi, Option.map_some, Option.getD_some, ← getD_bitsOf,
    List.getD_eq_getElem?_getD, ← hbit, Option.getD_some, decide_eq_true hi, Bool.true_and]

/-- The byte is reversed, so that its first bit is the last one of the row. -/
theorem conf_tileOfRows {row : TileRow} {j : Nat} (hrow : rows[j]? = some row)
    (beyond : Nat → Bool) :
    ((tileOfRows rows beyond).conf j).getD 0 false = row.bits.getLastD false := by
  have hbit := tileOfRows_bit hrow (i := tilebits - 8 + 7) (by decide) beyond
  rw [← Nat.add_assoc] at hbit
  refine Option.some.inj (hbit.trans ?_)
  exact row.getElem?_bits_last

theorem isMatch_tileOfRows {row : TileRow} {j : Nat} (hrow : rows[j]? = some row)
    (beyond : Nat → Bool) : (tileOfRows rows beyond).isMatch j sick = row.isOf sick := by
  rw [Tile.isMatch, did1_tileOfRows hrow, conf_tileOfRows hrow, TileRow.isOf, beq_true]

theorem fingerprint_tileOfRows {row : TileRow} {j : Nat} (hrow : rows[j]? = some row)
    (beyond : Nat → Bool) : (tileOfRows rows beyond).fingerprint sick j = row.word sick := by
  rw [Tile.fingerprint, isMatch_tileOfRows hrow, did2_tileOfRows hrow, TileRow.word]

theorem runQueryUniqueDevices_tileOfRows (rows : List TileRow) (sick : BitVec didbits)
    (beyond : Nat → Bool) :
    runQueryUniqueDevices rows.length sick (tileOfRows rows beyond) =
      rows.map (TileRow.word sick) := by
  refine List.ext_getElem (by simp [runQueryUniqueDevices]) fun j hj hj' => ?_
  have hrow : j < rows.length := by simpa using hj'
  simp only [runQueryUniqueDevices, List.getElem_map, List.getElem_range]
  exact fingerprint_tileOfRows (List.getElem?_eq_getElem hrow) beyond

/-- The matches among the first rows. -/
theorem countP_tileOfRows (rows : List TileRow) (sick : BitVec didbits) (beyond : Nat → Bool)
    {n : Nat} (hn : n ≤ rows.length) :
    (List.range n).countP (fun j => (tileOfRows rows beyond).isMatch j sick) =
      (rows.take n).countP (TileRow.isOf sick) := by
  induction n with
  | zero => rfl
  | succ n ih =>
    have hrow := List.getElem?_eq_getElem (show n < rows.length by omega)
    rw [List.range_succ, List.countP_append, ih (by omega), List.take_add_one, hrow,
      Option.toList_some, List.countP_append, List.countP_singleton, List.countP_singleton,
      isMatch_tileOfRows hrow]

/-- The counter never holds more than the number of rows. -/
theorem countProgress_tileOfRows (rows : List TileRow) (sick : BitVec didbits)
    (beyond : Nat → Bool) {n : Nat} (hn : n ≤ rows.length) :
    (countProgress rows.length sick (tileOfRows rows beyond) n).toNat =
      (rows.take n).countP (TileRow.isOf sick) := by
  have hle : (rows.take n).countP (TileRow.isOf sick) ≤ rows.length :=
    List.countP_le_length.trans (List.length_take_le' n rows)
  have hlt : rows.length < 2 ^ counterBits rows.length :=
    Nat.lt_pow_succ_log_self (by decide) rows.length
  rw [countProgress, foldl_add_ite, countP_tileOfRows rows sick beyond hn]
  rw [show (0 : BitVec (counterBits rows.length)) = 0#_ from rfl, BitVec.zero_add,
    BitVec.toNat_ofNat, Nat.mod_eq_of_lt (hle.trans_lt hlt)]

end Read

/-! ## Queries -/

theorem foldl_insertWord_append (words tile : List Word) (startIdx : Nat) :
    words.foldl (insertWord false) (tile, startIdx) = (tile ++ words, startIdx) := by
  induction words generalizing tile with
  | nil => simp
  | cons w words ih => simp [insertWord, ih]

/-- A query of a stored tile yields a word for each row, at the end of the list or over the cells
from `start_idx` on, or the number of rows it is about. The counter is never too small for its
bits. -/
theorem query_storeGarbledData (rows : List TileRow) (hrows : rows ≠ []) (beyond : Nat → Bool)
    (sick : BitVec didbits) :
    let value := (storeGarbledData (rows.map TileRow.stored)).tile
    (∀ tile startIdx, queryUniqueDevices value beyond tile rows.length sick false startIdx =
      some (tile ++ rows.map (TileRow.word sick))) ∧
    (∀ tile startIdx, startIdx + rows.length ≤ tile.length →
      queryUniqueDevices value beyond tile rows.length sick true startIdx =
        some (overwrite tile startIdx (rows.map (TileRow.word sick)))) ∧
    (∃ count, queryCountEncounters value beyond rows.length sick = some count ∧
      count.toNat = rows.countP (TileRow.isOf sick)) ∧
    ∀ n ≤ rows.length, (countProgress rows.length sick (value.memory beyond) n).toNat =
      (rows.take n).countP (TileRow.isOf sick) := by
  intro value
  have hlength : value.length = rows.length * tilebits := by
    simp [value, tile_storeGarbledData, List.length_flatMap]
  have hvalue : value.isEmpty = false := by
    have hpos := List.length_pos_of_ne_nil hrows
    rw [List.isEmpty_eq_false_iff, ← List.length_pos_iff_ne_nil, hlength]
    exact Nat.mul_pos hpos (by decide)
  have hwords := runQueryUniqueDevices_tileOfRows rows sick beyond
  refine ⟨fun tile startIdx => ?_, fun tile startIdx hroom => ?_, ⟨_, if_neg (by simp [hvalue]), ?_⟩,
    fun n => countProgress_tileOfRows rows sick beyond⟩
  · rw [queryUniqueDevices, hvalue, if_neg Bool.false_ne_true]
    exact congrArg some (by rw [← hwords, foldl_insertWord_append]; rfl)
  · have hcells := foldl_set_eq_overwrite tile (rows.map (TileRow.word sick))
      (show startIdx + (rows.map (TileRow.word sick)).length ≤ tile.length by simpa using hroom)
    rw [← hwords] at hcells ⊢
    rw [queryUniqueDevices, hvalue, if_neg Bool.false_ne_true]
    exact congrArg some (congrArg Prod.fst hcells)
  · have hcount := countProgress_tileOfRows rows sick beyond le_rfl
    rwa [List.take_length] at hcount

/-- Two rows, the first one a confirmed encounter of device `1`. -/
theorem query_storeGarbledData_two :
    let rows : List TileRow := [⟨5, 1, 2, 40, 7, 128⟩, ⟨6, 2, 1, 40, 7, 0⟩]
    let value := (storeGarbledData (rows.map TileRow.stored)).tile
    (∀ tile startIdx, queryUniqueDevices value (fun _ => false) tile rows.length 1 false startIdx =
      some (tile ++ rows.map (TileRow.word 1))) ∧
    (∀ tile startIdx, startIdx + rows.length ≤ tile.length →
      queryUniqueDevices value (fun _ => false) tile rows.length 1 true startIdx =
        some (overwrite tile startIdx (rows.map (TileRow.word 1)))) ∧
    (∃ count, queryCountEncounters value (fun _ => false) rows.length 1 = some count ∧
      count.toNat = rows.countP (TileRow.isOf 1)) ∧
    ∀ n ≤ rows.length, (countProgress rows.length 1 (value.memory fun _ => false) n).toNat =
      (rows.take n).countP (TileRow.isOf 1) :=
  query_storeGarbledData [⟨5, 1, 2, 40, 7, 128⟩, ⟨6, 2, 1, 40, 7, 0⟩] (by simp) _ 1

end CoVault.MapReduce
