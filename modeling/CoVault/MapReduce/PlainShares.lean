import Mathlib
import CoVault.MapReduce.UniqueDevices

/-!
# Tiles stored as plain shares

Each party's store holds bytes: one the blinded rows, the other the blinding. A query reads
them back at offsets, in bytes, that count the bits of a row, and so from the second row on it
reads what lies behind the value. The id that is queried is the first of the blinded
keys. The garbled values of the other pipeline hold the rows themselves, a block for each bit.
-/

namespace CoVault.MapReduce

open Circuit

/-- A confirmed row with its sort key, and what blinds both. -/
structure StoredRow where
  sortKey : BitVec didbits
  data : BitVec tilebits
  randomKey : BitVec didbits
  random : BitVec tilebits

/-- What a key of the store holds, bit by bit. -/
abbrev Value := List Bool

/-- The two parties with a store each. -/
inductive Storer where
  | ALICE | BOB

/-- The values under `eid_`, `tile_` and `sick_` in the store of a party; those of the other
pipeline have `gv` in their names. -/
structure Store where
  eid : Value
  tile : Value
  sick : Value

/-- `store_data` in the store of a party, called with blinded keys and rows. -/
def storeData (rows : List StoredRow) (party : Storer) : Store :=
  let share_key := rows.flatMap fun r => match party with
    | .ALICE => bitsOf (r.sortKey ^^^ r.randomKey)
    | .BOB => bitsOf r.randomKey
  let share_tile := rows.flatMap fun r => match party with
    | .ALICE => bitsOf (r.data ^^^ r.random)
    | .BOB => bitsOf r.random
  ⟨share_key, share_tile, share_key.take didbits⟩

/-- `store_garbled_data`: a block stands for its bit. -/
def storeGarbledData (rows : List StoredRow) : Store :=
  let data_key := rows.flatMap fun r => bitsOf r.sortKey
  let data_tile := rows.flatMap fun r => bitsOf r.data
  ⟨data_key, data_tile, data_tile.take didbits⟩

/-- What is read from a value and from behind it. -/
def Value.memory (v : Value) (beyond : Nat → Bool) : Nat → Bool := fun k => v.getD k (beyond k)

/-- `Integer(w, data + offset, party)` of both parties, put together. -/
def readShares (w : Nat) (data : Storer → Nat → Bool) (offset : Nat) : BitVec w :=
  ofBits w ((List.range w).map fun i => data .ALICE (8 * offset + i)) ^^^
    ofBits w ((List.range w).map fun i => data .BOB (8 * offset + i))

/-! ## The queries -/

/-- `get_sick_did`. -/
def getSickDid (redisValue : Tile) : BitVec didbits :=
  ofBits didbits ((List.range didbits).map redisValue)

/-- `get_sick_did_nogv`. -/
def getSickDidNogv (redisValue : Storer → Nat → Bool) : BitVec didbits :=
  readShares didbits redisValue 0

/-- The number the confirmation byte is compared with. -/
def confirmedByte : BitVec 8 := 1

/-- What is put into the list for a row. -/
def plainFingerprint (sick did_1 did_2 : BitVec didbits) (conf : BitVec 8) : Word :=
  if did_1 == sick && conf == confirmedByte then did_2.setWidth hashbits else noneWord

/-- `run_query_nogv`. -/
def runQueryNogv (tileSize : Nat) (sick : BitVec didbits) (redisValue : Storer → Nat → Bool) :
    List Word :=
  let skip := tilebits - 8
  (List.range tileSize).map fun i =>
    let offset := i * tilebits
    plainFingerprint sick (readShares didbits redisValue offset)
      (readShares didbits redisValue (offset + didbits)) (readShares 8 redisValue (offset + skip))

/-- `run_query_unique_devices_nogv`, which first reads the three columns. The hashes of the
columns are compared with themselves. -/
def runQueryUniqueDevicesNogv (tileSize : Nat) (sick : BitVec didbits)
    (redisValue : Storer → Nat → Bool) : List Word :=
  let skip := tilebits - 8
  let did_1 := (List.range tileSize).map fun i => readShares didbits redisValue (i * tilebits)
  let did_2 := (List.range tileSize).map fun i =>
    readShares didbits redisValue (i * tilebits + didbits)
  let conf := (List.range tileSize).map fun i => readShares 8 redisValue (i * tilebits + skip)
  (did_1.zip (did_2.zip conf)).map fun (did_1, did_2, conf) => plainFingerprint sick did_1 did_2 conf

theorem runQueryUniqueDevicesNogv_eq : runQueryUniqueDevicesNogv = runQueryNogv := by
  funext tileSize sick redisValue
  simp [runQueryUniqueDevicesNogv, runQueryNogv, List.zip_map']

/-- The id that is queried and the list that comes out. -/
structure Answer where
  sick : BitVec didbits
  list : List Word
  deriving DecidableEq

/-- Stored with `store_garbled_data`, queried with `run_query_unique_devices`. Behind a value
lies whatever the parties have in memory. -/
def garbledAnswer (rows : List StoredRow) (beyond : Nat → Bool) : Answer :=
  let store := storeGarbledData rows
  let sick := getSickDid (store.sick.memory beyond)
  ⟨sick, runQueryUniqueDevices rows.length sick (store.tile.memory beyond)⟩

/-- Stored with `store_data`, queried with one of the queries above. -/
def plainAnswer (query : Nat → BitVec didbits → (Storer → Nat → Bool) → List Word)
    (rows : List StoredRow) (beyond : Storer → Nat → Bool) : Answer :=
  let sick := getSickDidNogv fun p => (storeData rows p).sick.memory (beyond p)
  ⟨sick, query rows.length sick fun p => (storeData rows p).tile.memory (beyond p)⟩

/-! ## What the queries read -/

theorem Value.memory_of_lt {v : Value} {k : Nat} (h : k < v.length) (beyond : Nat → Bool) :
    v.memory beyond k = v.getD k false := by
  simp [memory, h]

theorem Value.memory_of_le {v : Value} {k : Nat} (h : v.length ≤ k) (beyond : Nat → Bool) :
    v.memory beyond k = beyond k := by
  simp [memory, h]

theorem getLsbD_readShares (w : Nat) (data : Storer → Nat → Bool) (offset i : Nat) :
    (readShares w data offset).getLsbD i = (decide (i < w) &&
      (data .ALICE (8 * offset + i) ^^ data .BOB (8 * offset + i))) := by
  rw [readShares, BitVec.getLsbD_xor, getLsbD_ofBits, getLsbD_ofBits]
  by_cases hi : i < w <;> simp [hi, List.getD_eq_getElem?_getD]

theorem readShares_congr {w offset : Nat} {data data' : Storer → Nat → Bool}
    (h : ∀ p, ∀ i < w, data p (8 * offset + i) = data' p (8 * offset + i)) :
    readShares w data offset = readShares w data' offset := by
  refine BitVec.eq_of_getLsbD_eq fun i hi => ?_
  rw [getLsbD_readShares, getLsbD_readShares, h _ i hi, h _ i hi]

/-- The id that is queried is the key of the first row. -/
theorem sick_plainAnswer (query : Nat → BitVec didbits → (Storer → Nat → Bool) → List Word)
    (r : StoredRow) (rows : List StoredRow) (beyond : Storer → Nat → Bool) :
    (plainAnswer query (r :: rows) beyond).sick = r.sortKey := by
  have htake : ∀ (x : BitVec didbits) (xs : Value), (bitsOf x ++ xs).take didbits = bitsOf x :=
    fun x xs => List.take_left' (by simp)
  refine BitVec.eq_of_getLsbD_eq fun i hi => ?_
  have hlt : ∀ x : BitVec didbits, i < (bitsOf x).length := fun x => by simpa using hi
  simp only [plainAnswer, getSickDidNogv, getLsbD_readShares, storeData, List.flatMap_cons, htake,
    Nat.mul_zero, Nat.zero_add, Value.memory_of_lt (hlt _), getD_bitsOf, BitVec.getLsbD_xor]
  simp [hi]

/-- In the other pipeline it is the device of the first row. -/
theorem sick_garbledAnswer (r : StoredRow) (rows : List StoredRow) (beyond : Nat → Bool) :
    (garbledAnswer (r :: rows) beyond).sick = r.data.setWidth didbits := by
  refine BitVec.eq_of_getLsbD_eq fun i hi => ?_
  have hdata : i < tilebits := hi.trans (by decide)
  simp only [garbledAnswer, getSickDid, storeGarbledData, getLsbD_ofBits, List.flatMap_cons]
  simp [hi, List.getD_eq_getElem?_getD, Value.memory, hdata, bitsOf, List.getElem?_append_left]

theorem length_tile (rows : List StoredRow) (p : Storer) :
    (storeData rows p).tile.length = rows.length * tilebits := by
  induction rows with
  | nil => rfl
  | cons r rows ih =>
    have htile : (storeData (r :: rows) p).tile.length =
        tilebits + (storeData rows p).tile.length := by
      cases p <;> simp [storeData]
    rw [htile, ih, List.length_cons, Nat.succ_mul, Nat.add_comm]

/-! ## The last row -/

/-- Memory in which the last of `n` rows seems to be a confirmed encounter of a device, with some
fingerprint. -/
def planted (n : Nat) (sick : BitVec didbits) (w : Word) : Storer → Nat → Bool
  | .BOB, _ => false
  | .ALICE, k =>
    let start := 8 * ((n - 1) * tilebits)
    if k < start + 8 * didbits then sick.getLsbD (k - start)
    else if k < start + 8 * (tilebits - 8) then w.getLsbD (k - (start + 8 * didbits))
    else k == start + 8 * (tilebits - 8)

section Planted

variable (n : Nat) (sick : BitVec didbits) (w : Word)

theorem readShares_planted_did1 :
    readShares didbits (planted n sick w) ((n - 1) * tilebits) = sick := by
  refine BitVec.eq_of_getLsbD_eq fun i hi => ?_
  rw [getLsbD_readShares, planted, planted, if_pos (by simp only [didbits] at *; omega),
    Nat.add_sub_cancel_left]
  simp [hi]

theorem readShares_planted_did2 :
    (readShares didbits (planted n sick w) ((n - 1) * tilebits + didbits)).setWidth hashbits =
      w := by
  refine BitVec.eq_of_getLsbD_eq fun i hi => ?_
  have hdid : i < didbits := hi.trans (by decide)
  rw [BitVec.getLsbD_setWidth, getLsbD_readShares, planted, planted, Nat.mul_add,
    if_neg (by omega), if_pos (by simp only [didbits, tilebits] at *; omega),
    Nat.add_sub_cancel_left]
  simp [hi, hdid]

theorem readShares_planted_conf :
    readShares 8 (planted n sick w) ((n - 1) * tilebits + (tilebits - 8)) = confirmedByte := by
  refine BitVec.eq_of_getLsbD_eq fun i hi => ?_
  rw [getLsbD_readShares, planted, planted, Nat.mul_add,
    if_neg (by simp only [didbits, tilebits] at *; omega), if_neg (by omega)]
  interval_cases i <;> simp [confirmedByte]

end Planted

theorem readShares_tile_beyond (rows : List StoredRow) (beyond : Storer → Nat → Bool) (w : Nat)
    {offset : Nat} (h : rows.length * tilebits ≤ 8 * offset) :
    readShares w (fun p => (storeData rows p).tile.memory (beyond p)) offset =
      readShares w beyond offset :=
  readShares_congr fun p i _ => Value.memory_of_le (by rw [length_tile]; omega) (beyond p)

/-- The device of the first row is read where it was written. -/
theorem readShares_tile_first (r : StoredRow) (rows : List StoredRow)
    (beyond : Storer → Nat → Bool) :
    readShares didbits (fun p => (storeData (r :: rows) p).tile.memory (beyond p)) 0 =
      r.data.setWidth didbits := by
  refine BitVec.eq_of_getLsbD_eq fun i hi => ?_
  have hdata : i < tilebits := hi.trans (by decide)
  have hlt : ∀ p, i < (storeData (r :: rows) p).tile.length := fun p => by
    rw [length_tile, List.length_cons, Nat.succ_mul]
    omega
  rw [getLsbD_readShares, Nat.mul_zero, Nat.zero_add, Value.memory_of_lt (hlt _),
    Value.memory_of_lt (hlt _)]
  simp [storeData, hi, List.getD_eq_getElem?_getD, List.getElem?_append_left, hdata, bitsOf]

/-- Whatever the tile holds, the last word of the list is the one that lies behind it. -/
theorem getElem?_runQueryNogv_planted {r : StoredRow} {rows : List StoredRow}
    (hsick : r.sortKey = r.data.setWidth didbits) (w : Word) :
    (plainAnswer runQueryNogv (r :: rows)
      (planted (rows.length + 1) r.sortKey w)).list[rows.length]? = some w := by
  have hid := sick_plainAnswer runQueryNogv r rows (planted (rows.length + 1) r.sortKey w)
  have hdid1 : readShares didbits (fun p => (storeData (r :: rows) p).tile.memory
      (planted (rows.length + 1) r.sortKey w p)) (rows.length * tilebits) = r.sortKey := by
    cases rows with
    | nil => rw [List.length_nil, Nat.zero_mul, readShares_tile_first, hsick]
    | cons r' rows =>
      rw [readShares_tile_beyond _ _ _ (by simp only [List.length_cons, tilebits]; omega)]
      exact readShares_planted_did1 ((r' :: rows).length + 1) r.sortKey w
  have hdid2 : (readShares didbits (fun p => (storeData (r :: rows) p).tile.memory
      (planted (rows.length + 1) r.sortKey w p)) (rows.length * tilebits + didbits)).setWidth
        hashbits = w := by
    rw [readShares_tile_beyond _ _ _
      (by simp only [List.length_cons, tilebits, didbits]; omega)]
    exact readShares_planted_did2 (rows.length + 1) r.sortKey w
  have hconf : readShares 8 (fun p => (storeData (r :: rows) p).tile.memory
      (planted (rows.length + 1) r.sortKey w p)) (rows.length * tilebits + (tilebits - 8)) =
        confirmedByte := by
    rw [readShares_tile_beyond _ _ _ (by simp only [List.length_cons, tilebits]; omega)]
    exact readShares_planted_conf (rows.length + 1) r.sortKey w
  simp only [plainAnswer] at hid ⊢
  rw [runQueryNogv, List.getElem?_map, List.getElem?_range (by simp), Option.map_some, hid,
    plainFingerprint, hdid1, hconf, hdid2]
  simp

/-- No tile is answered alike by both pipelines in every memory: the plain one
asks for a key in place of a device, and its last row is not one of the tile. -/
theorem plainAnswer_ne {rows : List StoredRow} (hrows : rows ≠ []) (beyond : Nat → Bool) :
    (¬ ∀ beyond', plainAnswer runQueryNogv rows beyond' = garbledAnswer rows beyond) ∧
    ¬ ∀ beyond', plainAnswer runQueryUniqueDevicesNogv rows beyond' =
      garbledAnswer rows beyond := by
  rw [runQueryUniqueDevicesNogv_eq, and_self]
  obtain ⟨r, rows, rfl⟩ := List.exists_cons_of_ne_nil hrows
  intro hsame
  have hsick : r.sortKey = r.data.setWidth didbits := by
    have h := congrArg Answer.sick (hsame fun _ _ => false)
    rwa [sick_plainAnswer, sick_garbledAnswer] at h
  have hlast : ∀ w, (garbledAnswer (r :: rows) beyond).list[rows.length]? = some w := fun w => by
    rw [← hsame (planted (rows.length + 1) r.sortKey w)]
    exact getElem?_runQueryNogv_planted hsick w
  have h : (0 : Word) = 1 := Option.some.inj ((hlast 0).symm.trans (hlast 1))
  revert h
  decide

/-! ## Two rows -/

/-- Devices `1` and `2` have met each other, under the encounter id `5`. -/
def twoRows : List StoredRow :=
  let row (device met : BitVec didbits) : BitVec tilebits :=
    ofBits tilebits (bitsOf device ++ bitsOf met ++ bitsOf 40#32 ++ bitsOf 7#16 ++ bitsOf 128#8)
  [⟨5, row 1 2, 9, 0⟩, ⟨5, row 2 1, 9, 0⟩]

theorem twoRows_differ :
    ¬ ∀ beyond', plainAnswer runQueryNogv twoRows beyond' = garbledAnswer twoRows fun _ => false :=
  (plainAnswer_ne (by decide) fun _ => false).1

/-- One pipeline asks for device `1`, the other for device `5`. -/
theorem twoRows_sick :
    (garbledAnswer twoRows fun _ => false).sick = 1 ∧
    (plainAnswer runQueryNogv twoRows fun _ _ => false).sick = 5 ∧
    plainAnswer runQueryNogv twoRows (fun _ _ => false) ≠ garbledAnswer twoRows fun _ => false := by
  have hdevice : ∀ r ∈ twoRows.head?, r.data.setWidth didbits = 1 := by decide +kernel
  have hgarbled : (garbledAnswer twoRows fun _ => false).sick = 1 :=
    (sick_garbledAnswer _ _ _).trans (hdevice _ rfl)
  have hplain : (plainAnswer runQueryNogv twoRows fun _ _ => false).sick = 5 :=
    sick_plainAnswer _ _ _ _
  refine ⟨hgarbled, hplain, fun heq => ?_⟩
  rw [heq, hgarbled] at hplain
  revert hplain
  decide

end CoVault.MapReduce
