import CoVault.Library.SortNetwork
import CoVault.PathStore.Fetch

/-!
# Shuffling path encounters

Each side in turn hashes the keys, adds a layer of encryption and sorts by key. The
sort is the compare-exchange network whose merges split at the greatest power of two,
found by counting leading zeros of a 32-bit word.
-/

namespace CoVault.PathStore

open Circuit Library Library.Cells

/-- A conditional swap by three masked XORs. -/
def xorSwap {w : Nat} (mask x y : BitVec w) : BitVec w × BitVec w :=
  let x := x ^^^ (mask &&& y)
  let y := (mask &&& x) ^^^ y
  let x := x ^^^ (mask &&& y)
  (x, y)

/-- The mask is all ones or all zeros. -/
def swapMask (w : Nat) (swap : Bool) : BitVec w := if swap then BitVec.allOnes w else 0

theorem xorSwap_swapMask {w : Nat} (swap : Bool) (x y : BitVec w) :
    xorSwap (swapMask w swap) x y = if swap then (y, x) else (x, y) := by
  cases swap
  · simp [xorSwap, swapMask]
  · simp only [xorSwap, swapMask, if_true, BitVec.allOnes_and, Prod.mk.injEq]
    have hy : x ^^^ y ^^^ y = x := by rw [BitVec.xor_assoc, BitVec.xor_self, BitVec.xor_zero]
    rw [hy]
    refine ⟨?_, rfl⟩
    rw [BitVec.xor_comm x y, BitVec.xor_assoc, BitVec.xor_self, BitVec.xor_zero]

/-- `compareAndSwap`. -/
def compareAndSwap (ascending : Bool) (i j : Nat) (a : Nat → StorablePathEncounter) :
    Nat → StorablePathEncounter :=
  let swap := ascending == compareHash (a i).key (a j).key
  let key := xorSwap (swapMask 256 swap) (a i).key (a j).key
  let encrypted := xorSwap (swapMask 512 swap) (a i).encrypted (a j).encrypted
  Function.update (Function.update a j ⟨key.2, encrypted.2⟩) i ⟨key.1, encrypted.1⟩

/-- `_lzcnt_u32`. -/
def lzcnt (x : BitVec 32) : Nat := if x = 0 then 32 else 31 - Nat.log 2 x.toNat

/-- The split of a merge: `2^31` shifted right, the shift taken modulo 32 as the processor
does it. -/
def splitSize (count : Nat) : Nat :=
  2 ^ 31 / 2 ^ (lzcnt (BitVec.ofNat 32 (count - 1)) % 32)

/-- With a nonzero low word the split is its leading power of two. -/
theorem splitSize_of_ne {count : Nat} (h : (count - 1) % 2 ^ 32 ≠ 0) :
    splitSize count = 2 ^ Nat.log 2 ((count - 1) % 2 ^ 32) := by
  have hne : BitVec.ofNat 32 (count - 1) ≠ 0 := by
    intro h0
    apply h
    simpa using congrArg BitVec.toNat h0
  have hlog : Nat.log 2 ((count - 1) % 2 ^ 32) < 32 :=
    Nat.log_lt_of_lt_pow h (Nat.mod_lt _ (by decide))
  rw [splitSize, lzcnt, if_neg hne, BitVec.toNat_ofNat, Nat.mod_eq_of_lt (by omega),
    Nat.pow_div (by omega) (by decide)]
  congr 1
  omega

theorem splitSize_pos (count : Nat) : 0 < splitSize count := by
  have : 2 ^ (lzcnt (BitVec.ofNat 32 (count - 1)) % 32) ≤ 2 ^ 31 :=
    Nat.pow_le_pow_right (by decide) (by omega)
  exact Nat.div_pos this (Nat.two_pow_pos _)

theorem splitSize_lt {count : Nat} (h : 1 < count) : splitSize count < count := by
  by_cases h0 : (count - 1) % 2 ^ 32 = 0
  · have hle : splitSize count ≤ 2 ^ 31 := Nat.div_le_self _ _
    omega
  · rw [splitSize_of_ne h0]
    have h1 := Nat.pow_log_le_self 2 h0
    have h2 := Nat.mod_le (count - 1) (2 ^ 32)
    omega

theorem splitSize_eq {count : Nat} (h : 1 < count) (hmax : count ≤ 2 ^ 32) :
    splitSize count = SortNetwork.greatestPowerBelow count := by
  have hmod : (count - 1) % 2 ^ 32 = count - 1 := Nat.mod_eq_of_lt (by omega)
  rw [splitSize_of_ne (by omega), hmod, SortNetwork.greatestPowerBelow]

/-- `bitonicMerge`. -/
def bitonicMerge (low count : Nat) (ascending : Bool) (a : Nat → StorablePathEncounter) :
    Nat → StorablePathEncounter :=
  if _h : 1 < count then
    let k := splitSize count
    let a := (List.range (count - k)).foldl
      (fun a t => compareAndSwap ascending (low + t) (low + t + k) a) a
    bitonicMerge (low + k) (count - k) ascending (bitonicMerge low k ascending a)
  else a
termination_by count
decreasing_by
  · exact splitSize_lt _h
  · have := splitSize_pos count; omega

/-- `bitonicSort`. -/
def bitonicSort (low count : Nat) (ascending : Bool) (a : Nat → StorablePathEncounter) :
    Nat → StorablePathEncounter :=
  if _h : 1 < count then
    let k := count / 2
    bitonicMerge low count ascending
      (bitonicSort (low + k) (count - k) ascending (bitonicSort low k (!ascending) a))
  else a
termination_by count

/-- `sort`. -/
def sort (a : Nat → StorablePathEncounter) (size : Nat) (ascending : Bool) :
    Nat → StorablePathEncounter :=
  bitonicSort 0 size ascending a

/-! ## The sort sorts -/

theorem compareAndSwap_eq (ascending : Bool) (i j : Nat) (a : Nat → StorablePathEncounter) :
    compareAndSwap ascending i j a =
      if ascending == compareHash (a i).key (a j).key then exchange a i j else a := by
  simp only [compareAndSwap, xorSwap_swapMask]
  split_ifs
  · funext k
    simp only [exchange, Function.update_apply]
  · simp

theorem compareAndSwap_exchanging (ascending : Bool) :
    SortNetwork.Exchanging (compareAndSwap ascending) := by
  intro i j f
  rw [compareAndSwap_eq]
  split_ifs
  · exact Or.inr rfl
  · exact Or.inl rfl

theorem compareAndSwap_ascending (i j : Nat) (f : Nat → StorablePathEncounter) :
    rank (compareAndSwap true i j f i).key ≤ rank (compareAndSwap true i j f j).key := by
  rw [compareAndSwap_eq]
  split_ifs with h
  · rw [exchange_left, exchange_right]
    have hgt : compareHash (f i).key (f j).key = true := by simpa using h
    exact Nat.le_of_lt ((compareHash_iff ..).mp hgt)
  · refine Nat.le_of_not_lt fun hlt => h ?_
    rw [(compareHash_iff ..).mpr hlt]
    rfl

theorem compareAndSwap_descending (i j : Nat) (f : Nat → StorablePathEncounter) :
    rank (compareAndSwap false i j f j).key ≤ rank (compareAndSwap false i j f i).key := by
  rw [compareAndSwap_eq]
  split_ifs with h
  · rw [exchange_left, exchange_right]
    refine Nat.le_of_not_lt fun hlt => ?_
    rw [(compareHash_iff ..).mpr hlt] at h
    cases h
  · have hgt : compareHash (f i).key (f j).key = true := by simpa using h
    exact Nat.le_of_lt ((compareHash_iff ..).mp hgt)

theorem compareAndSwap_twoWay :
    SortNetwork.TwoWay (fun x : StorablePathEncounter => rank x.key) compareAndSwap :=
  .of_ordered compareAndSwap_exchanging compareAndSwap_ascending compareAndSwap_descending

theorem bitonicMerge_eq_merge (ascending : Bool) {count : Nat} (hmax : count ≤ 2 ^ 32) (low : Nat)
    (a : Nat → StorablePathEncounter) :
    bitonicMerge low count ascending a =
      SortNetwork.merge (compareAndSwap ascending) low count a := by
  induction count using Nat.strong_induction_on generalizing low a with
  | _ count ih =>
    by_cases h : 1 < count
    · have hlt := splitSize_lt h
      have hpos := splitSize_pos count
      rw [bitonicMerge, dif_pos h]
      simp only
      rw [ih _ hlt (by omega), ih _ (by omega) (by omega),
        SortNetwork.merge_of_lt _ _ h, splitSize_eq h hmax]
      rfl
    · rw [bitonicMerge, dif_neg h, SortNetwork.merge_of_le _ _ h]

theorem bitonicSort_eq_sort (ascending : Bool) {count : Nat} (hmax : count ≤ 2 ^ 32) (low : Nat)
    (a : Nat → StorablePathEncounter) :
    bitonicSort low count ascending a =
      SortNetwork.sort compareAndSwap low count ascending a := by
  induction count using Nat.strong_induction_on generalizing low a ascending with
  | _ count ih =>
    by_cases h : 1 < count
    · rw [bitonicSort, dif_pos h, bitonicMerge_eq_merge _ hmax, ih _ (by omega) _ (by omega),
        ih _ (by omega) _ (by omega), SortNetwork.sort_of_lt _ _ h]
    · rw [bitonicSort, dif_neg h, SortNetwork.sort_of_le _ _ h]

theorem sort_rearranged (a : Nat → StorablePathEncounter) {size : Nat} (hmax : size ≤ 2 ^ 32)
    (ascending : Bool) : Rearranged 0 size a (sort a size ascending) := by
  rw [sort, bitonicSort_eq_sort _ hmax]
  exact SortNetwork.sort_rearranged compareAndSwap_twoWay.exchanging ..

/-- The two directions. -/
theorem sort_keys (a : Nat → StorablePathEncounter) {size : Nat} (hmax : size ≤ 2 ^ 32)
    (ascending : Bool) {i j : Nat} (hij : i ≤ j) (hj : j < size) :
    if ascending then rank (sort a size ascending i).key ≤ rank (sort a size ascending j).key
    else rank (sort a size ascending j).key ≤ rank (sort a size ascending i).key := by
  have h := SortNetwork.sort_sortedIn compareAndSwap_twoWay 0 size ascending a
  rw [← bitonicSort_eq_sort _ hmax] at h
  cases ascending
  all_goals
    have hcells := h i j hij hj
    simp only [SortNetwork.keys, Nat.zero_add] at hcells
    exact hcells

theorem sort_ascending (a : Nat → StorablePathEncounter) {size : Nat} (hmax : size ≤ 2 ^ 32) :
    ∀ i j, i ≤ j → j < size →
      rank (sort a size true i).key ≤ rank (sort a size true j).key :=
  fun _ _ => sort_keys a hmax true

/-- The records are permuted as a whole, they are in order, and nothing else is touched. -/
theorem sort_sorts (a : Nat → StorablePathEncounter) {size : Nat} (hsize : size < 2 ^ 32)
    (ascending : Bool) :
    (window (sort a size ascending) 0 size).Perm (window a 0 size) ∧
      (window (sort a size ascending) 0 size).Pairwise (fun x y =>
        (if ascending then compareHash x.key y.key else compareHash y.key x.key) = false) ∧
      ∀ k, size ≤ k → sort a size ascending k = a k := by
  have hrearranged := sort_rearranged a hsize.le ascending
  refine ⟨hrearranged.perm, pairwise_window.mpr fun i j hij hj => ?_,
    fun k hk => hrearranged.outside (.inr (by omega))⟩
  have hkeys := sort_keys a hsize.le ascending hij.le hj
  rw [Nat.zero_add, Nat.zero_add]
  cases ascending
  · simpa only [Bool.false_eq_true, if_false, compareHash_eq_false] using hkeys
  · simpa only [if_true, compareHash_eq_false] using hkeys

/-- Three records downwards. -/
theorem sort_sorts_three : (window (sort (ofList [⟨1, 5⟩, ⟨9, 6⟩, ⟨4, 7⟩] ⟨0, 0⟩) 3 false) 0 3).Perm
    (window (ofList [⟨1, 5⟩, ⟨9, 6⟩, ⟨4, 7⟩] ⟨0, 0⟩) 0 3) ∧
      (window (sort (ofList [⟨1, 5⟩, ⟨9, 6⟩, ⟨4, 7⟩] ⟨0, 0⟩) 3 false) 0 3).Pairwise (fun x y =>
        (if false then compareHash x.key y.key else compareHash y.key x.key) = false) ∧
      ∀ k, 3 ≤ k → sort (ofList [⟨1, 5⟩, ⟨9, 6⟩, ⟨4, 7⟩] ⟨0, 0⟩) 3 false k =
        ofList [⟨1, 5⟩, ⟨9, 6⟩, ⟨4, 7⟩] ⟨0, 0⟩ k :=
  sort_sorts _ (by decide) false

/-! ## Sending and receiving -/

/-- `fill_dummies`: only the lowest 64 bits of the nonce count up. -/
def dummyKey (startingNonce : BitVec 256) (i : Nat) : BitVec 256 :=
  startingNonce.extractLsb' 64 192 ++ (startingNonce.setWidth 64 + BitVec.ofNat 64 i)

def fillDummies (a : Nat → StorablePathEncounter) (start count : Nat)
    (startingNonce : BitVec 256) : Nat → StorablePathEncounter := fun i =>
  if start ≤ i ∧ i < start + count then { a i with key := dummyKey startingNonce (i - start) }
  else a i

/-- One round of `encrypt_storable_path_encounters`. -/
def encryptRecord (c : Crypto) (s : Secrets) (side : Side) (x : StorablePathEncounter) :
    StorablePathEncounter :=
  let key := c.sha3 (bitsOf (s.secret side) ++ bitsOf x.key)
  { key := key
    encrypted := ofBits 512 (c.aes128Ctr (s.key side) (key.setWidth 128) (bitsOf x.encrypted)) }

theorem encrypted_encryptRecord (c : Crypto) (s : Secrets) (side : Side)
    (x : StorablePathEncounter) : (encryptRecord c s side x).encrypted =
      ofBits 512 (c.aes128Ctr (s.key side) ((encryptRecord c s side x).key.setWidth 128)
        (bitsOf x.encrypted)) := by
  simp only [encryptRecord]

/-- `encrypt_storable_path_encounters`. -/
def encryptStorablePathEncounters (c : Crypto) (s : Secrets) (a : Nat → StorablePathEncounter)
    (size : Nat) (side : Side) : Nat → StorablePathEncounter := fun i =>
  if i < size then encryptRecord c s side (a i) else a i

/-- `send_shuffle`: the records that go over the channel, in order. -/
def sendShuffle (c : Crypto) (s : Secrets) (encounters : Nat → StorablePathEncounter)
    (count dummies : Nat) (startingNonce : BitVec 256) (side : Side) :
    List StorablePathEncounter :=
  let a := fillDummies encounters count dummies startingNonce
  let a := encryptStorablePathEncounters c s a (count + dummies) side
  window (sort a (count + dummies) true) 0 (count + dummies)

/-- `receive_shuffle` of the records that come over the channel; every call in the program
leaves `party` at its default `BOB`. -/
def receiveShuffle (c : Crypto) (s : Secrets) (store : ShuffleStore) (shuffle : BitVec 64)
    (received : List StorablePathEncounter) (party : UInt8) : ShuffleStore :=
  let a := ofList received ⟨0, 0⟩
  let a := encryptStorablePathEncounters c s a received.length party
  Function.update store shuffle (some ⟨received.length, sort a received.length true⟩)

end CoVault.PathStore
