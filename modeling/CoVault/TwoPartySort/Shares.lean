import CoVault.Library.ChunkedNetwork

/-!
# Circuits on shared records

Each party has an array of records, and the XOR of both arrays is what they are about. A circuit
takes the shares of some records, works on their keys and their data, and shares the results
again: Bob overwrites his records with random bytes, and Alice gets the results blinded by them. A
record without its index in the data gets a random index.

The order of the keys is the one in which the circuit library compares them.
-/

namespace CoVault.TwoPartySort

open Library.Cells Library.SortNetwork

structure IndexedEncounter where
  index : BitVec 64
  user : BitVec 256
  timestamp : BitVec 32
  payload : BitVec 256

def IndexedEncounter.xor (e e' : IndexedEncounter) : IndexedEncounter where
  index := e.index ^^^ e'.index
  user := e.user ^^^ e'.user
  timestamp := e.timestamp ^^^ e'.timestamp
  payload := e.payload ^^^ e'.payload

/-- How records are put into Integers. -/
structure Mode where
  includeIndex : Bool
  timestampMajor : Bool

/-- The size of the data. -/
def dataBits : Bool → Nat
  | true => 256 + 64
  | false => 256

/-- The Integers of a record. -/
structure Item (m : Mode) where
  key : BitVec 288
  data : BitVec (dataBits m.includeIndex)

def Item.xor {m : Mode} (x y : Item m) : Item m := ⟨x.key ^^^ y.key, x.data ^^^ y.data⟩

/-- What is major comes behind the rest. -/
def keyInteger : Bool → IndexedEncounter → BitVec 288
  | true, e => e.timestamp ++ e.user
  | false, e => e.user ++ e.timestamp

def dataInteger : (includeIndex : Bool) → IndexedEncounter → BitVec (dataBits includeIndex)
  | true, e => e.payload ++ e.index
  | false, e => e.payload

/-- One round of `fillIntegers`. -/
def Mode.item (m : Mode) (e : IndexedEncounter) : Item m :=
  ⟨keyInteger m.timestampMajor e, dataInteger m.includeIndex e⟩

def withData : (includeIndex : Bool) → BitVec (dataBits includeIndex) → IndexedEncounter →
    IndexedEncounter
  | true, x, e => { e with index := x.extractLsb' 0 64, payload := x.extractLsb' 64 256 }
  | false, x, e => { e with payload := x }

def withKey : Bool → BitVec 288 → IndexedEncounter → IndexedEncounter
  | true, x, e => { e with user := x.extractLsb' 0 256, timestamp := x.extractLsb' 256 32 }
  | false, x, e => { e with timestamp := x.extractLsb' 0 32, user := x.extractLsb' 32 256 }

/-- One round of `revealIndexedEncounters`. -/
def IndexedEncounter.reveal {m : Mode} (e : IndexedEncounter) (x : Item m) : IndexedEncounter :=
  withKey m.timestampMajor x.key (withData m.includeIndex x.data e)

/-- The arrays of both parties, and how often Bob has drawn random records. -/
structure Shares where
  alice : Nat → IndexedEncounter
  bob : Nat → IndexedEncounter
  drawn : Nat

namespace Shares

variable {m : Mode} (rand : Nat → Nat → IndexedEncounter) (low count : Nat) (s : Shares)

/-- The Integers of both parties for the records from `low` on, XORed. -/
def combine (m : Mode) : Nat → Item m := fun i =>
  (m.item (s.alice (low + i))).xor (m.item (s.bob (low + i)))

/-- `randomizeIntegers`, for Bob. -/
def randomize : Shares :=
  { s with bob := putWindow low count (rand s.drawn) s.bob, drawn := s.drawn + 1 }

/-- The Integers of Bob's records. -/
def blinds (m : Mode) : Nat → Item m := fun i => m.item (s.bob (low + i))

/-- The results are blinded and revealed to Alice. -/
def reveal (out blinds : Nat → Item m) : Shares :=
  let revealed := fun i => (s.alice (low + i)).reveal ((out i).xor (blinds i))
  { s with alice := putWindow low count revealed s.alice }

/-- A circuit on the `count` records from `low` on. -/
def circuit (net : (Nat → Item m) → Nat → Item m) : Shares :=
  let out := net (s.combine low m)
  let s := s.randomize rand low count
  s.reveal low count out (s.blinds low m)

variable {β : Type} [LinearOrder β] (rank : BitVec 288 → β) (lower higher : Nat) (ascending : Bool)

/-- `mergeChunks2PC`. -/
def mergeChunks2PC (m : Mode) : Shares :=
  let lowerItems := s.combine lower m
  let higherItems := s.combine higher m
  let newLower := fun i => lowCell (rank ∘ Item.key) ascending (lowerItems i) (higherItems i)
  let newHigher := fun i => highCell (rank ∘ Item.key) ascending (lowerItems i) (higherItems i)
  let s := s.randomize rand lower count
  let lowerBlinds := s.blinds lower m
  let s := s.randomize rand higher count
  let higherBlinds := s.blinds higher m
  (s.reveal lower count newLower lowerBlinds).reveal higher count newHigher higherBlinds

end Shares

/-! ## What the arrays are about -/

theorem keyInteger_xor (timestampMajor : Bool) (e e' : IndexedEncounter) :
    keyInteger timestampMajor (e.xor e') =
      keyInteger timestampMajor e ^^^ keyInteger timestampMajor e' := by
  cases timestampMajor <;> exact BitVec.xor_append.symm

theorem dataInteger_xor (includeIndex : Bool) (e e' : IndexedEncounter) :
    dataInteger includeIndex (e.xor e') =
      dataInteger includeIndex e ^^^ dataInteger includeIndex e' := by
  cases includeIndex
  · rfl
  · exact BitVec.xor_append.symm

theorem item_xor (m : Mode) (e e' : IndexedEncounter) :
    m.item (e.xor e') = (m.item e).xor (m.item e') := by
  rw [Mode.item, keyInteger_xor, dataInteger_xor]
  rfl

theorem keyInteger_withKey (timestampMajor : Bool) (x : BitVec 288) (e : IndexedEncounter) :
    keyInteger timestampMajor (withKey timestampMajor x e) = x := by
  cases timestampMajor
  · exact @BitVec.extractLsb'_append_extractLsb' 256 32 x
  · exact @BitVec.extractLsb'_append_extractLsb' 32 256 x

theorem dataInteger_withData (includeIndex : Bool) (x : BitVec (dataBits includeIndex))
    (e : IndexedEncounter) : dataInteger includeIndex (withData includeIndex x e) = x := by
  cases includeIndex
  · rfl
  · exact @BitVec.extractLsb'_append_extractLsb' 256 64 x

theorem dataInteger_withKey (includeIndex timestampMajor : Bool) (x : BitVec 288)
    (e : IndexedEncounter) :
    dataInteger includeIndex (withKey timestampMajor x e) = dataInteger includeIndex e := by
  cases includeIndex <;> cases timestampMajor <;> rfl

/-- What is revealed is in the record. -/
theorem item_reveal {m : Mode} (e : IndexedEncounter) (x : Item m) : m.item (e.reveal x) = x := by
  rw [Mode.item, IndexedEncounter.reveal, keyInteger_withKey, dataInteger_withKey,
    dataInteger_withData]

theorem xor_cancel {m : Mode} (x y : Item m) : (x.xor y).xor y = x := by
  simp [Item.xor]

namespace Shares

variable {m : Mode} {rand : Nat → Nat → IndexedEncounter} {low count : Nat} {s : Shares}

/-- What the arrays of both parties are about. -/
def opened (m : Mode) (s : Shares) : Nat → Item m := fun p => m.item ((s.alice p).xor (s.bob p))

theorem combine_eq (s : Shares) (low : Nat) :
    s.combine low m = fun i => s.opened m (low + i) := by
  funext i
  rw [opened, item_xor, combine]

/-- A circuit does to the records what its network does. -/
theorem opened_circuit (net : (Nat → Item m) → Nat → Item m) :
    (s.circuit rand low count net).opened m =
      putWindow low count (net fun i => s.opened m (low + i)) (s.opened m) := by
  refine (eq_putWindow (fun i hi => ?_) fun p hp => ?_).symm
  · simp only [opened, circuit, reveal, randomize, blinds]
    rw [putWindow_of_lt hi, putWindow_of_lt hi, item_xor, item_reveal, xor_cancel, combine_eq]
    rfl
  · simp only [opened, circuit, reveal, randomize, blinds]
    rw [putWindow_of_not (by omega), putWindow_of_not (by omega)]

variable {β : Type} [LinearOrder β] (rank : BitVec 288 → β) (lower higher : Nat) (ascending : Bool)

/-- Two chunks are compared cell by cell; where they overlap, the higher one is put back. -/
theorem opened_mergeChunks2PC :
    (s.mergeChunks2PC rand count rank lower higher ascending m).opened m =
      putWindow higher count (fun i => highCell (rank ∘ Item.key) ascending
        (s.opened m (lower + i)) (s.opened m (higher + i)))
        (putWindow lower count (fun i => lowCell (rank ∘ Item.key) ascending
          (s.opened m (lower + i)) (s.opened m (higher + i))) (s.opened m)) := by
  funext p
  simp only [opened, mergeChunks2PC, reveal, randomize, blinds, combine_eq]
  by_cases hhigh : higher ≤ p ∧ p < higher + count
  · obtain ⟨i, rfl⟩ := Nat.exists_eq_add_of_le hhigh.1
    have hi : i < count := by omega
    simp only [putWindow_of_lt hi, item_xor, item_reveal, xor_cancel]
  · simp only [putWindow_of_not hhigh]
    by_cases hlow : lower ≤ p ∧ p < lower + count
    · obtain ⟨i, rfl⟩ := Nat.exists_eq_add_of_le hlow.1
      have hi : i < count := by omega
      simp only [putWindow_of_lt hi, item_xor, item_reveal, xor_cancel]
    · simp only [putWindow_of_not hlow]
      rfl

end Shares

end CoVault.TwoPartySort
