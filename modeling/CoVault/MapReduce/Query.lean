import CoVault.Circuit.Bits

/-!
# Tiles and the transport between reducers

A tile is the value of one key of the store: the bits of its encounters in a row, each
with two device ids, a duration, flags and a confirmation byte whose bits arrive in
reverse. Processes pass lists of words on in reverse order and always with `hashbits`
bits a word, whatever the width of the word; bits a word does not have are read from
whatever lies behind it.
-/

namespace CoVault.MapReduce

open Circuit

def didbits : Nat := 256
def hashbits : Nat := 32
def tilebits : Nat := 2 * 256 + 32 + 16 + 8

/-- The value of a key, by the number of the bit. -/
abbrev Tile := Nat → Bool

namespace Tile

variable (redisValue : Tile) (j : Nat)

def did1 : BitVec didbits :=
  ofBits didbits ((List.range didbits).map fun i => redisValue (j * tilebits + i))

def did2 : BitVec didbits :=
  ofBits didbits ((List.range didbits).map fun i => redisValue (j * tilebits + didbits + i))

/-- The byte is filled from its last bit down. -/
def conf : Integer :=
  let skip := tilebits - 8
  (List.range 8).map fun i => redisValue (j * tilebits + skip + (7 - i))

/-- `(did_1 == sick) & (conf.bits[0] == confirmed)`. -/
def isMatch (sick : BitVec didbits) : Bool :=
  redisValue.did1 j == sick && (redisValue.conf j).getD 0 false == true

/-- A tile of encounters given by id, id met and confirmation. -/
def ofEncounters (l : List (BitVec didbits × BitVec didbits × Bool)) : Tile := fun n =>
  match l[n / tilebits]? with
  | none => false
  | some (did1, did2, confirmed) =>
    let i := n % tilebits
    if i < didbits then did1.getLsbD i
    else if i < 2 * didbits then did2.getLsbD (i - didbits)
    else i == tilebits - 1 && confirmed

/-- The encounters of a tile that the query is about. -/
def matchCount (tileSize : Nat) (sick : BitVec didbits) : Nat :=
  (List.range tileSize).countP fun j => redisValue.isMatch j sick

end Tile

/-! ## Transport -/

section Transport

/-- The `hashbits` bits that are sent of a word; `beyond` is what lies behind it. -/
def sentWord (beyond : Nat → Bool) (x : Integer) : Integer :=
  (List.range hashbits).map fun j => x.getD j (beyond j)

/-- The words in reverse order. -/
def reversedBlocks (beyond : Nat → Bool) (list : List Integer) : List Bool :=
  list.reverse.flatMap (sentWord beyond)

/-- `listSize` words of `hashbits` bits, in the order in which they come. -/
def loadWords (blocks : List Bool) (listSize : Nat) : List Integer :=
  (List.range listSize).map fun i =>
    (List.range hashbits).map fun j => blocks.getD (i * hashbits + j) false

/-- Into the vector in shared memory. -/
def sender := reversedBlocks

/-- From the vector in shared memory. -/
def receiver := loadWords

/-- Onto a socket. -/
def sendListReverse := reversedBlocks

/-- From a socket. -/
def receiveList := loadWords

/-- How two processes of the reduce tree are connected. -/
inductive Channel where
  /-- on one machine -/
  | sharedMemory
  /-- between machines -/
  | socket
  deriving DecidableEq, Repr

def Channel.transport (c : Channel) (beyond : Nat → Bool) (list : List Integer) : List Integer :=
  match c with
  | .sharedMemory => receiver (sender beyond list) list.length
  | .socket => receiveList (sendListReverse beyond list) list.length

variable (beyond : Nat → Bool)

@[simp] theorem length_sentWord (x : Integer) : (sentWord beyond x).length = hashbits := by
  simp [sentWord]

theorem getD_sentWord (x : Integer) {j : Nat} (hj : j < hashbits) (d : Bool) :
    (sentWord beyond x).getD j d = x.getD j (beyond j) := by
  simp [sentWord, List.getD_eq_getElem?_getD, hj]

/-- A word of the usual width arrives as it was. -/
theorem sentWord_of_length {x : Integer} (h : x.length = hashbits) : sentWord beyond x = x := by
  apply List.ext_getElem (by simp [h])
  intro j hj hj'
  simp [sentWord, hj']

theorem flatMap_sentWord_getD {l : List Integer} {x : Integer} {i j : Nat} (hi : l[i]? = some x)
    (hj : j < hashbits) : (l.flatMap (sentWord beyond)).getD (i * hashbits + j) false =
      (sentWord beyond x).getD j false := by
  induction l generalizing i with
  | nil => simp at hi
  | cons y l ih =>
    rw [List.flatMap_cons, List.getD_eq_getElem?_getD]
    cases i with
    | zero =>
      rw [List.getElem?_cons_zero, Option.some.injEq] at hi
      rw [List.getElem?_append_left (by simpa using hj), hi, Nat.zero_mul, Nat.zero_add,
        List.getD_eq_getElem?_getD]
    | succ i =>
      rw [List.getElem?_append_right (by rw [length_sentWord, Nat.succ_mul]; omega),
        length_sentWord, ← List.getD_eq_getElem?_getD, Nat.succ_mul,
        show i * hashbits + hashbits + j - hashbits = i * hashbits + j by omega]
      exact ih hi

theorem loadWords_reversedBlocks (list : List Integer) :
    loadWords (reversedBlocks beyond list) list.length = list.reverse.map (sentWord beyond) := by
  apply List.ext_getElem (by simp [loadWords])
  intro i hi hi'
  have hlen : i < list.reverse.length := by simpa [loadWords] using hi
  simp only [loadWords, List.getElem_map, List.getElem_range]
  apply List.ext_getElem (by simp)
  intro j hj hj'
  have hj32 : j < hashbits := by simpa using hj
  rw [List.getElem_map, List.getElem_range, reversedBlocks,
    flatMap_sentWord_getD beyond (List.getElem?_eq_getElem hlen) hj32, List.getD_eq_getElem?_getD,
    List.getElem?_eq_getElem hj', Option.getD_some]

/-- Either kind of channel reverses the list and cuts or pads its words. -/
theorem Channel.transport_eq (c : Channel) (list : List Integer) :
    c.transport beyond list = list.reverse.map (sentWord beyond) := by
  cases c <;> exact loadWords_reversedBlocks beyond list

end Transport

end CoVault.MapReduce
