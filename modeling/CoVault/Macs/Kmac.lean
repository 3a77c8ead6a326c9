import CoVault.Circuit.Bits

/-!
# KMAC-256 over in-circuit integers

The length encoders write a number as its bytes, lowest first, with the count of the
bytes before them or behind them. `encode_string` and `bytepad` exist twice: over byte
vectors, and over vectors of in-circuit integers, where the bytes of a prefix go in
front of the vector one at a time. The second pair is what the key runs through.

Hashing is outside this module: a call stops at the integers given to `sha3_256`.
-/

namespace CoVault.Macs

open CoVault.Circuit

abbrev Byte := BitVec 8

/-! ## Byte-level encoders -/

/-- `do { n++; tmp >>= 8; } while (tmp > 0)`. -/
def byteCount (tmp : BitVec 64) : Nat :=
  if 0 < tmp >>> 8 then byteCount (tmp >>> 8) + 1 else 1
termination_by tmp.toNat
decreasing_by
  rename_i more
  simp only [BitVec.lt_def, BitVec.toNat_ushiftRight, Nat.shiftRight_eq_div_pow] at more ⊢
  omega

/-- The `n` lowest bytes, lowest first. -/
def littleEndian : Nat → BitVec 64 → List Byte
  | 0, _ => []
  | n + 1, x => x.setWidth 8 :: littleEndian n (x >>> 8)

def rightEncode (x : BitVec 64) : List Byte :=
  let n := byteCount x
  littleEndian n x ++ [BitVec.ofNat 8 n]

def leftEncode (x : BitVec 64) : List Byte :=
  let n := byteCount x
  BitVec.ofNat 8 n :: littleEndian n x

def encodeString (s : List Byte) : List Byte :=
  leftEncode (BitVec.ofNat 64 s.length) ++ s

def paddingSize (w size : Nat) : Nat :=
  if w - size % w = w then 0 else w - size % w

def bytepad (x : List Byte) (w : Nat) : List Byte :=
  let output := leftEncode (BitVec.ofNat 64 w) ++ x
  output ++ List.replicate (paddingSize w output.length) 0

/-! ## The same over in-circuit integers -/

def zeroByte : Integer := bitsOf (0 : Byte)

/-- `for (byte : bytes) inputs.insert(inputs.begin(), Integer(8, byte))`. -/
def insertFront (inputs : List Integer) (bytes : List Byte) : List Integer :=
  bytes.foldl (fun inputs byte => bitsOf byte :: inputs) inputs

def encodeStringIntegers (inputs : List Integer) (bitwidth : Nat) : List Integer :=
  insertFront inputs (leftEncode (BitVec.ofNat 64 (bitwidth / 8 * inputs.length)))

/-- The width of the integers is an argument that the body does not look at. -/
def bytepadIntegers (inputs : List Integer) (_bitwidth w : Nat) : List Integer :=
  let prefixed := insertFront inputs (leftEncode (BitVec.ofNat 64 w))
  prefixed ++ List.replicate (paddingSize w prefixed.length) zeroByte

/-- The last parameter of the second `bytepad`, where a call leaves it out. -/
def defaultWidth : Nat := 168

def L : BitVec 64 := 256

/-- "KMAC" -/
def N : List Byte := [0x4b, 0x4d, 0x41, 0x43]

def S : List Byte := []

/-- The integers that `cshake_256` gives to `sha3_256`: a vector, of which `sha3_256`
reads `inputCount` integers. -/
def cshake256 (inputs : List Integer) (inputCount : Nat) : List Integer :=
  (insertFront inputs (bytepad (encodeString N ++ encodeString S) 136)).take inputCount

/-- The integers that `kmac_256` gives to `sha3_256`. Its call of `bytepad` has one number
after the vector, and the parameter in that place is the width of the integers. -/
def kmac256 (inputs : List Integer) (key : BitVec 128) : List Integer :=
  let newInputs := encodeStringIntegers [bitsOf key] 128
  let newInputs := bytepadIntegers newInputs 136 defaultWidth
  let newInputs := newInputs ++ inputs
  let newInputs := newInputs ++ (rightEncode L).map bitsOf
  -- the size is taken before `cshake_256` puts its own prefix in front
  cshake256 newInputs newInputs.length

/-! ## What the byte-level encoders give -/

def bitString (bytes : List Byte) : Integer := (bytes.map bitsOf).flatten

/-- A key as a byte vector, lowest byte first. -/
def bytesOf (key : BitVec 128) : List Byte :=
  List.ofFn fun i : Fin 16 => key.extractLsb' (8 * i) 8

/-- The bit string of KMAC-256, with every part from the byte-level encoders. -/
def byteLevel (inputs : List Integer) (key : BitVec 128) : Integer :=
  bitString (bytepad (encodeString N ++ encodeString S) 136) ++
    bitString (bytepad (encodeString (bytesOf key)) 136) ++ inputs.flatten ++
    bitString (rightEncode L)

/-! ## Small numbers -/

theorem byteCount_of_lt {x : BitVec 64} (h : x < 256) : byteCount x = 1 := by
  have gone : ¬ 0 < x >>> 8 := by
    have small : x.toNat < 256 := h
    have shift : (x >>> 8).toNat = x.toNat / 256 := by
      rw [BitVec.toNat_ushiftRight, Nat.shiftRight_eq_div_pow]
    bv_omega
  rw [byteCount, if_neg gone]

/-- A number below 256 takes one byte. -/
theorem leftEncode_of_lt {x : BitVec 64} (h : x < 256) : leftEncode x = [1, x.setWidth 8] := by
  simp [leftEncode, byteCount_of_lt h, littleEndian]

theorem rightEncode_L : rightEncode L = [0, 1, 2] := by
  have two : byteCount L = 2 := by
    rw [byteCount, if_pos (by decide), byteCount_of_lt (by decide)]
  simp only [rightEncode, two]
  decide

/-! ## Prefixes of the integer vectors -/

/-- One at a time in front: the bytes come out in the opposite order. -/
theorem insertFront_eq (inputs : List Integer) (bytes : List Byte) :
    insertFront inputs bytes = bytes.reverse.map bitsOf ++ inputs := by
  induction bytes generalizing inputs with
  | nil => rfl
  | cons byte bytes ih =>
    calc insertFront inputs (byte :: bytes) = insertFront (bitsOf byte :: inputs) bytes := rfl
      _ = bytes.reverse.map bitsOf ++ bitsOf byte :: inputs := ih _
      _ = (byte :: bytes).reverse.map bitsOf ++ inputs := by simp

theorem namePrefix_eq : bytepad (encodeString N ++ encodeString S) 136 =
    [1, 136, 1, 4, 0x4b, 0x4d, 0x41, 0x43, 1, 0] ++ List.replicate 126 0 := by
  simp only [bytepad, encodeString, leftEncode_of_lt (x := BitVec.ofNat 64 N.length) (by decide),
    leftEncode_of_lt (x := BitVec.ofNat 64 S.length) (by decide),
    leftEncode_of_lt (x := BitVec.ofNat 64 136) (by decide)]
  decide

/-- The key between the reversed prefixes and 163 zero bytes: the block has 168 integers,
of which the key is one. -/
theorem keyBlock_eq (key : BitVec 128) :
    bytepadIntegers (encodeStringIntegers [bitsOf key] 128) 136 defaultWidth =
      ([168, 1, 16, 1] : List Byte).map bitsOf ++ bitsOf key :: List.replicate 163 zeroByte := by
  simp only [bytepadIntegers, encodeStringIntegers, insertFront_eq, defaultWidth]
  rw [leftEncode_of_lt (by decide), leftEncode_of_lt (by simp)]
  simp [paddingSize]

/-- Everything in front of the inputs, in the vector that `sha3_256` gets. -/
def front (key : BitVec 128) : List Integer :=
  (bytepad (encodeString N ++ encodeString S) 136).reverse.map bitsOf ++
    bytepadIntegers (encodeStringIntegers [bitsOf key] 128) 136 defaultWidth

theorem length_front (key : BitVec 128) : (front key).length = 304 := by
  rw [front, namePrefix_eq, keyBlock_eq]
  simp only [List.length_append, List.length_map, List.length_reverse, List.length_cons,
    List.length_nil, List.length_replicate]

/-- The vector of a call, and how much of it is read. -/
theorem kmac256_eq (inputs : List Integer) (key : BitVec 128) :
    kmac256 inputs key =
      (front key ++ inputs ++ (rightEncode L).map bitsOf).take (inputs.length + 171) := by
  have count : (bytepadIntegers (encodeStringIntegers [bitsOf key] 128) 136 defaultWidth ++
      inputs ++ (rightEncode L).map bitsOf).length = inputs.length + 171 := by
    rw [keyBlock_eq, rightEncode_L]
    simp only [List.length_append, List.length_map, List.length_cons, List.length_nil,
      List.length_replicate]
    omega
  simp only [kmac256, cshake256, insertFront_eq, count]
  simp only [front, List.append_assoc]

/-! ## Against the byte-level string -/

/-- The bit string starts with the last padding byte of the name block. -/
theorem kmac256_head (inputs : List Integer) (key : BitVec 128) :
    (kmac256 inputs key).flatten.head? = some false := by
  rw [kmac256_eq, front, namePrefix_eq]
  rfl

/-- The bit string of the byte-level encoders starts with the length of `left_encode(136)`. -/
theorem byteLevel_head (inputs : List Integer) (key : BitVec 128) :
    (byteLevel inputs key).head? = some true := by
  rw [byteLevel, namePrefix_eq]
  rfl

theorem heads_ne (inputs : List Integer) (key : BitVec 128) :
    (kmac256 inputs key).flatten.head? ≠ (byteLevel inputs key).head? := by
  rw [kmac256_head, byteLevel_head]
  simp

/-- No key and no inputs give `sha3_256` the byte-level string. -/
theorem kmac256_ne_byteLevel (inputs : List Integer) (key : BitVec 128) :
    (kmac256 inputs key).flatten ≠ byteLevel inputs key := fun same =>
  heads_ne inputs key (congrArg List.head? same)

/-- Key 42 and one input, the byte 7. -/
theorem oneInput_ne :
    (kmac256 [bitsOf (7 : Byte)] 42).flatten ≠ byteLevel [bitsOf (7 : Byte)] 42 := fun same =>
  heads_ne _ _ (congrArg List.head? same)

/-! ## What the hash depends on -/

/-- What is read: of the front all but what few inputs leave no room for, and of the inputs all
but the last 133. -/
theorem kmac256_eq_append (inputs : List Integer) (key : BitVec 128) : kmac256 inputs key =
    (front key).take (inputs.length + 171) ++ inputs.take (inputs.length - 133) := by
  have hrest : inputs.length + 171 - (front key).length = inputs.length - 133 := by
    rw [length_front]
    omega
  rw [kmac256_eq, List.append_assoc, List.take_append, hrest,
    List.take_append_of_le_length (Nat.sub_le _ _)]

theorem length_kmac256 (inputs : List Integer) (key : BitVec 128) :
    (kmac256 inputs key).length = inputs.length + 171 := by
  rw [kmac256_eq_append, List.length_append, List.length_take, List.length_take, length_front]
  omega

/-- The key stands behind the reversed prefixes. -/
theorem getElem?_front (key : BitVec 128) : (front key)[140]? = some (bitsOf key) := by
  have hname : ((bytepad (encodeString N ++ encodeString S) 136).reverse.map bitsOf).length =
      136 := by
    rw [List.length_map, List.length_reverse, namePrefix_eq, List.length_append,
      List.length_replicate]
    rfl
  rw [front, List.getElem?_append_right (hname.trans_le (by decide)), hname, keyBlock_eq]
  rfl

theorem getElem?_kmac256 (inputs : List Integer) (key : BitVec 128) :
    (kmac256 inputs key)[140]? = some (bitsOf key) := by
  have hread : 140 < inputs.length + 171 := by omega
  have hinside : 140 < ((front key).take (inputs.length + 171)).length := by
    rw [List.length_take, length_front]
    omega
  rw [kmac256_eq_append, List.getElem?_append_left hinside, List.getElem?_take_of_lt hread,
    getElem?_front]

/-- Two calls hash the same integers if and only if the keys and the numbers of inputs are the
same and the inputs are, except for the last 133: these are not authenticated. -/
theorem kmac256_eq_iff (inputs inputs' : List Integer) (key key' : BitVec 128) :
    kmac256 inputs key = kmac256 inputs' key' ↔ key = key' ∧ inputs.length = inputs'.length ∧
      inputs.take (inputs.length - 133) = inputs'.take (inputs'.length - 133) := by
  constructor
  · intro same
    have hlen : inputs.length = inputs'.length := by
      have hcount := congrArg List.length same
      rw [length_kmac256, length_kmac256] at hcount
      exact Nat.add_right_cancel hcount
    have hkey : some (bitsOf key) = some (bitsOf key') := by
      rw [← getElem?_kmac256 inputs, same, getElem?_kmac256]
    rw [kmac256_eq_append, kmac256_eq_append, hlen] at same
    have hfront : ((front key).take (inputs'.length + 171)).length =
        ((front key').take (inputs'.length + 171)).length := by
      rw [List.length_take, List.length_take, length_front, length_front]
    have hinputs := (List.append_inj same hfront).2
    refine ⟨bitsOf_injective (Option.some.inj hkey), hlen, ?_⟩
    rw [hlen]
    exact hinputs
  · rintro ⟨rfl, hlen, hinputs⟩
    rw [kmac256_eq_append, kmac256_eq_append, hinputs, hlen]

end CoVault.Macs
