import CoVault.Encounters.Fields

/-!
# HMAC over encoded encounters

The circuit in `sha-256.txt` takes one block of 512 bits, and `compute` reads no more of the
integer it is given. Of the two blocks that go into the inner hash the key is in the second, and
of the three halves that go into the outer one it reaches into the third.

The circuit is a parameter.
-/

namespace CoVault.Macs

open Circuit Encounters Library.Slices

def BLOCK_SIZE_SHA_256 : Nat := 512
def OUTPUT_SIZE_SHA_256 : Nat := 256

/-- Which bits of an integer a field is, in the encoding that the function expects: the first,
and their number. -/
def fieldBits : FieldName → Option (Nat × Nat)
  | .id => some (0, 32 * 8)
  | .device => some (32 * 8, 2 * 32 * 8)
  | .time => some (32 * 8 + 2 * 32 * 8, 32 + 16)
  | _ => none

/-- The `switch`: the first bits of `m` are written. -/
def copyField (field : FieldName) (integer m : Integer) : Integer :=
  match fieldBits field with
  | some (start, count) => overwrite m 0 (slice integer start count)
  | none => m

section Code

variable (sha : BitVec 512 → BitVec 256)

/-- `cf.compute`: the circuit has 512 inputs and 256 outputs. -/
def compute (input : Integer) : Integer := bitsOf (sha (ofBits 512 input))

variable (field : FieldName) (key opad ipad : BitVec 512)

/-- One integer: `m` and `hash` after it. -/
def hmacStep (s : Integer × Integer) (integer : Integer) : Integer × Integer :=
  let m := copyField field integer s.1
  let hashMe := m ++ bitsOf (key ^^^ ipad)
  let hash := compute sha hashMe
  let hashMeAgain := hash ++ bitsOf (key ^^^ opad)
  (m, compute sha hashMeAgain)

def hmacSha256Integers (integer : List Integer) (count : Int) : Integer :=
  ((integer.take count.toNat).foldl (hmacStep sha field key opad ipad)
    (List.replicate BLOCK_SIZE_SHA_256 false, List.replicate OUTPUT_SIZE_SHA_256 false)).2

/-- The same in `hmacShaXIntegers`: the loop has a `hash` of its own, which hides the other. -/
def hmacShaXStep (outputSize : Nat) (s : Integer × Integer) (integer : Integer) :
    Integer × Integer :=
  let m := copyField field integer s.1
  let hash := compute sha (m ++ bitsOf (key ^^^ ipad))
  let _hash := compute sha (hash.take outputSize ++ bitsOf (key ^^^ opad))
  (m, s.2)

/-- A number other than 256 and 1 ends the program. -/
def hmacShaXIntegers (SHA : BitVec 16) (integer : List Integer) (count : Int) : Option Integer :=
  let loop outputSize := ((integer.take count.toNat).foldl
    (hmacShaXStep sha field key opad ipad outputSize)
    (List.replicate BLOCK_SIZE_SHA_256 false, List.replicate outputSize false)).2
  if SHA = 256 then some (loop 256) else if SHA = 1 then some (loop 160) else none

end Code

/-! ## What is hashed -/

/-- The fields that the callers encode. -/
def hmacFields : List FieldName := [.id, .device, .encountered, .time, .duration]

/-- The encoded fields of an encounter. -/
def encoded (e : Encounter) : Integer := hmacFields.flatMap e.toBool

/-- What the function takes of an encounter. -/
def taken (e : Encounter) : FieldName → Integer
  | .id => bitsOf e.id
  | .device => bitsOf e.device ++ bitsOf e.encountered
  | .time => bitsOf e.time ++ bitsOf e.duration
  | _ => []

/-- The same filled up with zeros to a block. -/
def message (e : Encounter) (field : FieldName) : Integer :=
  taken e field ++ List.replicate (BLOCK_SIZE_SHA_256 - (taken e field).length) false

theorem length_taken_le (e : Encounter) (field : FieldName) :
    (taken e field).length ≤ BLOCK_SIZE_SHA_256 := by
  cases field <;> simp [taken, BLOCK_SIZE_SHA_256]

theorem length_message (e : Encounter) (field : FieldName) :
    (message e field).length = BLOCK_SIZE_SHA_256 := by
  rw [message, List.length_append, List.length_replicate,
    Nat.add_sub_cancel' (length_taken_le e field)]

theorem encoded_eq (e : Encounter) :
    encoded e = taken e .id ++ (taken e .device ++ taken e .time) := by
  simp [encoded, hmacFields, Encounter.toBool, taken]

theorem slice_zero {xs : Integer} {n : Nat} (h : xs.length = n) : slice xs 0 n = xs := by
  rw [← h, slice_length]

/-- The fields stand where the function looks for them. -/
theorem copyField_encoded (field : FieldName) (e : Encounter) (m : Integer) :
    copyField field (encoded e) m = taken e field ++ m.drop (taken e field).length := by
  have hid : (taken e .id).length = 256 := length_bitsOf _
  have hdevice : (taken e .device).length = 512 := by simp [taken]
  have htime : (taken e .time).length = 48 := by simp [taken]
  have hwrite : ∀ ys : Integer, overwrite m 0 ys = ys ++ m.drop ys.length := by
    intro ys
    rw [overwrite, List.take_zero, List.nil_append, Nat.zero_add]
  rw [encoded_eq]
  cases field with
  | id =>
    change overwrite m 0 (slice _ 0 256) = _
    rw [slice_append_left (by omega), slice_zero hid, hwrite]
  | device =>
    change overwrite m 0 (slice _ 256 512) = _
    rw [slice_append_right (by omega), hid, slice_append_left (by omega), slice_zero hdevice,
      hwrite]
  | time =>
    change overwrite m 0 (slice _ 768 48) = _
    rw [slice_append_right (by omega), hid, slice_append_right (by omega), hdevice,
      slice_zero htime, hwrite]
  | _ => rfl

/-- Nothing but zeros follows the bits that are written, before the first integer and after
each. -/
def ZerosBehind (field : FieldName) (m : Integer) : Prop :=
  ∀ e, m.drop (taken e field).length =
    List.replicate (BLOCK_SIZE_SHA_256 - (taken e field).length) false

theorem zerosBehind_zeros (field : FieldName) :
    ZerosBehind field (List.replicate BLOCK_SIZE_SHA_256 false) := fun _ => List.drop_replicate

theorem length_taken (e e' : Encounter) (field : FieldName) :
    (taken e field).length = (taken e' field).length := by
  cases field <;> simp [taken]

theorem zerosBehind_message (e : Encounter) (field : FieldName) :
    ZerosBehind field (message e field) := by
  intro e'
  rw [message, length_taken e' e, List.drop_left]

/-! ## The loop -/

variable (sha : BitVec 512 → BitVec 256)

theorem length_compute (input : Integer) : (compute sha input).length = 256 := length_bitsOf _

/-- What stands behind the first block is not read. -/
theorem compute_append {xs : Integer} (h : xs.length = BLOCK_SIZE_SHA_256) (rest : Integer) :
    compute sha (xs ++ rest) = compute sha xs := by
  have hxs : xs = bitsOf (ofBits 512 xs) := (bitsOf_ofBits h).symm
  rw [compute, compute, hxs, ofBits_append, ofBits_bitsOf]

/-- The tag of one encounter: the key comes in with the outer hash alone, and by its first half. -/
def hmacTag (field : FieldName) (key opad : BitVec 512) (e : Encounter) : Integer :=
  compute sha (compute sha (message e field) ++ (bitsOf (key ^^^ opad)).take 256)

variable (field : FieldName) (key opad ipad : BitVec 512)

theorem hmacStep_eq (e : Encounter) {s : Integer × Integer} (hm : ZerosBehind field s.1) :
    hmacStep sha field key opad ipad s (encoded e) =
      (message e field, hmacTag sha field key opad e) := by
  have hcopy : copyField field (encoded e) s.1 = message e field := by
    rw [copyField_encoded, hm, message]
  have houter : ∀ hash : Integer, hash.length = 256 →
      compute sha (hash ++ bitsOf (key ^^^ opad)) =
        compute sha (hash ++ (bitsOf (key ^^^ opad)).take 256) := by
    intro hash hlen
    have hblock : (hash ++ (bitsOf (key ^^^ opad)).take 256).length = BLOCK_SIZE_SHA_256 := by
      simp [hlen, BLOCK_SIZE_SHA_256]
    rw [← List.take_append_drop 256 (bitsOf (key ^^^ opad)), ← List.append_assoc,
      compute_append sha hblock, List.take_append_drop]
  rw [hmacStep]
  simp only [hcopy, compute_append sha (length_message e field)]
  rw [houter _ (length_compute sha _), hmacTag]

theorem foldl_hmacStep (es : List Encounter) (e : Encounter) {s : Integer × Integer}
    (hm : ZerosBehind field s.1) :
    ((es ++ [e]).map encoded).foldl (hmacStep sha field key opad ipad) s =
      (message e field, hmacTag sha field key opad e) := by
  induction es generalizing s with
  | nil => exact hmacStep_eq sha field key opad ipad e hm
  | cons e' es ih =>
    rw [List.cons_append, List.map_cons, List.foldl_cons, hmacStep_eq sha field key opad ipad e' hm]
    exact ih (zerosBehind_message e' field)

/-- The tag of a list of encounters is that of the last one alone, over a hash that no key goes
into: `ipad` and the second half of the key have no part in it. -/
theorem hmacSha256Integers_fillIntegers (buffer : Nat → Bool) (es : List Encounter)
    (e : Encounter) :
    hmacSha256Integers sha field key opad ipad
        (fillIntegers buffer (es ++ [e]) false hmacFields) (es.length + 1) =
      compute sha (compute sha (message e field) ++ (bitsOf (key ^^^ opad)).take 256) := by
  have hencoded : fillIntegers buffer (es ++ [e]) false hmacFields = (es ++ [e]).map encoded := rfl
  have hcount : ((es.length : Int) + 1).toNat = es.length + 1 := by omega
  have hall : ((es ++ [e]).map encoded).take (es.length + 1) = (es ++ [e]).map encoded :=
    List.take_of_length_le (by simp)
  rw [hmacSha256Integers, hencoded, hcount, hall,
    foldl_hmacStep sha field key opad ipad es e (zerosBehind_zeros field), hmacTag]

/-- Whatever is given to `hmacShaXIntegers`, its tag is zero. -/
theorem hmacShaXIntegers_mem (SHA : BitVec 16) (integer : List Integer) (count : Int) :
    ∀ tag ∈ hmacShaXIntegers sha field key opad ipad SHA integer count,
      ∃ size, tag = List.replicate size false := by
  have hkept : ∀ (outputSize : Nat) (integer : List Integer) (s : Integer × Integer),
      (integer.foldl (hmacShaXStep sha field key opad ipad outputSize) s).2 = s.2 := by
    intro outputSize integer
    induction integer with
    | nil => exact fun _ => rfl
    | cons x xs ih => exact fun s => ih _
  intro tag htag
  rw [hmacShaXIntegers] at htag
  simp only [hkept] at htag
  split_ifs at htag
  · exact ⟨256, (Option.some.inj htag).symm⟩
  · exact ⟨160, (Option.some.inj htag).symm⟩
  · cases htag

end CoVault.Macs
