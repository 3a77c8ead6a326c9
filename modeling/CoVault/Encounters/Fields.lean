import CoVault.Circuit.Bits

/-!
# Encounters and their encoding

An encounter is written into one in-circuit integer field by field, in an order the
caller names; an empty list of names stands for the traditional order.
-/

namespace CoVault.Encounters

open Circuit

inductive FieldName where
  | none | id | device | encountered | latitude | longitude | tile | time | previous | next
  | duration | confirmed | reciprocated
  deriving DecidableEq, Repr

/-- `struct encounter`; multi-byte numbers and byte arrays alike start with their lowest byte. -/
structure Encounter where
  id : BitVec 256
  device : BitVec 256
  encountered : BitVec 256
  latitude : BitVec 32
  longitude : BitVec 32
  tile : BitVec 32
  time : BitVec 32
  previous : BitVec 32
  next : BitVec 32
  duration : BitVec 16
  confirmed : BitVec 8
  reciprocated : Bool
  deriving DecidableEq

/-- How many bits a field takes up in the encoding. -/
def FieldName.width : FieldName → Nat
  | .none => 0
  | .id | .device | .encountered => 256
  | .latitude | .longitude | .tile | .time | .previous | .next => 32
  | .duration => 16
  | .confirmed => 8
  | .reciprocated => 1

/-- The bits of one field. -/
def Encounter.toBool (e : Encounter) : FieldName → Integer
  | .none => []
  | .id => bitsOf e.id
  | .device => bitsOf e.device
  | .encountered => bitsOf e.encountered
  | .latitude => bitsOf e.latitude
  | .longitude => bitsOf e.longitude
  | .tile => bitsOf e.tile
  | .time => bitsOf e.time
  | .previous => bitsOf e.previous
  | .next => bitsOf e.next
  | .duration => bitsOf e.duration
  | .confirmed => bitsOf e.confirmed
  | .reciprocated => [e.reciprocated]

@[simp] theorem Encounter.length_toBool (e : Encounter) (f : FieldName) :
    (e.toBool f).length = f.width := by
  cases f <;> simp [toBool, FieldName.width]

def traditionalOrder : List FieldName :=
  [.id, .device, .encountered, .latitude, .longitude, .tile, .time, .previous, .next, .duration,
    .confirmed, .reciprocated]

/-- The names `field_1`, `field_2`, ... that a call gives, or all fields where the first is
`NONE`. -/
def fieldOrder (fields : List FieldName) : List FieldName :=
  if fields.headD .none = .none then traditionalOrder else fields

/-- `fillIntegers`. The buffer of bits is shared by all encounters; a dummy call passes on
whatever it holds. -/
def fillIntegers (buffer : Nat → Bool) (encounters : List Encounter) (dummy : Bool)
    (fields : List FieldName) : List Integer :=
  if dummy then
    encounters.map fun _ => List.ofFn fun i : Fin ((fieldOrder fields).map FieldName.width).sum =>
      buffer i
  else encounters.map fun e => (fieldOrder fields).flatMap e.toBool

end CoVault.Encounters
