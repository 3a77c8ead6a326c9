import CoVault.Dualex.Revealer
import CoVault.Encounters.Fields

/-!
# Storing path encounters

`store_path_encounter` turns in-circuit encounters into records, one after the other:
a lookup key, which is a MAC of device and time and is opened to both sides, and 64
bytes for the storing side, which hold the other fields under the cipher of the other
side followed by the start of their MAC.
-/

namespace CoVault.PathStore

open Circuit Dualex Encounters Library.Slices

/-- `storable_path_encounter`. -/
@[ext] structure StorablePathEncounter where
  key : BitVec 256
  encrypted : BitVec 512
  deriving DecidableEq

/-- Bits in the encrypted portion: encountered device, previous time, duration, confirmed. -/
def encryptedBits : Nat := 312

/-- Bits in what the lookup key is made from: device and time. -/
def lookupBits : Nat := 288

/-- Where a field goes in what the lookup key is made from. -/
def lookupOffset : FieldName → Option Nat
  | .device => some 0
  | .time => some 256
  | _ => none

/-- Where a field goes in the encrypted portion. -/
def encryptedOffset : FieldName → Option Nat
  | .encountered => some 0
  | .previous => some 256
  | .duration => some 288
  | .confirmed => some 304
  | _ => none

/-- Position in the input and the two integers the fields are copied to. -/
structure Layout where
  i : Nat
  hashMe : Integer
  encryptMe : Integer

/-- One round of the loop over the field names. -/
def Layout.copy (input : Integer) (l : Layout) (field : FieldName) : Layout where
  i := l.i + field.width
  hashMe := match lookupOffset field with
    | some off => overwrite l.hashMe off (slice input l.i field.width)
    | none => l.hashMe
  encryptMe := match encryptedOffset field with
    | some off => overwrite l.encryptMe off (slice input l.i field.width)
    | none => l.encryptMe

/-- The variables of `store_path_encounter` that live across the rounds of its loop. -/
structure StoreState where
  revealer : Revealer
  output : Nat → StorablePathEncounter
  hashMe : Integer
  encryptMe : Integer

/-- What a call of `store_path_encounter` is given besides its input integers. -/
structure StoreCall where
  crypto : Crypto
  secrets : Secrets
  side : Side
  storingSide : Side
  fields : List FieldName

namespace StoreCall

variable (a : StoreCall)

/-- The non-storing side does the encrypting. -/
def encryptingSide : Side := if a.storingSide = Side.LEFT then Side.RIGHT else Side.LEFT

/-- The side passed to `secret`, a comparison with a party turned into a byte. -/
def keySide : Side := if a.encryptingSide = ALICE then 1 else 0

/-- The cell of `output` written in round `k`. -/
def index (k : Nat) : Nat := if a.side = a.storingSide then k else 0

/-- Round `k` up to the reveal of the lookup key. -/
def storeKey (st : StoreState) (k : Nat) (input : Integer) : Integer × StoreState :=
  let l := (fieldOrder a.fields).foldl (Layout.copy input) ⟨0, st.hashMe, st.encryptMe⟩
  let hash := a.secrets.mac a.crypto l.hashMe
  let mac := a.secrets.mac a.crypto l.encryptMe
  -- a failed check is reported here and nothing else
  let r := if st.revealer.eqCheckInProgress then st.revealer.getEqCheckResults.2 else st.revealer
  let (_, value, r) := r.reveal a.crypto a.secrets a.side [hash] 8 Side.BOTH 256
  let output := match value with
    | some bits => Function.update st.output (a.index k)
        { st.output (a.index k) with key := ofBits 256 bits }
    | none => st.output
  (mac, ⟨r, output, l.hashMe, l.encryptMe⟩)

/-- Round `k` from the encryption on. Only the encrypting side's key and counter count; the
counter is the lookup key, which both sides hold. -/
def storeValue (st : StoreState) (k : Nat) (mac : Integer) : StoreState :=
  let encryptMe := a.crypto.aes128Ctr (a.secrets.key a.keySide)
    ((st.output (a.index k)).key.setWidth 128) st.encryptMe
  let (ok, r) := st.revealer.getEqCheckResults
  if ok then
    let (_, value, r) := r.reveal a.crypto a.secrets a.side [encryptMe, mac] 8 a.storingSide 512
    let output := match value with
      | some bits => Function.update st.output (a.index k)
          { st.output (a.index k) with encrypted := ofBits 512 bits }
      | none => st.output
    { st with revealer := r, output := output, encryptMe := encryptMe }
  else { st with revealer := r, encryptMe := encryptMe }

/-- One round of `store_path_encounter`. -/
def storeOne (st : StoreState) (k : Nat) (input : Integer) : StoreState :=
  let (mac, st) := a.storeKey st k input
  a.storeValue st k mac

/-- The loop over the input from round `k` on. -/
def storeFrom : StoreState → Nat → List Integer → StoreState
  | st, _, [] => st
  | st, k, input :: inputs => storeFrom (a.storeOne st k input) (k + 1) inputs

/-- `store_path_encounter`; `count` is the number of input integers. -/
def storePathEncounter (revealer : Revealer) (output : Nat → StorablePathEncounter)
    (input : List Integer) : StoreState :=
  a.storeFrom
    ⟨revealer, output, List.replicate lookupBits false, List.replicate encryptedBits false⟩ 0 input

end StoreCall

end CoVault.PathStore
