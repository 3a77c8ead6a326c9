import CoVault.Library.BinarySearch
import CoVault.PathStore.KeyOrder

/-!
# Fetching path encounters

The side that stores the shuffles finds a record by a doubly hashed key and takes off
the last layer of encryption; the other two layers come off inside the circuit, where
the MAC is computed again and compared. Only the outcome of the comparison is opened.
The parameters that the tests use are left out: no caller in the program gives them.
-/

namespace CoVault.PathStore

open Circuit Dualex Library Library.Slices

/-- One shuffle: an array of records and its length. -/
structure Shuffle where
  count : Nat
  cells : Nat → StorablePathEncounter

/-- The shuffles of a store, by `ShuffleID`. -/
abbrev ShuffleStore := BitVec 64 → Option Shuffle

/-- The binary search of `fetch_stored_path_encounter`. -/
def search (cells : Nat → StorablePathEncounter) (key : BitVec 256) (count : Nat) :
    Option (BitVec 512) :=
  (BinarySearch.search (fun guess => compareHashEq (cells guess).key key)
    (fun guess => compareHash (cells guess).key key) 0 count).map fun g => (cells g).encrypted

/-- `fetch_stored_path_encounter`: whether the key of `encounter` was found, and `encounter`
with the bytes found. -/
def fetchStoredPathEncounter (store : ShuffleStore) (encounter : StorablePathEncounter)
    (shuffle : BitVec 64) : Bool × StorablePathEncounter :=
  match store shuffle with
  | none => (false, encounter)
  | some p =>
    if 0 < p.count ∧ compareHashEq (p.cells 0).key encounter.key then
      (true, { encounter with encrypted := (p.cells 0).encrypted })
    else
      match search p.cells encounter.key p.count with
      | some encrypted => (true, { encounter with encrypted := encrypted })
      | none => (false, encounter)

/-- What a fetch is given besides store, revealer and the encounter asked for. A pointer that
may be null is an option. -/
structure FetchCall where
  crypto : Crypto
  secrets : Secrets
  side : Side
  storingSide : Side
  dummyNonce : Option Integer
  fetchDummy : Option Bool

/-- A pointer where a bit is wanted: C++ first turns it into a truth value. -/
def bitOfPointer (p : Option Bool) : Bool := p.isSome

namespace FetchCall

variable (a : FetchCall)

/-- The other side of the fetching one, whose secret is under the first two layers. -/
def nonFetchingSecret : BitVec 256 :=
  if a.storingSide = Side.LEFT then a.secrets.right else a.secrets.left

/-- The three decryptions of `decrypt_path_encounter`: the first by the fetching side outside
the circuit, the last only over the encrypted portion. -/
def decrypt (finalLookupKey rehash : BitVec 128) (originalKey : Integer)
    (encrypted : BitVec 512) : Integer :=
  let decrypted := a.crypto.aes128Ctr (a.secrets.key a.storingSide) finalLookupKey
    (bitsOf encrypted)
  let output := a.crypto.aes128Ctr (a.nonFetchingSecret.setWidth 128) rehash decrypted
  a.crypto.aes128Ctr (ofBits 128 (a.secrets.secretCircuit a.storingSide)) (ofBits 128 originalKey)
    (output.take encryptedBits) ++ output.drop encryptedBits

/-- The in-circuit MAC comparison over a decrypted record. -/
def macAgrees (output : Integer) : Bool :=
  slice output encryptedBits (512 - encryptedBits) ==
    slice (a.secrets.mac a.crypto (output.take encryptedBits)) 0 (512 - encryptedBits)

/-- The loop of `decrypt_path_encounter` over its input; `equalityChecker` is never reset. The
function returns nothing, so a caller cannot tell where it stopped. -/
def decryptFrom (finalLookupKey rehash : BitVec 128) (originalKey : Integer) :
    Revealer → Bool → List StorablePathEncounter → List Integer × Revealer
  | r, _, [] => ([], r)
  | r, equalityChecker, input :: inputs =>
    let output := a.decrypt finalLookupKey rehash originalKey input.encrypted
    let checker := equalityChecker && a.macAgrees output
    let checker := if a.fetchDummy.isSome then checker || bitOfPointer a.fetchDummy else checker
    let (failed, r) := r.pendingCheckFails
    if failed then ([output], r)
    else
      let (ok, value, r) := r.reveal a.crypto a.secrets a.side [[checker]] 8 Side.BOTH 1
      if !ok then ([output], r)
      else if ofBits 8 (value.getD []) = 0 then ([output], r)
      else
        let (outputs, r) := decryptFrom finalLookupKey rehash originalKey r checker inputs
        (output :: outputs, r)

/-- `decrypt_path_encounter`. -/
def decryptPathEncounter (r : Revealer) (input : List StorablePathEncounter)
    (finalLookupKey rehash : BitVec 128) (originalKey : Integer) : List Integer × Revealer :=
  a.decryptFrom finalLookupKey rehash originalKey r true input

/-- The lookup key in the circuit, or the dummy nonce if a dummy is wanted. -/
def originalKey (deviceId timestamp : Integer) : Integer :=
  let hashMe := deviceId.take 256 ++ timestamp.take 32
  let originalKey := a.secrets.mac a.crypto hashMe
  match a.dummyNonce, a.fetchDummy with
  | some nonce, some dummy => if dummy then nonce else originalKey
  | _, _ => originalKey

/-- The key of the record after the first shuffle, opened to the storing side only. -/
def rehash (originalKey : Integer) : Integer :=
  bitsOf (a.crypto.sha3 (bitsOf a.nonFetchingSecret ++ originalKey))

/-- The key of the record in the store. -/
def finalKey (rehash : BitVec 256) : BitVec 256 :=
  a.crypto.sha3 (bitsOf (a.secrets.secret a.storingSide) ++ bitsOf rehash)

end FetchCall

/-- The four fields a fetch hands out. -/
structure Fetched where
  encountered : Integer
  previous : Integer
  duration : Integer
  confirmed : Integer
  deriving DecidableEq

/-- The last loops of `fetch_and_decrypt_encounter`. -/
def Fetched.ofDecrypted (decrypted : Integer) : Fetched where
  encountered := slice decrypted 0 256
  previous := slice decrypted 256 32
  duration := slice decrypted 288 16
  confirmed := slice decrypted 304 8

/-- How `fetch_and_decrypt_encounter` ends on one side. -/
inductive FetchResult where
  /-- it returned false -/
  | refused
  /-- the other side has given up, so it never returns -/
  | blocked
  /-- it returned true -/
  | returned (fields : Fetched)
  deriving DecidableEq

namespace FetchCall

variable (a : FetchCall)

/-- `fetch_and_decrypt_encounter`. The store is the storing side's; what both sides compute in
the circuit is the same. -/
def fetchAndDecryptEncounter (store : ShuffleStore) (r : Revealer) (shuffle : BitVec 64)
    (deviceId timestamp : Integer) : FetchResult × Revealer :=
  let originalKey := a.originalKey deviceId timestamp
  let (failed, r) := r.pendingCheckFails
  if failed then (.refused, r)
  else
    let hash := a.rehash originalKey
    -- the value is the one the storing side gets
    let (ok, value, r) :=
      r.reveal a.crypto a.secrets a.storingSide [hash] 256 a.storingSide 256
    if !ok then (.refused, r)
    else
      let localHash := ofBits 256 (value.getD [])
      let encounter : StorablePathEncounter := ⟨a.finalKey localHash, 0⟩
      let (found, encounter) := fetchStoredPathEncounter store encounter shuffle
      if !found then (if a.side = a.storingSide then .refused else .blocked, r)
      else
        let (decrypted, r) := a.decryptPathEncounter r [encounter]
          (encounter.key.setWidth 128) (localHash.setWidth 128) originalKey
        (.returned (Fetched.ofDecrypted (decrypted.headD [])), r)

end FetchCall

end CoVault.PathStore
