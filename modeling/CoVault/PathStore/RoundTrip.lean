import Mathlib
import CoVault.PathStore.Integrity
import CoVault.PathStore.Lookup
import CoVault.PathStore.Shuffle
import CoVault.PathStore.StoreSpec

/-!
# From storing to fetching

One side keeps the array that `store_path_encounter` fills and sends it off; the other
keeps the store that `receive_shuffle` fills and serves the fetches. What a record goes
through on its way is undone by a fetch step by step, if each layer is taken off with
the secret it was put on with. Two places take the secret of `RIGHT` whoever calls, so
this is so only where `RIGHT` keeps the store.
-/

namespace CoVault.PathStore

open Circuit Dualex Encounters Library Library.Cells Library.Slices

/-! ## The way of a record -/

/-- Both sides' part in one shuffle. -/
structure Pipeline where
  crypto : Crypto
  secrets : Secrets
  arraySide : Side
  fields : List FieldName
  encounters : List Encounter
  dummies : Nat
  startingNonce : BitVec 256
  shuffle : BitVec 64

namespace Pipeline

variable (p : Pipeline)

/-- The side that keeps the store. -/
def storeSide : Side := p.arraySide.other

/-- All records of the shuffle. -/
def count : Nat := p.encounters.length + p.dummies

def storeCall : StoreCall :=
  ⟨p.crypto, p.secrets, p.arraySide, p.arraySide, p.fields⟩

/-- The array of the one side after `store_path_encounter`. -/
def stored (r : Revealer) (output : Nat → StorablePathEncounter) (buffer : Nat → Bool) :
    Nat → StorablePathEncounter :=
  (p.storeCall.storePathEncounter r output
    (fillIntegers buffer p.encounters false p.fields)).output

/-- The store of the other side after `send_shuffle` and `receive_shuffle`. -/
def received (array : Nat → StorablePathEncounter) (store : ShuffleStore) : ShuffleStore :=
  receiveShuffle p.crypto p.secrets store p.shuffle
    (sendShuffle p.crypto p.secrets array p.encounters.length p.dummies p.startingNonce
      p.arraySide) BOB

/-- A fetch on either side. -/
def fetchCall (side : Side) (dummyNonce : Option Integer) (fetchDummy : Option Bool) :
    FetchCall :=
  ⟨p.crypto, p.secrets, side, p.storeSide, dummyNonce, fetchDummy⟩

/-- What a fetch should hand out for an encounter. -/
def fetchedOf (e : Encounter) : Fetched :=
  ⟨bitsOf e.encountered, bitsOf e.previous, bitsOf e.duration, bitsOf e.confirmed⟩

/-- The lookup key of an encounter. -/
def lookupKey (e : Encounter) : BitVec 256 :=
  p.crypto.sha3 (bitsOf p.secrets.leftXorRight ++ lookupInput e)

/-- A key after the layer of one side. -/
def rekey (side : Side) (key : BitVec 256) : BitVec 256 :=
  p.crypto.sha3 (bitsOf (p.secrets.secret side) ++ bitsOf key)

/-- The keys of all records before the first layer. -/
def FirstKey (key : BitVec 256) : Prop :=
  (∃ e ∈ p.encounters, key = p.lookupKey e) ∨
    ∃ i < p.dummies, key = dummyKey p.startingNonce i

/-- What is hashed on the way in and on the way out. -/
inductive Message : Integer → Prop where
  | lookup (e : Encounter) : e ∈ p.encounters →
      Message (bitsOf p.secrets.leftXorRight ++ lookupInput e)
  | first (key : BitVec 256) : p.FirstKey key →
      Message (bitsOf (p.secrets.secret p.arraySide) ++ bitsOf key)
  | second (side : Side) (key : BitVec 256) : p.FirstKey key →
      Message (bitsOf (p.secrets.secret side) ++ bitsOf (p.rekey p.arraySide key))

/-- SHA3 has no collision among the values involved, the nonces of the dummies included. -/
structure CollisionFree : Prop where
  injOn : Set.InjOn p.crypto.sha3 {m | p.Message m}
  dummy : ∀ e ∈ p.encounters, ∀ i < p.dummies, p.lookupKey e ≠ dummyKey p.startingNonce i

/-- Device and time tell the encounters apart. -/
def Distinct : Prop :=
  ∀ e ∈ p.encounters, ∀ e' ∈ p.encounters, e.device = e'.device → e.time = e'.time → e = e'

theorem append_bitsOf_inj {w : Nat} {x x' : BitVec w} {ys ys' : Integer}
    (h : bitsOf x ++ ys = bitsOf x' ++ ys') : x = x' ∧ ys = ys' := by
  obtain ⟨hx, hy⟩ := List.append_inj h (by simp)
  exact ⟨bitsOf_injective hx, hy⟩

variable {p}

theorem CollisionFree.rekey_first_inj (h : p.CollisionFree) {key key' : BitVec 256}
    (hkey : p.FirstKey key) (hkey' : p.FirstKey key')
    (heq : p.rekey p.arraySide key = p.rekey p.arraySide key') : key = key' :=
  bitsOf_injective (append_bitsOf_inj (h.injOn (.first key hkey) (.first key' hkey') heq)).2

theorem CollisionFree.rekey_second_inj (h : p.CollisionFree) {side side' : Side}
    {key key' : BitVec 256} (hkey : p.FirstKey key) (hkey' : p.FirstKey key')
    (heq : p.rekey side (p.rekey p.arraySide key) =
      p.rekey side' (p.rekey p.arraySide key')) :
    p.secrets.secret side = p.secrets.secret side' ∧ key = key' := by
  obtain ⟨hside, hfirst⟩ :=
    append_bitsOf_inj (h.injOn (.second side key hkey) (.second side' key' hkey') heq)
  exact ⟨hside, h.rekey_first_inj hkey hkey' (bitsOf_injective hfirst)⟩

theorem CollisionFree.lookupKey_inj (h : p.CollisionFree) (hdistinct : p.Distinct)
    {e e' : Encounter} (he : e ∈ p.encounters) (he' : e' ∈ p.encounters)
    (heq : p.lookupKey e = p.lookupKey e') : e = e' := by
  have hinput := (append_bitsOf_inj (h.injOn (.lookup e he) (.lookup e' he') heq)).2
  obtain ⟨hdevice, htime⟩ := append_bitsOf_inj hinput
  exact hdistinct e he e' he' hdevice (bitsOf_injective htime)

/-- The records before the first layer. -/
def plainArray (p : Pipeline) (array : Nat → StorablePathEncounter) :
    Nat → StorablePathEncounter :=
  fillDummies array p.encounters.length p.dummies p.startingNonce

/-- A record after both layers. -/
def encryptTwice (p : Pipeline) (x : StorablePathEncounter) : StorablePathEncounter :=
  encryptRecord p.crypto p.secrets BOB (encryptRecord p.crypto p.secrets p.arraySide x)

/-- The store holds every record under both layers and nothing else, in ascending order. -/
theorem received_spec (array : Nat → StorablePathEncounter) (store : ShuffleStore)
    (hmax : p.count ≤ 2 ^ 32) : ∃ cells,
    p.received array store p.shuffle = some ⟨p.count, cells⟩ ∧
    (∀ i j, i ≤ j → j < p.count → rank (cells i).key ≤ rank (cells j).key) ∧
    (∀ g, g < p.count → ∃ j, j < p.count ∧ cells g = p.encryptTwice (p.plainArray array j)) ∧
    ∀ j, j < p.count → ∃ g, g < p.count ∧ cells g = p.encryptTwice (p.plainArray array j) := by
  have hsentLen : (sendShuffle p.crypto p.secrets array p.encounters.length p.dummies
      p.startingNonce p.arraySide).length = p.count := by simp [sendShuffle, count]
  -- the records on the channel are the encrypted ones in another order
  have hsent := sort_rearranged (encryptStorablePathEncounters p.crypto p.secrets
    (p.plainArray array) p.count p.arraySide) hmax true
  have hsentCells : ∀ i, i < p.count → ofList (sendShuffle p.crypto p.secrets array
      p.encounters.length p.dummies p.startingNonce p.arraySide) ⟨0, 0⟩ i =
      sort (encryptStorablePathEncounters p.crypto p.secrets (p.plainArray array) p.count
        p.arraySide) p.count true i := by
    intro i hi
    have hi' : i < p.encounters.length + p.dummies := hi
    simp [ofList, sendShuffle, hi']
    rfl
  have hstored := sort_rearranged (encryptStorablePathEncounters p.crypto p.secrets
    (ofList (sendShuffle p.crypto p.secrets array p.encounters.length p.dummies p.startingNonce
      p.arraySide) ⟨0, 0⟩) p.count BOB) hmax true
  refine ⟨_, ?_, sort_ascending (encryptStorablePathEncounters p.crypto p.secrets
    (ofList (sendShuffle p.crypto p.secrets array p.encounters.length p.dummies p.startingNonce
      p.arraySide) ⟨0, 0⟩) p.count BOB) hmax, fun g hg => ?_, fun j hj => ?_⟩
  · simp only [received, receiveShuffle, hsentLen, Function.update_self]
  · obtain ⟨i, ⟨_, hi⟩, hgi⟩ := hstored.source (k := g) (by omega)
    obtain ⟨j, ⟨_, hj⟩, hij⟩ := hsent.source (k := i) (by omega)
    refine ⟨j, by omega, ?_⟩
    rw [hgi, encryptStorablePathEncounters, if_pos (by omega), hsentCells i (by omega), hij,
      encryptStorablePathEncounters, if_pos (by omega)]
    rfl
  · obtain ⟨i, ⟨_, hi⟩, hji⟩ := hsent.symm.source (k := j) (by omega)
    obtain ⟨g, ⟨_, hg⟩, hig⟩ := hstored.symm.source (k := i) (by omega)
    refine ⟨g, by omega, ?_⟩
    rw [← hig, encryptStorablePathEncounters, if_pos (by omega), hsentCells i (by omega), ← hji,
      encryptStorablePathEncounters, if_pos (by omega)]
    rfl

/-! ## The way back -/

section Fetch

variable {array : Nat → StorablePathEncounter} {side : Side} {dummyNonce : Option Integer}
  {fetchDummy : Option Bool}

/-- The array holds the records of all encounters in its first cells. -/
def Stored (p : Pipeline) (array : Nat → StorablePathEncounter) : Prop :=
  ∀ i e, p.encounters[i]? = some e → array i = p.storeCall.recordOf e

theorem stored_stored (hneeded : neededFields ⊆ fieldOrder p.fields) {r : Revealer}
    (hwork : Working r) (output : Nat → StorablePathEncounter) (buffer : Nat → Bool) :
    p.Stored (p.stored r output buffer) := by
  intro i e he
  have h := p.storeCall.storePathEncounter_output rfl hneeded hwork output buffer p.encounters i
  rw [he] at h
  exact h

theorem key_recordOf (e : Encounter) : (p.storeCall.recordOf e).key = p.lookupKey e :=
  ofBits_bitsOf _

/-- Every record of the array starts from a key that is accounted for. -/
theorem firstKey_plainArray (hstored : p.Stored array) {j : Nat} (hj : j < p.count) :
    (∃ e ∈ p.encounters, p.plainArray array j = p.storeCall.recordOf e) ∨
      ∃ i < p.dummies, (p.plainArray array j).key = dummyKey p.startingNonce i := by
  unfold count at hj
  by_cases hreal : j < p.encounters.length
  · refine Or.inl ⟨p.encounters[j], List.getElem_mem hreal, ?_⟩
    rw [plainArray, fillDummies, if_neg (by omega)]
    exact hstored j _ (List.getElem?_eq_getElem hreal)
  · refine Or.inr ⟨j - p.encounters.length, by omega, ?_⟩
    rw [plainArray, fillDummies, if_pos ⟨by omega, by omega⟩]

theorem plainArray_firstKey (hstored : p.Stored array) {j : Nat} (hj : j < p.count) :
    p.FirstKey (p.plainArray array j).key := by
  rcases firstKey_plainArray hstored hj with ⟨e, he, hrec⟩ | ⟨i, hi, hkey⟩
  · exact Or.inl ⟨e, he, by rw [hrec, key_recordOf]⟩
  · exact Or.inr ⟨i, hi, hkey⟩

/-- Only the record of an encounter has its lookup key. -/
theorem plainArray_eq_recordOf (hstored : p.Stored array) (hfree : p.CollisionFree)
    (hdistinct : p.Distinct) {j : Nat} (hj : j < p.count) {e : Encounter} (he : e ∈ p.encounters)
    (hkey : (p.plainArray array j).key = p.lookupKey e) :
    p.plainArray array j = p.storeCall.recordOf e := by
  rcases firstKey_plainArray hstored hj with ⟨e', he', hrec⟩ | ⟨i, hi, hdummy⟩
  · rw [hrec, key_recordOf] at hkey
    rw [hrec, hfree.lookupKey_inj hdistinct he' he hkey]
  · exact absurd (hkey.symm.trans hdummy) (hfree.dummy e he i hi)

theorem rekey_of_ne_LEFT {side : Side} (h : side ≠ Side.LEFT) (key : BitVec 256) :
    p.rekey side key = p.crypto.sha3 (bitsOf p.secrets.right ++ bitsOf key) := by
  rw [rekey, p.secrets.secret_of_ne_LEFT h]

theorem key_encryptTwice (x : StorablePathEncounter) :
    (p.encryptTwice x).key = p.rekey BOB (p.rekey p.arraySide x.key) := rfl

theorem originalKey_eq (hdummy : fetchDummy ≠ some true) (e : Encounter) :
    (p.fetchCall side dummyNonce fetchDummy).originalKey (bitsOf e.device) (bitsOf e.time) =
      bitsOf (p.lookupKey e) := by
  rw [FetchCall.originalKey_of_ne _ hdummy, List.take_of_length_le (by simp),
    List.take_of_length_le (by simp)]
  rfl

/-- The secret under the first layer is the array side's. -/
theorem nonFetchingSecret_eq (hside : p.arraySide = Side.LEFT ∨ p.arraySide = Side.RIGHT) :
    (p.fetchCall side dummyNonce fetchDummy).nonFetchingSecret =
      p.secrets.secret p.arraySide := by
  rcases hside with h | h <;>
    simp [FetchCall.nonFetchingSecret, fetchCall, storeSide, Side.other, Secrets.secret, h,
      Side.LEFT, Side.RIGHT]

theorem localHash_eq (hside : p.arraySide = Side.LEFT ∨ p.arraySide = Side.RIGHT)
    (hdummy : fetchDummy ≠ some true) (e : Encounter) :
    (p.fetchCall side dummyNonce fetchDummy).localHash (bitsOf e.device) (bitsOf e.time) =
      p.rekey p.arraySide (p.lookupKey e) := by
  rw [FetchCall.localHash, originalKey_eq hdummy, FetchCall.rehash, nonFetchingSecret_eq hside,
    ofBits_bitsOf]
  rfl

theorem storeKey_eq (hside : p.arraySide = Side.LEFT ∨ p.arraySide = Side.RIGHT)
    (hdummy : fetchDummy ≠ some true) (e : Encounter) :
    (p.fetchCall side dummyNonce fetchDummy).storeKey (bitsOf e.device) (bitsOf e.time) =
      p.rekey p.storeSide (p.rekey p.arraySide (p.lookupKey e)) := by
  rw [FetchCall.storeKey, localHash_eq hside hdummy]
  rfl

/-- The 512 plain bits of a record. -/
def plainBits (p : Pipeline) (e : Encounter) : Integer :=
  portion e ++ (p.secrets.mac p.crypto (portion e)).take (512 - encryptedBits)

theorem length_plainBits (e : Encounter) : (p.plainBits e).length = 512 := by
  simp [plainBits, encryptedBits]

theorem fetched_plainBits (e : Encounter) : Fetched.ofDecrypted (p.plainBits e) = fetchedOf e := by
  have h : ∀ off n, off + n ≤ encryptedBits →
      slice (p.plainBits e) off n = slice (portion e) off n := fun off n h => by
    rw [plainBits, slice_append_left (by rw [length_portion]; exact h)]
  unfold Fetched.ofDecrypted fetchedOf
  rw [h _ _ (by decide), h _ _ (by decide), h _ _ (by decide), h _ _ (by decide), portion]
  have hconfirmed : List.take 8 (bitsOf e.confirmed) = bitsOf e.confirmed :=
    List.take_of_length_le (by simp)
  simp [slice, List.drop_append, List.drop_eq_nil_of_le, hconfirmed]

/-- Where `LEFT` keeps the array, what the store holds for an encounter is what a fetch takes
apart. -/
theorem encrypted_encryptTwice (hleft : p.arraySide = Side.LEFT) (hdummy : fetchDummy ≠ some true)
    (e : Encounter) :
    (p.encryptTwice (p.storeCall.recordOf e)).encrypted =
      (p.fetchCall side dummyNonce fetchDummy).encrypt
        (((p.fetchCall side dummyNonce fetchDummy).storeKey (bitsOf e.device)
          (bitsOf e.time)).setWidth 128)
        (((p.fetchCall side dummyNonce fetchDummy).localHash (bitsOf e.device)
          (bitsOf e.time)).setWidth 128)
        ((p.fetchCall side dummyNonce fetchDummy).originalKey (bitsOf e.device) (bitsOf e.time))
        (p.plainBits e) := by
  have hstore : p.storeSide = Side.RIGHT := by simp [storeSide, Side.other, hleft]
  have hright : ∀ side : Side, side ≠ Side.LEFT → p.secrets.key side = p.secrets.key Side.RIGHT :=
    fun side h => by rw [p.secrets.key_of_ne_LEFT h, p.secrets.key_of_ne_LEFT (by decide)]
  have hkeyside : p.storeCall.keySide ≠ Side.LEFT := by
    rw [StoreCall.keySide]
    split_ifs <;> decide
  have hbob : ∀ key, p.rekey BOB key = p.rekey Side.RIGHT key := fun key => by
    rw [rekey_of_ne_LEFT (by decide), rekey_of_ne_LEFT (by decide)]
  have htake : (p.plainBits e).take encryptedBits = portion e := by
    rw [plainBits, List.take_left' (length_portion e)]
  have hdrop : (p.plainBits e).drop encryptedBits =
      (p.secrets.mac p.crypto (portion e)).take (512 - encryptedBits) := by
    rw [plainBits, List.drop_left' (length_portion e)]
  have hrecord : (p.storeCall.recordOf e).encrypted =
      ofBits 512 (p.crypto.aes128Ctr (p.secrets.key Side.RIGHT) ((p.lookupKey e).setWidth 128)
        (portion e) ++ (p.secrets.mac p.crypto (portion e)).take (512 - encryptedBits)) := by
    rw [StoreCall.encrypted_recordOf, ← hright _ hkeyside, key_recordOf, storeCall]
  have hfirst : (encryptRecord p.crypto p.secrets p.arraySide (p.storeCall.recordOf e)).key =
      p.rekey p.arraySide (p.lookupKey e) := by
    rw [← key_recordOf]
    rfl
  have hsecond : (encryptRecord p.crypto p.secrets BOB (encryptRecord p.crypto p.secrets
      p.arraySide (p.storeCall.recordOf e))).key =
      p.rekey Side.RIGHT (p.rekey p.arraySide (p.lookupKey e)) := by
    rw [← hbob, ← hfirst]
    rfl
  have hcircuit : ofBits 128 (p.secrets.secretCircuit Side.RIGHT) = p.secrets.key Side.RIGHT :=
    ofBits_bitsOf_setWidth ..
  rw [FetchCall.encrypt, storeKey_eq (Or.inl hleft) hdummy, localHash_eq (Or.inl hleft) hdummy,
    originalKey_eq hdummy, nonFetchingSecret_eq (Or.inl hleft), htake, hdrop,
    ofBits_bitsOf_setWidth]
  change _ = ofBits 512 (p.crypto.aes128Ctr (p.secrets.key p.storeSide) _
    (p.crypto.aes128Ctr (p.secrets.key p.arraySide) _
      (p.crypto.aes128Ctr (ofBits 128 (p.secrets.secretCircuit p.storeSide)) _ _ ++ _)))
  rw [hstore, hcircuit, encryptTwice, encrypted_encryptRecord, encrypted_encryptRecord,
    bitsOf_ofBits (by simp), hrecord, bitsOf_ofBits (by simp [encryptedBits]), hfirst, hsecond,
    hright BOB (by decide)]

/-- Where `LEFT` keeps the array, a fetch finds the record of an encounter. -/
theorem lookup_of_LEFT (hleft : p.arraySide = Side.LEFT) (hdistinct : p.Distinct)
    (hfree : p.CollisionFree) (hmax : p.count ≤ 2 ^ 32) (hstored : p.Stored array)
    (hdummy : fetchDummy ≠ some true) (store : ShuffleStore) {e : Encounter}
    (he : e ∈ p.encounters) :
    (p.fetchCall side dummyNonce fetchDummy).lookup (p.received array store) p.shuffle
      (bitsOf e.device) (bitsOf e.time) =
      some (p.encryptTwice (p.storeCall.recordOf e)).encrypted := by
  obtain ⟨cells, hreceived, hasc, hsource, htarget⟩ := received_spec (p := p) array store hmax
  obtain ⟨i, hi, rfl⟩ := List.mem_iff_getElem.mp he
  have hcount : i < p.count := by unfold count; omega
  have hplain : p.plainArray array i = p.storeCall.recordOf p.encounters[i] := by
    rw [plainArray, fillDummies, if_neg (by omega)]
    exact hstored i _ (List.getElem?_eq_getElem hi)
  have hkey : ∀ e : Encounter, (p.fetchCall side dummyNonce fetchDummy).storeKey (bitsOf e.device)
      (bitsOf e.time) = p.rekey BOB (p.rekey p.arraySide (p.lookupKey e)) := by
    intro e
    have hstore : p.storeSide = Side.RIGHT := by simp [storeSide, Side.other, hleft]
    rw [storeKey_eq (Or.inl hleft) hdummy, hstore, rekey_of_ne_LEFT (by decide),
      rekey_of_ne_LEFT (show BOB ≠ Side.LEFT by decide)]
  obtain ⟨g, hg, hcell⟩ := htarget i hcount
  obtain ⟨g', hg', hkey', hfetch⟩ := fetchStoredPathEncounter_found hreceived hasc hg
    (show (cells g).key = (p.fetchCall side dummyNonce fetchDummy).storeKey
      (bitsOf p.encounters[i].device) (bitsOf p.encounters[i].time) by
        rw [hcell, hplain, key_encryptTwice, key_recordOf, hkey]) 0
  -- whatever cell was found, it is that encounter's record
  obtain ⟨j, hj, hcell'⟩ := hsource g' hg'
  rw [hcell', key_encryptTwice, hkey] at hkey'
  have hfirst := (hfree.rekey_second_inj (plainArray_firstKey hstored hj)
    (Or.inl ⟨_, he, rfl⟩) hkey').2
  rw [FetchCall.lookup, hfetch, hcell',
    plainArray_eq_recordOf hstored hfree hdistinct hj he hfirst]
  simp only [if_true]

/-- Where `LEFT` keeps the store, a fetch asks for a key that no record has. -/
theorem lookup_of_RIGHT (hright : p.arraySide = Side.RIGHT)
    (hsecrets : p.secrets.left ≠ p.secrets.right) (hfree : p.CollisionFree)
    (hmax : p.count ≤ 2 ^ 32) (hstored : p.Stored array) (hdummy : fetchDummy ≠ some true)
    (store : ShuffleStore) {e : Encounter} (he : e ∈ p.encounters) :
    (p.fetchCall side dummyNonce fetchDummy).lookup (p.received array store) p.shuffle
      (bitsOf e.device) (bitsOf e.time) = none := by
  obtain ⟨cells, hreceived, -, hsource, -⟩ := received_spec (p := p) array store hmax
  have habsent : ∀ g, g < p.count → (cells g).key ≠
      (p.fetchCall side dummyNonce fetchDummy).storeKey (bitsOf e.device) (bitsOf e.time) := by
    intro g hg heq
    obtain ⟨j, hj, hcell⟩ := hsource g hg
    rw [hcell, key_encryptTwice, storeKey_eq (Or.inr hright) hdummy] at heq
    have hsecret := (hfree.rekey_second_inj (plainArray_firstKey hstored hj)
      (Or.inl ⟨e, he, rfl⟩) heq).1
    have hleft : p.storeSide = Side.LEFT := by
      simp [storeSide, Side.other, hright, Side.LEFT_ne_RIGHT.symm]
    rw [hleft, p.secrets.secret_of_ne_LEFT (by decide), Secrets.secret_LEFT] at hsecret
    exact hsecrets hsecret.symm
  rw [FetchCall.lookup, fetchStoredPathEncounter_missing hreceived habsent]
  rfl

/-- So it comes back empty-handed, whatever was to be handed out. -/
theorem fetch_of_RIGHT (hright : p.arraySide = Side.RIGHT)
    (hsecrets : p.secrets.left ≠ p.secrets.right) (hfree : p.CollisionFree)
    (hmax : p.count ≤ 2 ^ 32) (hstored : p.Stored array) (hdummy : fetchDummy ≠ some true)
    {r : Revealer} (hwork : Working r) (store : ShuffleStore) {e : Encounter}
    (he : e ∈ p.encounters) (fields : Fetched) :
    ((p.fetchCall side dummyNonce fetchDummy).fetchAndDecryptEncounter (p.received array store) r
      p.shuffle (bitsOf e.device) (bitsOf e.time)).1 ≠ .returned fields := by
  rw [FetchCall.fetchAndDecryptEncounter_fst _ _ _ _ _ hwork.checks hwork.ready,
    lookup_of_RIGHT hright hsecrets hfree hmax hstored hdummy store he]
  simp only
  split_ifs <;> exact FetchResult.noConfusion

end Fetch

/-- Stored, shuffled by both sides and fetched again, every encounter comes back with its four
fields if and only if `LEFT` keeps the array and `RIGHT` the store (or nothing was stored). -/
theorem roundTrip_iff (p : Pipeline)
    (hside : p.arraySide = Side.LEFT ∨ p.arraySide = Side.RIGHT)
    (hneeded : neededFields ⊆ fieldOrder p.fields) (hdistinct : p.Distinct)
    (hfree : p.CollisionFree) (hsecrets : p.secrets.left ≠ p.secrets.right)
    (hmax : p.count ≤ 2 ^ 32) {r r' : Revealer} (hr : Working r) (hr' : Working r')
    (output : Nat → StorablePathEncounter) (buffer : Nat → Bool) (store : ShuffleStore)
    (side : Side) (dummyNonce : Option Integer) {fetchDummy : Option Bool}
    (hdummy : fetchDummy ≠ some true) :
    (∀ e ∈ p.encounters, ((p.fetchCall side dummyNonce fetchDummy).fetchAndDecryptEncounter
        (p.received (p.stored r output buffer) store) r' p.shuffle (bitsOf e.device)
        (bitsOf e.time)).1 = .returned (fetchedOf e)) ↔
      p.arraySide = Side.LEFT ∨ p.encounters = [] := by
  have hstored := stored_stored hneeded hr output buffer
  constructor
  · intro h
    refine hside.imp_right fun hright => ?_
    refine List.eq_nil_iff_forall_not_mem.mpr fun e he => ?_
    exact fetch_of_RIGHT hright hsecrets hfree hmax hstored hdummy hr' store he _ (h e he)
  · rintro (hleft | hnil) e he
    · rw [FetchCall.fetchAndDecryptEncounter_fst _ _ _ _ _ hr'.checks hr'.ready,
        lookup_of_LEFT hleft hdistinct hfree hmax hstored hdummy store he]
      simp only
      rw [FetchCall.opened, encrypted_encryptTwice hleft hdummy,
        FetchCall.decrypt_encrypt _ _ _ _ (length_plainBits e), fetched_plainBits]
    · rw [hnil] at he
      cases he

/-! ## One encounter, both ways round -/

def oneEncounter : Encounter := ⟨1, 7, 9, 0, 0, 0, 100, 50, 200, 5, 1, true⟩

/-- One encounter in the traditional order of fields, with a hash that has no collisions on it. -/
def single (arraySide : Side) : Pipeline :=
  ⟨.additive, .deployed, arraySide, [], [oneEncounter], 0, 0, 0⟩

theorem single_firstKey {arraySide : Side} {key : BitVec 256}
    (h : (single arraySide).FirstKey key) : key = Secrets.deployed.leftXorRight + 7 := by
  rcases h with ⟨e, he, rfl⟩ | ⟨i, hi, _⟩
  · obtain rfl := List.mem_singleton.mp he
    exact Crypto.additive_sha3 _ _ _
  · exact absurd hi (Nat.not_lt_zero i)

theorem single_rekey (arraySide side : Side) (key : BitVec 256) :
    (single arraySide).rekey side key = Secrets.deployed.secret side + key := by
  rw [rekey, ← List.append_nil (bitsOf key)]
  exact Crypto.additive_sha3 _ _ _

theorem single_collisionFree {arraySide : Side}
    (h : arraySide = Side.LEFT ∨ arraySide = Side.RIGHT) : (single arraySide).CollisionFree := by
  refine ⟨?_, fun e _ i hi => absurd hi (Nat.not_lt_zero i)⟩
  have hsecret : ∀ side, Secrets.deployed.secret side = Secrets.deployed.left ∨
      Secrets.deployed.secret side = Secrets.deployed.right := fun side => by
    by_cases hl : side = Side.LEFT
    · exact Or.inl (by rw [hl, Secrets.secret_LEFT])
    · exact Or.inr (Secrets.secret_of_ne_LEFT _ hl)
  -- every message is two words, and the hash is their sum
  have hcases : ∀ m, (single arraySide).Message m →
      (m = bitsOf Secrets.deployed.leftXorRight ++ lookupInput oneEncounter ∧
        Crypto.additive.sha3 m = Secrets.deployed.leftXorRight + 7) ∨
      ∃ x y : BitVec 256, m = bitsOf x ++ bitsOf y ∧ Crypto.additive.sha3 m = x + y ∧
        (x = Secrets.deployed.secret arraySide ∧ y = Secrets.deployed.leftXorRight + 7 ∨
          (x = Secrets.deployed.left ∨ x = Secrets.deployed.right) ∧
            y = Secrets.deployed.secret arraySide + (Secrets.deployed.leftXorRight + 7)) := by
    intro m hm
    cases hm with
    | lookup e he =>
      obtain rfl := List.mem_singleton.mp he
      exact Or.inl ⟨rfl, Crypto.additive_sha3 _ _ _⟩
    | first key hkey =>
      rw [single_firstKey hkey]
      exact Or.inr ⟨_, _, rfl, single_rekey arraySide arraySide _, Or.inl ⟨rfl, rfl⟩⟩
    | second side key hkey =>
      rw [single_firstKey hkey, single_rekey]
      exact Or.inr ⟨_, _, rfl, single_rekey arraySide side _, Or.inr ⟨hsecret side, rfl⟩⟩
  intro m hm m' hm' heq
  change Crypto.additive.sha3 m = Crypto.additive.sha3 m' at heq
  rcases hcases m hm with ⟨rfl, hx⟩ | ⟨x, y, rfl, hx, hxy⟩ <;>
    rcases hcases m' hm' with ⟨rfl, hx'⟩ | ⟨x', y', rfl, hx', hxy'⟩
  · rfl
  · rw [hx, hx'] at heq
    rcases h with rfl | rfl <;> rcases hxy' with ⟨rfl, rfl⟩ | ⟨rfl | rfl, rfl⟩ <;>
      exact absurd heq (by decide)
  · rw [hx, hx'] at heq
    rcases h with rfl | rfl <;> rcases hxy with ⟨rfl, rfl⟩ | ⟨rfl | rfl, rfl⟩ <;>
      exact absurd heq (by decide)
  · rw [hx, hx'] at heq
    rcases h with rfl | rfl <;> rcases hxy with ⟨rfl, rfl⟩ | ⟨rfl | rfl, rfl⟩ <;>
      rcases hxy' with ⟨rfl, rfl⟩ | ⟨rfl | rfl, rfl⟩ <;>
      first | exact absurd heq (by decide) | rfl

theorem single_distinct (arraySide : Side) : (single arraySide).Distinct := by
  intro e he e' he' _ _
  rw [List.mem_singleton.mp he, List.mem_singleton.mp he']

theorem freshRevealer_working : Working FetchCall.freshRevealer := ⟨fun _ => rfl, rfl⟩

theorem single_neededFields (arraySide : Side) :
    neededFields ⊆ fieldOrder (single arraySide).fields := by
  intro f hf
  change f ∈ traditionalOrder
  revert f
  decide

theorem single_LEFT_roundTrip :
    (∀ e ∈ (single Side.LEFT).encounters,
      (((single Side.LEFT).fetchCall Side.RIGHT none none).fetchAndDecryptEncounter
        ((single Side.LEFT).received ((single Side.LEFT).stored FetchCall.freshRevealer
          (fun _ => ⟨0, 0⟩) fun _ => false) fun _ => none) FetchCall.freshRevealer 0
        (bitsOf e.device) (bitsOf e.time)).1 = .returned (fetchedOf e)) ↔
      (single Side.LEFT).arraySide = Side.LEFT ∨ (single Side.LEFT).encounters = [] :=
  roundTrip_iff (single Side.LEFT) (Or.inl rfl) (single_neededFields _) (single_distinct _)
    (single_collisionFree (Or.inl rfl)) Secrets.deployed_left_ne_right (by decide)
    freshRevealer_working freshRevealer_working _ _ _ _ _ (by decide)

/-- With the array at `RIGHT` and the store at `LEFT` the one encounter stored is not found. -/
theorem single_RIGHT_lost :
    ¬ ∀ e ∈ (single Side.RIGHT).encounters,
      (((single Side.RIGHT).fetchCall Side.LEFT none none).fetchAndDecryptEncounter
        ((single Side.RIGHT).received ((single Side.RIGHT).stored FetchCall.freshRevealer
          (fun _ => ⟨0, 0⟩) fun _ => false) fun _ => none) FetchCall.freshRevealer 0
        (bitsOf e.device) (bitsOf e.time)).1 = .returned (fetchedOf e) := by
  intro h
  have hstored := stored_stored (p := single Side.RIGHT) (single_neededFields _)
    freshRevealer_working (fun _ => ⟨0, 0⟩) fun _ => false
  have hmem : oneEncounter ∈ (single Side.RIGHT).encounters := List.mem_singleton.mpr rfl
  exact fetch_of_RIGHT rfl Secrets.deployed_left_ne_right (single_collisionFree (Or.inr rfl))
    (by decide) hstored (fun hd => by cases hd) freshRevealer_working _ hmem _ (h oneEncounter hmem)

end Pipeline

end CoVault.PathStore
