import CoVault.PathStore.Fetch

/-!
# The MAC check of a fetch

A fetch opens one bit that says whether the MAC of the record agrees, but the function
that reads it has no way to tell its caller, and a dummy flag takes part in it as a
pointer. So a fetch that finds a record returns true, and it keeps to the gate only for
records that were sealed with their own MAC.
-/

namespace CoVault.Dualex.Revealer

open Circuit

/-- Whether a reveal succeeds depends on the flag alone. -/
theorem reveal_fst (c : Crypto) (s : Secrets) (r : Revealer) (side : Side)
    (integers : List Integer) (elem : Nat) (revealSide : Side) (max : Nat) :
    (r.reveal c s side integers elem revealSide max).1 = r.readyToRequestEqCheck := by
  by_cases hside : revealSide = Side.BOTH <;> cases hready : r.readyToRequestEqCheck <;>
    simp [reveal, requestEqCheck, nextNonce, hside, hready]

end CoVault.Dualex.Revealer

namespace CoVault.PathStore.FetchCall

open Circuit Dualex Revealer Library.Slices

variable (a : FetchCall)

/-- The key in the circuit, as long as no dummy is fetched. -/
theorem originalKey_of_ne (hdummy : a.fetchDummy ≠ some true) (deviceId timestamp : Integer) :
    a.originalKey deviceId timestamp =
      a.secrets.mac a.crypto (deviceId.take 256 ++ timestamp.take 32) := by
  unfold originalKey
  simp only
  split
  case h_1 nonce dummy _ hd =>
    have hfalse : dummy = false := by
      cases dummy
      · rfl
      · exact absurd hd hdummy
    rw [hfalse, if_neg Bool.false_ne_true]
  case h_2 => rfl

/-- What the storing side learns of the key asked for. -/
def localHash (deviceId timestamp : Integer) : BitVec 256 :=
  ofBits 256 (a.rehash (a.originalKey deviceId timestamp))

/-- The key of the record in the store. -/
def storeKey (deviceId timestamp : Integer) : BitVec 256 :=
  a.finalKey (a.localHash deviceId timestamp)

/-- The record a fetch finds: the bytes stored under the final key. -/
def lookup (store : ShuffleStore) (shuffle : BitVec 64) (deviceId timestamp : Integer) :
    Option (BitVec 512) :=
  let (found, encounter) :=
    fetchStoredPathEncounter store ⟨a.storeKey deviceId timestamp, 0⟩ shuffle
  if found then some encounter.encrypted else none

/-- What the three decryptions make of the bytes found. -/
def opened (deviceId timestamp : Integer) (encrypted : BitVec 512) : Integer :=
  a.decrypt ((a.storeKey deviceId timestamp).setWidth 128)
    ((a.localHash deviceId timestamp).setWidth 128) (a.originalKey deviceId timestamp) encrypted

/-- The three layers over the 512 plain bits of a record, as `decrypt` takes them off. -/
def encrypt (finalLookupKey rehash : BitVec 128) (originalKey plain : Integer) : BitVec 512 :=
  ofBits 512 (a.crypto.aes128Ctr (a.secrets.key a.storingSide) finalLookupKey
    (a.crypto.aes128Ctr (a.nonFetchingSecret.setWidth 128) rehash
      (a.crypto.aes128Ctr (ofBits 128 (a.secrets.secretCircuit a.storingSide))
        (ofBits 128 originalKey) (plain.take encryptedBits) ++ plain.drop encryptedBits)))

/-- The bytes of an untampered record: some fields with their own MAC, under the layers that
belong to the key asked for. -/
def sealedBytes (deviceId timestamp fields : Integer) : BitVec 512 :=
  a.encrypt ((a.storeKey deviceId timestamp).setWidth 128)
    ((a.localHash deviceId timestamp).setWidth 128) (a.originalKey deviceId timestamp)
    (fields ++ (a.secrets.mac a.crypto fields).take (512 - encryptedBits))

section Layers

variable (finalLookupKey rehash : BitVec 128) (originalKey : Integer)

theorem length_decrypt (encrypted : BitVec 512) :
    (a.decrypt finalLookupKey rehash originalKey encrypted).length = 512 := by
  simp [decrypt, encryptedBits]

theorem decrypt_encrypt {plain : Integer} (h : plain.length = 512) :
    a.decrypt finalLookupKey rehash originalKey
      (a.encrypt finalLookupKey rehash originalKey plain) = plain := by
  have htake : (plain.take encryptedBits).length = encryptedBits := by simp [h, encryptedBits]
  have hlen : (a.crypto.aes128Ctr (ofBits 128 (a.secrets.secretCircuit a.storingSide))
      (ofBits 128 originalKey) (plain.take encryptedBits) ++
        plain.drop encryptedBits).length = 512 := by simp [h, encryptedBits]
  rw [decrypt, encrypt, bitsOf_ofBits (by simpa using hlen)]
  simp only [Crypto.aes128Ctr_aes128Ctr]
  rw [List.take_left' (by rw [Crypto.length_aes128Ctr, htake]),
    List.drop_left' (by rw [Crypto.length_aes128Ctr, htake]), Crypto.aes128Ctr_aes128Ctr,
    List.take_append_drop]

theorem encrypt_decrypt (encrypted : BitVec 512) :
    a.encrypt finalLookupKey rehash originalKey
      (a.decrypt finalLookupKey rehash originalKey encrypted) = encrypted := by
  unfold decrypt
  generalize hinner : a.crypto.aes128Ctr (a.nonFetchingSecret.setWidth 128) rehash
    (a.crypto.aes128Ctr (a.secrets.key a.storingSide) finalLookupKey (bitsOf encrypted)) = inner
  have htake : (inner.take encryptedBits).length = encryptedBits := by
    simp [← hinner, encryptedBits]
  have hlen : (a.crypto.aes128Ctr (ofBits 128 (a.secrets.secretCircuit a.storingSide))
      (ofBits 128 originalKey) (inner.take encryptedBits)).length = encryptedBits := by
    rw [Crypto.length_aes128Ctr, htake]
  simp only [hinner]
  rw [encrypt, List.take_left' hlen, List.drop_left' hlen, Crypto.aes128Ctr_aes128Ctr,
    List.take_append_drop, ← hinner]
  simp

end Layers

/-- The MAC of 512 bits agrees if they are some fields followed by their own MAC. -/
theorem macAgrees_iff {output : Integer} (h : output.length = 512) :
    a.macAgrees output = true ↔ output = output.take encryptedBits ++
      (a.secrets.mac a.crypto (output.take encryptedBits)).take (512 - encryptedBits) := by
  have hdrop : slice output encryptedBits (512 - encryptedBits) = output.drop encryptedBits := by
    rw [slice, List.take_of_length_le (by simp [h])]
  rw [macAgrees, beq_iff_eq, hdrop, slice, List.drop_zero]
  constructor
  · intro hmac
    rw [← hmac, List.take_append_drop]
  · intro hout
    have := congrArg (List.drop encryptedBits) hout
    rwa [List.drop_left' (by simp [h, encryptedBits])] at this

/-- A record whose MAC agrees after decryption is a sealed one. -/
theorem macAgrees_opened_iff (deviceId timestamp : Integer) (encrypted : BitVec 512) :
    a.macAgrees (a.opened deviceId timestamp encrypted) = true ↔
      ∃ fields : Integer, fields.length = encryptedBits ∧
        encrypted = a.sealedBytes deviceId timestamp fields := by
  have hlen : (a.opened deviceId timestamp encrypted).length = 512 := a.length_decrypt ..
  rw [macAgrees_iff _ hlen]
  constructor
  · intro hout
    refine ⟨(a.opened deviceId timestamp encrypted).take encryptedBits,
      by simp [hlen, encryptedBits], ?_⟩
    rw [sealedBytes, ← hout, opened, encrypt_decrypt]
  · rintro ⟨fields, hfields, rfl⟩
    rw [opened, sealedBytes, decrypt_encrypt _ _ _ _ (by simp [hfields, encryptedBits]),
      List.take_left' hfields]

theorem fetchStoredPathEncounter_key (store : ShuffleStore) (encounter : StorablePathEncounter)
    (shuffle : BitVec 64) :
    (fetchStoredPathEncounter store encounter shuffle).2.key = encounter.key := by
  unfold fetchStoredPathEncounter
  split
  · rfl
  · split_ifs
    · rfl
    · split <;> rfl

/-- The rehash reaches the storing side unchanged. -/
theorem reveal_rehash (r : Revealer) (originalKey : Integer) :
    (r.reveal a.crypto a.secrets a.storingSide [a.rehash originalKey] 256 a.storingSide 256).2.1 =
      some (a.rehash originalKey) := by
  have hlen : (a.rehash originalKey).length = 256 := by simp [rehash]
  have hbits : r.revealable [a.rehash originalKey] 256 = a.rehash originalKey := by
    rw [revealable_eq_take, List.flatten_singleton, if_neg (by decide),
      List.take_of_length_le hlen.le]
  rw [reveal_value _ _ _ _ _ _ (by rw [hbits, hlen]), hbits, if_pos (Or.inr rfl)]

theorem headD_decryptFrom (r : Revealer) (checker : Bool) (encounter : StorablePathEncounter)
    (encounters : List StorablePathEncounter) (finalLookupKey rehash : BitVec 128)
    {originalKey output : Integer}
    (h : a.decrypt finalLookupKey rehash originalKey encounter.encrypted = output) :
    (a.decryptFrom finalLookupKey rehash originalKey r checker (encounter :: encounters)).1.headD
      [] = output := by
  rw [decryptFrom, h]
  obtain ⟨failed, r⟩ := r.pendingCheckFails
  cases failed
  · simp only [Bool.false_eq_true, if_false]
    split_ifs <;> rfl
  · rfl

/-- However the MAC check ends, the first output is the decrypted record. -/
theorem decryptPathEncounter_headD (r : Revealer) (encounter : StorablePathEncounter)
    (finalLookupKey rehash : BitVec 128) (originalKey : Integer) :
    (a.decryptPathEncounter r [encounter] finalLookupKey rehash originalKey).1.headD [] =
      a.decrypt finalLookupKey rehash originalKey encounter.encrypted :=
  a.headD_decryptFrom r true encounter [] finalLookupKey rehash rfl

/-- What a fetch returns once the checks succeed and the revealer takes requests. -/
theorem fetchAndDecryptEncounter_fst (store : ShuffleStore) {r : Revealer} (shuffle : BitVec 64)
    (deviceId timestamp : Integer) (hchecks : ∀ i, r.outcome i = true)
    (hready : (r.eqCheckInProgress || r.readyToRequestEqCheck) = true) :
    (a.fetchAndDecryptEncounter store r shuffle deviceId timestamp).1 =
      match a.lookup store shuffle deviceId timestamp with
      | some encrypted => .returned (.ofDecrypted (a.opened deviceId timestamp encrypted))
      | none => if a.side = a.storingSide then .refused else .blocked := by
  obtain ⟨r', hcollect, hready'⟩ : ∃ r', r.pendingCheckFails = (false, r') ∧
      r'.readyToRequestEqCheck = true := by
    cases hp : r.eqCheckInProgress
    · exact ⟨r, by simp [pendingCheckFails, hp], by simpa [hp] using hready⟩
    · exact ⟨r.getEqCheckResults.2, by simp [pendingCheckFails, getEqCheckResults, hp, hchecks],
        by simp [getEqCheckResults, hp]⟩
  unfold fetchAndDecryptEncounter
  simp only [hcollect, reveal_fst, hready', reveal_rehash, Bool.not_true, Bool.false_eq_true,
    if_false, Option.getD_some]
  unfold lookup opened storeKey localHash
  have hkey := fetchStoredPathEncounter_key store
    ⟨a.finalKey (ofBits 256 (a.rehash (a.originalKey deviceId timestamp))), 0⟩ shuffle
  generalize fetchStoredPathEncounter store
    ⟨a.finalKey (ofBits 256 (a.rehash (a.originalKey deviceId timestamp))), 0⟩ shuffle = p at *
  obtain ⟨found, encounter⟩ := p
  cases found
  · rfl
  · simp only at hkey
    simp only [Bool.not_true, Bool.false_eq_true, if_false, if_true]
    rw [decryptPathEncounter_headD, hkey]

/-- A revealer that can take no request, having been stopped, lets no fetch through. -/
theorem fetchAndDecryptEncounter_of_stopped (store : ShuffleStore) {r : Revealer}
    (shuffle : BitVec 64) (deviceId timestamp : Integer)
    (hstopped : (r.eqCheckInProgress || r.readyToRequestEqCheck) = false) :
    (a.fetchAndDecryptEncounter store r shuffle deviceId timestamp).1 = .refused := by
  obtain ⟨hp, hr⟩ := Bool.or_eq_false_iff.mp hstopped
  simp [fetchAndDecryptEncounter, pendingCheckFails, hp, reveal_fst, hr]

/-- A fetch of a present key keeps to the MAC gate if and only if the record found is sealed with
its own MAC or a dummy is fetched (or the revealer has been stopped). -/
theorem integrityGate_iff (store : ShuffleStore) (r : Revealer) (shuffle : BitVec 64)
    (deviceId timestamp : Integer) {encrypted : BitVec 512} (hchecks : ∀ i, r.outcome i = true)
    (hpresent : a.lookup store shuffle deviceId timestamp = some encrypted) :
    ((∃ fields,
        (a.fetchAndDecryptEncounter store r shuffle deviceId timestamp).1 = .returned fields) →
      a.macAgrees (a.opened deviceId timestamp encrypted) = true ∨ a.fetchDummy = some true) ↔
    (r.eqCheckInProgress || r.readyToRequestEqCheck) = false ∨
      (∃ fields : Integer, fields.length = encryptedBits ∧
        encrypted = a.sealedBytes deviceId timestamp fields) ∨
      a.fetchDummy = some true := by
  rw [← macAgrees_opened_iff]
  cases hready : r.eqCheckInProgress || r.readyToRequestEqCheck
  · refine iff_of_true ?_ (Or.inl rfl)
    rintro ⟨fields, hfields⟩
    rw [fetchAndDecryptEncounter_of_stopped _ _ _ _ _ hready] at hfields
    cases hfields
  · rw [fetchAndDecryptEncounter_fst _ _ _ _ _ hchecks hready, hpresent]
    simp

/-- A store of one record, found under the key that a constant hash gives. -/
def oneRecord (encrypted : BitVec 512) : ShuffleStore := fun _ => some ⟨1, fun _ => ⟨0, encrypted⟩⟩

/-- A fetch by the storing side that asks for no dummy. -/
def plainFetch : FetchCall :=
  ⟨.constant, .deployed, Side.RIGHT, Side.RIGHT, none, none⟩

/-- A revealer that has just chosen its side. -/
def freshRevealer : Revealer := ⟨512, false, true, fun _ => 0, fun _ => true, 0, []⟩

theorem lookup_oneRecord (encrypted : BitVec 512) (deviceId timestamp : Integer) :
    plainFetch.lookup (oneRecord encrypted) 0 deviceId timestamp = some encrypted := by
  have hkey : plainFetch.storeKey deviceId timestamp = 0 := rfl
  have heq : compareHashEq 0#256 0#256 = true := (compareHashEq_iff _ _).mpr rfl
  simp [lookup, fetchStoredPathEncounter, oneRecord, hkey, heq]

theorem integrityGate_iff_oneRecord :
    ((∃ fields, (plainFetch.fetchAndDecryptEncounter (oneRecord 0) freshRevealer 0 (bitsOf 7#256)
        (bitsOf 100#32)).1 = .returned fields) →
      plainFetch.macAgrees (plainFetch.opened (bitsOf 7#256) (bitsOf 100#32) 0) = true ∨
        plainFetch.fetchDummy = some true) ↔
    (freshRevealer.eqCheckInProgress || freshRevealer.readyToRequestEqCheck) = false ∨
      (∃ fields : Integer, fields.length = encryptedBits ∧
        0 = plainFetch.sealedBytes (bitsOf 7#256) (bitsOf 100#32) fields) ∨
      plainFetch.fetchDummy = some true :=
  integrityGate_iff plainFetch (oneRecord 0) freshRevealer 0 _ _ (fun _ => rfl)
    (lookup_oneRecord 0 _ _)

/-- A record whose MAC bits have been overwritten with ones is fetched like an honest one. -/
theorem fetch_accepts_tampered :
    ¬ ((∃ fields, (plainFetch.fetchAndDecryptEncounter (oneRecord (BitVec.allOnes 512))
        freshRevealer 0 (bitsOf 7#256) (bitsOf 100#32)).1 = .returned fields) →
      plainFetch.macAgrees
          (plainFetch.opened (bitsOf 7#256) (bitsOf 100#32) (BitVec.allOnes 512)) = true ∨
        plainFetch.fetchDummy = some true) := by
  have hmac : plainFetch.macAgrees
      (plainFetch.opened (bitsOf 7#256) (bitsOf 100#32) (BitVec.allOnes 512)) = false := by
    have hopened : plainFetch.opened (bitsOf 7#256) (bitsOf 100#32) (BitVec.allOnes 512) =
        bitsOf (BitVec.allOnes 512) := by
      simp [opened, decrypt, plainFetch, Crypto.aes128Ctr_constant]
    have hmac : ∀ input, plainFetch.secrets.mac plainFetch.crypto input = bitsOf 0#256 :=
      fun _ => rfl
    rw [hopened, macAgrees, hmac]
    decide +kernel
  intro h
  rcases h ⟨_, by rw [fetchAndDecryptEncounter_fst _ _ _ _ _ (fun _ => rfl) rfl,
    lookup_oneRecord]⟩ with h | h
  · rw [hmac] at h
    cases h
  · cases h

end CoVault.PathStore.FetchCall
