import CoVault.PathQuery.Stopping

/-!
# From the uploads to the count

From the records that one side gives to `store_path_encounter`, over the two layers of encryption
and the two sorts, to the count that comes out of a query. A query over what was uploaded, by
shuffle, device and time, says what the count is.
-/

namespace CoVault.PathStore.Pipeline

open Circuit Dualex Encounters

variable {p : Pipeline} {array : Nat → StorablePathEncounter} {side : Side} {nonce : BitVec 256}

/-- The key that a dummy is found under. -/
theorem storeKey_dummy (hleft : p.arraySide = Side.LEFT) (deviceId timestamp : Integer) :
    (p.fetchCall side (some (bitsOf nonce)) (some true)).storeKey deviceId timestamp =
      p.rekey BOB (p.rekey p.arraySide nonce) := by
  have hstore : p.storeSide = Side.RIGHT := by simp [storeSide, Side.other, hleft]
  have hkey : (p.fetchCall side (some (bitsOf nonce)) (some true)).originalKey deviceId timestamp =
      bitsOf nonce := by
    simp [FetchCall.originalKey, fetchCall]
  have hhash : (p.fetchCall side (some (bitsOf nonce)) (some true)).localHash deviceId timestamp =
      p.rekey p.arraySide nonce := by
    rw [FetchCall.localHash, hkey, FetchCall.rehash, nonFetchingSecret_eq (.inl hleft),
      ofBits_bitsOf]
    rfl
  rw [FetchCall.storeKey, hhash, rekey_of_ne_LEFT (show BOB ≠ Side.LEFT by decide),
    ← rekey_of_ne_LEFT (show Side.RIGHT ≠ Side.LEFT by decide), ← hstore]
  rfl

/-- Every dummy that was sent is found. -/
theorem lookup_dummy (hleft : p.arraySide = Side.LEFT) (hmax : p.count ≤ 2 ^ 32)
    (store : ShuffleStore) {i : Nat} (hi : i < p.dummies) (deviceId timestamp : Integer) :
    ((p.fetchCall side (some (bitsOf (dummyKey p.startingNonce i))) (some true)).lookup
      (p.received array store) p.shuffle deviceId timestamp).isSome := by
  obtain ⟨cells, hreceived, hasc, -, htarget⟩ := received_spec (p := p) array store hmax
  obtain ⟨g, hg, hcell⟩ := htarget (p.encounters.length + i) (by unfold count; omega)
  have hplain : (p.plainArray array (p.encounters.length + i)).key =
      dummyKey p.startingNonce i := by
    rw [plainArray, fillDummies, if_pos ⟨by omega, by omega⟩, Nat.add_sub_cancel_left]
  obtain ⟨g', -, -, hfetch⟩ := fetchStoredPathEncounter_found hreceived hasc hg
    (show (cells g).key = (p.fetchCall side (some (bitsOf (dummyKey p.startingNonce i)))
      (some true)).storeKey deviceId timestamp by
        rw [hcell, key_encryptTwice, hplain, storeKey_dummy hleft]) 0
  rw [FetchCall.lookup, hfetch]
  rfl

end CoVault.PathStore.Pipeline

namespace CoVault.PathQuery

open Circuit Dualex Encounters PathStore Revealer

/-- One shuffle on its way into the store, with the revealer and the memory it is made with. -/
structure Upload where
  pipeline : Pipeline
  revealer : Revealer
  output : Nat → StorablePathEncounter
  buffer : Nat → Bool

namespace Upload

variable (u : Upload)

/-- The store of the other side when the shuffle has come in. -/
def receive (store : ShuffleStore) : ShuffleStore :=
  u.pipeline.received (u.pipeline.stored u.revealer u.output u.buffer) store

/-- `LEFT` keeps the array, all fields needed are there, the checks of the revealer succeed, no two
encounters have one device and time, and the hash has no collision. -/
structure Sound (a : FetchCall) : Prop where
  crypto : u.pipeline.crypto = a.crypto
  secrets : u.pipeline.secrets = a.secrets
  left : u.pipeline.arraySide = Side.LEFT
  needed : neededFields ⊆ fieldOrder u.pipeline.fields
  working : Working u.revealer
  distinct : u.pipeline.Distinct
  collisionFree : u.pipeline.CollisionFree
  max : u.pipeline.count ≤ 2 ^ 32

/-- The shuffle that a call of a query names, and its dummies, counted without a carry out of the
lowest 64 bits. -/
structure For (call : ShuffleCall) (n : Nat) : Prop where
  shuffle : u.pipeline.shuffle = call.shuffle
  nonce : u.pipeline.startingNonce = call.dummyStartNonce
  dummies : n ≤ u.pipeline.dummies
  room : call.dummyStartNonce.toNat % 2 ^ 64 + n ≤ 2 ^ 64

end Upload

/-- The store after all uploads. -/
def uploadAll (us : List Upload) (store : ShuffleStore) : ShuffleStore :=
  us.foldl (fun store u => u.receive store) store

/-- What was uploaded, by shuffle, device and time. -/
def uploaded (us : List Upload) : Records := fun shuffle id time =>
  (us.find? fun u => u.pipeline.shuffle = shuffle).bind fun u =>
    (u.pipeline.encounters.find? fun e => e.device = id ∧ e.time = time).map recordOf

section Uploads

variable {a : FetchCall} {u : Upload} {us : List Upload} {store : ShuffleStore}

theorem receive_of_ne {shuffle : BitVec 64} (h : u.pipeline.shuffle ≠ shuffle) :
    u.receive store shuffle = store shuffle :=
  Function.update_of_ne h.symm _ _

theorem receive_self (store store' : ShuffleStore) :
    u.receive store u.pipeline.shuffle = u.receive store' u.pipeline.shuffle := by
  simp [Upload.receive, Pipeline.received, receiveShuffle]

theorem uploadAll_of_ne {shuffle : BitVec 64} (h : ∀ u ∈ us, u.pipeline.shuffle ≠ shuffle) :
    uploadAll us store shuffle = store shuffle := by
  induction us generalizing store with
  | nil => rfl
  | cons u us ih =>
    rw [uploadAll, List.foldl_cons, ← uploadAll, ih fun u' h' => h u' (List.mem_cons_of_mem _ h'),
      receive_of_ne (h u (List.mem_cons_self ..))]

/-- Uploads with different shuffles do not touch one another. -/
theorem uploadAll_of_mem (hnodup : (us.map (·.pipeline.shuffle)).Nodup) (hu : u ∈ us)
    (store store' : ShuffleStore) :
    uploadAll us store u.pipeline.shuffle = u.receive store' u.pipeline.shuffle := by
  induction us generalizing store with
  | nil => cases hu
  | cons u' us ih =>
    obtain ⟨hfirst, hrest⟩ := List.nodup_cons.mp hnodup
    rw [uploadAll, List.foldl_cons, ← uploadAll]
    rcases List.mem_cons.mp hu with rfl | hu
    · rw [uploadAll_of_ne fun v hv heq => hfirst (List.mem_map.mpr ⟨v, hv, heq⟩), receive_self]
    · exact ih hrest hu _

/-- A fetch looks at no other shuffle. -/
theorem storedRecord_uploadAll (hnodup : (us.map (·.pipeline.shuffle)).Nodup) (hu : u ∈ us)
    (store : ShuffleStore) (id : BitVec 256) (time : BitVec 32) (nonce : BitVec 256)
    (fetchDummy : Bool) :
    storedRecord a (uploadAll us store) u.pipeline.shuffle id time nonce fetchDummy =
      storedRecord a (u.receive store) u.pipeline.shuffle id time nonce fetchDummy := by
  simp only [storedRecord, FetchCall.lookup, fetchStoredPathEncounter,
    uploadAll_of_mem hnodup hu store store]

/-- The fetch of a query at `RIGHT` is that of the upload. -/
theorem asking_eq (h : u.Sound a) (hright : a.storingSide = Side.RIGHT) (nonce : BitVec 256)
    (fetchDummy : Bool) :
    a.asking nonce fetchDummy =
      u.pipeline.fetchCall a.side (some (bitsOf nonce)) (some fetchDummy) := by
  have hstore : u.pipeline.storeSide = Side.RIGHT := by
    simp [Pipeline.storeSide, Side.other, h.left]
  rw [FetchCall.asking, Pipeline.fetchCall, h.crypto, h.secrets, hstore, ← hright]

theorem ofFetched_fetchedOf (e : Encounter) :
    Record.ofFetched (Pipeline.fetchedOf e) = recordOf e := by
  simp [Record.ofFetched, Pipeline.fetchedOf, recordOf]

/-- Every encounter uploaded is fetched again. -/
theorem storedRecord_receive (h : u.Sound a) (hright : a.storingSide = Side.RIGHT) {e : Encounter}
    (he : e ∈ u.pipeline.encounters) (nonce : BitVec 256) (store : ShuffleStore) :
    storedRecord a (u.receive store) u.pipeline.shuffle e.device e.time nonce false =
      some (recordOf e) := by
  have hstored := Pipeline.stored_stored h.needed h.working u.output u.buffer
  have hreal : some false ≠ some true := by decide
  rw [storedRecord, asking_eq h hright, Upload.receive,
    Pipeline.lookup_of_LEFT h.left h.distinct h.collisionFree h.max hstored hreal store he,
    Option.map_some, FetchCall.opened, Pipeline.encrypted_encryptTwice h.left hreal,
    FetchCall.decrypt_encrypt _ _ _ _ (Pipeline.length_plainBits e), Pipeline.fetched_plainBits,
    ofFetched_fetchedOf]

/-- Every dummy uploaded is found, under the nonces that a query counts up. -/
theorem storedRecord_dummy (h : u.Sound a) (hright : a.storingSide = Side.RIGHT)
    {call : ShuffleCall} {n : Nat} (hfor : u.For call n) {j : Nat} (hj : j < n) (id : BitVec 256)
    (time : BitVec 32) (store : ShuffleStore) :
    (storedRecord a (u.receive store) u.pipeline.shuffle id time
      (call.dummyStartNonce + BitVec.ofNat 256 j) true).isSome := by
  have hroom := hfor.room
  have hkey : call.dummyStartNonce + BitVec.ofNat 256 j = dummyKey u.pipeline.startingNonce j := by
    rw [hfor.nonce]
    exact (add_eq_dummyKey_iff _ (by omega)).mpr (by omega)
  rw [storedRecord, asking_eq h hright, hkey, Option.isSome_map]
  exact Pipeline.lookup_dummy h.left h.max store (hj.trans_le hfor.dummies) _ _

/-- The store provides what was uploaded. -/
theorem provides_uploadAll (hsound : ∀ u ∈ us, u.Sound a) (hright : a.storingSide = Side.RIGHT)
    (hnodup : (us.map (·.pipeline.shuffle)).Nodup) {call : ShuffleCall} {n : Nat}
    (hfor : ∃ u ∈ us, u.For call n) (store : ShuffleStore) :
    Provides (storedRecord a (uploadAll us store)) (uploaded us) n call where
  record id time nonce r hr := by
    obtain ⟨u, hu, e, he, rfl⟩ :
        ∃ u, us.find? (fun u => u.pipeline.shuffle = call.shuffle) = some u ∧
          ∃ e, u.pipeline.encounters.find? (fun e => e.device = id ∧ e.time = time) = some e ∧
            recordOf e = r := by
      simpa only [uploaded, Option.bind_eq_some_iff, Option.map_eq_some_iff] using hr
    have hshuffle : u.pipeline.shuffle = call.shuffle := by simpa using List.find?_some hu
    obtain ⟨rfl, rfl⟩ : e.device = id ∧ e.time = time := by simpa using List.find?_some he
    have hmem := List.mem_of_find?_eq_some hu
    rw [← hshuffle, storedRecord_uploadAll hnodup hmem,
      storedRecord_receive (hsound u hmem) hright (List.mem_of_find?_eq_some he)]
  dummy id time j hj := by
    obtain ⟨u, hu, hfor⟩ := hfor
    rw [← hfor.shuffle, storedRecord_uploadAll hnodup hu]
    exact storedRecord_dummy (hsound u hu) hright hfor hj id time store

end Uploads

/-- A query over the store that was filled. Each of its shuffles was uploaded, with as many dummies
as one pass may fetch. If the query has a result over what was uploaded, then the program, fetch by
fetch and reveal by reveal, ends with the same count, and its revealer goes on working. -/
theorem Query.exec_uploadAll (q : Query) {a : FetchCall} (hright : a.storingSide = Side.RIGHT)
    {us : List Upload} (hsound : ∀ u ∈ us, u.Sound a)
    (hnodup : (us.map (·.pipeline.shuffle)).Nodup) {n : Nat}
    (hfor : ∀ call ∈ q.shuffles, ∃ u ∈ us, u.For call n)
    (hn : ∀ ds ∈ q.passes, ds.length * q.perDevice ≤ n)
    {sort : List TimedEntry → List TimedEntry} (hsort : SortsByKey sort) (store : ShuffleStore)
    {r : Revealer} (hwork : Working r) {count : BitVec 32}
    (hrun : q.run (uploaded us).fetch sort = some count) :
    ∃ r', exec (q.runM (fetchRecord a (uploadAll us store)) sort) r = (some count, r') ∧
      Working r' := by
  refine Query.exec_runM ?_ hwork
  exact q.run_provided hsort
    (fun call hcall => provides_uploadAll hsound hright hnodup (hfor call hcall) store) hn hrun

/-! ## One encounter and two dummies -/

/-- The shuffle of one encounter, with dummies. -/
def oneAndDummies : Pipeline :=
  { Pipeline.single Side.LEFT with dummies := 2, startingNonce := 1000 }

/-- The first two words of all that is hashed, and what comes after them. -/
def oneAndDummiesHashed : List (BitVec 256 × BitVec 256 × Integer) :=
  let s := Secrets.deployed
  let keys := [s.leftXorRight + 7, 1000, 1001]
  [(s.leftXorRight, 7, bitsOf 100#32)] ++ keys.map (fun key => (s.left, key, [])) ++
    keys.flatMap fun key => [(s.left, s.left + key, []), (s.right, s.left + key, [])]

theorem oneAndDummies_firstKey {key : BitVec 256} (h : oneAndDummies.FirstKey key) :
    key ∈ [Secrets.deployed.leftXorRight + 7, 1000, 1001] := by
  rcases h with ⟨e, he, rfl⟩ | ⟨i, hi, rfl⟩
  · obtain rfl := List.mem_singleton.mp he
    exact List.mem_cons.mpr (.inl (Crypto.additive_sha3 _ _ _))
  · obtain rfl | rfl : i = 0 ∨ i = 1 := by
      change i < 2 at hi
      omega
    · decide
    · decide

theorem oneAndDummies_rekey (side : Side) (key : BitVec 256) :
    oneAndDummies.rekey side key = Secrets.deployed.secret side + key := by
  rw [Pipeline.rekey, ← List.append_nil (bitsOf key)]
  exact Crypto.additive_sha3 _ _ _

theorem oneAndDummies_message {m : Integer} (h : oneAndDummies.Message m) :
    ∃ x ∈ oneAndDummiesHashed, m = bitsOf x.1 ++ (bitsOf x.2.1 ++ x.2.2) := by
  cases h with
  | lookup e he =>
    obtain rfl := List.mem_singleton.mp he
    exact ⟨_, List.mem_cons_self .., rfl⟩
  | first key hkey =>
    refine ⟨(Secrets.deployed.left, key, []), ?_, by rw [List.append_nil]; rfl⟩
    have hmem := oneAndDummies_firstKey hkey
    simp [oneAndDummiesHashed] at hmem ⊢
    grind
  | second side key hkey =>
    have hmem := oneAndDummies_firstKey hkey
    refine ⟨(Secrets.deployed.secret side, Secrets.deployed.left + key, []), ?_, ?_⟩
    · have hside : Secrets.deployed.secret side = Secrets.deployed.left ∨
          Secrets.deployed.secret side = Secrets.deployed.right := by
        unfold Secrets.secret
        split_ifs
        · exact .inl rfl
        · exact .inr rfl
      simp [oneAndDummiesHashed] at hmem ⊢
      grind
    · rw [oneAndDummies_rekey, List.append_nil]
      rfl

theorem oneAndDummies_collisionFree : oneAndDummies.CollisionFree := by
  refine ⟨fun m hm m' hm' heq => ?_, fun e he i hi heq => ?_⟩
  · obtain ⟨x, hx, rfl⟩ := oneAndDummies_message hm
    obtain ⟨y, hy, rfl⟩ := oneAndDummies_message hm'
    have hsum : x.1 + x.2.1 = y.1 + y.2.1 := by
      rw [← Crypto.additive_sha3 x.1 x.2.1 x.2.2, ← Crypto.additive_sha3 y.1 y.2.1 y.2.2]
      exact heq
    have hinj : ∀ x ∈ oneAndDummiesHashed, ∀ y ∈ oneAndDummiesHashed, x.1 + x.2.1 = y.1 + y.2.1 →
        x = y := by
      decide +kernel
    rw [hinj x hx y hy hsum]
  · obtain rfl := List.mem_singleton.mp he
    have hkey : oneAndDummies.lookupKey Pipeline.oneEncounter =
        Secrets.deployed.leftXorRight + 7 := Crypto.additive_sha3 _ _ _
    rw [hkey] at heq
    obtain rfl | rfl : i = 0 ∨ i = 1 := by
      change i < 2 at hi
      omega
    · revert heq
      decide
    · revert heq
      decide

/-- Device `7`, which met device `9` at time `100`, against the devices `8` and `9`. Behind the
encounter a dummy is fetched. -/
def oneContact : ContactCall where
  startTime := 10
  endTime := 200
  minimumDuration := 0
  devices
    | .source => [⟨7, 100⟩]
    | .sink => [⟨8, 5⟩, ⟨9, 5⟩]
  shuffles := [⟨0, 60, 1000⟩]
  encountersPerDevicePerShuffle := 2
  filterType := ⟨8, 1, fun _ => 4⟩

def oneUpload : Upload :=
  ⟨oneAndDummies, FetchCall.freshRevealer, fun _ => ⟨0, 0⟩, fun _ => false⟩

theorem oneUpload_sound : oneUpload.Sound additiveFetch where
  crypto := rfl
  secrets := rfl
  left := rfl
  needed := Pipeline.single_neededFields Side.LEFT
  working := Pipeline.freshRevealer_working
  distinct := Pipeline.single_distinct Side.LEFT
  collisionFree := oneAndDummies_collisionFree
  max := by decide

theorem exec_uploadAll_oneContact : ∃ r',
    exec ((Query.contact oneContact).runM
      (fetchRecord additiveFetch (uploadAll [oneUpload] fun _ => none)) id)
      FetchCall.freshRevealer = (some 1, r') ∧ Working r' :=
  (Query.contact oneContact).exec_uploadAll rfl (List.forall_mem_singleton.mpr oneUpload_sound)
    (List.nodup_singleton _)
    (List.forall_mem_singleton.mpr ⟨oneUpload, List.mem_singleton.mpr rfl,
      rfl, rfl, by decide, by decide⟩) (n := 2) (by decide) (fun _ _ _ _ h => h) _
    Pipeline.freshRevealer_working (by decide +kernel)

end CoVault.PathQuery
