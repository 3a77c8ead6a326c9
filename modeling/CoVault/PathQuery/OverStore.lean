import CoVault.PathQuery.Effects
import CoVault.PathQuery.LookupKeys
import CoVault.PathQuery.Provided
import CoVault.PathStore.Abort
import CoVault.PathStore.RoundTrip

/-!
# The fetches of a query over a store

Each fetch of a query is the one of the program, with the revealer that the fetches before it have
left. If it gives a result at all, the result is what the store has; to the revealer it does what a
round of storing does, except that it gives up when the check in progress fails.
-/

namespace CoVault.PathStore.FetchCall

open Circuit Dualex Revealer

variable (a : FetchCall)

/-- A fetch that is asked for a dummy, or not. -/
def asking (dummyNonce : BitVec 256) (fetchDummy : Bool) : FetchCall :=
  { a with dummyNonce := some (bitsOf dummyNonce), fetchDummy := some fetchDummy }

variable {a} {store : ShuffleStore} {r : Revealer} {shuffle : BitVec 64}
  {deviceId timestamp : Integer}

/-- If the check in progress fails, the fetch ends there. -/
theorem fetch_refused (hprogress : r.eqCheckInProgress = true)
    (hfail : r.outcome r.collected = false) :
    a.fetchAndDecryptEncounter store r shuffle deviceId timestamp =
      (.refused, r.getEqCheckResults.2) := by
  simp [fetchAndDecryptEncounter, pendingCheckFails, getEqCheckResults, hprogress, hfail]

/-- The check in progress before the lookup key is opened. -/
theorem pendingCheckFails_ok (hready : (r.eqCheckInProgress || r.readyToRequestEqCheck) = true)
    (hok : r.eqCheckInProgress = true → r.outcome r.collected = true) (c : Crypto) (s : Secrets)
    (side : Side) (integers : List Integer) (elem : Nat) (revealSide : Side) (max : Nat) :
    r.pendingCheckFails.1 = false ∧ r.pendingCheckFails.2.readyToRequestEqCheck = true ∧
      StoreCall.KeyRound r
        (r.pendingCheckFails.2.reveal c s side integers elem revealSide max).2.2 := by
  obtain ⟨h1, h2, h3, h4, h5⟩ :=
    reveal_revealed c s r.pendingCheckFails.2 side integers elem revealSide max
  cases hp : r.eqCheckInProgress
  · have hr : r.readyToRequestEqCheck = true := by simpa [hp] using hready
    refine ⟨by simp [pendingCheckFails, hp], by simp [pendingCheckFails, hp, hr], ?_⟩
    constructor <;> simp_all [pendingCheckFails]
  · have hout := hok hp
    refine ⟨by simp [pendingCheckFails, getEqCheckResults, hp, hout],
      by simp [pendingCheckFails, getEqCheckResults, hp], ?_⟩
    constructor <;> simp_all [pendingCheckFails, getEqCheckResults]

/-- The MAC check of a record collects the check of the lookup key, and opens a bit only if that one
turned out true. -/
theorem decryptPathEncounter_round {r₁ : Revealer} (hkey : StoreCall.KeyRound r r₁)
    (hready : (r.eqCheckInProgress || r.readyToRequestEqCheck) = true)
    (encounter : StorablePathEncounter) (finalLookupKey rehash : BitVec 128)
    (originalKey : Integer) :
    StoreCall.Round r
      (a.decryptPathEncounter r₁ [encounter] finalLookupKey rehash originalKey).2 := by
  have hprogress : r₁.eqCheckInProgress = true := hkey.inProgress.trans hready
  have hcheck := getEqCheckResults_collected r₁
  unfold decryptPathEncounter decryptFrom
  cases hout : r₁.outcome r₁.collected
  · simpa [pendingCheckFails, getEqCheckResults_fst, hprogress, hout] using
      hkey.round_of_fail hcheck (by simp [hout])
  · have hround : ∀ checker, StoreCall.Round r
        (r₁.getEqCheckResults.2.reveal a.crypto a.secrets a.side [[checker]] 8 Side.BOTH 1).2.2 :=
      fun checker => hkey.round_of_ok hcheck (by simp [hprogress, hout]) (reveal_revealed ..)
    simp only [pendingCheckFails, getEqCheckResults_fst, hprogress, hout, if_true, Bool.and_self,
      Bool.not_true, Bool.false_eq_true, if_false, decryptFrom]
    generalize (if a.fetchDummy.isSome = true then _ else _ : Bool) = checker
    split_ifs <;> exact hround checker

/-- Otherwise a fetch that finds its record hands it out, whatever the check of the lookup key says:
to the revealer it does what a round of storing does. -/
theorem fetch_served {encrypted : BitVec 512}
    (hfound : a.lookup store shuffle deviceId timestamp = some encrypted)
    (hready : (r.eqCheckInProgress || r.readyToRequestEqCheck) = true)
    (hok : r.eqCheckInProgress = true → r.outcome r.collected = true) :
    (a.fetchAndDecryptEncounter store r shuffle deviceId timestamp).1 =
      .returned (.ofDecrypted (a.opened deviceId timestamp encrypted)) ∧
    StoreCall.Round r (a.fetchAndDecryptEncounter store r shuffle deviceId timestamp).2 := by
  obtain ⟨hpass, hready', hkey⟩ := pendingCheckFails_ok hready hok a.crypto a.secrets a.storingSide
    [a.rehash (a.originalKey deviceId timestamp)] 256 a.storingSide 256
  have hstoredKey := fetchStoredPathEncounter_key store
    ⟨a.finalKey (ofBits 256 (a.rehash (a.originalKey deviceId timestamp))), 0⟩ shuffle
  unfold fetchAndDecryptEncounter
  unfold lookup storeKey localHash at hfound
  simp only [hpass, reveal_fst, hready', reveal_rehash, Bool.not_true, Bool.false_eq_true, if_false,
    Option.getD_some]
  generalize fetchStoredPathEncounter store
    ⟨a.finalKey (ofBits 256 (a.rehash (a.originalKey deviceId timestamp))), 0⟩ shuffle = p at *
  obtain ⟨found, encounter⟩ := p
  cases found
  · simp at hfound
  · obtain rfl : encounter.encrypted = encrypted := by simpa using hfound
    simp only at hstoredKey
    simp only [Bool.not_true, Bool.false_eq_true, if_false]
    refine ⟨?_, decryptPathEncounter_round hkey hready ..⟩
    rw [decryptPathEncounter_headD, hstoredKey]
    rfl

end CoVault.PathStore.FetchCall

namespace CoVault.PathQuery

open Circuit Dualex Encounters PathStore Revealer

/-! ## The fetches of a query -/

/-- The fields as Integers of their size. -/
def Record.ofFetched (f : Fetched) : Record where
  encountered := ofBits 256 f.encountered
  previous := ofBits 32 f.previous
  duration := ofBits 16 f.duration
  confirmed := ofBits 8 f.confirmed

/-- What a party does with its revealer. It may end without a result. -/
abbrev RevealM := OptionT (StateM Revealer)

/-- The result and the revealer afterwards. -/
def exec {α : Type} (x : RevealM α) (r : Revealer) : Option α × Revealer := x.run.run r

@[simp] theorem exec_pure {α : Type} (a : α) (r : Revealer) :
    exec (pure a : RevealM α) r = (some a, r) := rfl

theorem exec_bind {α β : Type} (x : RevealM α) (f : α → RevealM β) (r : Revealer) :
    exec (x >>= f) r = match exec x r with
      | (some a, r) => exec (f a) r
      | (none, r) => (none, r) := by
  unfold exec
  rw [OptionT.run_bind, Option.elimM, StateT.run_bind]
  change StateT.run _ _ = _
  obtain ⟨_ | a, r⟩ := x.run.run r <;> rfl

theorem RevealM.ext {α : Type} {x y : RevealM α} (h : ∀ r, exec x r = exec y r) : x = y :=
  funext h

variable (a : FetchCall) (store : ShuffleStore)

/-- The fetch of the program. -/
def fetchRecord : FetchM RevealM := fun shuffle id time dummyNonce fetchDummy =>
  OptionT.mk fun r =>
    let (result, r) := (a.asking dummyNonce fetchDummy).fetchAndDecryptEncounter store r shuffle
      (bitsOf id) (bitsOf time)
    (match result with
      | .returned fields => some (.ofFetched fields)
      | .refused | .blocked => none, r)

/-- What is found in the store, and made of it. -/
def storedRecord : Fetch := fun shuffle id time dummyNonce fetchDummy =>
  let a := a.asking dummyNonce fetchDummy
  (a.lookup store shuffle (bitsOf id) (bitsOf time)).map fun encrypted =>
    .ofFetched (.ofDecrypted (a.opened (bitsOf id) (bitsOf time) encrypted))

variable {a store} {r : Revealer}

/-- A fetch of a record that is there, with a revealer that has not been stopped. -/
theorem exec_fetchRecord {req : Request} {record : Record}
    (hfound : FetchM.ask (m := Option) (storedRecord a store) req = some record)
    (hready : (r.eqCheckInProgress || r.readyToRequestEqCheck) = true) :
    if r.eqCheckInProgress && !r.outcome r.collected then
      exec ((fetchRecord a store).ask req) r = (none, r.getEqCheckResults.2)
    else ∃ r', exec ((fetchRecord a store).ask req) r = (some record, r') ∧
      StoreCall.Round r r' := by
  obtain ⟨encrypted, hlookup, rfl⟩ := Option.map_eq_some_iff.mp hfound
  split_ifs with hfail
  · obtain ⟨hprogress, hfail⟩ := Bool.and_eq_true_iff.mp hfail
    exact congrArg (fun p : FetchResult × Revealer => (match p.1 with
      | .returned fields => some (Record.ofFetched fields)
      | .refused | .blocked => none, p.2))
      (FetchCall.fetch_refused hprogress (by simpa using hfail))
  · obtain ⟨hreturned, hround⟩ := FetchCall.fetch_served hlookup hready (by simpa using hfail)
    exact ⟨_, Prod.ext (congrArg (fun p => match p with
      | .returned fields => some (Record.ofFetched fields)
      | .refused | .blocked => none) hreturned) rfl, hround⟩

/-- If a fetch gives a result at all, it is what was found in the store. -/
theorem fetchRecord_answers (a : FetchCall) (store : ShuffleStore) :
    Answers (fetchRecord a store) (storedRecord a store) := by
  intro req record hfound
  refine RevealM.ext fun r => ?_
  rw [exec_bind]
  cases hready : r.eqCheckInProgress || r.readyToRequestEqCheck
  · have hstopped := FetchCall.fetchAndDecryptEncounter_of_stopped
      (a.asking req.dummyNonce req.fetchDummy) store req.shuffle (bitsOf req.device.id)
      (bitsOf req.device.previous) hready
    have hnone : (exec ((fetchRecord a store).ask req) r).1 = none :=
      congrArg (fun p => match p with
        | .returned fields => some (Record.ofFetched fields)
        | .refused | .blocked => none) hstopped
    generalize exec ((fetchRecord a store).ask req) r = p at hnone
    obtain ⟨res, r'⟩ := p
    obtain rfl : res = none := hnone
    rfl
  · have hexec := exec_fetchRecord hfound hready
    split_ifs at hexec
    · rw [hexec]
    · obtain ⟨r', hexec, -⟩ := hexec
      rw [hexec]
      rfl

end CoVault.PathQuery
