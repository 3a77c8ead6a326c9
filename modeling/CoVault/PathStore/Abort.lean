import CoVault.PathStore.Store

/-!
# What storing does with failed checks

A round of `store_path_encounter` first collects a check that is still in progress and
opens the lookup key whatever came out; then it collects the check of the lookup key
and opens the record only if that one turned out true. The calls it makes depend on
the two flags of the revealer and the outcomes of the checks alone, and the run keeps
the abort discipline exactly when no check but the last one fails.
-/

namespace CoVault.Dualex.Revealer

open Circuit

variable (c : Crypto) (s : Secrets) (r : Revealer) (side : Side) (integers : List Integer)
  (elem : Nat) (revealSide : Side) (max : Nat)

/-- All that a reveal does to the revealer except for its nonce. -/
structure Revealed (r r' : Revealer) : Prop where
  inProgress : r'.eqCheckInProgress = (r.eqCheckInProgress || r.readyToRequestEqCheck)
  ready : r'.readyToRequestEqCheck = false
  outcome : r'.outcome = r.outcome
  collected : r'.collected = r.collected
  trace : r'.trace = r.trace ++ [.reveal]

theorem reveal_revealed :
    Revealed r (r.reveal c s side integers elem revealSide max).2.2 := by
  by_cases hside : revealSide = Side.BOTH <;> cases hready : r.readyToRequestEqCheck <;>
    constructor <;> simp [reveal, requestEqCheck, nextNonce, hside, hready]

/-- All that collecting a check does to the revealer. -/
structure Collected (r r' : Revealer) : Prop where
  inProgress : r'.eqCheckInProgress = false
  ready : r'.readyToRequestEqCheck = (r.readyToRequestEqCheck || r.eqCheckInProgress)
  outcome : r'.outcome = r.outcome
  collected : r'.collected = r.collected + r.eqCheckInProgress.toNat
  trace : r'.trace = r.trace ++ [.check (r.eqCheckInProgress && r.outcome r.collected)]

theorem getEqCheckResults_fst :
    r.getEqCheckResults.1 = (r.eqCheckInProgress && r.outcome r.collected) := by
  cases h : r.eqCheckInProgress <;> simp [getEqCheckResults, h]

theorem getEqCheckResults_collected : Collected r r.getEqCheckResults.2 := by
  cases h : r.eqCheckInProgress <;> constructor <;> simp [getEqCheckResults, h]

end CoVault.Dualex.Revealer

namespace CoVault.PathStore

open Circuit Dualex Revealer

/-- The calls of one round from the given flags, the outcomes being numbered from `c`. -/
def roundEvents (outcome : Nat → Bool) (inProgress ready : Bool) (c : Nat) : List Event :=
  let ok := (inProgress || ready) && outcome (c + inProgress.toNat)
  (if inProgress then [.check (outcome c)] else []) ++ .reveal :: .check ok ::
    if ok then [.reveal] else []

/-- The calls of `n` rounds. -/
def runEvents (outcome : Nat → Bool) : Bool → Bool → Nat → Nat → List Event
  | _, _, _, 0 => []
  | inProgress, ready, c, n + 1 =>
    let ok := (inProgress || ready) && outcome (c + inProgress.toNat)
    roundEvents outcome inProgress ready c ++
      runEvents outcome ok ((inProgress || ready) && !ok)
        (c + inProgress.toNat + (inProgress || ready).toNat) n

namespace StoreCall

variable (a : StoreCall)

/-- What one round does to the revealer. -/
structure Round (r r' : Revealer) : Prop where
  inProgress : r'.eqCheckInProgress = ((r.eqCheckInProgress || r.readyToRequestEqCheck) &&
    r.outcome (r.collected + r.eqCheckInProgress.toNat))
  ready : r'.readyToRequestEqCheck = ((r.eqCheckInProgress || r.readyToRequestEqCheck) &&
    !r'.eqCheckInProgress)
  outcome : r'.outcome = r.outcome
  collected : r'.collected = r.collected + r.eqCheckInProgress.toNat +
    (r.eqCheckInProgress || r.readyToRequestEqCheck).toNat
  trace : r'.trace = r.trace ++
    roundEvents r.outcome r.eqCheckInProgress r.readyToRequestEqCheck r.collected

/-- The first part of a round: an open check is collected, the lookup key is opened. -/
structure KeyRound (r r' : Revealer) : Prop where
  inProgress : r'.eqCheckInProgress = (r.eqCheckInProgress || r.readyToRequestEqCheck)
  ready : r'.readyToRequestEqCheck = false
  outcome : r'.outcome = r.outcome
  collected : r'.collected = r.collected + r.eqCheckInProgress.toNat
  trace : r'.trace = r.trace ++ ((if r.eqCheckInProgress then
    [Event.check (r.outcome r.collected)] else []) ++ [.reveal])

theorem storeKey_keyRound (st : StoreState) (k : Nat) (input : Integer) :
    KeyRound st.revealer (a.storeKey st k input).2.revealer := by
  unfold storeKey
  cases h : st.revealer.eqCheckInProgress
  · obtain ⟨h1, h2, h3, h4, h5⟩ := reveal_revealed a.crypto a.secrets st.revealer a.side
      [a.secrets.mac a.crypto ((Encounters.fieldOrder a.fields).foldl (Layout.copy input)
        ⟨0, st.hashMe, st.encryptMe⟩).hashMe] 8 Side.BOTH 256
    constructor <;> simp_all
  · obtain ⟨c1, c2, c3, c4, c5⟩ := getEqCheckResults_collected st.revealer
    obtain ⟨h1, h2, h3, h4, h5⟩ := reveal_revealed a.crypto a.secrets
      st.revealer.getEqCheckResults.2 a.side
      [a.secrets.mac a.crypto ((Encounters.fieldOrder a.fields).foldl (Layout.copy input)
        ⟨0, st.hashMe, st.encryptMe⟩).hashMe] 8 Side.BOTH 256
    constructor <;> simp_all

theorem KeyRound.round_of_fail {r r₁ r₂ : Revealer} (hkey : KeyRound r r₁)
    (hcheck : Collected r₁ r₂) (hfail : (r₁.eqCheckInProgress && r₁.outcome r₁.collected) = false) :
    Round r r₂ := by
  obtain ⟨k1, k2, k3, k4, k5⟩ := hkey
  obtain ⟨c1, c2, c3, c4, c5⟩ := hcheck
  simp only [k1, k2, k3, k4, k5] at hfail c1 c2 c3 c4 c5
  constructor <;> simp [roundEvents, c1, c2, c3, c4, c5, hfail]

theorem KeyRound.round_of_ok {r r₁ r₂ r₃ : Revealer} (hkey : KeyRound r r₁)
    (hcheck : Collected r₁ r₂) (hok : (r₁.eqCheckInProgress && r₁.outcome r₁.collected) = true)
    (hreveal : Revealed r₂ r₃) : Round r r₃ := by
  obtain ⟨k1, k2, k3, k4, k5⟩ := hkey
  obtain ⟨c1, c2, c3, c4, c5⟩ := hcheck
  obtain ⟨h1, h2, h3, h4, h5⟩ := hreveal
  simp only [k1, k2, k3, k4, k5] at hok c1 c2 c3 c4 c5
  simp only [c1, c2, c3, c4, c5] at h1 h2 h3 h4 h5
  obtain ⟨hready, hout⟩ := Bool.and_eq_true_iff.mp hok
  constructor <;> simp [roundEvents, h1, h2, h3, h4, h5, hready, hout]

theorem storeOne_round (st : StoreState) (k : Nat) (input : Integer) :
    Round st.revealer (a.storeOne st k input).revealer := by
  have hkey := a.storeKey_keyRound st k input
  unfold storeOne storeValue
  generalize a.storeKey st k input = p at *
  obtain ⟨mac, st'⟩ := p
  have hcheck := getEqCheckResults_collected st'.revealer
  have hfst := getEqCheckResults_fst st'.revealer
  simp only
  split_ifs with h
  · exact hkey.round_of_ok hcheck (hfst ▸ h) (reveal_revealed ..)
  · exact hkey.round_of_fail hcheck (hfst ▸ Bool.not_eq_true _ ▸ h)

/-- What a whole call does to the revealer. -/
theorem storeFrom_trace (st : StoreState) (k : Nat) (inputs : List Integer) :
    (a.storeFrom st k inputs).revealer.trace = st.revealer.trace ++
      runEvents st.revealer.outcome st.revealer.eqCheckInProgress st.revealer.readyToRequestEqCheck
        st.revealer.collected inputs.length := by
  induction inputs generalizing st k with
  | nil => simp [storeFrom, runEvents]
  | cons input inputs ih =>
    obtain ⟨h1, h2, h3, h4, h5⟩ := a.storeOne_round st k input
    rw [storeFrom, ih, h5, h2, h1, h3, h4, List.append_assoc]
    rfl

end StoreCall

/-! ## When the run keeps the discipline -/

section Discipline

variable (outcome : Nat → Bool)

theorem abortDiscipline_check_true_cons {t : List Event} :
    AbortDiscipline (.check true :: t) ↔ AbortDiscipline t := by
  simp [AbortDiscipline]

theorem abortDiscipline_reveal_cons {t : List Event} :
    AbortDiscipline (.reveal :: t) ↔ AbortDiscipline t := by
  simp [AbortDiscipline]

theorem not_abortDiscipline_of_fail {t : List Event} (h : Event.reveal ∈ t) :
    ¬ AbortDiscipline (.check false :: t) := by
  intro hd
  exact (List.pairwise_cons.mp hd).1 _ h rfl rfl

/-- Every round opens its lookup key. -/
theorem reveal_mem_runEvents (inProgress ready : Bool) (c n : Nat) :
    Event.reveal ∈ runEvents outcome inProgress ready c (n + 1) := by
  simp [runEvents, roundEvents]

/-- With the checks from `c` on: rounds that start with a check in progress. -/
theorem abortDiscipline_runEvents_inProgress (ready : Bool) (c n : Nat) :
    AbortDiscipline (runEvents outcome true ready c n) ↔
      ∀ i, i + 2 < 2 * n + 1 → outcome (c + i) = true := by
  induction n generalizing ready c with
  | zero => simp [runEvents, AbortDiscipline]
  | succ n ih =>
    cases h0 : outcome c
    · -- the first check fails, yet the lookup key is opened
      refine iff_of_false ?_ (fun h => by simpa [h0] using h 0 (by omega))
      simp only [runEvents, roundEvents, h0, if_true, List.cons_append, List.nil_append]
      exact not_abortDiscipline_of_fail (by simp)
    · cases h1 : outcome (c + 1)
      · -- the second check fails; the next round opens its lookup key
        simp only [runEvents, roundEvents, h0, h1, if_true, List.cons_append, List.nil_append,
          Bool.toNat_true, Bool.true_or, Bool.true_and, Bool.not_false, Bool.false_eq_true,
          if_false, abortDiscipline_check_true_cons, abortDiscipline_reveal_cons]
        cases n with
        | zero =>
          refine iff_of_true (by simp [runEvents, AbortDiscipline]) (fun i hi => ?_)
          obtain rfl : i = 0 := by omega
          exact h0
        | succ n =>
          refine iff_of_false (not_abortDiscipline_of_fail (reveal_mem_runEvents ..)) (fun h => ?_)
          simpa [h1] using h 1 (by omega)
      · simp only [runEvents, roundEvents, h0, h1, if_true, List.cons_append, List.nil_append,
          Bool.toNat_true, Bool.true_or, Bool.true_and, abortDiscipline_check_true_cons,
          abortDiscipline_reveal_cons, ih]
        constructor
        · intro h i hi
          match i with
          | 0 => exact h0
          | 1 => exact h1
          | i + 2 =>
            rw [show c + (i + 2) = c + 1 + 1 + i by omega]
            exact h i (by omega)
        · intro h i hi
          rw [show c + 1 + 1 + i = c + (i + 2) by omega]
          exact h (i + 2) (by omega)

/-- Rounds that start with no check in progress. -/
theorem abortDiscipline_runEvents_ready (c n : Nat) :
    AbortDiscipline (runEvents outcome false true c n) ↔
      ∀ i, i + 2 < 2 * n → outcome (c + i) = true := by
  cases n with
  | zero => simp [runEvents, AbortDiscipline]
  | succ n =>
    cases h0 : outcome c
    · simp only [runEvents, roundEvents, h0, Bool.false_eq_true, if_false, List.cons_append,
        List.nil_append, Bool.toNat_false, Nat.add_zero, Bool.or_true, Bool.and_false,
        abortDiscipline_reveal_cons]
      cases n with
      | zero => exact iff_of_true (by simp [runEvents, AbortDiscipline]) (fun i hi => by omega)
      | succ n =>
        refine iff_of_false (not_abortDiscipline_of_fail (reveal_mem_runEvents ..)) (fun h => ?_)
        simpa [h0] using h 0 (by omega)
    · simp only [runEvents, roundEvents, h0, Bool.false_eq_true, if_false, if_true,
        List.cons_append, List.nil_append, Bool.toNat_false, Bool.toNat_true, Nat.add_zero,
        Bool.or_true, Bool.and_true, abortDiscipline_reveal_cons,
        abortDiscipline_check_true_cons, abortDiscipline_runEvents_inProgress]
      constructor
      · intro h i hi
        match i with
        | 0 => exact h0
        | i + 1 =>
          rw [show c + (i + 1) = c + 1 + i by omega]
          exact h i (by omega)
      · intro h i hi
        rw [show c + 1 + i = c + (i + 1) by omega]
        exact h (i + 1) (by omega)

/-- A revealer that has been stopped refuses every check. -/
theorem abortDiscipline_runEvents_stopped (c n : Nat) :
    AbortDiscipline (runEvents outcome false false c n) ↔ n ≤ 1 := by
  match n with
  | 0 => simp [runEvents, AbortDiscipline]
  | 1 => simp [runEvents, roundEvents, AbortDiscipline]
  | n + 2 =>
    refine iff_of_false ?_ (by omega)
    rw [runEvents]
    simp only [roundEvents, Bool.false_eq_true, if_false, Bool.or_self, Bool.false_and,
      List.nil_append, List.cons_append, abortDiscipline_reveal_cons]
    exact not_abortDiscipline_of_fail (reveal_mem_runEvents ..)

end Discipline

/-- The run of one call keeps the abort discipline if and only if every check but the last
one that `n` records cause turns out true; a stopped revealer only survives one record. -/
theorem storePathEncounter_abortDiscipline_iff (a : StoreCall) (r : Revealer)
    (output : Nat → StorablePathEncounter) (input : List Integer) :
    AbortDiscipline
        (a.storePathEncounter { r with trace := [] } output input).revealer.trace ↔
      if r.eqCheckInProgress || r.readyToRequestEqCheck then
        ∀ i, i + 2 < 2 * input.length + r.eqCheckInProgress.toNat →
          r.outcome (r.collected + i) = true
      else input.length ≤ 1 := by
  rw [StoreCall.storePathEncounter, StoreCall.storeFrom_trace, List.nil_append]
  cases hp : r.eqCheckInProgress <;> cases hr : r.readyToRequestEqCheck
  · simp [abortDiscipline_runEvents_stopped]
  · simp [abortDiscipline_runEvents_ready]
  · simp [abortDiscipline_runEvents_inProgress]
  · simp [abortDiscipline_runEvents_inProgress]

/-- Two encounters of one device. -/
def twoEncounters : List Encounters.Encounter :=
  [⟨1, 7, 9, 0, 0, 0, 100, 0, 200, 5, 1, true⟩, ⟨2, 7, 8, 0, 0, 0, 200, 100, 300, 5, 1, true⟩]

/-- The peer cheats on the first lookup key: the check fails, and the second lookup key is
opened all the same. -/
theorem storePathEncounter_reveals_after_failure :
    ¬ AbortDiscipline
      (StoreCall.storePathEncounter
        ⟨Crypto.constant, Secrets.deployed, Side.LEFT, Side.LEFT, []⟩
        ⟨512, false, true, fun _ => 0, fun i => decide (i ≠ 0), 0, []⟩ (fun _ => ⟨0, 0⟩)
        (Encounters.fillIntegers (fun _ => false) twoEncounters false [])).revealer.trace := by
  rw [StoreCall.storePathEncounter, StoreCall.storeFrom_trace, List.nil_append]
  change ¬ AbortDiscipline (runEvents (fun i => decide (i ≠ 0)) false true 0 2)
  decide

end CoVault.PathStore
