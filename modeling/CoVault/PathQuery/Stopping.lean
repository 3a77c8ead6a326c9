import CoVault.PathQuery.OverStore

/-!
# Failed checks during a query

A fetch collects two checks: first that of the bit opened by the fetch before, then that of its own
lookup key. If the first one fails, the query ends. The second one is collected where the MAC is
checked, which cannot report to its caller, and the next fetch opens its lookup key all the same.
-/

namespace CoVault.PathQuery

open Circuit Dualex Encounters PathStore Revealer

/-- The calls of `n` fetches that find their records, the outcomes being numbered from `c`. -/
def fetchEvents (outcome : Nat → Bool) : Bool → Nat → Nat → List Event
  | _, _, 0 => []
  | inProgress, c, n + 1 =>
    if inProgress && !outcome c then [.check false]
    else roundEvents outcome inProgress true c ++
      fetchEvents outcome (outcome (c + inProgress.toNat)) (c + inProgress.toNat + 1) n

/-- One of the fetches is refused. -/
def refuses (outcome : Nat → Bool) : Bool → Nat → Nat → Bool
  | _, _, 0 => false
  | inProgress, c, n + 1 =>
    inProgress && !outcome c ||
      refuses outcome (outcome (c + inProgress.toNat)) (c + inProgress.toNat + 1) n

theorem roundEvents_ready {outcome : Nat → Bool} {inProgress ready : Bool} (c : Nat)
    (h : (inProgress || ready) = true) :
    roundEvents outcome inProgress ready c = roundEvents outcome inProgress true c := by
  simp [roundEvents, h]

section Fetches

variable {a : FetchCall} {store : ShuffleStore} {r : Revealer}

/-- What some fetches do to the revealer. -/
theorem exec_askAll {reqs : List Request}
    (hfound : ∀ req ∈ reqs, (FetchM.ask (m := Option) (storedRecord a store) req).isSome)
    (hready : (r.eqCheckInProgress || r.readyToRequestEqCheck) = true) :
    ∃ r', exec (askAll (fetchRecord a store) reqs) r =
        (if refuses r.outcome r.eqCheckInProgress r.collected reqs.length then none else some (),
          r') ∧
      r'.outcome = r.outcome ∧ (r'.eqCheckInProgress || r'.readyToRequestEqCheck) = true ∧
      r'.trace = r.trace ++
        fetchEvents r.outcome r.eqCheckInProgress r.collected reqs.length := by
  induction reqs generalizing r with
  | nil => exact ⟨r, rfl, rfl, hready, (List.append_nil _).symm⟩
  | cons req reqs ih =>
    obtain ⟨record, hrecord⟩ := Option.isSome_iff_exists.mp (hfound req (by simp))
    have hexec := exec_fetchRecord hrecord hready
    rw [askAll, exec_bind, List.length_cons, refuses, fetchEvents]
    split_ifs at hexec with hfail
    · obtain ⟨h1, h2, h3, h4, h5⟩ := getEqCheckResults_collected r
      obtain ⟨hprogress, hout⟩ := Bool.and_eq_true_iff.mp hfail
      refine ⟨r.getEqCheckResults.2, by rw [hexec]; simp [hfail], h3,
        by simp [h1, h2, hprogress], ?_⟩
      rw [h5, if_pos hfail]
      simp_all
    · obtain ⟨r₁, hexec, h1, h2, h3, h4, h5⟩ := hexec
      rw [hready, Bool.true_and] at h1 h2
      rw [hready, Bool.toNat_true] at h4
      obtain ⟨r', hrest, houtcome, hready', htrace⟩ :=
        ih (fun req' h => hfound req' (List.mem_cons_of_mem _ h)) (r := r₁) (by simp [h2])
      rw [h1, h3, h4] at hrest htrace
      refine ⟨r', ?_, houtcome.trans h3, hready', ?_⟩
      · rw [hexec]
        simpa only [Bool.eq_false_of_not_eq_true hfail, Bool.false_or] using hrest
      · rw [htrace, h5, if_neg hfail, roundEvents_ready _ hready, List.append_assoc]

theorem refuses_of_true (inProgress : Bool) (c n : Nat) :
    refuses (fun _ => true) inProgress c n = false := by
  induction n generalizing inProgress c with
  | zero => rfl
  | succ n ih => simp [refuses, ih]

/-- With a revealer whose checks succeed, a query that is complete over what is in the store ends
with the same count. -/
theorem Query.exec_runM {q : Query} {sort : List TimedEntry → List TimedEntry} {count : BitVec 32}
    (hrun : q.run (storedRecord a store) sort = some count) (hwork : Working r) :
    ∃ r', exec (q.runM (fetchRecord a store) sort) r = (some count, r') ∧ Working r' := by
  obtain ⟨reqs, -, hreqs, heq⟩ := q.runM_asks (fetchRecord_answers a store) sort
    (q.fetches_isSome _ hrun)
  obtain ⟨r', hexec, houtcome, hready, -⟩ := exec_askAll hreqs hwork.ready
  have htrue : r.outcome = fun _ => true := funext hwork.checks
  rw [htrue, refuses_of_true] at hexec
  refine ⟨r', ?_, fun i => by rw [houtcome, hwork.checks], hready⟩
  rw [heq, exec_bind, hexec, hrun]
  rfl

end Fetches

/-! ## When a query keeps the discipline -/

section Discipline

variable (outcome : Nat → Bool)

/-- Every fetch with no check in progress opens its lookup key. -/
theorem reveal_mem_fetchEvents (c n : Nat) :
    Event.reveal ∈ fetchEvents outcome false c (n + 1) := by
  simp [fetchEvents, roundEvents]

/-- Behind a check of a lookup key that turned out true, the fetches are numbered anew. -/
theorem forall_fetches_succ (inProgress : Bool) (c n : Nat)
    (hfirst : ∀ i < inProgress.toNat, outcome (c + i) = true) :
    (∀ k, k + 1 < n + 1 → (∀ i < 2 * k + inProgress.toNat, outcome (c + i) = true) →
        outcome (c + inProgress.toNat + 2 * k) = true) ↔
      (0 < n → outcome (c + inProgress.toNat) = true) ∧
        (outcome (c + inProgress.toNat) = true → ∀ k, k + 1 < n →
          (∀ i < 2 * k + 1, outcome (c + inProgress.toNat + 1 + i) = true) →
            outcome (c + inProgress.toNat + 1 + 1 + 2 * k) = true) := by
  constructor
  · refine fun h => ⟨fun hn => h 0 (by omega) (by simpa using hfirst), fun hkey k hk hall => ?_⟩
    rw [show c + inProgress.toNat + 1 + 1 + 2 * k = c + inProgress.toNat + 2 * (k + 1) by omega]
    refine h (k + 1) (by omega) fun i hi => ?_
    rcases Nat.lt_trichotomy i inProgress.toNat with hlt | rfl | hgt
    · exact hfirst i hlt
    · exact hkey
    · have hnext := hall (i - inProgress.toNat - 1) (by omega)
      rwa [show c + inProgress.toNat + 1 + (i - inProgress.toNat - 1) = c + i by omega] at hnext
  · rintro ⟨hkey, hrest⟩ k hk hall
    cases k with
    | zero => exact hkey (by omega)
    | succ k =>
      rw [show c + inProgress.toNat + 2 * (k + 1) = c + inProgress.toNat + 1 + 1 + 2 * k by omega]
      refine hrest (hkey (by omega)) k (by omega) fun i hi => ?_
      rw [show c + inProgress.toNat + 1 + i = c + (inProgress.toNat + 1 + i) by omega]
      exact hall _ (by omega)

/-- The fetches keep the discipline if and only if no check of a lookup key is the first to fail,
that of the last fetch excepted. -/
theorem abortDiscipline_fetchEvents (inProgress : Bool) (c n : Nat) :
    AbortDiscipline (fetchEvents outcome inProgress c n) ↔
      ∀ k, k + 1 < n → (∀ i < 2 * k + inProgress.toNat, outcome (c + i) = true) →
        outcome (c + inProgress.toNat + 2 * k) = true := by
  induction n generalizing inProgress c with
  | zero => simp [fetchEvents, AbortDiscipline]
  | succ n ih =>
    rw [fetchEvents]
    split_ifs with hfail
    · -- refused at once: the check in progress fails
      obtain ⟨rfl, hout⟩ := Bool.and_eq_true_iff.mp hfail
      refine iff_of_true (by simp [AbortDiscipline]) fun k _ hall => ?_
      have hfirst := hall 0 (by simp)
      simp_all
    · have hfirst : ∀ i < inProgress.toNat, outcome (c + i) = true := by
        intro i hi
        cases inProgress
        · cases hi
        · obtain rfl : i = 0 := by simpa using hi
          simpa using hfail
      have hcollect : AbortDiscipline (roundEvents outcome inProgress true c ++
          fetchEvents outcome (outcome (c + inProgress.toNat)) (c + inProgress.toNat + 1) n) ↔
            AbortDiscipline (.check (outcome (c + inProgress.toNat)) ::
              ((if outcome (c + inProgress.toNat) then [.reveal] else []) ++
                fetchEvents outcome (outcome (c + inProgress.toNat))
                  (c + inProgress.toNat + 1) n)) := by
        cases inProgress
        · simp [roundEvents, abortDiscipline_reveal_cons]
        · have hin : outcome c = true := hfirst 0 (by simp)
          simp [roundEvents, hin, abortDiscipline_reveal_cons, abortDiscipline_check_true_cons]
      rw [hcollect, forall_fetches_succ outcome inProgress c n hfirst]
      cases hkey : outcome (c + inProgress.toNat)
      · -- the check of the lookup key fails, and nobody is told
        cases n with
        | zero => exact iff_of_true (by simp [fetchEvents, AbortDiscipline]) (by simp)
        | succ n =>
          refine iff_of_false (not_abortDiscipline_of_fail ?_) (by simp)
          simpa using reveal_mem_fetchEvents outcome _ n
      · simp [abortDiscipline_check_true_cons, abortDiscipline_reveal_cons, ih]

end Discipline

/-- A query that finds all its records keeps the discipline, no reveal after a failed check, if and
only if no check of a lookup key is the first to fail, that of the last fetch excepted. -/
theorem Query.abortDiscipline_iff (q : Query) {a : FetchCall} {store : ShuffleStore}
    {sort : List TimedEntry → List TimedEntry}
    (hcomplete : (q.fetches (storedRecord a store)).isSome) {r : Revealer}
    (hready : (r.eqCheckInProgress || r.readyToRequestEqCheck) = true) (htrace : r.trace = []) :
    AbortDiscipline (exec (q.runM (fetchRecord a store) sort) r).2.trace ↔
      ∀ k, k + 1 < q.fetchCount →
        (∀ i < 2 * k + r.eqCheckInProgress.toNat, r.outcome (r.collected + i) = true) →
          r.outcome (r.collected + r.eqCheckInProgress.toNat + 2 * k) = true := by
  obtain ⟨reqs, hlength, hreqs, heq⟩ := q.runM_asks (fetchRecord_answers a store) sort hcomplete
  obtain ⟨r', hexec, -, -, hevents⟩ := exec_askAll hreqs hready
  have htwo : (exec (q.runM (fetchRecord a store) sort) r).2 = r' := by
    rw [heq, exec_bind, hexec]
    cases refuses r.outcome r.eqCheckInProgress r.collected reqs.length
    · cases q.run (storedRecord a store) sort <;> rfl
    · rfl
  rw [htwo, hevents, htrace, List.nil_append, hlength, abortDiscipline_fetchEvents]

/-- The peer cheats on the lookup key of the first of two fetches; the second one opens its lookup
key all the same. -/
theorem Query.oneAgainstTwo_goes_on :
    ¬ AbortDiscipline (exec ((contact ContactCall.oneAgainstTwo).runM
      (fetchRecord FetchCall.plainFetch (FetchCall.oneRecord 0)) id)
      ⟨512, false, true, fun _ => 0, fun i => decide (i ≠ 0), 0, []⟩).2.trace := by
  intro h
  have hall := ((contact ContactCall.oneAgainstTwo).abortDiscipline_iff (by decide +kernel) rfl
    rfl).mp h
  exact absurd (hall 0 (by decide) (by simp)) (by decide)

end CoVault.PathQuery
