import CoVault.PathQuery.Fetches

/-!
# The comparisons of the path queries

Times and durations are recorded as unsigned numbers, and the queries compare them by the sign
of a difference. A query treats a record as its unsigned numbers ask for as long as no difference
exceeds half of the range.
-/

namespace CoVault.PathQuery

open Circuit

/-- The encounter is a confirmed one that was fetched, and longer than the minimum. -/
def FlowCall.isSufficient (q : FlowCall) (v : Visit) : Bool :=
  !v.fetchDummy && decide (q.minimumDuration.toNat < v.record.duration.toNat) &&
    v.record.isConfirmed

/-- The time under which a record is to be stored. -/
def FlowCall.dueTime (q : FlowCall) (v : Visit) : BitVec 32 :=
  if q.isSufficient v then v.device.previous else q.sinkEndTime

/-- The two comparisons of `in_time_range`. -/
def FlowCall.windowTests (q : FlowCall) (time : BitVec 32) : Bool × Bool :=
  (less q.sourceStartTime time, less time q.sinkEndTime)

/-- The two comparisons with the window. -/
def ContactCall.windowTests (q : ContactCall) (time : BitVec 32) : Bool × Bool :=
  (less q.startTime time, less time q.endTime)

theorem FlowCall.inTimeRange_eq (q : FlowCall) (time : BitVec 32) :
    q.inTimeRange time = ((q.windowTests time).1 && (q.windowTests time).2) := rfl

theorem ContactCall.visit_eq (q : ContactCall) (acc : BitVec 32 × Bool) (v : Visit) :
    q.visit acc v = (acc.1, acc.2 || (!v.fetchDummy && v.record.isConfirmed &&
      (q.windowTests v.device.previous).1 && (q.windowTests v.device.previous).2 &&
        q.filter.contains v.record.encountered)) := rfl

/-- Strictly after the start, and strictly before the end. -/
def strictlyInside (start finish time : BitVec 32) : Bool × Bool :=
  (decide (start.toNat < time.toNat), decide (time.toNat < finish.toNat))

namespace Query

/-- The query does with a visit in a shuffle what the unsigned numbers ask for. -/
def Unsigned (call : ShuffleCall) (v : Visit) : Query → Prop
  | flow q => v.fetchDummy = decide (v.device.previous.toNat ≤ call.startTime.toNat) ∧
      (∀ isSource, (q.timedEntry isSource v).1 = q.dueTime v ∧
        q.windowTests (q.timedEntry isSource v).1 =
          strictlyInside q.sourceStartTime q.sinkEndTime (q.timedEntry isSource v).1)
  | contact q => v.fetchDummy = decide (v.device.previous.toNat ≤ call.startTime.toNat) ∧
      q.windowTests v.device.previous = strictlyInside q.startTime q.endTime v.device.previous

/-- No difference that counts exceeds half of the range. The minimum duration counts for confirmed
encounters whose time is not the end of the window anyway. -/
def InRange (call : ShuffleCall) (v : Visit) : Query → Prop
  | flow q => Near call.startTime v.device.previous ∧
      (v.fetchDummy = false → v.record.isConfirmed = true → v.device.previous ≠ q.sinkEndTime →
        Near q.minimumDuration v.record.duration) ∧
      Near q.sourceStartTime (q.dueTime v) ∧ Near (q.dueTime v) q.sinkEndTime
  | contact q => Near call.startTime v.device.previous ∧
      Near q.startTime v.device.previous ∧ Near v.device.previous q.endTime

end Query

section Tests

variable {fetch : Fetch} {perDevice : Nat} {call : ShuffleCall}

theorem windowTests_iff (start finish time : BitVec 32) :
    (less start time, less time finish) = strictlyInside start finish time ↔
      Near start time ∧ Near time finish := by
  rw [strictlyInside, Prod.mk.injEq, less_eq_iff, less_eq_iff]

/-- A record is stored under the time it is due unless the comparison of its duration counts and
wraps. -/
theorem FlowCall.timedEntry_iff (q : FlowCall) (isSource : Bool) (v : Visit) :
    (q.timedEntry isSource v).1 = q.dueTime v ↔
      (v.fetchDummy = false → v.record.isConfirmed = true → v.device.previous ≠ q.sinkEndTime →
        Near q.minimumDuration v.record.duration) := by
  rw [← geq_eq_iff, timedEntry, dueTime, isSufficient]
  cases v.fetchDummy <;> cases v.record.isConfirmed <;>
    cases geq q.minimumDuration v.record.duration <;>
    by_cases hlonger : q.minimumDuration.toNat < v.record.duration.toNat <;>
    grind

/-- What counts as too early is decided by the one comparison with the start of the shuffle. -/
theorem walkDevice_fetchDummy {n : Nat} {d d' : Device} {dummyNonce dummyNonce' : BitVec 256}
    {log log' : List Visit}
    (hwalk : walkDevice fetch logging call n d dummyNonce log = some (d', dummyNonce', log')) :
    ∃ vs, log' = log ++ vs ∧ ∀ v ∈ vs, v.fetchDummy = geq call.startTime v.device.previous := by
  induction n generalizing d dummyNonce log with
  | zero =>
    obtain ⟨-, -, rfl⟩ : d = d' ∧ dummyNonce = dummyNonce' ∧ log = log' := by
      simpa [walkDevice] using hwalk
    exact ⟨[], by simp, by simp⟩
  | succ n ih =>
    simp only [walkDevice, Option.bind_eq_bind, Option.bind_eq_some_iff] at hwalk
    obtain ⟨record, -, hwalk⟩ := hwalk
    obtain ⟨vs, rfl, hvs⟩ := ih hwalk
    exact ⟨⟨d, dummyNonce, geq call.startTime d.previous, record⟩ :: vs, by simp [logging],
      List.forall_mem_cons.mpr ⟨rfl, hvs⟩⟩

theorem walkDevices_fetchDummy {ds ds' : List Device} {dummyNonce : BitVec 256}
    {log log' : List Visit}
    (hwalk : walkDevices fetch perDevice logging call ds dummyNonce log = some (ds', log')) :
    ∃ vs, log' = log ++ vs ∧ ∀ v ∈ vs, v.fetchDummy = geq call.startTime v.device.previous := by
  induction ds generalizing ds' dummyNonce log with
  | nil =>
    obtain ⟨-, rfl⟩ : [] = ds' ∧ log = log' := by simpa [walkDevices] using hwalk
    exact ⟨[], by simp, by simp⟩
  | cons d ds ih =>
    obtain ⟨d', dummyNonce', log₁, ds₁, hdevice, hrest, rfl⟩ := walkDevices_cons hwalk
    obtain ⟨vs, rfl, hvs⟩ := walkDevice_fetchDummy hdevice
    obtain ⟨vs', rfl, hvs'⟩ := ih hrest
    refine ⟨vs ++ vs', by simp [logging], fun v hv => ?_⟩
    exact (List.mem_append.mp hv).elim (hvs v) (hvs' v)

theorem passFetches_fetchDummy {calls : List ShuffleCall} {ds : List Device}
    {logs : List (List Visit)} (hlogs : passFetches fetch perDevice calls ds = some logs) :
    List.Forall₂ (fun call vs => ∀ v ∈ vs, v.fetchDummy = geq call.startTime v.device.previous)
      calls logs := by
  induction calls generalizing ds logs with
  | nil =>
    obtain rfl : [] = logs := by simpa [passFetches] using hlogs
    exact .nil
  | cons call calls ih =>
    obtain ⟨ds', log, logs', hwalk, hrest, rfl⟩ := passFetches_cons hlogs
    obtain ⟨vs, rfl, hvs⟩ := walkDevices_fetchDummy hwalk
    exact .cons (by simpa using hvs) (ih hrest)

end Tests

/-- In every run, each visit is treated as the unsigned numbers ask for if and only if no
difference that counts exceeds half of the range. -/
theorem Query.unsigned_iff (q : Query) {fetch : Fetch} {log : List (List (List Visit))}
    (hlog : q.fetches fetch = some log) :
    ∀ logs ∈ log, List.Forall₂ (fun call vs => ∀ v ∈ vs, q.Unsigned call v ↔ q.InRange call v)
      q.shuffles logs := by
  intro logs hlogs
  obtain ⟨ds, hpass⟩ := passFetches_of_mem hlog hlogs
  refine (passFetches_fetchDummy hpass).imp fun call vs hdummy v hv => ?_
  have hfetch : v.fetchDummy = decide (v.device.previous.toNat ≤ call.startTime.toNat) ↔
      Near call.startTime v.device.previous := by rw [hdummy v hv, geq_eq_iff]
  cases q with
  | contact q => rw [Unsigned, InRange, hfetch, ContactCall.windowTests, windowTests_iff]
  | flow q =>
    rw [Unsigned, InRange, hfetch]
    refine and_congr_right fun _ => ?_
    have hwindow := windowTests_iff q.sourceStartTime q.sinkEndTime (q.dueTime v)
    constructor
    · intro h
      obtain ⟨htime, htests⟩ := h true
      rw [htime] at htests
      exact ⟨(q.timedEntry_iff true v).mp htime, hwindow.mp htests⟩
    · rintro ⟨hduration, hnear⟩ isSource
      have htime := (q.timedEntry_iff isSource v).mpr hduration
      rw [htime]
      exact ⟨rfl, hwindow.mpr hnear⟩

/-- The only fetch finds a confirmed encounter of 40000 units. -/
def longMeeting : Record := ⟨7, 0, 40000, 1⟩

/-- A flow query for encounters of more than 10 units, with one source device. -/
def longMeetingCall : FlowCall where
  sourceStartTime := 1
  sinkEndTime := 100
  minimumDuration := 10
  devices := fun g => match g with
    | .source => [⟨5, 50⟩]
    | .sink => []
  shuffles := [⟨0, 2, 0⟩]
  encountersPerDevicePerShuffle := 1
  totalEncountersToWalkThrough := 0
  encounteredFilterNElements := 1
  alreadyInfectedFilterNElements := 1
  includeDirectSourceToSinkEdges := false
  filterType := ⟨100, 3, fun _ => 13⟩

/-- What is fetched in that query. -/
def longMeetingLog : List (List (List Visit)) := [[[⟨⟨5, 50⟩, 0, false, longMeeting⟩]], [[]]]

/-- An encounter of 20 units in its place is in range. -/
theorem shortMeeting_unsigned : (Query.flow longMeetingCall).Unsigned ⟨0, 2, 0⟩
    ⟨⟨5, 50⟩, 0, false, { longMeeting with duration := 20 }⟩ := by
  have hruns := Query.unsigned_iff (.flow longMeetingCall)
    (rfl : (Query.flow longMeetingCall).fetches
      (fun _ _ _ _ _ => some { longMeeting with duration := 20 }) = _) _ List.mem_cons_self
  refine ((List.forall₂_cons.mp hruns).1 _ (List.mem_singleton_self _)).mpr ?_
  exact ⟨by decide, fun _ _ _ => by decide, by decide, by decide⟩

/-- The encounter is longer than the minimum, but is stored as if it were not: 10 - 40000 wraps to
a number without the sign. -/
theorem longMeeting_dropped :
    (Query.flow longMeetingCall).fetches (fun _ _ _ _ _ => some longMeeting) =
        some longMeetingLog ∧
      ∃ v ∈ longMeetingLog.flatten.flatten, v.fetchDummy = false ∧ v.record.isConfirmed = true ∧
        longMeetingCall.minimumDuration.toNat < v.record.duration.toNat ∧
        (longMeetingCall.timedEntry true v).1 ≠ v.device.previous ∧
        ¬(Query.flow longMeetingCall).Unsigned ⟨0, 2, 0⟩ v := by
  refine ⟨rfl, ⟨⟨5, 50⟩, 0, false, longMeeting⟩, by simp [longMeetingLog], rfl, by decide,
    by decide, by decide, fun h => ?_⟩
  exact absurd (h.2 true).1 (by decide)

end CoVault.PathQuery
