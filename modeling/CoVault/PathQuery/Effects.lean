import CoVault.PathQuery.Fetches

/-!
# The loops with a fetch that has effects

A fetch does more than to hand out a record: it reveals and collects checks. Here the loops of the
two queries run in any monad. What they do beside their own variables is what their fetches do, one
after the other; so if the fetches answer as a store of records would, the query computes what it
computes over the records.
-/

namespace CoVault.PathQuery

open Circuit Encounters

/-- A fetch with effects. -/
abbrev FetchM (m : Type → Type) :=
  BitVec 64 → BitVec 256 → BitVec 32 → BitVec 256 → Bool → m Record

/-- The arguments of one fetch. -/
structure Request where
  shuffle : BitVec 64
  device : Device
  dummyNonce : BitVec 256
  fetchDummy : Bool

def FetchM.ask {m : Type → Type} (fetch : FetchM m) (req : Request) : m Record :=
  fetch req.shuffle req.device.id req.device.previous req.dummyNonce req.fetchDummy

section Loops

variable {m : Type → Type} [Monad m] {σ : Type} (fetch : FetchM m) (perDevice : Nat)
  (pass : Pass σ) (call : ShuffleCall)

/-- The innermost loop. -/
def walkDeviceM : Nat → Device → BitVec 256 → σ → m (Device × BitVec 256 × σ)
  | 0, d, dummyNonce, acc => pure (d, dummyNonce, acc)
  | j + 1, d, dummyNonce, acc => do
    let fetchDummy := geq call.startTime d.previous
    let record ← fetch.ask ⟨call.shuffle, d, dummyNonce, fetchDummy⟩
    walkDeviceM j { d with previous := if fetchDummy then d.previous else record.previous }
      (if fetchDummy then dummyNonce + 1 else dummyNonce)
      (pass.visit acc ⟨d, dummyNonce, fetchDummy, record⟩)

/-- The loop over the devices of one shuffle. -/
def walkDevicesM : List Device → BitVec 256 → σ → m (List Device × σ)
  | [], _, acc => pure ([], acc)
  | d :: ds, dummyNonce, acc => do
    let (d, dummyNonce, acc) ← walkDeviceM fetch pass call perDevice d dummyNonce (pass.before acc)
    let (ds, acc) ← walkDevicesM ds dummyNonce (pass.after acc)
    pure (d :: ds, acc)

/-- The loop over the shuffles. -/
def walkShufflesM : List ShuffleCall → List Device → σ → m (List Device × σ)
  | [], ds, acc => pure (ds, acc)
  | call :: calls, ds, acc => do
    let (ds, acc) ← walkDevicesM fetch perDevice pass call ds call.dummyStartNonce acc
    walkShufflesM calls ds acc

/-- `flow`, `sort` being the only step between the fetches and the count that can be chosen. -/
def FlowCall.flowM (q : FlowCall) (sort : List TimedEntry → List TimedEntry) : m (BitVec 32) := do
  let (_, list) ← walkShufflesM fetch q.encountersPerDevicePerShuffle (q.pass true) q.shuffles
    (q.devices .source) []
  let (_, list) ← walkShufflesM fetch q.encountersPerDevicePerShuffle (q.pass false) q.shuffles
    (q.devices .sink) list
  let s := ((sort list).take q.encountersToWalkThrough).foldl q.walkThrough q.walkStart
  pure s.outputCount

/-- `contact`. Without any fetch the program ends when the mean times are computed. -/
def ContactCall.contactM [MonadExcept Unit m] (q : ContactCall) : m (BitVec 32) := do
  let (_, acc) ← walkShufflesM fetch q.encountersPerDevicePerShuffle q.pass q.shuffles
    (q.devices q.walkSet) (0, false)
  if q.walkLength = 0 then throw () else pure acc.1

def Query.runM [MonadExcept Unit m] (sort : List TimedEntry → List TimedEntry) : Query → m (BitVec 32)
  | flow q => q.flowM fetch sort
  | contact q => q.contactM fetch

/-- Fetches one after the other. -/
def askAll : List Request → m Unit
  | [] => pure ()
  | req :: reqs => do
    let _ ← fetch.ask req
    askAll reqs

end Loops

/-- The number of fetches of a run. -/
def Query.fetchCount (q : Query) : Nat :=
  (q.passes.map fun ds => q.shuffles.length * (ds.length * q.perDevice)).sum

/-- Where the records have an answer, the fetch gives that one, if any. -/
def Answers {m : Type → Type} [Monad m] (fetch : FetchM m) (records : Fetch) : Prop :=
  ∀ req record, FetchM.ask (m := Option) records req = some record →
    fetch.ask req = fetch.ask req >>= fun _ => pure record

section Loops

variable {m : Type → Type} [Monad m] [LawfulMonad m] {fetch : FetchM m} {records : Fetch}
  {perDevice : Nat} {call : ShuffleCall} {σ : Type}

theorem askAll_append (reqs reqs' : List Request) :
    askAll fetch (reqs ++ reqs') = askAll fetch reqs >>= fun _ => askAll fetch reqs' := by
  induction reqs with
  | nil => simp only [List.nil_append, askAll, pure_bind]
  | cons req reqs ih => simp only [List.cons_append, askAll, ih, bind_assoc]

/-- A computation that makes `n` fetches, each of which has an answer, and goes on as `y`. -/
def Asks (fetch : FetchM m) (records : Fetch) {α : Type} (n : Nat) (x y : m α) : Prop :=
  ∃ reqs, reqs.length = n ∧ (∀ req ∈ reqs, (FetchM.ask (m := Option) records req).isSome) ∧
    x = askAll fetch reqs >>= fun _ => y

theorem Asks.pure {α : Type} (a : α) : Asks fetch records 0 (pure a) (pure a) :=
  ⟨[], rfl, by simp, by simp only [askAll, pure_bind]⟩

theorem Asks.bind {α β : Type} {n n' : Nat} {x : m α} {a : α} {f : α → m β} {y : m β}
    (hx : Asks fetch records n x (Pure.pure a)) (hf : Asks fetch records n' (f a) y) :
    Asks fetch records (n' + n) (x >>= f) y := by
  obtain ⟨reqs, rfl, hreqs, rfl⟩ := hx
  obtain ⟨reqs', rfl, hreqs', hrest⟩ := hf
  refine ⟨reqs ++ reqs', by rw [List.length_append, Nat.add_comm], ?_, ?_⟩
  · intro req hreq
    rcases List.mem_append.mp hreq with hreq | hreq
    · exact hreqs req hreq
    · exact hreqs' req hreq
  · simp only [askAll_append, bind_assoc, pure_bind, hrest]

theorem Asks.bind_last {α β : Type} {n : Nat} {x : m α} {a : α}
    (hx : Asks fetch records n x (Pure.pure a)) (f : α → m β) :
    Asks fetch records n (x >>= f) (f a) := by
  obtain ⟨reqs, hlength, hreqs, rfl⟩ := hx
  exact ⟨reqs, hlength, hreqs, by simp only [bind_assoc, pure_bind]⟩

theorem Asks.ask (h : Answers fetch records) {req : Request} {record : Record}
    (hrecord : FetchM.ask (m := Option) records req = some record) :
    Asks fetch records 1 (fetch.ask req) (Pure.pure record) := by
  refine ⟨[req], rfl, by simp [hrecord], ?_⟩
  rw [h req record hrecord]
  simp only [askAll, bind_assoc, pure_bind]

theorem walkDeviceM_asks (h : Answers fetch records) (pass : Pass σ) {n : Nat} {d : Device}
    {dummyNonce : BitVec 256} {acc : σ} {res : Device × BitVec 256 × σ}
    (hwalk : walkDevice records pass call n d dummyNonce acc = some res) :
    Asks fetch records n (walkDeviceM fetch pass call n d dummyNonce acc) (pure res) := by
  induction n generalizing d dummyNonce acc with
  | zero =>
    obtain rfl := Option.some.inj hwalk
    exact .pure _
  | succ n ih =>
    simp only [walkDevice, Option.bind_eq_bind, Option.bind_eq_some_iff] at hwalk
    obtain ⟨record, hrecord, hwalk⟩ := hwalk
    have hask : Asks fetch records 1
        (fetch.ask ⟨call.shuffle, d, dummyNonce, geq call.startTime d.previous⟩) (pure record) :=
      .ask h hrecord
    exact hask.bind (ih hwalk)

theorem walkDevicesM_asks (h : Answers fetch records) (pass : Pass σ) {ds : List Device}
    {dummyNonce : BitVec 256} {acc : σ} {res : List Device × σ}
    (hwalk : walkDevices records perDevice pass call ds dummyNonce acc = some res) :
    Asks fetch records (ds.length * perDevice)
      (walkDevicesM fetch perDevice pass call ds dummyNonce acc) (pure res) ∧
        res.1.length = ds.length := by
  induction ds generalizing dummyNonce acc res with
  | nil =>
    obtain rfl := Option.some.inj hwalk
    rw [List.length_nil, Nat.zero_mul]
    exact ⟨.pure _, rfl⟩
  | cons d ds ih =>
    obtain ⟨d', dummyNonce', acc₁, ds₁, hdevice, hrest, heq⟩ := walkDevices_cons hwalk
    obtain ⟨hasks, hlength⟩ := ih hrest
    obtain ⟨ds', acc'⟩ := res
    obtain rfl : ds' = d' :: ds₁ := heq
    refine ⟨?_, congrArg (· + 1) hlength⟩
    rw [List.length_cons, Nat.succ_mul]
    refine (walkDeviceM_asks h pass hdevice).bind ?_
    exact hasks.bind_last fun r => pure (d' :: r.1, r.2)

theorem walkShufflesM_asks (h : Answers fetch records) (pass : Pass σ) {calls : List ShuffleCall}
    {ds : List Device} {acc : σ} {res : List Device × σ}
    (hwalk : walkShuffles records perDevice pass calls ds acc = some res) :
    Asks fetch records (calls.length * (ds.length * perDevice))
      (walkShufflesM fetch perDevice pass calls ds acc) (pure res) := by
  induction calls generalizing ds acc with
  | nil =>
    obtain rfl := Option.some.inj hwalk
    rw [List.length_nil, Nat.zero_mul]
    exact .pure _
  | cons call calls ih =>
    simp only [walkShuffles, Option.bind_eq_bind, Option.bind_eq_some_iff] at hwalk
    obtain ⟨⟨ds', acc'⟩, hdevices, hwalk⟩ := hwalk
    obtain ⟨hasks, hlength⟩ := walkDevicesM_asks h pass hdevices
    have hrest := ih hwalk
    rw [show ds'.length = ds.length from hlength] at hrest
    rw [List.length_cons, Nat.succ_mul]
    exact hasks.bind hrest

theorem FlowCall.flowM_asks (h : Answers fetch records) (q : FlowCall)
    (sort : List TimedEntry → List TimedEntry) {list : List TimedEntry}
    (hlist : q.elements records sort = some list) :
    Asks fetch records (q.shuffles.length * ((q.devices .sink).length *
        q.encountersPerDevicePerShuffle) + q.shuffles.length * ((q.devices .source).length *
          q.encountersPerDevicePerShuffle)) (q.flowM fetch sort)
      (pure (list.foldl q.walkThrough q.walkStart).outputCount) := by
  simp only [elements, Option.bind_eq_bind, Option.bind_eq_some_iff] at hlist
  obtain ⟨⟨ds, list₁⟩, hsource, ⟨ds', list₂⟩, hsink, hlist⟩ := hlist
  obtain rfl := Option.some.inj hlist
  refine (walkShufflesM_asks h (q.pass true) hsource).bind ?_
  exact (walkShufflesM_asks h (q.pass false) hsink).bind_last fun r =>
    pure (((sort r.2).take q.encountersToWalkThrough).foldl q.walkThrough q.walkStart).outputCount

theorem ContactCall.contactM_asks [MonadExcept Unit m] (h : Answers fetch records) (q : ContactCall)
    {r : List Device × BitVec 32 × Bool}
    (hwalk : walkShuffles records q.encountersPerDevicePerShuffle q.pass q.shuffles
      (q.devices q.walkSet) (0, false) = some r) :
    Asks fetch records q.walkLength (q.contactM fetch)
      (if q.walkLength = 0 then throw () else pure r.2.1) :=
  (walkShufflesM_asks h q.pass hwalk).bind_last fun r =>
    if q.walkLength = 0 then throw () else pure r.2.1

/-- A query that finds all it fetches among the records asks for so many of them, and then ends as
it does over the records. -/
theorem Query.runM_asks [MonadExcept Unit m] (h : Answers fetch records) (q : Query)
    (sort : List TimedEntry → List TimedEntry) (hfetches : (q.fetches records).isSome) :
    Asks fetch records q.fetchCount (q.runM fetch sort)
      ((q.run records sort).elim (throw ()) pure) := by
  cases q with
  | flow q =>
    obtain ⟨list, hlist⟩ := Option.isSome_iff_exists.mp
      ((elements_isSome records q sort).trans hfetches)
    have hasks := q.flowM_asks h sort hlist
    rw [Nat.add_comm] at hasks
    simpa [fetchCount, passes, shuffles, perDevice, runM, run, FlowCall.flow, hlist] using hasks
  | contact q =>
    obtain ⟨r, hwalk⟩ := Option.isSome_iff_exists.mp ((walk_isSome records q).trans hfetches)
    have hasks := q.contactM_asks h hwalk
    have hend : (q.contact records).elim (throw () : m (BitVec 32)) pure =
        if q.walkLength = 0 then throw () else pure r.2.1 := by
      rw [ContactCall.contact, hwalk, Option.bind_eq_bind, Option.bind_some]
      split_ifs <;> rfl
    rw [← hend] at hasks
    simpa [fetchCount, passes, shuffles, perDevice, runM, run, ContactCall.walkLength] using hasks

end Loops

end CoVault.PathQuery
