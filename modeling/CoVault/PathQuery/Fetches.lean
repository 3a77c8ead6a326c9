import CoVault.PathQuery.Contact
import CoVault.PathQuery.Flow

/-!
# The fetches of a run

What a query does with the records does not influence what it fetches: the loops can be run
with a log in place of the query's own variables. Each pass over the devices fetches, from
every shuffle, dummies under consecutive nonces, beginning with the start nonce of the shuffle,
and each encounter of a device at most once. Which devices fetch dummies from a shuffle can be
told from the records alone.
-/

namespace CoVault.PathQuery

open Circuit Encounters

/-- Keeps every visit. -/
def logging : Pass (List Visit) where
  before := id
  visit := fun log v => log ++ [v]
  after := id

/-- The visits of one pass over the devices, shuffle by shuffle. -/
def passFetches (fetch : Fetch) (perDevice : Nat) :
    List ShuffleCall → List Device → Option (List (List Visit))
  | [], _ => some []
  | call :: calls, ds => do
    let (ds, log) ← walkDevices fetch perDevice logging call ds call.dummyStartNonce []
    let logs ← passFetches fetch perDevice calls ds
    some (log :: logs)

/-! ## What a run is made of -/

section Inversion

variable {fetch : Fetch} {perDevice : Nat} {call : ShuffleCall}

/-- A walk over several devices walks the first and then the others. -/
theorem walkDevices_cons {σ : Type} {pass : Pass σ} {d : Device} {ds ds' : List Device}
    {dummyNonce : BitVec 256} {acc acc' : σ}
    (hwalk : walkDevices fetch perDevice pass call (d :: ds) dummyNonce acc = some (ds', acc')) :
    ∃ d' dummyNonce' acc₁ ds₁,
      walkDevice fetch pass call perDevice d dummyNonce (pass.before acc) =
        some (d', dummyNonce', acc₁) ∧
      walkDevices fetch perDevice pass call ds dummyNonce' (pass.after acc₁) = some (ds₁, acc') ∧
      ds' = d' :: ds₁ := by
  simp only [walkDevices, Option.bind_eq_bind, Option.bind_eq_some_iff] at hwalk
  obtain ⟨⟨d', dummyNonce', acc₁⟩, hdevice, ⟨ds₁, acc₂⟩, hrest, heq⟩ := hwalk
  obtain ⟨rfl, rfl⟩ : d' :: ds₁ = ds' ∧ acc₂ = acc' := by simpa using heq
  exact ⟨d', dummyNonce', acc₁, ds₁, hdevice, hrest, rfl⟩

/-- A pass over several shuffles fetches from the first and then from the others. -/
theorem passFetches_cons {calls : List ShuffleCall} {ds : List Device} {logs : List (List Visit)}
    (hlogs : passFetches fetch perDevice (call :: calls) ds = some logs) :
    ∃ ds' log logs',
      walkDevices fetch perDevice logging call ds call.dummyStartNonce [] = some (ds', log) ∧
      passFetches fetch perDevice calls ds' = some logs' ∧ logs = log :: logs' := by
  simp only [passFetches, Option.bind_eq_bind, Option.bind_eq_some_iff] at hlogs
  obtain ⟨⟨ds', log⟩, hwalk, logs', hrest, heq⟩ := hlogs
  exact ⟨ds', log, logs', hwalk, hrest, (Option.some.inj heq).symm⟩

end Inversion

/-- A path query. -/
inductive Query where
  | flow (q : FlowCall)
  | contact (q : ContactCall)

namespace Query

/-- The devices of each pass through the fetch loops. -/
def passes : Query → List (List Device)
  | flow q => [q.devices .source, q.devices .sink]
  | contact q => [q.devices q.walkSet]

def shuffles : Query → List ShuffleCall
  | flow q => q.shuffles
  | contact q => q.shuffles

def perDevice : Query → Nat
  | flow q => q.encountersPerDevicePerShuffle
  | contact q => q.encountersPerDevicePerShuffle

/-- The output count, or nothing when there is none. -/
def run (fetch : Fetch) (sort : List TimedEntry → List TimedEntry) : Query → Option (BitVec 32)
  | flow q => q.flow fetch sort
  | contact q => q.contact fetch

/-- The visits of a whole run by pass and shuffle. -/
def fetches (q : Query) (fetch : Fetch) : Option (List (List (List Visit))) :=
  q.passes.mapM (passFetches fetch q.perDevice q.shuffles)

end Query

/-! ## Queries that fetch the same -/

section Log

variable {σ τ : Type} (fetch : Fetch) (perDevice : Nat) (call : ShuffleCall)

theorem walkDevice_independent (pass : Pass σ) (pass' : Pass τ) (n : Nat) (d : Device)
    (dummyNonce : BitVec 256) (acc : σ) (acc' : τ) :
    (walkDevice fetch pass call n d dummyNonce acc).map (fun r => (r.1, r.2.1)) =
      (walkDevice fetch pass' call n d dummyNonce acc').map fun r => (r.1, r.2.1) := by
  induction n generalizing d dummyNonce acc acc' with
  | zero => rfl
  | succ n ih =>
    simp only [walkDevice, Option.bind_eq_bind]
    cases fetch call.shuffle d.id d.previous dummyNonce (geq call.startTime d.previous) with
    | none => rfl
    | some record => exact ih _ _ _ _

theorem walkDevices_independent (pass : Pass σ) (pass' : Pass τ) (ds : List Device)
    (dummyNonce : BitVec 256) (acc : σ) (acc' : τ) :
    (walkDevices fetch perDevice pass call ds dummyNonce acc).map (·.1) =
      (walkDevices fetch perDevice pass' call ds dummyNonce acc').map (·.1) := by
  induction ds generalizing dummyNonce acc acc' with
  | nil => rfl
  | cons d ds ih =>
    have hdevice := walkDevice_independent fetch call pass pass' perDevice d dummyNonce
      (pass.before acc) (pass'.before acc')
    simp only [walkDevices, Option.bind_eq_bind]
    generalize walkDevice fetch pass call perDevice d dummyNonce (pass.before acc) = r at hdevice ⊢
    generalize walkDevice fetch pass' call perDevice d dummyNonce (pass'.before acc') = r'
      at hdevice ⊢
    rcases r with _ | ⟨d₁, nonce₁, acc₁⟩ <;> rcases r' with _ | ⟨d₂, nonce₂, acc₂⟩
    · rfl
    · simp at hdevice
    · simp at hdevice
    · obtain ⟨rfl, rfl⟩ : d₁ = d₂ ∧ nonce₁ = nonce₂ := by simpa using hdevice
      have hrest := ih nonce₁ (pass.after acc₁) (pass'.after acc₂)
      simp only [Option.bind_some]
      generalize walkDevices fetch perDevice pass call ds nonce₁ (pass.after acc₁) = r at hrest ⊢
      generalize walkDevices fetch perDevice pass' call ds nonce₁ (pass'.after acc₂) = r' at hrest ⊢
      cases r <;> cases r' <;> simp_all

theorem isSome_bind_congr {α β γ δ : Type*} {x : Option α} {y : Option β} {f : α → Option γ}
    {g : β → Option δ} (h : x.isSome = y.isSome)
    (hrest : ∀ a b, x = some a → y = some b → (f a).isSome = (g b).isSome) :
    (x.bind f).isSome = (y.bind g).isSome := by
  cases x <;> cases y <;> simp_all

theorem walkShuffles_isSome (pass : Pass σ) (calls : List ShuffleCall) (ds : List Device) (acc : σ) :
    (walkShuffles fetch perDevice pass calls ds acc).isSome =
      (passFetches fetch perDevice calls ds).isSome := by
  induction calls generalizing ds acc with
  | nil => rfl
  | cons call calls ih =>
    have hdevices := walkDevices_independent fetch perDevice call pass logging ds
      call.dummyStartNonce acc []
    rw [walkShuffles, passFetches]
    refine isSome_bind_congr (by simpa using congrArg Option.isSome hdevices) ?_
    rintro ⟨ds₁, acc₁⟩ ⟨ds₂, log⟩ hrun hlog
    obtain rfl : ds₁ = ds₂ := by simpa [hrun, hlog] using hdevices
    simp only [ih, Option.bind_eq_bind]
    cases passFetches fetch perDevice calls ds₁ <;> rfl

/-- `flow` collects its elements if and only if its log is complete. -/
theorem elements_isSome (q : FlowCall) (sort : List TimedEntry → List TimedEntry) :
    (q.elements fetch sort).isSome = ((Query.flow q).fetches fetch).isSome := by
  simp only [FlowCall.elements, Query.fetches, Query.passes, Query.perDevice, Query.shuffles,
    List.mapM_cons, List.mapM_nil, Option.bind_eq_bind, Option.pure_def, Option.bind_assoc]
  refine isSome_bind_congr (walkShuffles_isSome ..) fun r log _ _ => ?_
  exact isSome_bind_congr (walkShuffles_isSome ..) fun r' log' _ _ => rfl

/-- `contact` ends its loops if and only if its log is complete. -/
theorem walk_isSome (q : ContactCall) :
    (walkShuffles fetch q.encountersPerDevicePerShuffle q.pass q.shuffles (q.devices q.walkSet)
      (0, false)).isSome = ((Query.contact q).fetches fetch).isSome := by
  rw [walkShuffles_isSome]
  simp only [Query.fetches, Query.passes, Query.perDevice, Query.shuffles, List.mapM_cons,
    List.mapM_nil, Option.bind_eq_bind, Option.pure_def]
  cases passFetches fetch q.encountersPerDevicePerShuffle q.shuffles _ <;> rfl

/-- A run with a result has a complete log. -/
theorem Query.fetches_isSome (q : Query) {sort : List TimedEntry → List TimedEntry}
    {count : BitVec 32} (hrun : q.run fetch sort = some count) : (q.fetches fetch).isSome := by
  cases q with
  | flow q =>
    obtain ⟨list, hlist, -⟩ := Option.bind_eq_some_iff.mp hrun
    rw [← elements_isSome fetch q sort, hlist, Option.isSome_some]
  | contact q =>
    obtain ⟨r, hwalk, -⟩ := Option.bind_eq_some_iff.mp hrun
    rw [← walk_isSome, hwalk, Option.isSome_some]

end Log

/-! ## What a pass fetches -/

/-- The dummies among some visits. -/
def dummies (vs : List Visit) : List Visit := vs.filter (·.fetchDummy)

/-- The encounters among some visits. -/
def reals (vs : List Visit) : List Visit := vs.filter (!·.fetchDummy)

/-- Every encounter fetched leads to an earlier one. -/
def Decreasing (fetch : Fetch) : Prop :=
  ∀ shuffle id time nonce record, fetch shuffle id time nonce false = some record →
    record.previous.toNat < time.toNat

/-- The visits to some devices in one shuffle: the dummies come under consecutive nonces, and
no encounter is visited twice if the devices are different and their times decrease. -/
structure Visited (fetch : Fetch) (perDevice : Nat) (ids : List (BitVec 256))
    (dummyNonce : BitVec 256) (vs : List Visit) : Prop where
  length : vs.length = ids.length * perDevice
  among : ∀ v ∈ vs, v.device.id ∈ ids
  nonces : (dummies vs).map (·.dummyNonce) =
    (List.range (dummies vs).length).map fun j => dummyNonce + BitVec.ofNat 256 j
  nodup : Decreasing fetch → ids.Nodup → ((reals vs).map (·.device)).Nodup

section Visits

variable {fetch : Fetch} {perDevice : Nat} {call : ShuffleCall}

@[simp] theorem dummies_append (vs vs' : List Visit) :
    dummies (vs ++ vs') = dummies vs ++ dummies vs' := List.filter_append ..

@[simp] theorem reals_append (vs vs' : List Visit) :
    reals (vs ++ vs') = reals vs ++ reals vs' := List.filter_append ..

/-- Nonces that follow on nonces. -/
theorem map_range_add (dummyNonce : BitVec 256) (m n : Nat) :
    (List.range (m + n)).map (fun j => dummyNonce + BitVec.ofNat 256 j) =
      (List.range m).map (fun j => dummyNonce + BitVec.ofNat 256 j) ++
        (List.range n).map fun j => dummyNonce + BitVec.ofNat 256 m + BitVec.ofNat 256 j := by
  rw [List.range_add, List.map_append, List.map_map]
  congr 1
  exact List.map_congr_left fun j _ => by
    rw [Function.comp_apply, BitVec.ofNat_add, BitVec.add_assoc]

theorem Visited.append {ids ids' : List (BitVec 256)} {dummyNonce : BitVec 256}
    {vs vs' : List Visit} (h : Visited fetch perDevice ids dummyNonce vs)
    (h' : Visited fetch perDevice ids' (dummyNonce + BitVec.ofNat 256 (dummies vs).length) vs') :
    Visited fetch perDevice (ids ++ ids') dummyNonce (vs ++ vs') where
  length := by rw [List.length_append, List.length_append, h.length, h'.length, Nat.add_mul]
  among v hv := by
    rcases List.mem_append.mp hv with hv | hv
    · exact List.mem_append_left _ (h.among v hv)
    · exact List.mem_append_right _ (h'.among v hv)
  nonces := by
    rw [dummies_append, List.map_append, h.nonces, h'.nonces, List.length_append, map_range_add]
  nodup hdecreasing hids := by
    obtain ⟨hids, hids', hdisjoint⟩ := List.nodup_append'.mp hids
    rw [reals_append, List.map_append]
    refine (h.nodup hdecreasing hids).append (h'.nodup hdecreasing hids') fun d hd hd' => ?_
    obtain ⟨v, hv, rfl⟩ := List.mem_map.mp hd
    obtain ⟨v', hv', heq⟩ := List.mem_map.mp hd'
    exact hdisjoint (h.among v (List.mem_of_mem_filter hv))
      (heq ▸ h'.among v' (List.mem_of_mem_filter hv'))

/-- The innermost loop. -/
theorem walkDevice_visited {n : Nat} {d d' : Device} {dummyNonce dummyNonce' : BitVec 256}
    {log log' : List Visit}
    (hwalk : walkDevice fetch logging call n d dummyNonce log = some (d', dummyNonce', log')) :
    d'.id = d.id ∧ ∃ vs, log' = log ++ vs ∧ Visited fetch n [d.id] dummyNonce vs ∧
      dummyNonce' = dummyNonce + BitVec.ofNat 256 (dummies vs).length ∧
      (Decreasing fetch → ∀ v ∈ reals vs, v.device.previous.toNat ≤ d.previous.toNat) := by
  induction n generalizing d dummyNonce log with
  | zero =>
    obtain ⟨rfl, rfl, rfl⟩ : d = d' ∧ dummyNonce = dummyNonce' ∧ log = log' := by
      simpa [walkDevice] using hwalk
    exact ⟨rfl, [], by simp, ⟨rfl, by simp, rfl, by simp [reals]⟩, by simp [dummies], by simp [reals]⟩
  | succ n ih =>
    simp only [walkDevice, Option.bind_eq_bind, Option.bind_eq_some_iff] at hwalk
    obtain ⟨record, hfetch, hwalk⟩ := hwalk
    obtain ⟨hid, vs, rfl, hvs, rfl, hle⟩ := ih hwalk
    refine ⟨hid, ⟨d, dummyNonce, geq call.startTime d.previous, record⟩ :: vs, by simp [logging], ?_⟩
    have hids : ∀ v ∈ (⟨d, dummyNonce, geq call.startTime d.previous, record⟩ :: vs : List Visit),
        v.device.id ∈ [d.id] := by
      intro v hv
      rcases List.mem_cons.mp hv with rfl | hv
      · simp
      · exact hvs.among v hv
    cases hdummy : geq call.startTime d.previous with
    | true =>
      simp only [hdummy, if_true] at hvs hle hids ⊢
      have hcons : dummies (⟨d, dummyNonce, true, record⟩ :: vs) =
          ⟨d, dummyNonce, true, record⟩ :: dummies vs := rfl
      refine ⟨⟨by simp [hvs.length], hids, ?_, by simpa [reals] using hvs.nodup⟩, ?_,
        by simpa [reals] using hle⟩
      · rw [hcons, List.map_cons, List.length_cons, Nat.add_comm, map_range_add, hvs.nonces]
        simp
      · rw [hcons, List.length_cons, Nat.add_comm, BitVec.ofNat_add, ← BitVec.add_assoc]
        rfl
    | false =>
      simp only [hdummy, Bool.false_eq_true, if_false] at hvs hle hfetch hids ⊢
      have hcons : reals (⟨d, dummyNonce, false, record⟩ :: vs) =
          ⟨d, dummyNonce, false, record⟩ :: reals vs := rfl
      refine ⟨⟨by simp [hvs.length], hids, by simpa [dummies] using hvs.nonces, ?_⟩,
        by simp [dummies], ?_⟩
      · intro hdecreasing hnodup
        have hlt := hdecreasing _ _ _ _ _ hfetch
        rw [hcons, List.map_cons, List.nodup_cons]
        refine ⟨fun hmem => ?_, hvs.nodup hdecreasing hnodup⟩
        obtain ⟨v, hv, heq⟩ := List.mem_map.mp hmem
        have hle : d.previous.toNat ≤ record.previous.toNat := by
          simpa only [heq] using hle hdecreasing v hv
        omega
      · intro hdecreasing v hv
        have hlt := hdecreasing _ _ _ _ _ hfetch
        rw [hcons] at hv
        rcases List.mem_cons.mp hv with rfl | hv
        · exact le_rfl
        · exact (hle hdecreasing v hv).trans (Nat.le_of_lt hlt)

/-- The loop over the devices of one shuffle. -/
theorem walkDevices_visited {ds ds' : List Device} {dummyNonce : BitVec 256}
    {log log' : List Visit}
    (hwalk : walkDevices fetch perDevice logging call ds dummyNonce log = some (ds', log')) :
    ds'.map (·.id) = ds.map (·.id) ∧
      ∃ vs, log' = log ++ vs ∧ Visited fetch perDevice (ds.map (·.id)) dummyNonce vs := by
  induction ds generalizing ds' dummyNonce log with
  | nil =>
    obtain ⟨rfl, rfl⟩ : [] = ds' ∧ log = log' := by simpa [walkDevices] using hwalk
    exact ⟨rfl, [], by simp, ⟨by simp, by simp, rfl, by simp [reals]⟩⟩
  | cons d ds ih =>
    obtain ⟨d', dummyNonce', log₁, ds₁, hdevice, hrest, rfl⟩ := walkDevices_cons hwalk
    obtain ⟨hid, vs, rfl, hvs, rfl, -⟩ := walkDevice_visited hdevice
    obtain ⟨hids, vs', rfl, hvs'⟩ := ih hrest
    exact ⟨by simp [hid, hids], vs ++ vs', by simp [logging], hvs.append hvs'⟩

/-- A whole pass. -/
theorem passFetches_visited {calls : List ShuffleCall} {ds : List Device}
    {logs : List (List Visit)} (hlogs : passFetches fetch perDevice calls ds = some logs) :
    List.Forall₂ (fun call vs => Visited fetch perDevice (ds.map (·.id)) call.dummyStartNonce vs)
      calls logs := by
  induction calls generalizing ds logs with
  | nil =>
    obtain rfl : [] = logs := by simpa [passFetches] using hlogs
    exact .nil
  | cons call calls ih =>
    obtain ⟨ds', log, logs', hwalk, hrest, rfl⟩ := passFetches_cons hlogs
    obtain ⟨hids, vs, rfl, hvs⟩ := walkDevices_visited hwalk
    have hrest := ih hrest
    rw [hids] at hrest
    exact .cons hvs hrest

/-- Every part of a log belongs to a pass. -/
theorem passFetches_of_mem {q : Query} {log : List (List (List Visit))}
    (hlog : q.fetches fetch = some log) {logs : List (List Visit)} (hlogs : logs ∈ log) :
    ∃ ds, passFetches fetch q.perDevice q.shuffles ds = some logs := by
  rw [Query.fetches] at hlog
  generalize q.passes = passes at hlog
  induction passes generalizing log with
  | nil => simp_all
  | cons ds passes ih =>
    simp only [List.mapM_cons, Option.bind_eq_bind, Option.bind_eq_some_iff, Option.pure_def,
      Option.some.injEq] at hlog
    obtain ⟨first, hfirst, rest, hrest, rfl⟩ := hlog
    rcases List.mem_cons.mp hlogs with rfl | hlogs
    · exact ⟨ds, hfirst⟩
    · exact ih hlogs hrest

theorem visited_getD {calls : List ShuffleCall} {ds : List Device} {logs : List (List Visit)}
    (hlogs : passFetches fetch perDevice calls ds = some logs) (s : Nat) :
    match calls[s]? with
    | some call => Visited fetch perDevice (ds.map (·.id)) call.dummyStartNonce (logs.getD s [])
    | none => logs.getD s [] = [] := by
  have hvisited := passFetches_visited hlogs
  clear hlogs
  induction hvisited generalizing s with
  | nil => rfl
  | cons hvs _ ih =>
    cases s with
    | zero => exact hvs
    | succ s => exact ih s

/-! ## Devices that run out of records -/

/-- The records of a store, by shuffle, device id and time. -/
abbrev Records := BitVec 64 → BitVec 256 → BitVec 32 → Option Record

/-- The fetch finds these records, whatever the dummy nonce. -/
def Serves (fetch : Fetch) (records : Records) : Prop :=
  ∀ shuffle id time dummyNonce, fetch shuffle id time dummyNonce false = records shuffle id time

namespace Device

variable (records : Records) (call : ShuffleCall)

/-- The device after up to `n` of its records in a shuffle. -/
def after : Nat → Device → Device
  | 0, d => d
  | n + 1, d =>
    if geq call.startTime d.previous then d
    else match records call.shuffle d.id d.previous with
      | none => d
      | some r => after n { d with previous := r.previous }

/-- The device has fewer than `n` records ahead in a shuffle. -/
def runsOut : Nat → Device → Bool
  | 0, _ => false
  | n + 1, d =>
    geq call.startTime d.previous ||
      match records call.shuffle d.id d.previous with
      | none => false
      | some r => runsOut n { d with previous := r.previous }

end Device

theorem after_of_early {records : Records} {d : Device}
    (hearly : geq call.startTime d.previous = true) (n : Nat) : d.after records call n = d := by
  cases n <;> simp [Device.after, hearly]

theorem walkDevice_after {records : Records} (hserves : Serves fetch records) {n : Nat}
    {d d' : Device} {dummyNonce dummyNonce' : BitVec 256} {log log' : List Visit}
    (hwalk : walkDevice fetch logging call n d dummyNonce log = some (d', dummyNonce', log')) :
    d' = d.after records call n ∧
      ((∃ v ∈ log', v.fetchDummy = true) ↔
        (∃ v ∈ log, v.fetchDummy = true) ∨ d.runsOut records call n = true) := by
  induction n generalizing d dummyNonce log with
  | zero =>
    obtain ⟨rfl, rfl, rfl⟩ : d = d' ∧ dummyNonce = dummyNonce' ∧ log = log' := by
      simpa [walkDevice] using hwalk
    simp [Device.after, Device.runsOut]
  | succ n ih =>
    simp only [walkDevice, Option.bind_eq_bind, Option.bind_eq_some_iff] at hwalk
    obtain ⟨record, hfetch, hwalk⟩ := hwalk
    obtain ⟨hd, hdummies⟩ := ih hwalk
    cases hearly : geq call.startTime d.previous with
    | true =>
      simp only [hearly, if_true] at hd
      refine ⟨by rw [hd, after_of_early hearly, after_of_early hearly], hdummies.trans ?_⟩
      simp [logging, hearly, Device.runsOut, or_and_right, exists_or]
    | false =>
      rw [hearly, hserves] at hfetch
      simp only [hearly, Bool.false_eq_true, if_false] at hd hdummies
      refine ⟨by simp [Device.after, hearly, hfetch, hd], hdummies.trans ?_⟩
      simp [logging, Device.runsOut, hearly, hfetch]

theorem walkDevices_after {records : Records} (hserves : Serves fetch records) {ds ds' : List Device}
    {dummyNonce : BitVec 256} {log log' : List Visit}
    (hwalk : walkDevices fetch perDevice logging call ds dummyNonce log = some (ds', log')) :
    ds' = ds.map (·.after records call perDevice) ∧
      ((∃ v ∈ log', v.fetchDummy = true) ↔ (∃ v ∈ log, v.fetchDummy = true) ∨
        ∃ d ∈ ds, d.runsOut records call perDevice = true) := by
  induction ds generalizing ds' dummyNonce log with
  | nil =>
    obtain ⟨rfl, rfl⟩ : [] = ds' ∧ log = log' := by simpa [walkDevices] using hwalk
    simp
  | cons d ds ih =>
    obtain ⟨d', dummyNonce', log₁, ds₁, hdevice, hrest, rfl⟩ := walkDevices_cons hwalk
    obtain ⟨rfl, hfirst⟩ := walkDevice_after hserves hdevice
    obtain ⟨rfl, hlater⟩ := ih hrest
    refine ⟨rfl, hlater.trans ?_⟩
    simp only [logging, id_eq] at hfirst ⊢
    rw [hfirst, List.exists_mem_cons_iff, or_assoc]

/-- Some of the devices run out of records in shuffle number `s`. -/
def RunsOut (records : Records) (perDevice : Nat) : List ShuffleCall → List Device → Nat → Prop
  | [], _, _ => False
  | call :: _, ds, 0 => ∃ d ∈ ds, d.runsOut records call perDevice = true
  | call :: calls, ds, s + 1 =>
    RunsOut records perDevice calls (ds.map (·.after records call perDevice)) s

/-- A pass fetches a dummy from a shuffle if and only if a device runs out of records there. -/
theorem exists_dummy_iff {records : Records} (hserves : Serves fetch records)
    {calls : List ShuffleCall} {ds : List Device} {logs : List (List Visit)}
    (hlogs : passFetches fetch perDevice calls ds = some logs) (s : Nat) :
    (∃ v ∈ logs.getD s [], v.fetchDummy = true) ↔ RunsOut records perDevice calls ds s := by
  induction calls generalizing ds logs s with
  | nil =>
    obtain rfl : [] = logs := by simpa [passFetches] using hlogs
    simp [RunsOut]
  | cons call calls ih =>
    obtain ⟨ds', log, logs', hwalk, hrest, rfl⟩ := passFetches_cons hlogs
    obtain ⟨rfl, hdummies⟩ := walkDevices_after hserves hwalk
    cases s with
    | zero => simpa [RunsOut] using hdummies
    | succ s => exact ih hrest s

end Visits

end CoVault.PathQuery
