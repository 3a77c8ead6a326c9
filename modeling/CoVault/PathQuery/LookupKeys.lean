import CoVault.PathQuery.Fetches
import CoVault.PathQuery.FlowCount
import CoVault.PathStore.Integrity
import CoVault.PathStore.Shuffle

/-!
# The lookup keys of a run

A fetch asks for the key of an encounter or, for a dummy, for the dummy nonce. Within one pass
no key is asked for twice, but `flow` makes two passes and begins both with the same nonce. The
records behind the dummy keys are made by another counter than the nonces of the queries: that
one stays within a 64-bit lane.
-/

namespace CoVault.PathQuery

open Circuit Encounters PathStore

/-- The key that a fetch looks up. -/
def asks (a : FetchCall) (v : Visit) : BitVec 256 :=
  ofBits 256 (({ a with dummyNonce := some (bitsOf v.dummyNonce), fetchDummy := some v.fetchDummy } :
    FetchCall).originalKey (bitsOf v.device.id) (bitsOf v.device.previous))

theorem asks_of_dummy {a : FetchCall} {v : Visit} (h : v.fetchDummy = true) :
    asks a v = v.dummyNonce := by
  simp [asks, FetchCall.originalKey, h]

/-- The key hash has no collision among the keys asked for, nor with a dummy key. -/
structure CollisionFree (a : FetchCall) (vs : List Visit) : Prop where
  device_eq : ∀ v ∈ reals vs, ∀ w ∈ reals vs, asks a v = asks a w → v.device = w.device
  ne : ∀ v ∈ reals vs, ∀ w ∈ dummies vs, asks a v ≠ asks a w

theorem CollisionFree.mono {a : FetchCall} {vs ws : List Visit} (h : CollisionFree a ws)
    (hsub : vs ⊆ ws) : CollisionFree a vs := by
  have hreal : ∀ v ∈ reals vs, v ∈ reals ws := fun v hv => by
    obtain ⟨hmem, hreal⟩ := List.mem_filter.mp hv
    exact List.mem_filter.mpr ⟨hsub hmem, hreal⟩
  have hdummy : ∀ v ∈ dummies vs, v ∈ dummies ws := fun v hv => by
    obtain ⟨hmem, hdummy⟩ := List.mem_filter.mp hv
    exact List.mem_filter.mpr ⟨hsub hmem, hdummy⟩
  exact ⟨fun v hv w hw => h.device_eq v (hreal v hv) w (hreal w hw),
    fun v hv w hw => h.ne v (hreal v hv) w (hdummy w hw)⟩

section Keys

variable {a : FetchCall} {fetch : Fetch} {perDevice : Nat} {ids ids' : List (BitVec 256)}
  {dummyNonce dummyNonce' : BitVec 256} {vs vs' : List Visit}

theorem map_asks_dummies (vs : List Visit) :
    (dummies vs).map (asks a) = (dummies vs).map (·.dummyNonce) :=
  List.map_congr_left fun _ hv => asks_of_dummy (List.mem_filter.mp hv).2

theorem nodup_nonces {n : Nat} (hn : n ≤ 2 ^ 256) :
    ((List.range n).map fun j => dummyNonce + BitVec.ofNat 256 j).Nodup := by
  refine List.nodup_range.map_on fun i hi j hj heq => ?_
  rw [List.mem_range] at hi hj
  have := congrArg BitVec.toNat (add_left_cancel heq)
  rwa [BitVec.toNat_ofNat, BitVec.toNat_ofNat, Nat.mod_eq_of_lt (by omega),
    Nat.mod_eq_of_lt (by omega)] at this

/-- In one pass no key is asked for twice. -/
theorem Visited.nodup_asks (h : Visited fetch perDevice ids dummyNonce vs)
    (hdecreasing : Decreasing fetch) (hids : ids.Nodup) (hfree : CollisionFree a vs)
    (hsize : ids.length * perDevice ≤ 2 ^ 256) :
    (vs.map (asks a)).Nodup := by
  have hperm : (dummies vs ++ reals vs).Perm vs := List.filter_append_perm Visit.fetchDummy vs
  refine (hperm.map (asks a)).nodup_iff.mp ?_
  rw [List.map_append, List.nodup_append']
  refine ⟨?_, ?_, ?_⟩
  · rw [map_asks_dummies, h.nonces]
    exact nodup_nonces ((List.length_filter_le ..).trans (h.length ▸ hsize))
  · have hnodup := h.nodup hdecreasing hids
    refine List.Nodup.map_on (fun v hv w hw heq => ?_) (List.Nodup.of_map _ hnodup)
    exact List.inj_on_of_nodup_map hnodup hv hw (hfree.device_eq v hv w hw heq)
  · intro key hkey hkey'
    obtain ⟨w, hw, rfl⟩ := List.mem_map.mp hkey
    obtain ⟨v, hv, heq⟩ := List.mem_map.mp hkey'
    exact hfree.ne v hv w hw heq

/-- The first dummy comes under the start nonce. -/
theorem Visited.mem_asks (h : Visited fetch perDevice ids dummyNonce vs)
    (hdummy : ∃ v ∈ vs, v.fetchDummy = true) : dummyNonce ∈ vs.map (asks a) := by
  obtain ⟨v, hv, hdummy⟩ := hdummy
  have hpos : 0 < (dummies vs).length := List.length_pos_of_mem (List.mem_filter.mpr ⟨hv, hdummy⟩)
  have hmem : dummyNonce ∈ (dummies vs).map (asks a) := by
    rw [map_asks_dummies, h.nonces]
    exact List.mem_map.mpr ⟨0, List.mem_range.mpr hpos, by simp⟩
  obtain ⟨w, hw, heq⟩ := List.mem_map.mp hmem
  exact List.mem_map.mpr ⟨w, List.mem_of_mem_filter hw, heq⟩

/-- Two passes over different devices ask for a common key if and only if both fetch a dummy. -/
theorem Visited.disjoint_asks_iff (h : Visited fetch perDevice ids dummyNonce vs)
    (h' : Visited fetch perDevice ids' dummyNonce vs') (hdisjoint : ids.Disjoint ids')
    (hfree : CollisionFree a (vs ++ vs')) :
    (vs.map (asks a)).Disjoint (vs'.map (asks a)) ↔
      ¬ ((∃ v ∈ vs, v.fetchDummy = true) ∧ ∃ v ∈ vs', v.fetchDummy = true) := by
  constructor
  · rintro hkeys ⟨hdummy, hdummy'⟩
    exact hkeys (h.mem_asks hdummy) (h'.mem_asks hdummy')
  · rintro hnot key hkey hkey'
    obtain ⟨v, hv, rfl⟩ := List.mem_map.mp hkey
    obtain ⟨w, hw, heq⟩ := List.mem_map.mp hkey'
    have hmem : ∀ x ∈ vs ++ vs', x ∈ if x.fetchDummy then dummies (vs ++ vs') else reals (vs ++ vs') :=
      fun x hx => by
        cases hdummy : x.fetchDummy <;> exact List.mem_filter.mpr ⟨hx, by simp [hdummy]⟩
    have hv' := hmem v (List.mem_append_left _ hv)
    have hw' := hmem w (List.mem_append_right _ hw)
    cases hvd : v.fetchDummy <;> cases hwd : w.fetchDummy <;>
      simp only [hvd, hwd, if_true, Bool.false_eq_true, if_false] at hv' hw'
    · have hdevice := hfree.device_eq w hw' v hv' heq
      exact hdisjoint (h.among v hv) (hdevice ▸ h'.among w hw)
    · exact hfree.ne v hv' w hw' heq.symm
    · exact hfree.ne w hw' v hv' heq
    · exact hnot ⟨⟨v, hv, hvd⟩, w, hw, hwd⟩

/-- One pass, in the shuffle with number `s`. -/
theorem nodup_pass {calls : List ShuffleCall} {ds : List Device} {logs : List (List Visit)}
    (hdecreasing : Decreasing fetch) (hrun : passFetches fetch perDevice calls ds = some logs)
    (hids : (ds.map (·.id)).Nodup) {s : Nat} (hfree : CollisionFree a (logs.getD s []))
    (hsize : (ds.map (·.id)).length * perDevice ≤ 2 ^ 256) :
    ((logs.getD s []).map (asks a)).Nodup := by
  have hvisited := visited_getD hrun s
  split at hvisited
  · exact hvisited.nodup_asks hdecreasing hids hfree hsize
  · rw [hvisited]
    exact List.nodup_nil

/-- Two passes over different devices, with the same start nonces. -/
theorem nodup_passes_iff {calls : List ShuffleCall} {ds ds' : List Device}
    {logs logs' : List (List Visit)} {records : Records} (hserves : Serves fetch records)
    (hdecreasing : Decreasing fetch) (hrun : passFetches fetch perDevice calls ds = some logs)
    (hrun' : passFetches fetch perDevice calls ds' = some logs')
    (hids : (ds.map (·.id) ++ ds'.map (·.id)).Nodup) {s : Nat}
    (hfree : CollisionFree a (logs.getD s [] ++ logs'.getD s []))
    (hsize : (ds.map (·.id)).length * perDevice ≤ 2 ^ 256)
    (hsize' : (ds'.map (·.id)).length * perDevice ≤ 2 ^ 256) :
    ((logs.getD s [] ++ logs'.getD s []).map (asks a)).Nodup ↔
      ¬ (RunsOut records perDevice calls ds s ∧ RunsOut records perDevice calls ds' s) := by
  obtain ⟨hids₁, hids₂, hdisjoint⟩ := List.nodup_append'.mp hids
  have hnodup := nodup_pass hdecreasing hrun hids₁ (hfree.mono (List.subset_append_left ..)) hsize
  have hnodup' :=
    nodup_pass hdecreasing hrun' hids₂ (hfree.mono (List.subset_append_right ..)) hsize'
  have hvisited := visited_getD hrun s
  have hvisited' := visited_getD hrun' s
  rw [List.map_append, List.nodup_append', ← exists_dummy_iff hserves hrun,
    ← exists_dummy_iff hserves hrun']
  cases hcall : calls[s]? with
  | some call =>
    simp only [hcall] at hvisited hvisited'
    rw [← hvisited.disjoint_asks_iff hvisited' hdisjoint hfree]
    exact ⟨fun h => h.2.2, fun h => ⟨hnodup, hnodup', h⟩⟩
  | none =>
    simp only [hcall] at hvisited hvisited'
    rw [hvisited, hvisited']
    simp

end Keys

/-! ## All passes of a run -/

/-- The visits of all passes to shuffle number `s`. -/
def fromShuffle (log : List (List (List Visit))) (s : Nat) : List Visit :=
  log.flatMap fun logs => logs.getD s []

namespace Query

variable {q : Query} {a : FetchCall} {fetch : Fetch} {log : List (List (List Visit))}

/-- The devices of all passes are different, and the numbers fit into a `size_t`. -/
structure Distinct (q : Query) : Prop where
  nodup : (q.passes.flatten.map (·.id)).Nodup
  perDevice : q.perDevice < 2 ^ 64
  devices : ∀ ds ∈ q.passes, ds.length < 2 ^ 64

theorem Distinct.size_le (h : q.Distinct) {ds : List Device} (hds : ds ∈ q.passes) :
    (ds.map (·.id)).length * q.perDevice ≤ 2 ^ 256 := by
  rw [List.length_map]
  calc ds.length * q.perDevice ≤ 2 ^ 64 * 2 ^ 64 :=
        Nat.mul_le_mul (h.devices ds hds).le h.perDevice.le
    _ ≤ 2 ^ 256 := by norm_num

/-- In a whole run no key is looked up twice in the same shuffle, if and only if there is no
shuffle from which two passes fetch a dummy. `contact` makes one pass, which is always right;
`flow` makes two and begins both with the same dummy nonce. -/
theorem keys_nodup_iff {records : Records} (hserves : Serves fetch records)
    (hdecreasing : Decreasing fetch) (hdistinct : q.Distinct) (hlog : q.fetches fetch = some log)
    (hfree : ∀ s, CollisionFree a (fromShuffle log s)) :
    (∀ s, ((fromShuffle log s).map (asks a)).Nodup) ↔
      ∀ s, q.passes.Pairwise fun ds ds' =>
        ¬ (RunsOut records q.perDevice q.shuffles ds s ∧
          RunsOut records q.perDevice q.shuffles ds' s) := by
  refine forall_congr' fun s => ?_
  have hfree := hfree s
  cases q with
  | contact q =>
    obtain ⟨logs, hlogs, rfl⟩ : ∃ logs, passFetches fetch q.encountersPerDevicePerShuffle q.shuffles
        (q.devices q.walkSet) = some logs ∧ [logs] = log := by
      simpa [fetches, passes, perDevice, shuffles, Option.bind_eq_some_iff] using hlog
    have hids : ((q.devices q.walkSet).map (·.id)).Nodup := by
      simpa [passes] using hdistinct.nodup
    have hnodup := nodup_pass hdecreasing hlogs hids (by simpa [fromShuffle] using hfree)
      (hdistinct.size_le (by simp [passes]))
    simpa [fromShuffle, passes] using hnodup
  | flow q =>
    obtain ⟨source, hsource, sink, hsink, rfl⟩ : ∃ source,
        passFetches fetch q.encountersPerDevicePerShuffle q.shuffles (q.devices .source) =
          some source ∧ ∃ sink,
        passFetches fetch q.encountersPerDevicePerShuffle q.shuffles (q.devices .sink) =
          some sink ∧ [source, sink] = log := by
      simpa [fetches, passes, perDevice, shuffles, Option.bind_eq_some_iff] using hlog
    have hids : ((q.devices .source).map (·.id) ++ (q.devices .sink).map (·.id)).Nodup := by
      simpa [passes] using hdistinct.nodup
    have hboth : fromShuffle [source, sink] s = source.getD s [] ++ sink.getD s [] := by
      simp [fromShuffle]
    rw [hboth] at hfree ⊢
    have hiff := nodup_passes_iff hserves hdecreasing hsource hsink hids hfree
      (hdistinct.size_le (by simp [passes])) (hdistinct.size_le (by simp [passes]))
    simpa only [passes, List.pairwise_cons, List.mem_singleton, forall_eq, List.not_mem_nil,
      IsEmpty.forall_iff, implies_true, List.Pairwise.nil, and_true, perDevice, shuffles] using hiff

end Query

/-! ## Dummies that two passes share -/

/-- A store that holds the meetings of all devices at all times after `5`. -/
def met : Records := fun _ id time =>
  if 5 < time.toNat then some (recordOf (FlowCall.meeting id time)) else none

def fetchMet : Fetch := fun shuffle id time _ fetchDummy =>
  if fetchDummy then some ⟨0, 0, 0, 0⟩ else met shuffle id time

theorem fetchMet_serves : Serves fetchMet met := fun _ _ _ _ => rfl

theorem fetchMet_decreasing : Decreasing fetchMet := by
  intro shuffle id time nonce record hfetch
  have hmet : (if 5 < time.toNat then some (recordOf (FlowCall.meeting id time)) else none) =
      some record := hfetch
  split at hmet
  · obtain rfl := Option.some.inj hmet
    assumption
  · cases hmet

def realVisit (id : BitVec 256) (time : BitVec 32) (dummyNonce : BitVec 256) : Visit :=
  ⟨⟨id, time⟩, dummyNonce, false, recordOf (FlowCall.meeting id time)⟩

def dummyVisit (id : BitVec 256) (time : BitVec 32) (dummyNonce : BitVec 256) : Visit :=
  ⟨⟨id, time⟩, dummyNonce, true, ⟨0, 0, 0, 0⟩⟩

/-- A fetch whose key hash adds. -/
def additiveFetch : FetchCall := ⟨.additive, .deployed, Side.RIGHT, Side.RIGHT, none, none⟩

/-- The sink device has no record in the shuffle. -/
def sinkTooEarly : FlowCall :=
  { FlowCall.twoMeetings with
    devices := fun
      | .source => [⟨2, 20⟩]
      | .sink => [⟨3, 5⟩]
    encountersPerDevicePerShuffle := 1 }

theorem collisionFree_of_one_shuffle {a : FetchCall} {log : List (List (List Visit))}
    (hone : ∀ logs ∈ log, logs.length ≤ 1) (h : CollisionFree a (fromShuffle log 0)) (s : Nat) :
    CollisionFree a (fromShuffle log s) := by
  cases s with
  | zero => exact h
  | succ s =>
    have hempty : fromShuffle log (s + 1) = [] := by
      refine List.flatMap_eq_nil_iff.mpr fun logs hlogs => ?_
      have := hone logs hlogs
      rw [List.getD_eq_getElem?_getD, List.getElem?_eq_none (by omega), Option.getD_none]
    rw [hempty]
    exact ⟨by simp [reals], by simp [reals]⟩

theorem not_runsOut_of_length_le {records : Records} {perDevice : Nat} {calls : List ShuffleCall}
    {ds : List Device} {s : Nat} (h : calls.length ≤ s) : ¬ RunsOut records perDevice calls ds s := by
  induction calls generalizing ds s with
  | nil => exact not_false
  | cons call calls ih =>
    obtain ⟨s, rfl⟩ : ∃ s', s = s' + 1 := Nat.exists_eq_add_one.mpr (by simp at h; omega)
    exact ih (by simpa using h)

namespace Query

theorem keys_nodup_sinkTooEarly : ∃ log, (flow sinkTooEarly).fetches fetchMet = some log ∧
    ∀ s, ((fromShuffle log s).map (asks additiveFetch)).Nodup := by
  have hdistinct : (flow sinkTooEarly).Distinct := ⟨by decide, by decide, by decide⟩
  have hlog : (flow sinkTooEarly).fetches fetchMet =
      some [[[realVisit 2 20 0]], [[dummyVisit 3 5 0]]] := rfl
  have hfree : CollisionFree additiveFetch
      (fromShuffle [[[realVisit 2 20 0]], [[dummyVisit 3 5 0]]] 0) :=
    ⟨by decide +kernel, by decide +kernel⟩
  refine ⟨_, hlog, (keys_nodup_iff fetchMet_serves fetchMet_decreasing hdistinct hlog
    (collisionFree_of_one_shuffle (by simp) hfree)).mpr fun s => ?_⟩
  have hsource : ¬ RunsOut met 1 [⟨0, 10, 0⟩] [⟨2, 20⟩] s := by
    cases s with
    | zero =>
      rintro ⟨d, hd, hout⟩
      obtain rfl := List.mem_singleton.mp hd
      revert hout
      decide
    | succ s => exact not_runsOut_of_length_le (by simp)
  exact .cons (fun _ _ h => hsource h.1) (.cons (by simp) .nil)

/-- Both devices run out of records, and both passes begin with the same dummy. -/
theorem dummy_looked_up_twice : ∃ log, (flow FlowCall.twoMeetings).fetches fetchMet = some log ∧
    Serves fetchMet met ∧ Decreasing fetchMet ∧ (flow FlowCall.twoMeetings).Distinct ∧
    (∀ s, CollisionFree additiveFetch (fromShuffle log s)) ∧
    ¬ ∀ s, ((fromShuffle log s).map (asks additiveFetch)).Nodup := by
  have hlog : (flow FlowCall.twoMeetings).fetches fetchMet =
      some [[[realVisit 2 20 0, dummyVisit 2 5 0]], [[realVisit 3 25 0, dummyVisit 3 5 0]]] := rfl
  have hfree : CollisionFree additiveFetch (fromShuffle
      [[[realVisit 2 20 0, dummyVisit 2 5 0]], [[realVisit 3 25 0, dummyVisit 3 5 0]]] 0) :=
    ⟨by decide +kernel, by decide +kernel⟩
  refine ⟨_, hlog, fetchMet_serves, fetchMet_decreasing, ⟨by decide, by decide, by decide⟩,
    collisionFree_of_one_shuffle (by simp) hfree, fun h => ?_⟩
  have hsource : asks additiveFetch (dummyVisit 2 5 0) = 0 := asks_of_dummy rfl
  have hsink : asks additiveFetch (dummyVisit 3 5 0) = 0 := asks_of_dummy rfl
  have hnodup := h 0
  simp only [fromShuffle, List.flatMap_cons, List.flatMap_nil, List.getD_cons_zero, List.map_append,
    List.map_cons, List.map_nil, List.append_nil, hsource, hsink] at hnodup
  simp at hnodup

end Query

/-! ## Dummy nonces and dummy keys -/

theorem toNat_dummyKey (startingNonce : BitVec 256) (j : Nat) :
    (dummyKey startingNonce j).toNat =
      startingNonce.toNat / 2 ^ 64 * 2 ^ 64 + (startingNonce.toNat % 2 ^ 64 + j) % 2 ^ 64 := by
  have hlt := startingNonce.isLt
  rw [dummyKey, BitVec.toNat_append, ← Nat.shiftLeft_add_eq_or_of_lt (BitVec.isLt _)]
  simp only [BitVec.extractLsb'_toNat, BitVec.toNat_add, BitVec.toNat_setWidth, BitVec.toNat_ofNat,
    Nat.shiftLeft_eq, Nat.shiftRight_eq_div_pow]
  omega

/-- The two counters agree until the 64-bit lane is used up. -/
theorem add_eq_dummyKey_iff (startingNonce : BitVec 256) {j : Nat} (hj : j < 2 ^ 64) :
    startingNonce + BitVec.ofNat 256 j = dummyKey startingNonce j ↔
      startingNonce.toNat % 2 ^ 64 + j < 2 ^ 64 := by
  have hlt := startingNonce.isLt
  rw [← BitVec.toNat_inj, toNat_dummyKey, BitVec.toNat_add, BitVec.toNat_ofNat]
  omega

/-- The key of a dummy record. -/
theorem key_fillDummies (a : Nat → StorablePathEncounter) (start : Nat) {count j : Nat}
    (hj : j < count) (startingNonce : BitVec 256) :
    (fillDummies a start count startingNonce (start + j)).key = dummyKey startingNonce j := by
  rw [fillDummies, if_pos ⟨Nat.le_add_right .., Nat.add_lt_add_left hj _⟩, Nat.add_sub_cancel_left]

theorem Visited.dummyNonce_eq {fetch : Fetch} {perDevice : Nat} {ids : List (BitVec 256)}
    {dummyNonce : BitVec 256} {vs : List Visit} (h : Visited fetch perDevice ids dummyNonce vs)
    {j : Nat} {v : Visit} (hv : (dummies vs)[j]? = some v) :
    v.dummyNonce = dummyNonce + BitVec.ofNat 256 j := by
  obtain ⟨hj, rfl⟩ := List.getElem?_eq_some_iff.mp hv
  have hnonces := congrArg (·[j]?) h.nonces
  simpa [hj] using hnonces

namespace Query

/-- Every pass asks for its dummy number `j` under the nonce that is the key of dummy record
number `j`, if and only if the low 64 bits of the start nonce leave room to count up to `j`. The
fetch is arbitrary; one that misses a dummy would end the run there. -/
theorem dummyNonce_eq_key_iff {q : Query} {fetch : Fetch} {log : List (List (List Visit))}
    (hlog : q.fetches fetch = some log) {logs : List (List Visit)} (hlogs : logs ∈ log) {s : Nat}
    {call : ShuffleCall} (hcall : q.shuffles[s]? = some call) {j : Nat} {v : Visit}
    (hv : (dummies (logs.getD s []))[j]? = some v) (a : Nat → StorablePathEncounter)
    (start : Nat) {count : Nat} (hj : j < count) (hcount : count < 2 ^ 64) :
    v.dummyNonce = (fillDummies a start count call.dummyStartNonce (start + j)).key ↔
      call.dummyStartNonce.toNat % 2 ^ 64 + j < 2 ^ 64 := by
  obtain ⟨ds, hpass⟩ := passFetches_of_mem hlog hlogs
  have hvisited := visited_getD hpass s
  simp only [hcall] at hvisited
  rw [hvisited.dummyNonce_eq hv, key_fillDummies a start hj,
    add_eq_dummyKey_iff _ (hj.trans hcount)]

/-- The source device has no record, so that the first shuffle gives two dummies. -/
def twoDummies (startingNonce : BitVec 256) : FlowCall :=
  { FlowCall.twoMeetings with
    devices := fun
      | .source => [⟨2, 5⟩]
      | .sink => []
    shuffles := [⟨0, 10, startingNonce⟩] }

theorem fetches_twoDummies (startingNonce : BitVec 256) :
    (flow (twoDummies startingNonce)).fetches fetchMet =
      some [[[dummyVisit 2 5 startingNonce, dummyVisit 2 5 (startingNonce + 1)]], [[]]] := by
  have hearly : geq 10#32 5#32 = true := by decide
  simp [fetches, passes, perDevice, shuffles, twoDummies, FlowCall.twoMeetings, passFetches,
    walkDevices, walkDevice, hearly, fetchMet, logging, dummyVisit]

/-- Two dummies from nonce `7` on. -/
theorem second_dummy_found :
    (dummyVisit 2 5 8).dummyNonce = (fillDummies (fun _ => ⟨0, 0⟩) 3 2 7 (3 + 1)).key :=
  (dummyNonce_eq_key_iff (fetches_twoDummies 7) (List.mem_cons_self ..) (s := 0) rfl rfl _ 3
    (by decide) (by decide)).mpr (by decide)

/-- With all low bits of the start nonce set, the query carries and the store does not. -/
theorem second_dummy_missed : ∃ log,
    (flow (twoDummies 0xffffffffffffffff)).fetches fetchMet = some log ∧
    ∃ logs ∈ log, ∃ v, (dummies (logs.getD 0 []))[1]? = some v ∧
      ∀ a, v.dummyNonce ≠ (fillDummies a 3 2 0xffffffffffffffff (3 + 1)).key :=
  ⟨_, fetches_twoDummies _, _, List.mem_cons_self .., _, rfl, fun a h => by
    rw [key_fillDummies a 3 (by decide)] at h
    revert h
    decide⟩

end Query

end CoVault.PathQuery
