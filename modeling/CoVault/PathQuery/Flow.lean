import Mathlib
import CoVault.PathQuery.BloomFilter
import CoVault.PathQuery.Walk

/-!
# The flow query

The records of all source devices and then of all sink devices are collected into one list,
which is sorted by time and read once. Records that do not qualify get the end of the window as
their time, which puts them behind all others and out of the window. Whoever a source device
met goes into one Bloom filter, and a sink device that meets one of them later is counted
unless a second filter has it already. Inserting the filler value stands for doing nothing.
-/

namespace CoVault.PathQuery

open Circuit Encounters

/-- An element of `encounter_list`. -/
structure Entry where
  encountered : BitVec 256
  device : BitVec 256
  isSource : Bool
  deriving DecidableEq

/-- An element of `encounter_list_times` with the one of `encounter_list`. -/
abbrev TimedEntry := BitVec 32 × Entry

/-- `one_256_bits`, inserted in place of a device. -/
def filler : BitVec 256 := 1

structure FlowCall where
  sourceStartTime : BitVec 32
  sinkEndTime : BitVec 32
  minimumDuration : BitVec 16
  devices : Given → List Device
  shuffles : List ShuffleCall
  encountersPerDevicePerShuffle : Nat
  totalEncountersToWalkThrough : Nat
  encounteredFilterNElements : Nat
  alreadyInfectedFilterNElements : Nat
  includeDirectSourceToSinkEdges : Bool
  filterType : FilterType

namespace FlowCall

variable (q : FlowCall)

def ids (g : Given) : List (BitVec 256) := (q.devices g).map (·.id)

/-- `source_filter` or `sink_filter`, filled. -/
def setFilter (g : Given) : BloomFilter :=
  (q.filterType.new (q.devices g).length).initializeFilter.insertAll (q.ids g)

/-- `encountered_filter` before the walk through the list. -/
def encounteredFilter : BloomFilter :=
  (q.filterType.new q.encounteredFilterNElements).initializeFilter.insertAll
    (if q.includeDirectSourceToSinkEdges then q.ids .source else [])

/-- The number of elements `already_infected_filter` is made for. -/
def alreadyInfectedElements : Nat :=
  if q.alreadyInfectedFilterNElements = 0 then (q.devices .sink).length
  else q.alreadyInfectedFilterNElements

/-- `already_infected_filter` before the walk through the list. -/
def alreadyInfectedFilter : BloomFilter :=
  (q.filterType.new q.alreadyInfectedElements).insert filler

/-- The element stored for a record. -/
def timedEntry (isSource : Bool) (v : Visit) : TimedEntry :=
  (if !v.fetchDummy && !geq q.minimumDuration v.record.duration && v.record.isConfirmed then
      v.device.previous else q.sinkEndTime,
    ⟨v.record.encountered, v.device.id, isSource⟩)

def pass (isSource : Bool) : Pass (List TimedEntry) where
  before := id
  visit := fun list v => list ++ [q.timedEntry isSource v]
  after := id

/-- `in_time_range`. -/
def inTimeRange (time : BitVec 32) : Bool :=
  less q.sourceStartTime time && less time q.sinkEndTime

/-- The two filters that change, and `output_count`. -/
structure WalkState where
  encounteredFilter : BloomFilter
  alreadyInfectedFilter : BloomFilter
  outputCount : BitVec 32

/-- What an element puts into `encountered_filter`. -/
def metAt (x : TimedEntry) : BitVec 256 :=
  let e := x.2
  let inTimeRange := q.inTimeRange x.1
  if q.includeDirectSourceToSinkEdges then
    if e.isSource && inTimeRange && !(q.setFilter .sink).contains e.encountered then e.encountered
    else filler
  else
    if e.isSource && inTimeRange && !(q.setFilter .source).contains e.encountered &&
        !(q.setFilter .sink).contains e.encountered then e.encountered
    else filler

/-- What an element puts into `already_infected_filter`. -/
def infectedAt (encounteredFilter : BloomFilter) (x : TimedEntry) : BitVec 256 :=
  let e := x.2
  if !e.isSource && q.inTimeRange x.1 && encounteredFilter.contains e.encountered then e.device
  else filler

/-- One element of the sorted list. -/
def walkThrough (s : WalkState) (x : TimedEntry) : WalkState :=
  let encounteredFilter := s.encounteredFilter.insert (q.metAt x)
  let (already, alreadyInfectedFilter) :=
    s.alreadyInfectedFilter.containsAndInsert (q.infectedAt encounteredFilter x)
  ⟨encounteredFilter, alreadyInfectedFilter,
    if already then s.outputCount else s.outputCount + 1⟩

/-- `encounter_list_size`. -/
def encounterListSize : Nat :=
  q.encountersPerDevicePerShuffle * ((q.devices .source).length + (q.devices .sink).length) *
    q.shuffles.length

/-- `encounters_to_walk_through`. -/
def encountersToWalkThrough : Nat :=
  if q.totalEncountersToWalkThrough = 0 then q.encounterListSize
  else q.totalEncountersToWalkThrough

/-- The state in front of the walk through the list. -/
def walkStart : WalkState := ⟨q.encounteredFilter, q.alreadyInfectedFilter, 0⟩

/-- The elements that are walked through, or nothing when a fetch fails. -/
def elements (fetch : Fetch) (sort : List TimedEntry → List TimedEntry) :
    Option (List TimedEntry) := do
  let (_, list) ← walkShuffles fetch q.encountersPerDevicePerShuffle (q.pass true) q.shuffles
    (q.devices .source) []
  let (_, list) ← walkShuffles fetch q.encountersPerDevicePerShuffle (q.pass false) q.shuffles
    (q.devices .sink) list
  some ((sort list).take q.encountersToWalkThrough)

/-- `flow`: the output count, or nothing when a fetch fails. -/
def flow (fetch : Fetch) (sort : List TimedEntry → List TimedEntry) : Option (BitVec 32) := do
  let list ← q.elements fetch sort
  let s := list.foldl q.walkThrough q.walkStart
  some s.outputCount

/-! ## What is to be counted -/

/-- Confirmed, longer than the minimum, and strictly inside the window. -/
def qualifies (e : Encounter) : Bool :=
  (recordOf e).isConfirmed && decide (q.minimumDuration.toNat < e.duration.toNat) &&
    decide (q.sourceStartTime.toNat < e.time.toNat) && decide (e.time.toNat < q.sinkEndTime.toNat)

/-- Some source device met the same device, outside both sets, before the given time; or direct
edges count and the device met is itself a source device. -/
def exposed (sources : List Track) (e : Encounter) : Bool :=
  (sources.any (fun t => t.events.any fun e' => q.qualifies e' &&
      decide (e'.encountered = e.encountered) && decide (e'.time.toNat < e.time.toNat)) &&
    !(q.ids .source).contains e.encountered && !(q.ids .sink).contains e.encountered) ||
  (q.includeDirectSourceToSinkEdges && (q.ids .source).contains e.encountered)

/-- The sink devices to be counted. -/
def reached (tracks : Given → List Track) : Finset (BitVec 256) :=
  (((tracks .sink).filter fun t =>
    t.events.any fun e => q.qualifies e && q.exposed (tracks .source) e).map
      (·.device.id)).toFinset

/-- The walk with all that has been put into the two filters that change. -/
structure Logged where
  state : WalkState
  met : List (BitVec 256)
  infected : List (BitVec 256)

def logStart : Logged where
  state := q.walkStart
  met := if q.includeDirectSourceToSinkEdges then q.ids .source else []
  infected := [filler]

def logThrough (l : Logged) (x : TimedEntry) : Logged :=
  let state := q.walkThrough l.state x
  ⟨state, l.met ++ [q.metAt x], l.infected ++ [q.infectedAt state.encounteredFilter x]⟩

/-- At an element the four filters say whether what they are asked for has been put in. The answers
of the first three do not count outside the window. -/
structure AnswersRightly (l : Logged) (x : TimedEntry) : Prop where
  given : q.inTimeRange x.1 = true → ∀ g,
    (q.setFilter g).contains x.2.encountered = decide (x.2.encountered ∈ q.ids g)
  met : q.inTimeRange x.1 = true →
    (q.logThrough l x).state.encounteredFilter.contains x.2.encountered =
      decide (x.2.encountered ∈ (q.logThrough l x).met)
  infected :
    let v := q.infectedAt (q.logThrough l x).state.encounteredFilter x
    (l.state.alreadyInfectedFilter.containsAndInsert v).1 = decide (v ∈ l.infected)

instance (l : Logged) (x : TimedEntry) : Decidable (q.AnswersRightly l x) :=
  decidable_of_iff ((q.inTimeRange x.1 = true → ∀ g ∈ [Given.source, Given.sink],
      (q.setFilter g).contains x.2.encountered = decide (x.2.encountered ∈ q.ids g)) ∧
    (q.inTimeRange x.1 = true →
      (q.logThrough l x).state.encounteredFilter.contains x.2.encountered =
        decide (x.2.encountered ∈ (q.logThrough l x).met)) ∧
    let v := q.infectedAt (q.logThrough l x).state.encounteredFilter x
    (l.state.alreadyInfectedFilter.containsAndInsert v).1 = decide (v ∈ l.infected))
    ⟨fun h => ⟨fun hin g => h.1 hin g (by cases g <;> simp), h.2.1, h.2.2⟩,
      fun h => ⟨fun hin g _ => h.given hin g, h.met, h.infected⟩⟩

/-- What a query may rely on: both sets come with stored histories, no time of a source device is
one of a sink device, durations and the window are small enough, nobody has the filler as id, the
filters answer rightly at the elements walked through, these are the whole list, and sorting
sorts. -/
structure Relies (fetch : Fetch) (sort : List TimedEntry → List TimedEntry)
    (tracks : Given → List Track) : Prop where
  devices : ∀ g, (tracks g).map (·.device) = q.devices g
  stored : ∀ g, ∀ t ∈ tracks g, t.Stored fetch q.encountersPerDevicePerShuffle q.shuffles
  distinct : ∀ t ∈ tracks .source, ∀ t' ∈ tracks .sink, ∀ e ∈ t.events, ∀ e' ∈ t'.events,
    e.time ≠ e'.time
  window : Small q.sourceStartTime ∧ Small q.sinkEndTime
  durations : Small q.minimumDuration ∧ ∀ g, ∀ t ∈ tracks g, ∀ e ∈ t.events, Small e.duration
  noFiller : ∀ g, ∀ t ∈ tracks g, t.device.id ≠ filler ∧ ∀ e ∈ t.events, e.encountered ≠ filler
  exact : ∀ list, q.elements fetch sort = some list → ∀ i (hi : i < list.length),
    q.AnswersRightly ((list.take i).foldl q.logThrough q.logStart) list[i]
  whole : q.encountersToWalkThrough = q.encounterListSize
  sorted : ∀ l, (sort l).Perm l ∧ ((∀ x ∈ l, Small x.1) →
    (sort l).Pairwise fun a b => a.1.toNat ≤ b.1.toNat)

end FlowCall

end CoVault.PathQuery
