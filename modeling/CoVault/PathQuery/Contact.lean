import CoVault.PathQuery.BloomFilter
import CoVault.PathQuery.Walk

/-!
# The contact query

The devices of one set are walked, those of the other fill a Bloom filter, and a walked
device counts once per shuffle if one of its records passes the checks. Which set is which
depends on the two counts, with a strict comparison for either choice; the minimum duration
is a parameter that no check looks at. A query that fetches nothing has no result.
-/

namespace CoVault.PathQuery

open Circuit Encounters

def Given.other : Given → Given
  | source => sink
  | sink => source

structure ContactCall where
  startTime : BitVec 32
  endTime : BitVec 32
  minimumDuration : BitVec 16
  devices : Given → List Device
  shuffles : List ShuffleCall
  encountersPerDevicePerShuffle : Nat
  filterType : FilterType

namespace ContactCall

variable (q : ContactCall)

/-- The choice made by `walk_ids`, `walk_times` and `walk_count`. -/
def walkSet : Given :=
  if (q.devices .source).length < (q.devices .sink).length then .source else .sink

/-- The choice made by `filter_ids` and `filter_count`. -/
def filterSet : Given :=
  if (q.devices .source).length > (q.devices .sink).length then .source else .sink

def filterIds : List (BitVec 256) := (q.devices q.filterSet).map (·.id)

def filter : BloomFilter :=
  (q.filterType.new q.filterIds.length).initializeFilter.insertAll q.filterIds

/-- One more record of the device: `output_count` and `this_device_had_contact`. -/
def visit (acc : BitVec 32 × Bool) (v : Visit) : BitVec 32 × Bool :=
  (acc.1, acc.2 || (!v.fetchDummy && v.record.isConfirmed &&
    less q.startTime v.device.previous && less v.device.previous q.endTime &&
    q.filter.contains v.record.encountered))

def pass : Pass (BitVec 32 × Bool) where
  before := fun acc => (acc.1, false)
  visit := q.visit
  after := fun acc => (if acc.2 then acc.1 + 1 else acc.1, acc.2)

/-- `walk_length`, the number of fetches. -/
def walkLength : Nat :=
  q.shuffles.length * ((q.devices q.walkSet).length * q.encountersPerDevicePerShuffle)

/-- `contact`: the output count, or nothing when a fetch fails. -/
def contact (fetch : Fetch) : Option (BitVec 32) := do
  let (_, acc) ← walkShuffles fetch q.encountersPerDevicePerShuffle q.pass q.shuffles
    (q.devices q.walkSet) (0, false)
  -- The mean times are divided by the number of fetches: without any the program ends here.
  if q.walkLength = 0 then none else some acc.1

/-! ## What is to be counted -/

/-- A confirmed encounter in the window with one of the given devices. -/
def isContact (ids : List (BitVec 256)) (e : Encounter) : Bool :=
  (recordOf e).isConfirmed && decide (q.startTime.toNat < e.time.toNat) &&
    decide (e.time.toNat < q.endTime.toNat) && ids.contains e.encountered

/-- The duration is sufficient. -/
def isLong (e : Encounter) : Bool := decide (q.minimumDuration.toNat < e.duration.toNat)

/-- The device has a contact of sufficient duration with the other set. -/
def hasLongContact (t : Track) : Bool :=
  t.events.any fun e => q.isContact ((q.devices q.walkSet.other).map (·.id)) e && q.isLong e

/-- The device has contacts with the other set, but none of sufficient duration. -/
def hasOnlyShortContacts (t : Track) : Bool :=
  t.events.any (q.isContact ((q.devices q.walkSet.other).map (·.id))) && !q.hasLongContact t

/-- What a query may rely on, however the histories are cut into shuffles: the walked devices
come with stored histories, the window is small enough, and the filter answers rightly about the
devices met. -/
structure Covers (fetch : Fetch) (tracks : List Track) : Prop where
  devices : tracks.map (·.device) = q.devices q.walkSet
  stored : ∀ t ∈ tracks, t.Stored fetch q.encountersPerDevicePerShuffle q.shuffles
  window : Small q.startTime ∧ Small q.endTime
  exact : ∀ t ∈ tracks, ∀ e ∈ t.events,
    q.filter.contains e.encountered = decide (e.encountered ∈ q.filterIds)

/-- What a query may rely on: the walked devices come with stored histories, all of them in one
shuffle, the window is small enough, and the filter answers rightly about the devices met. -/
structure Relies (fetch : Fetch) (tracks : List Track) : Prop where
  devices : tracks.map (·.device) = q.devices q.walkSet
  stored : ∀ t ∈ tracks, t.Stored fetch q.encountersPerDevicePerShuffle q.shuffles
  oneShuffle : ∀ t ∈ tracks, ∀ t' ∈ tracks, ∀ e ∈ t.events, ∀ e' ∈ t'.events, ∀ call ∈ q.shuffles,
    Track.within call e = Track.within call e'
  window : Small q.startTime ∧ Small q.endTime
  exact : ∀ t ∈ tracks, ∀ e ∈ t.events,
    q.filter.contains e.encountered = decide (e.encountered ∈ q.filterIds)

/-! ## What is counted -/

variable {q} {fetch : Fetch} {call : ShuffleCall}

/-- The visits to one device set its flag if and only if one of its encounters there is a
contact. -/
theorem foldl_visit {ids : List (BitVec 256)} {t : Track}
    (hcontact : ∀ e ∈ t.recent call, ∀ nonce (acc : BitVec 32 × Bool),
      q.visit acc (visitOf t.device.id nonce e) = (acc.1, acc.2 || q.isContact ids e))
    {vs : List Visit} {perDevice : Nat} (hvs : Visits perDevice call t vs) (count : BitVec 32) :
    vs.foldl q.visit (count, false) = (count, (t.recent call).any (q.isContact ids)) := by
  obtain ⟨-, nonce, dummies, rfl, hdummies⟩ := hvs
  have hdummy : ∀ acc : BitVec 32 × Bool, dummies.foldl q.visit acc = acc := by
    induction dummies with
    | nil => exact fun _ => rfl
    | cons v dummies ih =>
      intro acc
      rw [List.foldl_cons, show q.visit acc v = acc by simp [visit, hdummies v (by simp)]]
      exact ih (fun v hv => hdummies v (List.mem_cons_of_mem _ hv)) acc
  have hreal : ∀ (es : List Encounter) (had : Bool), (∀ e ∈ es, e ∈ t.recent call) →
      (es.map (visitOf t.device.id nonce)).foldl q.visit (count, had) =
        (count, had || es.any (q.isContact ids)) := by
    intro es
    induction es with
    | nil => simp
    | cons e es ih =>
      intro had hes
      rw [List.map_cons, List.foldl_cons, hcontact e (hes e (by simp)),
        ih _ fun e' he' => hes e' (List.mem_cons_of_mem _ he'), List.any_cons, Bool.or_assoc]
  rw [List.foldl_append, hdummy, hreal _ _ fun _ he => he, Bool.false_or]

/-- Every device with a contact in the shuffle adds one. -/
theorem foldl_device {ids : List (BitVec 256)} {ts : List Track}
    (hcontact : ∀ t ∈ ts, ∀ e ∈ t.recent call, ∀ nonce (acc : BitVec 32 × Bool),
      q.visit acc (visitOf t.device.id nonce e) = (acc.1, acc.2 || q.isContact ids e))
    {perDevice : Nat} {vss : List (List Visit)} (hvss : List.Forall₂ (Visits perDevice call) ts vss)
    (acc : BitVec 32 × Bool) :
    (vss.foldl q.pass.device acc).1 =
      acc.1 + BitVec.ofNat 32 (ts.countP fun t => (t.recent call).any (q.isContact ids)) := by
  induction hvss generalizing acc with
  | nil => simp
  | @cons t vs ts vss hvs _ ih =>
    have hdevice : (q.pass.device acc vs).1 =
        acc.1 + if (t.recent call).any (q.isContact ids) then 1 else 0 := by
      simp only [Pass.device, pass]
      rw [foldl_visit (hcontact t (by simp)) hvs]
      split_ifs <;> simp
    rw [List.foldl_cons, ih fun t' ht' => hcontact t' (List.mem_cons_of_mem _ ht'), hdevice,
      List.countP_cons, BitVec.add_assoc]
    congr 1
    split_ifs <;> simp [BitVec.ofNat_add, BitVec.add_comm]

/-- The shuffle an encounter lies in: the first that starts before it. -/
def home (calls : List ShuffleCall) (e : Encounter) : Nat :=
  calls.findIdx fun call => Track.within call e

theorem home_congr {calls : List ShuffleCall} {e e' : Encounter}
    (h : ∀ call ∈ calls, Track.within call e = Track.within call e') :
    home calls e = home calls e' := by
  induction calls with
  | nil => rfl
  | cons call calls ih =>
    rw [home, home, List.findIdx_cons, List.findIdx_cons, h call (by simp)]
    exact congrArg (fun i => bif _ then 0 else i + 1)
      (ih fun c hc => h c (List.mem_cons_of_mem call hc))

/-- The shuffles that hold a contact of the device. -/
def contactShuffles (q : ContactCall) (ids : List (BitVec 256)) (calls : List ShuffleCall)
    (t : Track) : Finset Nat :=
  ((t.events.filter (q.isContact ids)).map (home calls)).toFinset

theorem mem_contactShuffles {ids : List (BitVec 256)} {calls : List ShuffleCall} {t : Track}
    {i : Nat} : i ∈ q.contactShuffles ids calls t ↔
      ∃ e ∈ t.events, q.isContact ids e = true ∧ home calls e = i := by
  simp [contactShuffles, and_assoc]

theorem contactShuffles_cons (ids : List (BitVec 256)) (calls : List ShuffleCall) (t : Track) :
    q.contactShuffles ids (call :: calls) t =
      (if (t.recent call).any (q.isContact ids) then {0} else ∅) ∪
        (q.contactShuffles ids calls (t.advance call)).image (· + 1) := by
  ext i
  have hhere : i ∈ (if (t.recent call).any (q.isContact ids) then ({0} : Finset Nat) else ∅) ↔
      ∃ e ∈ t.events, (Track.within call e = true ∧ q.isContact ids e = true) ∧ 0 = i := by
    split_ifs with hany <;> simp only [List.any_eq_true, Track.recent, List.mem_filter] at hany
    · obtain ⟨e, ⟨he, hwithin⟩, hcontact⟩ := hany
      constructor
      · exact fun hi => ⟨e, he, ⟨hwithin, hcontact⟩, (Finset.mem_singleton.mp hi).symm⟩
      · rintro ⟨_, _, _, hi⟩
        exact Finset.mem_singleton.mpr hi.symm
    · refine iff_of_false (Finset.notMem_empty i) ?_
      rintro ⟨e, he, ⟨hwithin, hcontact⟩, _⟩
      exact hany ⟨e, ⟨he, hwithin⟩, hcontact⟩
  rw [Finset.mem_union, hhere, mem_contactShuffles, Finset.mem_image]
  simp only [mem_contactShuffles, Track.advance, List.mem_filter, home, List.findIdx_cons]
  constructor
  · rintro ⟨e, he, hcontact, rfl⟩
    cases hwithin : Track.within call e
    · exact .inr ⟨_, ⟨e, ⟨he, by simp [hwithin]⟩, hcontact, rfl⟩, by simp⟩
    · exact .inl ⟨e, he, ⟨hwithin, hcontact⟩, by simp⟩
  · rintro (⟨e, he, ⟨hwithin, hcontact⟩, rfl⟩ | ⟨_, ⟨e, ⟨he, hwithin⟩, hcontact, rfl⟩, rfl⟩)
    · exact ⟨e, he, hcontact, by simp [hwithin]⟩
    · exact ⟨e, he, hcontact, by simp_all⟩

theorem card_contactShuffles_cons (ids : List (BitVec 256)) (calls : List ShuffleCall) (t : Track) :
    (q.contactShuffles ids (call :: calls) t).card =
      (if (t.recent call).any (q.isContact ids) then 1 else 0) +
        (q.contactShuffles ids calls (t.advance call)).card := by
  rw [contactShuffles_cons, Finset.card_union_of_disjoint,
    Finset.card_image_of_injective _ (add_left_injective 1)]
  · split_ifs <;> simp
  · split_ifs <;> simp [Finset.disjoint_left]

theorem sum_map_indicator {α : Type*} (p : α → Bool) (l : List α) :
    (l.map fun x => if p x then 1 else 0).sum = l.countP p := by
  induction l with
  | nil => rfl
  | cons x l ih => rw [List.map_cons, List.sum_cons, ih, List.countP_cons, Nat.add_comm]

/-- Every device adds one for each shuffle that holds one of its contacts. -/
theorem walks_count {ids : List (BitVec 256)} {calls : List ShuffleCall} {ts : List Track}
    {acc acc' : BitVec 32 × Bool}
    (hwalks : Walks q.encountersPerDevicePerShuffle q.pass calls ts acc acc')
    (hstored : ∀ t ∈ ts, t.Stored fetch q.encountersPerDevicePerShuffle calls)
    (hcontact : ∀ t ∈ ts, ∀ e ∈ t.events, ∀ nonce (acc : BitVec 32 × Bool),
      q.visit acc (visitOf t.device.id nonce e) = (acc.1, acc.2 || q.isContact ids e)) :
    acc'.1 = acc.1 +
      BitVec.ofNat 32 (ts.map fun t => (q.contactShuffles ids calls t).card).sum := by
  induction hwalks with
  | @nil ts acc =>
    have hnone : ∀ t ∈ ts, (q.contactShuffles ids [] t).card = 0 := fun t ht => by
      refine Finset.card_eq_zero.mpr (Finset.eq_empty_of_forall_notMem fun i hi => ?_)
      obtain ⟨e, he, -⟩ := mem_contactShuffles.mp hi
      obtain ⟨call, hcall, -⟩ := (hstored t ht).covered e he
      simp at hcall
    rw [List.map_eq_replicate_iff.mpr hnone]
    simp
  | @cons call calls ts vss acc acc' hvss _ ih =>
    have hrest := ih (by
        rintro _ ht
        obtain ⟨t, hmem, rfl⟩ := List.mem_map.mp ht
        exact (hstored t hmem).advance)
      (by
        rintro _ ht e he
        obtain ⟨t, hmem, rfl⟩ := List.mem_map.mp ht
        exact hcontact t hmem e (List.mem_of_mem_filter he))
    have hsum : (ts.map fun t => (q.contactShuffles ids (call :: calls) t).card).sum =
        ts.countP (fun t => (t.recent call).any (q.isContact ids)) +
          (ts.map fun t => (q.contactShuffles ids calls (t.advance call)).card).sum := by
      simp only [card_contactShuffles_cons, List.sum_map_add, sum_map_indicator]
    rw [hrest, hsum, List.map_map, BitVec.ofNat_add, ← BitVec.add_assoc,
      foldl_device (fun t ht e he => hcontact t ht e (List.mem_of_mem_filter he)) hvss]
    rfl

theorem Relies.covers {tracks : List Track} (h : q.Relies fetch tracks) : q.Covers fetch tracks :=
  ⟨h.devices, h.stored, h.window, h.exact⟩

/-- A found record passes the checks if and only if it is a contact. -/
theorem Covers.visit_eq {tracks : List Track} (h : q.Covers fetch tracks) {t : Track}
    (ht : t ∈ tracks) {e : Encounter} (he : e ∈ t.events) (nonce : BitVec 256)
    (acc : BitVec 32 × Bool) :
    q.visit acc (visitOf t.device.id nonce e) = (acc.1, acc.2 || q.isContact q.filterIds e) := by
  have hsmall := (h.stored t ht).small.2 e he
  have hstart : less q.startTime e.time = decide (q.startTime.toNat < e.time.toNat) :=
    Bool.eq_iff_iff.mpr (by simp [less_iff h.window.1 hsmall])
  have hend : less e.time q.endTime = decide (e.time.toNat < q.endTime.toNat) :=
    Bool.eq_iff_iff.mpr (by simp [less_iff hsmall h.window.2])
  simp only [visit, visitOf, recordOf, isContact, hstart, hend, h.exact t ht e he, Bool.not_false,
    Bool.true_and, List.contains_eq_mem]

/-- How many shuffles hold contacts, added up over the devices. -/
def spread (q : ContactCall) (tracks : List Track) : Nat :=
  (tracks.map fun t => (q.contactShuffles q.filterIds q.shuffles t).card).sum

/-- If anything is fetched at all, `contact` counts a device once for each shuffle that holds one of
its contacts, whatever the duration. -/
theorem Covers.contact_eq {tracks : List Track} (h : q.Covers fetch tracks) :
    q.contact fetch =
      if q.walkLength = 0 then none else some (BitVec.ofNat 32 (q.spread tracks)) := by
  obtain ⟨ds, acc', hwalk, hwalks⟩ := walkShuffles_spec q.pass h.stored (0, false)
  have hcount := walks_count hwalks h.stored fun t ht e he => h.visit_eq ht he
  have hspread : acc'.1 = BitVec.ofNat 32 (q.spread tracks) := by simpa [spread] using hcount
  rw [contact, ← h.devices, hwalk]
  simp only [Option.bind_eq_bind, Option.bind_some, hspread]

/-- With all encounters in one shuffle every device with a contact is counted once. -/
theorem Relies.spread_eq {tracks : List Track} (h : q.Relies fetch tracks) :
    q.spread tracks = tracks.countP fun t => t.events.any (q.isContact q.filterIds) := by
  rw [spread, ← sum_map_indicator]
  refine congrArg List.sum (List.map_congr_left fun t ht => ?_)
  have hhome : ∀ e ∈ t.events, ∀ e' ∈ t.events, home q.shuffles e = home q.shuffles e' :=
    fun e he e' he' => home_congr (h.oneShuffle t ht t ht e he e' he')
  split_ifs with hany
  · obtain ⟨e, he, hcontact⟩ := List.any_eq_true.mp hany
    refine Finset.card_eq_one.mpr ⟨home q.shuffles e, ?_⟩
    ext i
    rw [mem_contactShuffles, Finset.mem_singleton]
    exact ⟨fun ⟨e', he', _, hi⟩ => hi.symm.trans (hhome e' he' e he),
      fun hi => ⟨e, he, hcontact, hi.symm⟩⟩
  · refine Finset.card_eq_zero.mpr (Finset.eq_empty_of_forall_notMem fun i hi => hany ?_)
    obtain ⟨e, he, hcontact, -⟩ := mem_contactShuffles.mp hi
    exact List.any_eq_true.mpr ⟨e, he, hcontact⟩

/-- If anything is fetched at all, `contact` counts the walked devices with a contact, whatever its
duration. -/
theorem Relies.contact_eq {tracks : List Track} (h : q.Relies fetch tracks) :
    q.contact fetch = if q.walkLength = 0 then none else some (BitVec.ofNat 32
      (tracks.countP fun t => t.events.any (q.isContact q.filterIds))) := by
  rw [h.covers.contact_eq, h.spread_eq]

theorem walkSet_ne_filterSet_iff :
    q.walkSet ≠ q.filterSet ↔ (q.devices .source).length ≠ (q.devices .sink).length := by
  unfold walkSet filterSet
  split_ifs <;> simp <;> omega

theorem filterSet_eq_other (h : (q.devices .source).length ≠ (q.devices .sink).length) :
    q.filterSet = q.walkSet.other := by
  unfold walkSet filterSet
  split_ifs <;> first | rfl | omega

/-- Contacts are counted one by one, those with sufficient duration and the others. -/
theorem countP_contacts (q : ContactCall) (tracks : List Track) :
    (tracks.countP fun t => t.events.any
        (q.isContact ((q.devices q.walkSet.other).map (·.id)))) =
      tracks.countP q.hasLongContact + tracks.countP q.hasOnlyShortContacts := by
  induction tracks with
  | nil => rfl
  | cons t tracks ih =>
    have hlong : q.hasLongContact t = true →
        t.events.any (q.isContact ((q.devices q.walkSet.other).map (·.id))) = true := fun h => by
      obtain ⟨e, he, hcontact⟩ := List.any_eq_true.mp h
      exact List.any_eq_true.mpr ⟨e, he, (Bool.and_eq_true_iff.mp hcontact).1⟩
    rw [List.countP_cons, List.countP_cons, List.countP_cons, ih]
    unfold hasOnlyShortContacts
    cases hl : q.hasLongContact t
    · simp only [Bool.not_false, Bool.and_true]
      simp [Nat.add_assoc]
    · simp [hlong hl]
      omega

/-- The count is that of the walked devices with a contact of sufficient duration with the other
set, and the two sets are told apart, if and only if the sets have different sizes, something is
fetched, and no walked device has only short contacts (or a multiple of `2 ^ 32` of them has, which
the 32-bit count cannot tell from none). -/
theorem contact_iff {tracks : List Track} (h : q.Relies fetch tracks) :
    (q.contact fetch = some (BitVec.ofNat 32 (tracks.countP q.hasLongContact)) ∧
        q.walkSet ≠ q.filterSet) ↔
      (q.devices .source).length ≠ (q.devices .sink).length ∧ q.walkLength ≠ 0 ∧
        2 ^ 32 ∣ tracks.countP q.hasOnlyShortContacts := by
  rw [walkSet_ne_filterSet_iff, and_comm]
  refine and_congr_right fun hne => ?_
  rw [h.contact_eq, filterIds, filterSet_eq_other hne, countP_contacts]
  split_ifs with hlength
  · exact iff_of_false not_false fun hfetched => hfetched.1 hlength
  · rw [Option.some.injEq, BitVec.ofNat_add, ← BitVec.toNat_inj, and_iff_right hlength]
    simp only [BitVec.toNat_add, BitVec.toNat_ofNat, Nat.add_mod_mod, Nat.mod_add_mod]
    omega

/-! ## One encounter -/

/-- Device `1` meets device `2` at time `20`. -/
def oneEncounter (duration : BitVec 16) : Encounter :=
  { id := 0, device := 1, encountered := 2, latitude := 0, longitude := 0, tile := 0, time := 20
    previous := 5, next := 0, duration := duration, confirmed := 1, reciprocated := true }

/-- Device `1` against the devices `2` and `3`; encounters have to last longer than `3`. -/
def oneAgainstTwo : ContactCall where
  startTime := 10
  endTime := 30
  minimumDuration := 3
  devices
    | .source => [⟨1, 20⟩]
    | .sink => [⟨2, 5⟩, ⟨3, 5⟩]
  shuffles := [⟨0, 10, 0⟩]
  encountersPerDevicePerShuffle := 2
  filterType := ⟨8, 1, fun _ => 4⟩

/-- A store that holds the one encounter and dummies. -/
def fetchOne (duration : BitVec 16) : Fetch := fun _ _ _ _ fetchDummy =>
  some (if fetchDummy then ⟨0, 0, 0, 0⟩ else recordOf (oneEncounter duration))

theorem oneAgainstTwo_relies (duration : BitVec 16) :
    oneAgainstTwo.Relies (fetchOne duration) [⟨⟨1, 20⟩, [oneEncounter duration], 5⟩] where
  devices := rfl
  stored := by
    simp only [List.mem_singleton, forall_eq]
    exact
      { linked := ⟨rfl, rfl⟩
        decreasing := by simp
        small := by simp [oneEncounter, Circuit.Small]
        started := by simp [oneAgainstTwo, Circuit.Small]
        covered := by simp [oneAgainstTwo, Track.within, oneEncounter]
        fetched := fun _ _ _ _ e he _ _ _ => by simp_all [fetchOne]
        dummies := by simp [fetchOne]
        few := fun _ _ _ _ => Nat.le_trans List.countP_le_length (by simp [oneAgainstTwo]) }
  oneShuffle := by simp
  window := by decide
  exact := by
    simp only [List.mem_singleton, forall_eq]
    exact (by decide +kernel : oneAgainstTwo.filter.contains 2 =
      decide ((2 : BitVec 256) ∈ oneAgainstTwo.filterIds))

theorem oneAgainstTwo_counts_long : oneAgainstTwo.contact (fetchOne 7) = some 1 ∧
    oneAgainstTwo.walkSet ≠ oneAgainstTwo.filterSet := by
  have h := (contact_iff (oneAgainstTwo_relies 7)).mpr (by decide +kernel)
  exact ⟨h.1.trans (by decide +kernel), h.2⟩

/-- An encounter of duration `1` is counted although it would have to last longer than `3`. -/
theorem oneAgainstTwo_counts_short :
    oneAgainstTwo.Relies (fetchOne 1) [⟨⟨1, 20⟩, [oneEncounter 1], 5⟩] ∧
    ¬ (oneAgainstTwo.contact (fetchOne 1) = some (BitVec.ofNat 32
        (List.countP oneAgainstTwo.hasLongContact [⟨⟨1, 20⟩, [oneEncounter 1], 5⟩])) ∧
      oneAgainstTwo.walkSet ≠ oneAgainstTwo.filterSet) :=
  ⟨oneAgainstTwo_relies 1, by decide +kernel⟩

end ContactCall

end CoVault.PathQuery
