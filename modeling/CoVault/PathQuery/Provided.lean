import CoVault.PathQuery.Fetches
import CoVault.PathQuery.FlowCount

/-!
# A query over its records

A query can be read as one over records by shuffle, device and time, as if every dummy could be
fetched. A store need not do more than to hold the records and, for each shuffle, as many dummies as
one pass may ask for: the query then has the same result, for what is handed out for a dummy does
not count.
-/

namespace CoVault.PathQuery

open Circuit

/-- The fetches over some records when no dummy is ever missing. -/
def Records.fetch (records : Records) : Fetch := fun shuffle id time _ fetchDummy =>
  if fetchDummy then some ⟨0, 0, 0, 0⟩ else records shuffle id time

/-- The fetch finds the records, and the first `n` dummies of each shuffle. -/
structure Provides (fetch : Fetch) (records : Records) (n : Nat) (call : ShuffleCall) : Prop where
  record : ∀ id time nonce r, records call.shuffle id time = some r →
    fetch call.shuffle id time nonce false = some r
  dummy : ∀ id time, ∀ j < n,
    (fetch call.shuffle id time (call.dummyStartNonce + BitVec.ofNat 256 j) true).isSome

/-- What a query makes of a dummy does not depend on what was handed out for it. -/
structure Pass.Ignores {σ : Type} (pass : Pass σ) (R : σ → σ → Prop) : Prop where
  before : ∀ {acc acc'}, R acc acc' → R (pass.before acc) (pass.before acc')
  visit : ∀ {acc acc'} v record, R acc acc' → (record = v.record ∨ v.fetchDummy = true) →
    R (pass.visit acc v) (pass.visit acc' { v with record := record })
  after : ∀ {acc acc'}, R acc acc' → R (pass.after acc) (pass.after acc')

section Walks

variable {σ : Type} {fetch : Fetch} {records : Records} {perDevice n : Nat} {call : ShuffleCall}
  {pass : Pass σ} {R : σ → σ → Prop}

/-- One fetch that is complete over the records. -/
theorem Provides.ask (h : Provides fetch records n call) {id : BitVec 256} {time : BitVec 32}
    {k : Nat} (hk : k < n) {fetchDummy : Bool} {record : Record}
    (hrecord : records.fetch call.shuffle id time (call.dummyStartNonce + BitVec.ofNat 256 k)
      fetchDummy = some record) :
    ∃ record', fetch call.shuffle id time (call.dummyStartNonce + BitVec.ofNat 256 k) fetchDummy =
      some record' ∧ (record' = record ∨ fetchDummy = true) ∧
        (fetchDummy = false → record' = record) := by
  cases fetchDummy with
  | false => exact ⟨record, h.record id time _ record hrecord, .inl rfl, fun _ => rfl⟩
  | true =>
    obtain ⟨record', hdummy⟩ := Option.isSome_iff_exists.mp (h.dummy id time k hk)
    exact ⟨record', hdummy, .inr rfl, fun h => by cases h⟩

/-- The innermost loop, `k` dummies having been fetched before. -/
theorem walkDevice_provided (h : Provides fetch records n call) (hpass : pass.Ignores R)
    {j k : Nat} (hk : k + j ≤ n) {d d' : Device} {dummyNonce' : BitVec 256} {acc acc₁ acc' : σ}
    (hacc : R acc acc') (hwalk : walkDevice records.fetch pass call j d
      (call.dummyStartNonce + BitVec.ofNat 256 k) acc = some (d', dummyNonce', acc₁)) :
    ∃ k' acc₁', k' ≤ k + j ∧ dummyNonce' = call.dummyStartNonce + BitVec.ofNat 256 k' ∧
      walkDevice fetch pass call j d (call.dummyStartNonce + BitVec.ofNat 256 k) acc' =
        some (d', dummyNonce', acc₁') ∧ R acc₁ acc₁' := by
  induction j generalizing k d acc acc' with
  | zero =>
    obtain ⟨rfl, rfl, rfl⟩ : d = d' ∧ call.dummyStartNonce + BitVec.ofNat 256 k = dummyNonce' ∧
        acc = acc₁ := by
      simpa [walkDevice] using hwalk
    exact ⟨k, acc', le_rfl, rfl, rfl, hacc⟩
  | succ j ih =>
    simp only [walkDevice, Option.bind_eq_bind, Option.bind_eq_some_iff] at hwalk
    obtain ⟨record, hrecord, hwalk⟩ := hwalk
    obtain ⟨record', hfetch, hrecord', hreal⟩ := h.ask (by omega) hrecord
    have hvisit := hpass.visit ⟨d, call.dummyStartNonce + BitVec.ofNat 256 k,
      geq call.startTime d.previous, record⟩ record' hacc hrecord'
    rw [walkDevice]
    simp only [hfetch, Option.bind_eq_bind, Option.bind_some]
    cases hdummy : geq call.startTime d.previous with
    | true =>
      have hnext : call.dummyStartNonce + BitVec.ofNat 256 k + 1 =
          call.dummyStartNonce + BitVec.ofNat 256 (k + 1) := by
        rw [BitVec.add_assoc, BitVec.ofNat_add]
        rfl
      simp only [hdummy, if_true, hnext] at hwalk hvisit ⊢
      obtain ⟨k', acc₁', hle, hrest⟩ := ih (by omega) hvisit hwalk
      exact ⟨k', acc₁', by omega, hrest⟩
    | false =>
      obtain rfl := hreal hdummy
      simp only [hdummy, Bool.false_eq_true, if_false] at hwalk hvisit ⊢
      obtain ⟨k', acc₁', hle, hrest⟩ := ih (by omega) hvisit hwalk
      exact ⟨k', acc₁', by omega, hrest⟩

/-- The loop over the devices of one shuffle. -/
theorem walkDevices_provided (h : Provides fetch records n call) (hpass : pass.Ignores R)
    {ds ds' : List Device} {k : Nat} (hk : k + ds.length * perDevice ≤ n) {acc acc₁ acc' : σ}
    (hacc : R acc acc') (hwalk : walkDevices records.fetch perDevice pass call ds
      (call.dummyStartNonce + BitVec.ofNat 256 k) acc = some (ds', acc₁)) :
    ds'.length = ds.length ∧ ∃ acc₁', walkDevices fetch perDevice pass call ds
      (call.dummyStartNonce + BitVec.ofNat 256 k) acc' = some (ds', acc₁') ∧ R acc₁ acc₁' := by
  induction ds generalizing k ds' acc acc' with
  | nil =>
    obtain ⟨rfl, rfl⟩ : [] = ds' ∧ acc = acc₁ := by simpa [walkDevices] using hwalk
    exact ⟨rfl, acc', rfl, hacc⟩
  | cons d ds ih =>
    obtain ⟨d', dummyNonce', acc₂, ds₁, hdevice, hrest, rfl⟩ := walkDevices_cons hwalk
    rw [List.length_cons, Nat.succ_mul] at hk
    obtain ⟨k', acc₂', hle, rfl, hdevice', hacc₂⟩ :=
      walkDevice_provided h hpass (by omega) (hpass.before hacc) hdevice
    obtain ⟨hlength, acc₁', hrest', hacc₁⟩ := ih (by omega) (hpass.after hacc₂) hrest
    refine ⟨congrArg (· + 1) hlength, acc₁', ?_, hacc₁⟩
    rw [walkDevices]
    simp only [hdevice', hrest', Option.bind_eq_bind, Option.bind_some]

/-- The loop over the shuffles. -/
theorem walkShuffles_provided {calls : List ShuffleCall}
    (h : ∀ call ∈ calls, Provides fetch records n call) (hpass : pass.Ignores R)
    {ds ds' : List Device} (hn : ds.length * perDevice ≤ n) {acc acc₁ acc' : σ} (hacc : R acc acc')
    (hwalk : walkShuffles records.fetch perDevice pass calls ds acc = some (ds', acc₁)) :
    ∃ acc₁', walkShuffles fetch perDevice pass calls ds acc' = some (ds', acc₁') ∧
      R acc₁ acc₁' := by
  induction calls generalizing ds acc acc' with
  | nil =>
    obtain ⟨rfl, rfl⟩ : ds = ds' ∧ acc = acc₁ := by simpa [walkShuffles] using hwalk
    exact ⟨acc', rfl, hacc⟩
  | cons call calls ih =>
    simp only [walkShuffles, Option.bind_eq_bind, Option.bind_eq_some_iff] at hwalk
    obtain ⟨⟨ds₁, acc₂⟩, hdevices, hwalk⟩ := hwalk
    have hstart : call.dummyStartNonce = call.dummyStartNonce + BitVec.ofNat 256 0 :=
      (BitVec.add_zero _).symm
    rw [hstart] at hdevices
    obtain ⟨hlength, acc₂', hdevices', hacc₂⟩ :=
      walkDevices_provided (h call (by simp)) hpass (by omega) hacc hdevices
    rw [← hstart] at hdevices'
    obtain ⟨acc₁', hrest, hacc₁⟩ := ih (fun c hc => h c (List.mem_cons_of_mem _ hc))
      (by rwa [hlength]) hacc₂ hwalk
    refine ⟨acc₁', ?_, hacc₁⟩
    rw [walkShuffles]
    simp only [hdevices', hrest, Option.bind_eq_bind, Option.bind_some]

end Walks

/-! ## The two queries -/

/-- A sort that compares nothing but the times. -/
def SortsByKey (sort : List TimedEntry → List TimedEntry) : Prop :=
  ∀ R : TimedEntry → TimedEntry → Prop, (∀ x y, R x y → x.1 = y.1) →
    ∀ l l', List.Forall₂ R l l' → List.Forall₂ R (sort l) (sort l')

namespace FlowCall

variable (q : FlowCall)

/-- The entries are the same, or both lie behind all others. -/
def SameEntry (x y : TimedEntry) : Prop := x = y ∨ x.1 = q.sinkEndTime ∧ y.1 = q.sinkEndTime

theorem pass_ignores (isSource : Bool) :
    (q.pass isSource).Ignores (List.Forall₂ q.SameEntry) where
  before h := h
  visit v record h hrecord := by
    refine List.rel_append h (.cons ?_ .nil)
    rcases hrecord with rfl | hdummy
    · exact .inl rfl
    · exact .inr (by simp [timedEntry, hdummy])
  after h := h

/-- An entry at the end of the window changes the filters as any other there would. -/
theorem walkThrough_sameEntry (s : WalkState) {x y : TimedEntry} (h : q.SameEntry x y) :
    q.walkThrough s x = q.walkThrough s y := by
  rcases h with rfl | ⟨hx, hy⟩
  · rfl
  · simp [walkThrough, metAt, infectedAt, hx, hy, q.inTimeRange_sinkEndTime]

theorem foldl_walkThrough (s : WalkState) {l l' : List TimedEntry}
    (h : List.Forall₂ q.SameEntry l l') : l.foldl q.walkThrough s = l'.foldl q.walkThrough s := by
  induction h generalizing s with
  | nil => rfl
  | cons hxy _ ih => rw [List.foldl_cons, List.foldl_cons, q.walkThrough_sameEntry s hxy, ih]

theorem flow_provided {fetch : Fetch} {records : Records} {n : Nat}
    {sort : List TimedEntry → List TimedEntry} (hsort : SortsByKey sort)
    (h : ∀ call ∈ q.shuffles, Provides fetch records n call)
    (hn : ∀ g, (q.devices g).length * q.encountersPerDevicePerShuffle ≤ n) {count : BitVec 32}
    (hrun : q.flow records.fetch sort = some count) : q.flow fetch sort = some count := by
  simp only [flow, elements, Option.bind_eq_bind, Option.bind_eq_some_iff] at hrun
  obtain ⟨_, ⟨⟨ds, list⟩, hsource, ⟨ds', list'⟩, hsink, hlist⟩, hcount⟩ := hrun
  obtain rfl := Option.some.inj hlist
  obtain ⟨list₁, hsource', hlist⟩ :=
    walkShuffles_provided h (q.pass_ignores true) (hn .source) .nil hsource
  obtain ⟨list₁', hsink', hlist'⟩ :=
    walkShuffles_provided h (q.pass_ignores false) (hn .sink) hlist hsink
  have hkey : ∀ x y, q.SameEntry x y → x.1 = y.1 := by
    rintro x y (rfl | ⟨hx, hy⟩)
    · rfl
    · exact hx.trans hy.symm
  have hsorted := List.forall₂_take q.encountersToWalkThrough (hsort _ hkey _ _ hlist')
  rw [← hcount, flow, elements]
  simp only [hsource', hsink', Option.bind_eq_bind, Option.bind_some, q.foldl_walkThrough _ hsorted]

end FlowCall

namespace ContactCall

variable (q : ContactCall)

theorem pass_ignores : q.pass.Ignores Eq where
  before h := congrArg _ h
  visit v record h hrecord := by
    subst h
    rcases hrecord with rfl | hdummy
    · rfl
    · simp [pass, visit, hdummy]
  after h := congrArg _ h

theorem contact_provided {fetch : Fetch} {records : Records} {n : Nat}
    (h : ∀ call ∈ q.shuffles, Provides fetch records n call)
    (hn : (q.devices q.walkSet).length * q.encountersPerDevicePerShuffle ≤ n) {count : BitVec 32}
    (hrun : q.contact records.fetch = some count) : q.contact fetch = some count := by
  obtain ⟨⟨ds, acc⟩, hwalk, hcount⟩ := Option.bind_eq_some_iff.mp hrun
  obtain ⟨acc', hwalk', rfl⟩ := walkShuffles_provided h q.pass_ignores hn rfl hwalk
  rw [← hcount, contact, hwalk', Option.bind_eq_bind, Option.bind_some]

end ContactCall

/-- A query that is complete over the records has the same count over a store that provides them. -/
theorem Query.run_provided (q : Query) {fetch : Fetch} {records : Records} {n : Nat}
    {sort : List TimedEntry → List TimedEntry} (hsort : SortsByKey sort)
    (h : ∀ call ∈ q.shuffles, Provides fetch records n call)
    (hn : ∀ ds ∈ q.passes, ds.length * q.perDevice ≤ n) {count : BitVec 32}
    (hrun : q.run records.fetch sort = some count) : q.run fetch sort = some count := by
  cases q with
  | flow q =>
    refine q.flow_provided hsort h (fun g => hn _ ?_) hrun
    cases g <;> simp [passes]
  | contact q => exact q.contact_provided h (hn _ (by simp [passes])) hrun

end CoVault.PathQuery
