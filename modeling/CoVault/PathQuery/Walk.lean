import CoVault.Circuit.Compare
import CoVault.Encounters.Fields

/-!
# Walking along encounter histories

Both path queries fetch, for every shuffle and every device, a fixed number of records. A
device's next record is the one at its previous time; once that time is too early for the
shuffle, dummies are fetched instead. What a query does with a record is a parameter of the
loops, and so is the fetch.
-/

namespace CoVault.PathQuery

open Circuit Encounters

/-- The fields a fetch hands out. -/
structure Record where
  encountered : BitVec 256
  previous : BitVec 32
  duration : BitVec 16
  confirmed : BitVec 8
  deriving DecidableEq

/-- `confirmed[0]`. -/
def Record.isConfirmed (r : Record) : Bool := r.confirmed.getLsbD 0

/-- `fetch_and_decrypt_encounter` with a shuffle, device id, time, dummy nonce and dummy bit;
`none` when it returns false. -/
abbrev Fetch := BitVec 64 → BitVec 256 → BitVec 32 → BitVec 256 → Bool → Option Record

/-- Entry `s` of `shuffles`, `shuffle_start_times` and `dummy_start_nonces`. -/
structure ShuffleCall where
  shuffle : BitVec 64
  startTime : BitVec 32
  dummyStartNonce : BitVec 256

/-- A device with the time of its next record. -/
structure Device where
  id : BitVec 256
  previous : BitVec 32
  deriving DecidableEq

/-- The two arrays of devices. -/
inductive Given where
  | source | sink
  deriving DecidableEq, Repr

/-- What the body of the innermost loop has at hand after a fetch. -/
structure Visit where
  device : Device
  dummyNonce : BitVec 256
  fetchDummy : Bool
  record : Record

/-- What a query does before and after the records of a device and with each of them. -/
structure Pass (σ : Type) where
  before : σ → σ
  visit : σ → Visit → σ
  after : σ → σ

section Loops

variable {σ : Type} (fetch : Fetch) (perDevice : Nat) (pass : Pass σ) (call : ShuffleCall)

/-- The innermost loop. -/
def walkDevice : Nat → Device → BitVec 256 → σ → Option (Device × BitVec 256 × σ)
  | 0, d, dummyNonce, acc => some (d, dummyNonce, acc)
  | j + 1, d, dummyNonce, acc => do
    let fetchDummy := geq call.startTime d.previous
    let record ← fetch call.shuffle d.id d.previous dummyNonce fetchDummy
    walkDevice j { d with previous := if fetchDummy then d.previous else record.previous }
      (if fetchDummy then dummyNonce + 1 else dummyNonce)
      (pass.visit acc ⟨d, dummyNonce, fetchDummy, record⟩)

/-- The loop over the devices of one shuffle. -/
def walkDevices : List Device → BitVec 256 → σ → Option (List Device × σ)
  | [], _, acc => some ([], acc)
  | d :: ds, dummyNonce, acc => do
    let (d, dummyNonce, acc) ← walkDevice fetch pass call perDevice d dummyNonce (pass.before acc)
    let (ds, acc) ← walkDevices ds dummyNonce (pass.after acc)
    some (d :: ds, acc)

/-- The loop over the shuffles. -/
def walkShuffles : List ShuffleCall → List Device → σ → Option (List Device × σ)
  | [], ds, acc => some (ds, acc)
  | call :: calls, ds, acc => do
    let (ds, acc) ← walkDevices fetch perDevice pass call ds call.dummyStartNonce acc
    walkShuffles calls ds acc

end Loops

/-! ## Histories -/

def recordOf (e : Encounter) : Record := ⟨e.encountered, e.previous, e.duration, e.confirmed⟩

/-- A device with its encounters ahead, newest first, and the previous time of the oldest. -/
structure Track where
  device : Device
  events : List Encounter
  last : BitVec 32

/-- Each encounter is found at the previous time of the one before it. -/
def Linked (last : BitVec 32) : BitVec 32 → List Encounter → Prop
  | t, [] => t = last
  | t, e :: es => e.time = t ∧ Linked last e.previous es

namespace Track

/-- The encounter is later than the start of the shuffle. -/
def within (call : ShuffleCall) (e : Encounter) : Bool :=
  decide (call.startTime.toNat < e.time.toNat)

/-- The encounters ahead that a shuffle holds. -/
def recent (t : Track) (call : ShuffleCall) : List Encounter := t.events.filter (within call)

/-- What is ahead after the shuffle. -/
def advance (t : Track) (call : ShuffleCall) : Track :=
  let older := t.events.filter fun e => !within call e
  { t with
    events := older
    device := { t.device with previous := (older.head?.map (·.time)).getD t.last } }

/-- The shuffles, newest first, hold the history of a device: all times are small, every
encounter lies in the first shuffle that starts before it, where a fetch finds it, no shuffle
holds more of them than are fetched from it, and what is older than the oldest encounter is
older than all shuffles. -/
structure Stored (fetch : Fetch) (perDevice : Nat) (calls : List ShuffleCall) (t : Track) :
    Prop where
  linked : Linked t.last t.device.previous t.events
  decreasing : t.events.Pairwise fun a b => b.time.toNat < a.time.toNat
  small : Small t.last ∧ ∀ e ∈ t.events, Small e.time
  started : ∀ call ∈ calls, Small call.startTime ∧ t.last.toNat ≤ call.startTime.toNat
  covered : ∀ e ∈ t.events, ∃ call ∈ calls, within call e = true
  fetched : ∀ newer call older, calls = newer ++ call :: older → ∀ e ∈ t.events,
    within call e = true → (∀ c ∈ newer, within c e = false) → ∀ nonce,
      fetch call.shuffle t.device.id e.time nonce false = some (recordOf e)
  dummies : ∀ call ∈ calls, ∀ time nonce, (fetch call.shuffle t.device.id time nonce true).isSome
  few : ∀ newer call older, calls = newer ++ call :: older →
    t.events.countP (fun e => within call e && newer.all fun c => !within c e) ≤ perDevice

end Track

/-! ## What the loops visit -/

/-- The visit of an encounter. -/
def visitOf (id dummyNonce : BitVec 256) (e : Encounter) : Visit :=
  ⟨⟨id, e.time⟩, dummyNonce, false, recordOf e⟩

/-- The visits to one device in one shuffle: its encounters there, then dummies. -/
def Visits (perDevice : Nat) (call : ShuffleCall) (t : Track) (vs : List Visit) : Prop :=
  vs.length = perDevice ∧ ∃ dummyNonce dummies,
    vs = (t.recent call).map (visitOf t.device.id dummyNonce) ++ dummies ∧
      ∀ v ∈ dummies, v.fetchDummy = true

section Spec

variable {σ : Type} {fetch : Fetch} {perDevice : Nat} {call : ShuffleCall}

/-- Once the previous time is too early, only dummies are fetched. -/
theorem walkDevice_dummies (pass : Pass σ) {d : Device} (hsmall : Small d.previous)
    (hstart : Small call.startTime) (hearly : d.previous.toNat ≤ call.startTime.toNat)
    (hdummy : ∀ time nonce, (fetch call.shuffle d.id time nonce true).isSome) (n : Nat)
    (dummyNonce : BitVec 256) (acc : σ) : ∃ dummyNonce', ∃ dummies : List Visit,
      walkDevice fetch pass call n d dummyNonce acc =
        some (d, dummyNonce', dummies.foldl pass.visit acc) ∧
      dummies.length = n ∧ ∀ v ∈ dummies, v.fetchDummy = true := by
  have hgeq : geq call.startTime d.previous = true := (geq_iff hstart hsmall).mpr hearly
  induction n generalizing dummyNonce acc with
  | zero => exact ⟨dummyNonce, [], rfl, rfl, by simp⟩
  | succ n ih =>
    obtain ⟨record, hrecord⟩ := Option.isSome_iff_exists.mp (hdummy d.previous dummyNonce)
    obtain ⟨dummyNonce', dummies, hwalk, hlength, hall⟩ := ih (dummyNonce + 1)
      (pass.visit acc ⟨d, dummyNonce, true, record⟩)
    refine ⟨dummyNonce', ⟨d, dummyNonce, true, record⟩ :: dummies, ?_, by simp [hlength],
      by simpa using hall⟩
    rw [walkDevice]
    simp only [hgeq, hrecord, Option.bind_eq_bind, Option.bind_some, if_true]
    exact hwalk

/-- Encounters that are found and late enough are visited one after the other. -/
theorem walkDevice_events (pass : Pass σ) {es : List Encounter} {next : BitVec 32} {d : Device}
    (hlinked : Linked next d.previous es) (hstart : Small call.startTime) (hnext : Small next)
    (hearly : next.toNat ≤ call.startTime.toNat)
    (hes : ∀ e ∈ es, Small e.time ∧ Track.within call e = true ∧
      ∀ nonce, fetch call.shuffle d.id e.time nonce false = some (recordOf e))
    (hdummy : ∀ time nonce, (fetch call.shuffle d.id time nonce true).isSome) {n : Nat}
    (hn : es.length ≤ n) (dummyNonce : BitVec 256) (acc : σ) : ∃ dummyNonce', ∃ dummies : List Visit,
      walkDevice fetch pass call n d dummyNonce acc = some ({ d with previous := next },
        dummyNonce', (es.map (visitOf d.id dummyNonce) ++ dummies).foldl pass.visit acc) ∧
      es.length + dummies.length = n ∧ ∀ v ∈ dummies, v.fetchDummy = true := by
  induction es generalizing d n acc with
  | nil =>
    have hprev : d.previous = next := hlinked
    subst hprev
    simpa using walkDevice_dummies pass hnext hstart hearly hdummy n dummyNonce acc
  | cons e es ih =>
    obtain ⟨id, previous⟩ := d
    obtain ⟨rfl, hlinked⟩ := hlinked
    obtain ⟨hsmall, hwithin, hfetch⟩ := hes e (by simp)
    obtain ⟨n, rfl⟩ : ∃ m, n = m + 1 := ⟨n - 1, by simp at hn; omega⟩
    have hgeq : geq call.startTime e.time = false := by
      rw [← Bool.not_eq_true, geq_iff hstart hsmall, Nat.not_le]
      exact of_decide_eq_true hwithin
    obtain ⟨dummyNonce', dummies, hwalk, hlength, hall⟩ := ih (d := ⟨id, e.previous⟩)
      hlinked (fun e' he' => hes e' (List.mem_cons_of_mem e he')) hdummy
      (by simpa using hn) (pass.visit acc (visitOf id dummyNonce e))
    refine ⟨dummyNonce', dummies, ?_, by simp only [List.length_cons]; omega, hall⟩
    rw [walkDevice]
    simp only [hgeq, hfetch, Option.bind_eq_bind, Option.bind_some, Bool.false_eq_true, if_false]
    exact hwalk

namespace Track

variable {calls : List ShuffleCall} {t : Track}

/-- The previous time with which the next shuffle starts. -/
def next (t : Track) (call : ShuffleCall) : BitVec 32 := (t.advance call).device.previous

theorem filter_within {es : List Encounter}
    (h : es.Pairwise fun a b => b.time.toNat < a.time.toNat) :
    es = es.filter (within call) ++ es.filter fun e => !within call e := by
  induction es with
  | nil => rfl
  | cons e es ih =>
    obtain ⟨hhead, htail⟩ := List.pairwise_cons.mp h
    by_cases he : within call e = true
    · simp [he, ← ih htail]
    · have hnone : ∀ e' ∈ es, within call e' = false := fun e' he' => by
        have := hhead e' he'
        simp only [within, decide_eq_true_eq, decide_eq_false_iff_not] at he ⊢
        omega
      have hrecent : es.filter (within call) = [] :=
        List.filter_eq_nil_iff.mpr fun e' he' => by simp [hnone e' he']
      have hall : es.filter (fun e => !within call e) = es :=
        List.filter_eq_self.mpr fun e' he' => by simp [hnone e' he']
      simp [he, hrecent, hall]

end Track

/-- A chain is cut at the head of its second part. -/
theorem Linked.split {last t : BitVec 32} {xs ys : List Encounter} (h : Linked last t (xs ++ ys)) :
    Linked ((ys.head?.map (·.time)).getD last) t xs ∧
      Linked last ((ys.head?.map (·.time)).getD last) ys := by
  induction xs generalizing t with
  | nil =>
    cases ys with
    | nil => exact ⟨h, rfl⟩
    | cons y ys => exact ⟨h.1.symm, rfl, h.2⟩
  | cons x xs ih =>
    obtain ⟨htime, h⟩ := h
    exact ⟨⟨htime, (ih h).1⟩, (ih h).2⟩

namespace Track

variable {calls : List ShuffleCall} {t : Track}

theorem Stored.split (h : Stored fetch perDevice (call :: calls) t) :
    Linked (t.next call) t.device.previous (t.recent call) ∧
      Linked t.last (t.next call) (t.advance call).events := by
  have hlinked := h.linked
  rw [filter_within h.decreasing] at hlinked
  exact hlinked.split

theorem Stored.next_le (h : Stored fetch perDevice (call :: calls) t) :
    Small (t.next call) ∧ (t.next call).toNat ≤ call.startTime.toNat := by
  have hstarted := (h.started call (by simp)).2
  have hmem : ∀ e ∈ (t.advance call).events, e ∈ t.events ∧ within call e = false := by
    simp [advance]
  unfold next advance
  change Small ((((t.advance call).events.head?).map (·.time)).getD t.last) ∧
    ((((t.advance call).events.head?).map (·.time)).getD t.last).toNat ≤ _
  cases hhead : (t.advance call).events.head? with
  | none => exact ⟨h.small.1, hstarted⟩
  | some e =>
    obtain ⟨he, hout⟩ := hmem e (List.mem_of_mem_head? hhead)
    refine ⟨h.small.2 e he, ?_⟩
    simpa [within] using hout

/-- What is ahead after a shuffle is stored in the older ones. -/
theorem Stored.advance (h : Stored fetch perDevice (call :: calls) t) :
    Stored fetch perDevice calls (t.advance call) where
  linked := h.split.2
  decreasing := h.decreasing.filter _
  small := ⟨h.small.1, fun e he => h.small.2 e (List.mem_of_mem_filter he)⟩
  started := fun c hc => h.started c (List.mem_cons_of_mem call hc)
  covered := fun e he => by
    obtain ⟨he, hout⟩ := List.mem_filter.mp he
    obtain ⟨c, hc, hwithin⟩ := h.covered e he
    rcases List.mem_cons.mp hc with rfl | hc
    · simp [hwithin] at hout
    · exact ⟨c, hc, hwithin⟩
  fetched := fun newer c older hcalls e he hwithin hnewer => by
    obtain ⟨he, hout⟩ := List.mem_filter.mp he
    refine h.fetched (call :: newer) c older (by simp [hcalls]) e he hwithin fun c' hc' => ?_
    rcases List.mem_cons.mp hc' with rfl | hc'
    · simpa using hout
    · exact hnewer c' hc'
  dummies := fun c hc => h.dummies c (List.mem_cons_of_mem call hc)
  few := fun newer c older hcalls => by
    refine le_trans (le_of_eq ?_) (h.few (call :: newer) c older (by simp [hcalls]))
    rw [Track.advance, List.countP_filter]
    exact List.countP_congr fun e _ => by simp [Bool.and_comm, Bool.and_left_comm]

end Track

/-- One device in one shuffle. -/
theorem walkDevice_spec (pass : Pass σ) {calls : List ShuffleCall} {t : Track}
    (h : t.Stored fetch perDevice (call :: calls)) (dummyNonce : BitVec 256) (acc : σ) :
    ∃ dummyNonce' vs, Visits perDevice call t vs ∧
      walkDevice fetch pass call perDevice t.device dummyNonce acc =
        some ((t.advance call).device, dummyNonce', vs.foldl pass.visit acc) := by
  obtain ⟨hsmall, hearly⟩ := h.next_le
  have hes : ∀ e ∈ t.recent call, Small e.time ∧ Track.within call e = true ∧
      ∀ nonce, fetch call.shuffle t.device.id e.time nonce false = some (recordOf e) := fun e he => by
    obtain ⟨hmem, hwithin⟩ := List.mem_filter.mp he
    exact ⟨h.small.2 e hmem, hwithin, h.fetched [] call calls rfl e hmem hwithin (by simp)⟩
  have hfew : (t.recent call).length ≤ perDevice := by
    simpa [Track.recent, List.countP_eq_length_filter] using h.few [] call calls rfl
  obtain ⟨dummyNonce', dummies, hwalk, hlength, hall⟩ := walkDevice_events pass h.split.1
    (h.started call (by simp)).1 hsmall hearly hes (h.dummies call (by simp)) hfew dummyNonce acc
  exact ⟨dummyNonce', _, ⟨by simpa using hlength, dummyNonce, dummies, rfl, hall⟩, hwalk⟩

/-- What a query makes of the visits to one device. -/
def Pass.device (pass : Pass σ) (acc : σ) (vs : List Visit) : σ :=
  pass.after (vs.foldl pass.visit (pass.before acc))

theorem walkDevices_spec (pass : Pass σ) {calls : List ShuffleCall} {ts : List Track}
    (h : ∀ t ∈ ts, t.Stored fetch perDevice (call :: calls)) (dummyNonce : BitVec 256) (acc : σ) :
    ∃ vss, List.Forall₂ (Visits perDevice call) ts vss ∧
      walkDevices fetch perDevice pass call (ts.map (·.device)) dummyNonce acc =
        some (ts.map fun t => (t.advance call).device, vss.foldl pass.device acc) := by
  induction ts generalizing dummyNonce acc with
  | nil => exact ⟨[], .nil, rfl⟩
  | cons t ts ih =>
    obtain ⟨dummyNonce', vs, hvs, hwalk⟩ :=
      walkDevice_spec pass (h t (by simp)) dummyNonce (pass.before acc)
    obtain ⟨vss, hvss, hrest⟩ := ih (fun t' ht' => h t' (List.mem_cons_of_mem t ht')) dummyNonce'
      (pass.device acc vs)
    refine ⟨vs :: vss, .cons hvs hvss, ?_⟩
    rw [List.map_cons, walkDevices]
    simp only [hwalk, Option.bind_eq_bind, Option.bind_some]
    rw [← Pass.device, hrest]
    rfl

/-- A query's pass over stored histories, shuffle by shuffle. -/
inductive Walks (perDevice : Nat) (pass : Pass σ) : List ShuffleCall → List Track → σ → σ → Prop where
  | nil {ts : List Track} {acc : σ} : Walks perDevice pass [] ts acc acc
  | cons {call : ShuffleCall} {calls : List ShuffleCall} {ts : List Track} {vss : List (List Visit)}
      {acc acc' : σ} : List.Forall₂ (Visits perDevice call) ts vss →
      Walks perDevice pass calls (ts.map (·.advance call)) (vss.foldl pass.device acc) acc' →
      Walks perDevice pass (call :: calls) ts acc acc'

theorem walkShuffles_spec (pass : Pass σ) {calls : List ShuffleCall} {ts : List Track}
    (h : ∀ t ∈ ts, t.Stored fetch perDevice calls) (acc : σ) :
    ∃ ds acc', walkShuffles fetch perDevice pass calls (ts.map (·.device)) acc = some (ds, acc') ∧
      Walks perDevice pass calls ts acc acc' := by
  induction calls generalizing ts acc with
  | nil => exact ⟨_, acc, rfl, .nil⟩
  | cons call calls ih =>
    obtain ⟨vss, hvss, hwalk⟩ := walkDevices_spec pass h call.dummyStartNonce acc
    have hnext : ∀ t ∈ ts.map (·.advance call), t.Stored fetch perDevice calls := by
      rintro _ ht
      obtain ⟨t, hmem, rfl⟩ := List.mem_map.mp ht
      exact (h t hmem).advance
    obtain ⟨ds, acc', hrest, hwalks⟩ := ih hnext (vss.foldl pass.device acc)
    refine ⟨ds, acc', ?_, .cons hvss hwalks⟩
    rw [walkShuffles]
    simp only [hwalk, Option.bind_eq_bind, Option.bind_some]
    rw [← hrest, List.map_map]
    rfl

end Spec

end CoVault.PathQuery
