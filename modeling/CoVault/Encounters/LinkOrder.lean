import CoVault.Encounters.Generate
import CoVault.Library.Chains

/-!
# The order of the links

`fillEncounters` links an encounter with the last one before it in the array that has the same
device key. The times are drawn from the hash, so the array need not be in the order of time.
-/

namespace CoVault.Encounters

open Circuit Library.Chains

instance : Inhabited Encounter := ⟨⟨0, 0, 0, 0, 0, 0, 0, 0, 0, 0, 0, false⟩⟩

namespace Generator

variable (g : Generator) (fuel : Nat) (startIndex : BitVec 64)

/-- Encounter number `i` as `fillEncounter` draws it. -/
def drawnEncounter (i : Nat) : Encounter :=
  (g.fillEncounter fuel (startIndex + BitVec.ofNat 64 i)).getD default

def key (i : Nat) : Nat := g.deviceKey (g.drawnEncounter fuel startIndex i)

def time (i : Nat) : Nat := (g.drawnEncounter fuel startIndex i).time.toNat

/-- `previous` and `next` are the times of the same device next to its own, or an end mark. -/
def LinksFollowTime (es : List Encounter) : Prop := ∀ e ∈ es,
  (IsGreatest {t | ∃ e' ∈ es, e'.device = e.device ∧ e'.time < e.time ∧ e'.time.toNat = t}
      e.previous.toNat ∨
    (∀ e' ∈ es, e'.device = e.device → e.time ≤ e'.time) ∧ e.previous = g.minTime) ∧
  (IsLeast {t | ∃ e' ∈ es, e'.device = e.device ∧ e.time < e'.time ∧ e'.time.toNat = t}
      e.next.toNat ∨
    (∀ e' ∈ es, e'.device = e.device → e'.time ≤ e.time) ∧ e.next = g.maxTime)

/-- Encounters with one key are of one device, and are drawn in the order of their times. -/
def DrawnInOrder (count : Nat) : Prop := ∀ i j, i < j → j < count →
  g.key fuel startIndex i = g.key fuel startIndex j →
    (g.drawnEncounter fuel startIndex i).device = (g.drawnEncounter fuel startIndex j).device ∧
      (g.drawnEncounter fuel startIndex i).time < (g.drawnEncounter fuel startIndex j).time

/-! ## One encounter -/

variable {g fuel startIndex}

theorem inRange_ne {x lo hi t : BitVec 32} (h : inRange x lo hi = some t) : t ≠ hi := by
  simp only [inRange, modulo, Option.map_eq_some_iff] at h
  obtain ⟨r, hr, rfl⟩ := h
  split_ifs at hr with hzero
  obtain rfl := Option.some.inj hr
  intro heq
  have hlt := BitVec.umod_lt x ((BitVec.pos_iff_ne_zero _).mpr hzero)
  rw [eq_sub_of_add_eq heq] at hlt
  exact absurd hlt (BitVec.lt_irrefl _)

/-- An encounter as it is drawn has the end marks for its links. -/
theorem fillEncounter_links {index : BitVec 64} {e : Encounter}
    (h : g.fillEncounter fuel index = some e) :
    e.previous = g.minTime ∧ e.next = g.maxTime ∧ e.time ≠ g.maxTime := by
  simp only [fillEncounter, Option.bind_eq_bind, Option.bind_eq_some_iff] at h
  obtain ⟨_, _, _, _, _, _, time, htime, _, _, heq⟩ := h
  obtain rfl := Option.some.inj heq
  exact ⟨rfl, rfl, inRange_ne htime⟩

theorem deviceKey_congr {e e' : Encounter} (h : e.device = e'.device) :
    g.deviceKey e = g.deviceKey e' := by rw [deviceKey, deviceKey, h]

theorem length_link (es : List Encounter) (mostRecent : Nat → Option Nat) (e : Encounter) :
    (g.link es mostRecent e).length = es.length + 1 := by
  rw [Generator.link]
  split <;> simp

theorem link_of_none {es : List Encounter} {mostRecent : Nat → Option Nat} {e : Encounter}
    (h : mostRecent (g.deviceKey e) = none) : g.link es mostRecent e = es ++ [e] := by
  simp only [Generator.link, h]

theorem link_of_some {es : List Encounter} {mostRecent : Nat → Option Nat} {e : Encounter} {k : Nat}
    (h : mostRecent (g.deviceKey e) = some k) : g.link es mostRecent e =
      (es.modify k fun r => { r with next := e.time }) ++
        [{ e with previous := (es.getD k e).time }] := by
  simp only [Generator.link, h]

/-- The most recent encounter of the device gets the new time for its `next`. -/
theorem getD_link_of_lt {es : List Encounter} {i : Nat} (hi : i < es.length)
    (mostRecent : Nat → Option Nat) (e : Encounter) :
    (g.link es mostRecent e).getD i default =
      if mostRecent (g.deviceKey e) = some i then { es.getD i default with next := e.time }
      else es.getD i default := by
  cases hk : mostRecent (g.deviceKey e) with
  | none =>
    rw [link_of_none hk, if_neg nofun, List.getD_eq_getElem?_getD,
      List.getElem?_append_left hi, List.getD_eq_getElem?_getD]
  | some k =>
    have hmodify : i < (es.modify k fun r => { r with next := e.time }).length := by simpa using hi
    rw [link_of_some hk, List.getD_eq_getElem?_getD, List.getElem?_append_left hmodify,
      List.getElem?_modify, List.getD_eq_getElem?_getD]
    by_cases hki : k = i <;> simp [hki, hi]

/-- The new encounter gets the time of the most recent one for its `previous`. -/
theorem getD_link_length (es : List Encounter) (mostRecent : Nat → Option Nat) (e : Encounter) :
    (g.link es mostRecent e).getD es.length default =
      { e with previous := match mostRecent (g.deviceKey e) with
        | none => e.previous
        | some k => (es.getD k e).time } := by
  cases hk : mostRecent (g.deviceKey e) with
  | none =>
    rw [link_of_none hk, List.getD_eq_getElem?_getD, List.getElem?_concat_length, Option.getD_some]
  | some k =>
    have hlength : (es.modify k fun r => { r with next := e.time }).length = es.length := by simp
    rw [link_of_some hk, List.getD_eq_getElem?_getD, ← hlength, List.getElem?_concat_length,
      Option.getD_some]

/-! ## The run -/

/-- What has been filled after `n` encounters. -/
structure Filled (g : Generator) (fuel : Nat) (startIndex : BitVec 64) (n : Nat)
    (es : List Encounter) (mostRecent : Nat → Option Nat) : Prop where
  length : es.length = n
  drawn : ∀ i < n, (es.getD i default).unlinked = (g.drawnEncounter fuel startIndex i).unlinked ∧
    g.fillEncounter fuel (startIndex + BitVec.ofNat 64 i) =
      some (g.drawnEncounter fuel startIndex i)
  recent : ∀ κ k, mostRecent κ = some k ↔ k < n ∧ g.key fuel startIndex k = κ ∧
    ∀ j, k < j → j < n → g.key fuel startIndex j ≠ κ
  linked : Linked (g.key fuel startIndex) (g.time fuel startIndex) g.minTime.toNat g.maxTime.toNat n
    (fun i => (es.getD i default).previous.toNat) (fun i => (es.getD i default).next.toNat)

theorem filled_nil : Filled g fuel startIndex 0 [] fun _ => none where
  length := rfl
  drawn := by simp
  recent := by simp
  linked := ⟨by simp, by simp⟩

variable {n : Nat} {es : List Encounter} {mostRecent : Nat → Option Nat} {e : Encounter}

theorem recent_update {key : Nat → Nat} (h : ∀ κ k, mostRecent κ = some k ↔
      k < n ∧ key k = κ ∧ ∀ j, k < j → j < n → key j ≠ κ) (κ k : Nat) :
    Function.update mostRecent (key n) (some n) κ = some k ↔
      k < n + 1 ∧ key k = κ ∧ ∀ j, k < j → j < n + 1 → key j ≠ κ := by
  by_cases hκ : κ = key n
  · subst hκ
    rw [Function.update_self, Option.some.injEq]
    constructor
    · rintro rfl
      exact ⟨Nat.lt_succ_self n, rfl, fun j hj hj' => by omega⟩
    · rintro ⟨hk, -, hno⟩
      by_contra hne
      exact hno n (by omega) (Nat.lt_succ_self n) rfl
  · rw [Function.update_of_ne hκ, h]
    constructor
    · rintro ⟨hk, hkey, hno⟩
      refine ⟨by omega, hkey, fun j hj hj' => ?_⟩
      rcases Nat.lt_succ_iff_lt_or_eq.mp hj' with hlt | rfl
      · exact hno j hj hlt
      · exact Ne.symm hκ
    · rintro ⟨hk, hkey, hno⟩
      refine ⟨?_, hkey, fun j hj hj' => hno j hj (by omega)⟩
      rcases Nat.lt_succ_iff_lt_or_eq.mp hk with hlt | rfl
      · exact hlt
      · exact absurd hkey.symm hκ

theorem Filled.link (h : Filled g fuel startIndex n es mostRecent)
    (he : g.fillEncounter fuel (startIndex + BitVec.ofNat 64 n) = some e) :
    Filled g fuel startIndex (n + 1) (g.link es mostRecent e)
      (Function.update mostRecent (g.deviceKey e) (some es.length)) := by
  obtain ⟨rfl, hdrawn, hrecent, hlinked⟩ := h
  obtain ⟨hprevious, hnext, -⟩ := fillEncounter_links he
  have hnew : g.drawnEncounter fuel startIndex es.length = e := by rw [drawnEncounter, he]; rfl
  have hkey : g.deviceKey e = g.key fuel startIndex es.length := by rw [key, hnew]
  have hprev : ∀ i, IsPrevious (g.key fuel startIndex) es.length i ↔
      mostRecent (g.deviceKey e) = some i := fun i => by rw [hrecent, hkey]; rfl
  have htime : ∀ i < es.length, (es.getD i e).time.toNat = g.time fuel startIndex i := by
    intro i hi
    have hsame := congrArg Encounter.time (hdrawn i hi).1
    rw [List.getD_eq_getElem _ _ hi] at hsame ⊢
    rw [time, ← show _ = (g.drawnEncounter fuel startIndex i).time from hsame]
    rfl
  refine ⟨length_link .., fun i hi => ?_, hkey ▸ recent_update hrecent, ?_⟩
  · rcases Nat.lt_succ_iff_lt_or_eq.mp hi with hlt | rfl
    · rw [getD_link_of_lt hlt, ← (hdrawn i hlt).1]
      refine ⟨?_, (hdrawn i hlt).2⟩
      split_ifs <;> rfl
    · rw [getD_link_length, hnew]
      exact ⟨rfl, he⟩
  · refine hlinked.snoc (fun i hi => ?_) (fun i hi hlast => ?_) (fun i hi hlast => ?_) ?_ ?_
    · rw [getD_link_of_lt hi]
      split_ifs <;> rfl
    · rw [getD_link_of_lt hi, if_pos ((hprev i).mp hlast), time, hnew]
    · rw [getD_link_of_lt hi, if_neg (mt (hprev i).mpr hlast)]
    · rw [getD_link_length]
      cases hmost : mostRecent (g.deviceKey e) with
      | none =>
        refine .inr ⟨fun j hj hsame => ?_, by rw [hprevious]⟩
        obtain ⟨k, hk⟩ := exists_isPrevious hj hsame
        rw [hprev, hmost] at hk
        cases hk
      | some k => exact .inl ⟨k, (hprev k).mpr hmost, htime k ((hprev k).mpr hmost).1⟩
    · rw [getD_link_length, hnext]

theorem Filled.run {m : Nat} {out : List Encounter} (h : Filled g fuel startIndex n es mostRecent)
    (hrun : g.fillEncountersFrom fuel m (startIndex + BitVec.ofNat 64 n) es mostRecent = some out) :
    ∃ mostRecent', Filled g fuel startIndex (n + m) out mostRecent' := by
  induction m generalizing n es mostRecent with
  | zero =>
    obtain rfl : es = out := by simpa [fillEncountersFrom] using hrun
    exact ⟨mostRecent, h⟩
  | succ m ih =>
    simp only [fillEncountersFrom, Option.bind_eq_bind, Option.bind_eq_some_iff] at hrun
    obtain ⟨e, he, hrest⟩ := hrun
    have hindex : startIndex + BitVec.ofNat 64 n + 1 = startIndex + BitVec.ofNat 64 (n + 1) := by
      rw [BitVec.add_assoc, BitVec.ofNat_add]
      rfl
    rw [hindex] at hrest
    obtain ⟨mostRecent', hfilled⟩ := ih (h.link he) hrest
    exact ⟨mostRecent', by rwa [Nat.add_right_comm, Nat.add_assoc] at hfilled⟩

/-! ## When the links follow the time -/

theorem Filled.device (h : Filled g fuel startIndex n es mostRecent) {i : Nat} (hi : i < n) :
    (es.getD i default).device = (g.drawnEncounter fuel startIndex i).device := by
  have hsame := congrArg Encounter.device (h.drawn i hi).1
  exact hsame

theorem Filled.time_eq (h : Filled g fuel startIndex n es mostRecent) {i : Nat} (hi : i < n) :
    (es.getD i default).time.toNat = g.time fuel startIndex i := by
  have hsame := congrArg (fun e : Encounter => e.time.toNat) (h.drawn i hi).1
  exact hsame

theorem forall_mem_iff {P : Encounter → Prop} :
    (∀ e ∈ es, P e) ↔ ∀ i < es.length, P (es.getD i default) := by
  rw [List.forall_mem_iff_getElem]
  refine forall₂_congr fun i hi => ?_
  rw [List.getD_eq_getElem _ _ hi]

theorem exists_mem_iff {P : Encounter → Prop} :
    (∃ e ∈ es, P e) ↔ ∃ i < es.length, P (es.getD i default) := by
  simpa using (forall_mem_iff : (∀ e ∈ es, ¬ P e) ↔ _).not

/-- The times of a device in the array are those of its places. -/
theorem Filled.times_eq (h : Filled g fuel startIndex n es mostRecent) {i : Nat} (hi : i < n)
    (r : Nat → Nat → Prop) :
    {t | ∃ e ∈ es, e.device = (es.getD i default).device ∧
      r e.time.toNat (es.getD i default).time.toNat ∧ e.time.toNat = t} =
      {t | ∃ j < n, (g.drawnEncounter fuel startIndex j).device =
        (g.drawnEncounter fuel startIndex i).device ∧
          r (g.time fuel startIndex j) (g.time fuel startIndex i) ∧
            g.time fuel startIndex j = t} := by
  ext t
  rw [Set.mem_ofPred_eq, exists_mem_iff, h.length]
  refine exists_congr fun j => and_congr_right fun hj => ?_
  rw [h.device hi, h.device hj, h.time_eq hi, h.time_eq hj]

theorem Filled.forall_time_iff (h : Filled g fuel startIndex n es mostRecent) {i : Nat} (hi : i < n)
    (r : Nat → Nat → Prop) :
    (∀ e ∈ es, e.device = (es.getD i default).device →
      r e.time.toNat (es.getD i default).time.toNat) ↔
      ∀ j < n, (g.drawnEncounter fuel startIndex j).device =
        (g.drawnEncounter fuel startIndex i).device →
          r (g.time fuel startIndex j) (g.time fuel startIndex i) := by
  rw [forall_mem_iff, h.length]
  refine forall₂_congr fun j hj => ?_
  rw [h.device hi, h.device hj, h.time_eq hi, h.time_eq hj]

theorem Filled.linksFollowTime_iff_followsTime (h : Filled g fuel startIndex n es mostRecent) :
    g.LinksFollowTime es ↔ FollowsTime (fun i => (g.drawnEncounter fuel startIndex i).device)
      (g.time fuel startIndex) g.minTime.toNat g.maxTime.toNat n
      (fun i => (es.getD i default).previous.toNat) (fun i => (es.getD i default).next.toNat) := by
  rw [followsTime_iff_forall, LinksFollowTime, forall_mem_iff, h.length]
  refine forall₂_congr fun i hi => and_congr (or_congr ?_ ?_) (or_congr ?_ ?_)
  · exact iff_of_eq (congrArg (IsGreatest · _) (h.times_eq hi (· < ·)))
  · exact and_congr (h.forall_time_iff hi (fun s t => t ≤ s)) BitVec.toNat_inj.symm
  · exact iff_of_eq (congrArg (IsLeast · _) (h.times_eq hi (fun s t => t < s)))
  · exact and_congr (h.forall_time_iff hi (· ≤ ·)) BitVec.toNat_inj.symm

/-- The links follow the time just if the encounters are drawn in its order, with one device for a
key. -/
theorem linksFollowTime_iff {count : Nat}
    (h : g.fillEncounters fuel count startIndex = some es) :
    g.LinksFollowTime es ↔ g.DrawnInOrder fuel startIndex count := by
  obtain ⟨mostRecent, hfilled⟩ : ∃ mostRecent, Filled g fuel startIndex (0 + count) es mostRecent :=
    filled_nil.run (by rw [BitVec.add_zero]; exact h)
  rw [Nat.zero_add] at hfilled
  rw [hfilled.linksFollowTime_iff_followsTime, hfilled.linked.followsTime_iff
    (fun i j hdevice => deviceKey_congr hdevice) fun i hi heq => ?_]
  · rfl
  · exact (fillEncounter_links (hfilled.drawn i hi).2).2.2 (BitVec.eq_of_toNat_eq heq)

/-! ## Two encounters of one device -/

/-- There is one device to report encounters, and it draws the time 9 and then the time 3. -/
def laterFirst : Generator where
  sha256 := fun input => if input = [7, 0, 0] then 9 else if input = [7, 1, 0] then 3
    else BitVec.allOnes 256
  uint256 := BitVec.toNat
  reciprocationPercent := 0
  numReportingDevices := 1
  numTotalDevices := 2
  minTime := 0
  maxTime := 10
  minDuration := 0
  maxDuration := 5
  minLatitude := 0
  maxLatitude := 5
  minLongitude := 0
  maxLongitude := 5
  nonce := 0

def laterFirstEncounters : List Encounter := (laterFirst.fillEncounters 1 2 0).getD []

theorem laterFirst_filled : laterFirst.fillEncounters 1 2 0 = some laterFirstEncounters := by decide

/-- The times of every device are distinct. -/
def DistinctTimes (es : List Encounter) : Prop :=
  es.Pairwise fun e e' => e.device = e'.device → e.time ≠ e'.time

/-- The encounter at the time 9 has the time 3 for the next one, where it should have the end
mark. -/
theorem laterFirst_notInOrder :
    laterFirst.fillEncounters 1 2 0 = some laterFirstEncounters ∧
      DistinctTimes laterFirstEncounters ∧ ¬ laterFirst.LinksFollowTime laterFirstEncounters := by
  refine ⟨laterFirst_filled, by unfold DistinctTimes; decide, fun h => ?_⟩
  obtain ⟨e, he, htime, hnext⟩ : ∃ e ∈ laterFirstEncounters, e.time = 9 ∧ e.next = 3 := by decide
  rcases (h e he).2 with ⟨⟨e', -, -, hlt, hsame⟩, -⟩ | ⟨-, hend⟩
  · rw [BitVec.lt_def, hsame, htime, hnext] at hlt
    revert hlt
    decide
  · rw [hnext] at hend
    revert hend
    decide

theorem laterFirst_iff : laterFirst.LinksFollowTime laterFirstEncounters ↔
    laterFirst.DrawnInOrder 1 0 2 :=
  linksFollowTime_iff laterFirst_filled

end Generator

end CoVault.Encounters
