import CoVault.PathQuery.Contact

/-!
# The contact query on histories cut in different ways

The flag of a device is cleared at the start of every shuffle, so a device is counted again
in every further shuffle that holds one of its contacts. Two ways of cutting the same
histories give the same count only where they spread the contacts over equally many shuffles.
-/

namespace CoVault.PathQuery.ContactCall

open Circuit Encounters

/-- The same question about histories that are cut in another way. -/
def recut (q : ContactCall) (shuffles : List ShuffleCall) (perDevice : Nat) : ContactCall :=
  { q with shuffles := shuffles, encountersPerDevicePerShuffle := perDevice }

/-- Two ways of cutting the same histories into shuffles give the same count if and only if something
is fetched with either, and they spread the contacts of the walked devices over equally many
shuffles, up to a multiple of `2 ^ 32`. -/
theorem contact_recut_iff {q : ContactCall} {shuffles : List ShuffleCall} {perDevice : Nat}
    {fetch fetch' : Fetch} {tracks : List Track} (h : q.Covers fetch tracks)
    (h' : (q.recut shuffles perDevice).Covers fetch' tracks) :
    (∃ count, q.contact fetch = some count ∧
        (q.recut shuffles perDevice).contact fetch' = some count) ↔
      (q.walkLength ≠ 0 ∧ (q.recut shuffles perDevice).walkLength ≠ 0) ∧
        q.spread tracks ≡ (q.recut shuffles perDevice).spread tracks [MOD 2 ^ 32] := by
  rw [h.contact_eq, h'.contact_eq, Nat.ModEq, ← BitVec.toNat_ofNat, ← BitVec.toNat_ofNat,
    BitVec.toNat_inj]
  constructor
  · rintro ⟨count, hcount, hcount'⟩
    obtain ⟨hlength, hcount⟩ := Option.ite_none_left_eq_some.mp hcount
    obtain ⟨hlength', hcount'⟩ := Option.ite_none_left_eq_some.mp hcount'
    exact ⟨⟨hlength, hlength'⟩, Option.some.inj (hcount.trans hcount'.symm)⟩
  · rintro ⟨⟨hlength, hlength'⟩, heq⟩
    exact ⟨_, if_neg hlength, by rw [if_neg hlength', heq]⟩

/-! ## Two encounters -/

/-- Device `1` meets device `2` at some time. -/
def meets (time previous : BitVec 32) : Encounter :=
  { id := 0, device := 1, encountered := 2, latitude := 0, longitude := 0, tile := 0, time := time
    previous := previous, next := 0, duration := 7, confirmed := 1, reciprocated := true }

/-- Device `1` with encounters at times `40` and `20`. -/
def twice : Track := ⟨⟨1, 40⟩, [meets 40 20, meets 20 5], 5⟩

/-- All history in one shuffle. -/
def whole : List ShuffleCall := [⟨0, 10, 0⟩]

/-- The same history in two. -/
def halves : List ShuffleCall := [⟨1, 30, 0⟩, ⟨0, 10, 0⟩]

/-- Device `1` against the devices `2` and `3` from some time on. -/
def metSince (startTime : BitVec 32) : ContactCall where
  startTime := startTime
  endTime := 50
  minimumDuration := 3
  devices
    | .source => [⟨1, 40⟩]
    | .sink => [⟨2, 5⟩, ⟨3, 5⟩]
  shuffles := whole
  encountersPerDevicePerShuffle := 2
  filterType := ⟨8, 1, fun _ => 4⟩

def fetchMeets : Fetch := fun _ _ time _ fetchDummy =>
  some (if fetchDummy then ⟨0, 0, 0, 0⟩ else recordOf (meets time (if time = 40 then 20 else 5)))

theorem metSince_covers (startTime : BitVec 32) (hsmall : Small startTime)
    {shuffles : List ShuffleCall} (hshuffles : shuffles = whole ∨ shuffles = halves) :
    ((metSince startTime).recut shuffles 2).Covers fetchMeets [twice] where
  devices := rfl
  stored := by
    simp only [List.mem_singleton, forall_eq]
    exact
      { linked := ⟨rfl, rfl, rfl⟩
        decreasing := by simp [twice, meets]
        small := by simp [twice, meets, Circuit.Small]
        started := by
          rcases hshuffles with rfl | rfl <;> simp [recut, whole, halves, twice, Circuit.Small]
        covered := by
          rcases hshuffles with rfl | rfl <;>
            simp [recut, whole, halves, twice, Track.within, meets]
        fetched := fun _ _ _ _ e he _ _ _ => by
          simp only [twice, List.mem_cons, List.not_mem_nil, or_false] at he
          rcases he with rfl | rfl <;> simp [fetchMeets, meets]
        dummies := by simp [fetchMeets]
        few := fun _ _ _ _ => Nat.le_trans List.countP_le_length (by simp [recut, twice]) }
  window := ⟨hsmall, by simp [recut, metSince, Circuit.Small]⟩
  exact := by
    have hexact : ∀ e ∈ twice.events,
        (metSince 0).filter.contains e.encountered =
          decide (e.encountered ∈ (metSince 0).filterIds) := by decide +kernel
    simp only [List.mem_singleton, forall_eq]
    exact hexact

/-- Since time `30` there is one contact, whatever the shuffles. -/
theorem latest_counted_once : ∃ count, (metSince 30).contact fetchMeets = some count ∧
    ((metSince 30).recut halves 2).contact fetchMeets = some count :=
  (contact_recut_iff (metSince_covers 30 (by decide) (.inl rfl))
    (metSince_covers 30 (by decide) (.inr rfl))).mpr (by decide +kernel)

/-- Since time `10` there are two, and the device counts once in one shuffle but twice in two. -/
theorem halves_count_twice :
    (metSince 10).Covers fetchMeets [twice] ∧
    ((metSince 10).recut halves 2).Covers fetchMeets [twice] ∧
    (metSince 10).contact fetchMeets = some 1 ∧
    ((metSince 10).recut halves 2).contact fetchMeets = some 2 :=
  ⟨metSince_covers 10 (by decide) (.inl rfl), metSince_covers 10 (by decide) (.inr rfl),
    by decide +kernel, by decide +kernel⟩

end CoVault.PathQuery.ContactCall
