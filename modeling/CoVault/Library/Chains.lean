import Mathlib

/-!
# Chains of entries

Entries come one after the other, each with a key and a time. Every entry is linked with its
neighbours of the same key: it holds the time of the last one before it and of the first one after
it, or an end mark. Where the entries are of devices, and the key is made of the device, these
links are in the order of time just if no two devices have one key and the times of a key go up.
-/

namespace CoVault.Library.Chains

variable {κ δ T : Type*}

/-- `j` is the last place before `i` with the same key. -/
def IsPrevious (key : Nat → κ) (i j : Nat) : Prop :=
  j < i ∧ key j = key i ∧ ∀ k, j < k → k < i → key k ≠ key i

/-- `j` is the first place after `i` with the same key, of `n` places. -/
def IsNext (key : Nat → κ) (n i j : Nat) : Prop :=
  i < j ∧ j < n ∧ key j = key i ∧ ∀ k, i < k → k < j → key k ≠ key i

/-- All entries hold the times of their neighbours, or an end mark. -/
structure Linked (key : Nat → κ) (time : Nat → T) (first last : T) (n : Nat)
    (previous next : Nat → T) : Prop where
  previous : ∀ i < n, (∃ j, IsPrevious key i j ∧ previous i = time j) ∨
    (∀ j < i, key j ≠ key i) ∧ previous i = first
  next : ∀ i < n, (∃ j, IsNext key n i j ∧ next i = time j) ∨
    (∀ j, i < j → j < n → key j ≠ key i) ∧ next i = last

/-- All entries of a device hold the times next to theirs, or an end mark. -/
structure FollowsTime [LinearOrder T] (device : Nat → δ) (time : Nat → T) (first last : T)
    (n : Nat) (previous next : Nat → T) : Prop where
  previous : ∀ i < n,
    IsGreatest {t | ∃ j < n, device j = device i ∧ time j < time i ∧ time j = t} (previous i) ∨
      (∀ j < n, device j = device i → time i ≤ time j) ∧ previous i = first
  next : ∀ i < n,
    IsLeast {t | ∃ j < n, device j = device i ∧ time i < time j ∧ time j = t} (next i) ∨
      (∀ j < n, device j = device i → time j ≤ time i) ∧ next i = last

theorem followsTime_iff_forall [LinearOrder T] {device : Nat → δ} {time : Nat → T} {first last : T}
    {n : Nat} {previous next : Nat → T} :
    FollowsTime device time first last n previous next ↔ ∀ i < n,
      (IsGreatest {t | ∃ j < n, device j = device i ∧ time j < time i ∧ time j = t} (previous i) ∨
        (∀ j < n, device j = device i → time i ≤ time j) ∧ previous i = first) ∧
      (IsLeast {t | ∃ j < n, device j = device i ∧ time i < time j ∧ time j = t} (next i) ∨
        (∀ j < n, device j = device i → time j ≤ time i) ∧ next i = last) :=
  ⟨fun h i hi => ⟨h.previous i hi, h.next i hi⟩,
    fun h => ⟨fun i hi => (h i hi).1, fun i hi => (h i hi).2⟩⟩

section Neighbours

variable {key : Nat → κ} {time : Nat → T} {first last : T} {n i j : Nat}
  {previous next previous' next' : Nat → T}

theorem IsNext.unique {j' : Nat} (h : IsNext key n i j) (h' : IsNext key n i j') : j = j' := by
  obtain ⟨hlt, hn, hkey, hno⟩ := h
  obtain ⟨hlt', hn', hkey', hno'⟩ := h'
  rcases Nat.lt_trichotomy j j' with hj | hj | hj
  · exact absurd hkey (hno' j hlt hj)
  · exact hj
  · exact absurd hkey' (hno j' hlt' hj)

theorem exists_isNext (hij : i < j) (hj : j < n) (hkey : key j = key i) :
    ∃ k, IsNext key n i k ∧ k ≤ j := by
  classical
  have hex : ∃ k, i < k ∧ key k = key i := ⟨j, hij, hkey⟩
  obtain ⟨hlt, hsame⟩ := Nat.find_spec hex
  have hle : Nat.find hex ≤ j := Nat.find_min' hex ⟨hij, hkey⟩
  exact ⟨Nat.find hex, ⟨hlt, hle.trans_lt hj, hsame, fun k hik hk heq =>
    Nat.find_min hex hk ⟨hik, heq⟩⟩, hle⟩

theorem exists_isPrevious (hji : j < i) (hkey : key j = key i) : ∃ k, IsPrevious key i k := by
  classical
  have hj : j ∈ (Finset.range i).filter (key · = key i) := by simpa using ⟨hji, hkey⟩
  obtain ⟨k, hk, hmax⟩ := Finset.exists_max_image _ id ⟨j, hj⟩
  rw [Finset.mem_filter, Finset.mem_range] at hk
  refine ⟨k, hk.1, hk.2, fun l hkl hli heq => ?_⟩
  exact absurd (hmax l (by simpa using ⟨hli, heq⟩)) (Nat.not_le.mpr hkl)

/-- A new entry is linked with the last one before it of its key. -/
theorem Linked.snoc (h : Linked key time first last n previous next)
    (hprevious : ∀ i < n, previous' i = previous i)
    (hnext : ∀ i < n, IsPrevious key n i → next' i = time n)
    (hnext' : ∀ i < n, ¬ IsPrevious key n i → next' i = next i)
    (hnew : (∃ j, IsPrevious key n j ∧ previous' n = time j) ∨
      (∀ j < n, key j ≠ key n) ∧ previous' n = first)
    (hlast : next' n = last) : Linked key time first last (n + 1) previous' next' where
  previous i hi := by
    rcases Nat.lt_succ_iff_lt_or_eq.mp hi with hlt | rfl
    · rw [hprevious i hlt]
      exact h.previous i hlt
    · exact hnew
  next i hi := by
    rcases Nat.lt_succ_iff_lt_or_eq.mp hi with hlt | rfl
    · by_cases hend : IsPrevious key n i
      · -- the new entry is the first after `i`
        obtain ⟨-, hkey, hno⟩ := hend
        exact .inl ⟨n, ⟨hlt, Nat.lt_succ_self n, hkey.symm, fun k hik hkn => hkey ▸ hno k hik hkn⟩,
          hnext i hlt ⟨hlt, hkey, hno⟩⟩
      · rw [hnext' i hlt hend]
        rcases h.next i hlt with ⟨j, ⟨hij, hj, hkey, hno⟩, htime⟩ | ⟨hno, htime⟩
        · exact .inl ⟨j, ⟨hij, hj.trans (Nat.lt_succ_self n), hkey, hno⟩, htime⟩
        · refine .inr ⟨fun j hij hj => ?_, htime⟩
          rcases Nat.lt_succ_iff_lt_or_eq.mp hj with hjn | rfl
          · exact hno j hij hjn
          · exact fun hkey => hend ⟨hlt, hkey.symm, fun k hik hkj => hkey ▸ hno k hik hkj⟩
    · exact .inr ⟨fun j hij hj => by omega, hlast⟩

end Neighbours

section Order

variable [LinearOrder T] {key : Nat → κ} {device : Nat → δ} {time : Nat → T} {first last : T}
  {n : Nat} {previous next : Nat → T}

/-- Where the links are in the order of time, the neighbour behind an entry is later, and so is an
entry of the same device. -/
theorem Linked.lt_of_isNext (h : Linked key time first last n previous next)
    (htime : FollowsTime device time first last n previous next) (hlast : ∀ i < n, time i ≠ last)
    {i j : Nat} (hnext : IsNext key n i j) :
    time i < time j ∧ ∃ k < n, device k = device i ∧ time i < time k := by
  have hi : i < n := hnext.1.trans hnext.2.1
  have heq : next i = time j := by
    rcases h.next i hi with ⟨k, hk, htime⟩ | ⟨hno, -⟩
    · rw [htime, hk.unique hnext]
    · exact absurd hnext.2.2.1 (hno j hnext.1 hnext.2.1)
  rcases htime.next i hi with ⟨⟨k, hk, hdevice, hlt, hsame⟩, -⟩ | ⟨-, hend⟩
  · exact ⟨by rwa [← heq, ← hsame], k, hk, hdevice, hlt⟩
  · exact absurd (heq.symm.trans hend) (hlast j hnext.2.1)

/-- Every device has a latest entry. -/
theorem exists_latest (device : Nat → δ) (time : Nat → T) {n i : Nat} (hi : i < n) :
    ∃ m < n, device m = device i ∧ ∀ j < n, device j = device i → time j ≤ time m := by
  classical
  obtain ⟨m, hm, hmax⟩ := ((Finset.range n).filter (device · = device i)).exists_max_image time
    ⟨i, by simpa using hi⟩
  rw [Finset.mem_filter, Finset.mem_range] at hm
  exact ⟨m, hm.1, hm.2, fun j hj hdevice => hmax j (by simp [hj, hdevice])⟩

/-- Neighbours whose times go up make a chain whose times go up. -/
theorem lt_of_neighbours (h : ∀ i j, IsNext key n i j → time i < time j) {i j : Nat} (hij : i < j)
    (hj : j < n) (hkey : key j = key i) : time i < time j := by
  obtain ⟨k, hk, hle⟩ := exists_isNext hij hj hkey
  rcases hle.lt_or_eq with hlt | rfl
  · have hlater := lt_of_neighbours h hlt hj (hkey.trans hk.2.2.1.symm)
    exact (h i k hk).trans hlater
  · exact h i k hk
termination_by j - i
decreasing_by
  have := hk.1
  omega

/-- Where the links are in the order of time, the latest entry of a device is the last of its
key. -/
theorem Linked.le_of_latest (h : Linked key time first last n previous next)
    (htime : FollowsTime device time first last n previous next) (hlast : ∀ i < n, time i ≠ last)
    {m k : Nat} (hmax : ∀ l < n, device l = device m → time l ≤ time m) (hk : k < n)
    (hsame : key k = key m) : k ≤ m := by
  by_contra hlt
  obtain ⟨k', hk', -⟩ := exists_isNext (Nat.not_le.mp hlt) hk hsame
  obtain ⟨l, hl, hdevice, hlater⟩ := (h.lt_of_isNext htime hlast hk').2
  exact absurd (hmax l hl hdevice) (not_le.mpr hlater)

theorem Linked.device_eq (h : Linked key time first last n previous next)
    (htime : FollowsTime device time first last n previous next)
    (hkey : ∀ i j, device i = device j → key i = key j) (hlast : ∀ i < n, time i ≠ last)
    {i j : Nat} (hi : i < n) (hj : j < n) (hsame : key i = key j) : device i = device j := by
  obtain ⟨m, hm, hdevice, hmax⟩ := exists_latest device time hi
  obtain ⟨m', hm', hdevice', hmax'⟩ := exists_latest device time hj
  have hkeys : key m = key m' := by rw [hkey m i hdevice, hkey m' j hdevice', hsame]
  -- both latest entries are the last of the one key
  have hle : m ≤ m' :=
    h.le_of_latest htime hlast (fun l hl hd => hmax' l hl (hd.trans hdevice')) hm hkeys
  have hge : m' ≤ m :=
    h.le_of_latest htime hlast (fun l hl hd => hmax l hl (hd.trans hdevice)) hm' hkeys.symm
  rw [← hdevice, le_antisymm hle hge, hdevice']

/-- Where the times of a device go up, its entries are in the order of time. -/
theorem lt_iff_time_lt (hup : ∀ i j, i < j → j < n → device i = device j → time i < time j)
    {i k : Nat} (hi : i < n) (hk : k < n) (hdevice : device k = device i) :
    k < i ↔ time k < time i := by
  rcases Nat.lt_trichotomy k i with hlt | rfl | hlt
  · exact iff_of_true hlt (hup k i hlt hi hdevice)
  · simp
  · exact iff_of_false hlt.not_gt (hup i k hlt hk hdevice.symm).not_gt

theorem Linked.followsTime (h : Linked key time first last n previous next)
    (hkey : ∀ i j, device i = device j → key i = key j)
    (hup : ∀ i j, i < j → j < n → key i = key j → device i = device j ∧ time i < time j) :
    FollowsTime device time first last n previous next := by
  have hbefore : ∀ {i k}, i < n → k < n → device k = device i → (k < i ↔ time k < time i) :=
    fun hi hk hdevice =>
      lt_iff_time_lt (fun i j hij hj hd => (hup i j hij hj (hkey i j hd)).2) hi hk hdevice
  refine ⟨fun i hi => ?_, fun i hi => ?_⟩
  · rcases h.previous i hi with ⟨j, ⟨hlt, hsame, hno⟩, heq⟩ | ⟨hno, heq⟩
    · obtain ⟨hdevice, htime⟩ := hup j i hlt hi hsame
      refine .inl ⟨⟨j, hlt.trans hi, hdevice, htime, heq.symm⟩, ?_⟩
      rintro _ ⟨k, hk, hdevice', hlt', rfl⟩
      have hki := (hbefore hi hk hdevice').mpr hlt'
      rw [heq]
      by_contra hgt
      have hjk := (hbefore hk (hlt.trans hi) (hdevice.trans hdevice'.symm)).mpr (not_le.mp hgt)
      exact hno k hjk hki (hkey k i hdevice')
    · refine .inr ⟨fun j hj hdevice => ?_, heq⟩
      by_contra hlt
      exact hno j ((hbefore hi hj hdevice).mpr (not_le.mp hlt)) (hkey j i hdevice)
  · rcases h.next i hi with ⟨j, ⟨hlt, hj, hsame, hno⟩, heq⟩ | ⟨hno, heq⟩
    · obtain ⟨hdevice, htime⟩ := hup i j hlt hj hsame.symm
      refine .inl ⟨⟨j, hj, hdevice.symm, htime, heq.symm⟩, ?_⟩
      rintro _ ⟨k, hk, hdevice', hlt', rfl⟩
      have hik := (hbefore hk hi hdevice'.symm).mpr hlt'
      rw [heq]
      by_contra hgt
      have hkj := (hbefore hj hk (hdevice'.trans hdevice)).mpr (not_le.mp hgt)
      exact hno k hik hkj (hkey k i hdevice')
    · refine .inr ⟨fun j hj hdevice => ?_, heq⟩
      by_contra hlt
      exact hno j ((hbefore hj hi hdevice.symm).mpr (not_le.mp hlt)) hj (hkey j i hdevice)

/-- The links follow the time just if every key is that of one device and its times go up. -/
theorem Linked.followsTime_iff (h : Linked key time first last n previous next)
    (hkey : ∀ i j, device i = device j → key i = key j) (hlast : ∀ i < n, time i ≠ last) :
    FollowsTime device time first last n previous next ↔
      ∀ i j, i < j → j < n → key i = key j → device i = device j ∧ time i < time j := by
  refine ⟨fun htime i j hij hj hsame => ?_, h.followsTime hkey⟩
  have hnext : ∀ i j, IsNext key n i j → time i < time j :=
    fun i j hn => (h.lt_of_isNext htime hlast hn).1
  exact ⟨h.device_eq htime hkey hlast (hij.trans hj) hj hsame,
    lt_of_neighbours hnext hij hj hsame.symm⟩

end Order

end CoVault.Library.Chains
