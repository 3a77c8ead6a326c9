import CoVault.Library.Cells
import CoVault.PathStore.Fetch

/-!
# Looking up a sorted shuffle

In an array in ascending order the first cell and the binary search over the others find a key
if and only if it is there.
-/

namespace CoVault.PathStore

open Library

variable {store : ShuffleStore} {shuffle : BitVec 64} {count : Nat}
  {cells : Nat → StorablePathEncounter} {key : BitVec 256}

/-- A key that is present in an ascending array is found. -/
theorem fetchStoredPathEncounter_found (hstore : store shuffle = some ⟨count, cells⟩)
    (hasc : ∀ i j, i ≤ j → j < count → rank (cells i).key ≤ rank (cells j).key) {g : Nat}
    (hg : g < count) (hkey : (cells g).key = key) (encrypted : BitVec 512) :
    ∃ g, g < count ∧ (cells g).key = key ∧
      fetchStoredPathEncounter store ⟨key, encrypted⟩ shuffle =
        (true, ⟨key, (cells g).encrypted⟩) := by
  unfold fetchStoredPathEncounter
  rw [hstore]
  simp only
  by_cases h0 : (cells 0).key = key
  · exact ⟨0, by omega, h0, by rw [if_pos ⟨by omega, (compareHashEq_iff ..).mpr h0⟩]⟩
  · rw [if_neg fun h => h0 ((compareHashEq_iff ..).mp h.2)]
    have hpos : 0 < g := Nat.pos_of_ne_zero fun h => h0 (h ▸ hkey)
    obtain ⟨i, hi⟩ := BinarySearch.exists_search (f := fun i => rank (cells i).key)
      (r := rank key) (fun i => (compareHashEq_iff ..).trans rank_injective.eq_iff.symm)
      (fun i => compareHash_iff (cells i).key key) hasc hpos hg (congrArg rank hkey)
    obtain ⟨hhit, _, hlt⟩ := BinarySearch.search_eq_some hi
    exact ⟨i, hlt, (compareHashEq_iff ..).mp hhit, by rw [search, hi]; rfl⟩

/-- A key that is absent is not found. -/
theorem fetchStoredPathEncounter_missing (hstore : store shuffle = some ⟨count, cells⟩)
    (habsent : ∀ g, g < count → (cells g).key ≠ key) (encrypted : BitVec 512) :
    fetchStoredPathEncounter store ⟨key, encrypted⟩ shuffle = (false, ⟨key, encrypted⟩) := by
  unfold fetchStoredPathEncounter
  rw [hstore]
  simp only
  rw [if_neg fun h => habsent 0 h.1 ((compareHashEq_iff ..).mp h.2), search]
  cases hs : BinarySearch.search (fun guess => compareHashEq (cells guess).key key)
      (fun guess => compareHash (cells guess).key key) 0 count with
  | none => rfl
  | some i =>
    obtain ⟨hhit, _, hlt⟩ := BinarySearch.search_eq_some hs
    exact absurd ((compareHashEq_iff ..).mp hhit) (habsent i hlt)

/-- The array is in ascending order by `compareHash`, and no key is there twice. -/
structure Shuffle.Sorted (p : Shuffle) : Prop where
  ascending : ∀ i j, i < j → j < p.count → compareHash (p.cells i).key (p.cells j).key = false
  distinct : ∀ i j, i < j → j < p.count → (p.cells i).key ≠ (p.cells j).key

theorem Shuffle.Sorted.rank_le {p : Shuffle} (h : p.Sorted) {i j : Nat} (hij : i ≤ j)
    (hj : j < p.count) : rank (p.cells i).key ≤ rank (p.cells j).key := by
  rcases Nat.eq_or_lt_of_le hij with rfl | hlt
  · exact le_rfl
  · exact (compareHash_eq_false ..).mp (h.ascending i j hlt hj)

theorem Shuffle.Sorted.index_inj {p : Shuffle} (h : p.Sorted) {i j : Nat} (hi : i < p.count)
    (hj : j < p.count) (hkey : (p.cells i).key = (p.cells j).key) : i = j := by
  rcases Nat.lt_trichotomy i j with hlt | heq | hgt
  · exact absurd hkey (h.distinct i j hlt hj)
  · exact heq
  · exact absurd hkey.symm (h.distinct j i hgt hi)

/-- A fetch says whether the key is in the shuffle. If it is, the fetch hands out the bytes stored
with it, and otherwise what it was given. -/
theorem fetchStoredPathEncounter_spec (store : ShuffleStore) (shuffle : BitVec 64)
    (encounter : StorablePathEncounter) (hsorted : ∀ p, store shuffle = some p → p.Sorted) :
    ((fetchStoredPathEncounter store encounter shuffle).1 = true ↔
      ∃ p, store shuffle = some p ∧ ∃ g < p.count, (p.cells g).key = encounter.key) ∧
    (∀ p, store shuffle = some p → ∀ g < p.count, (p.cells g).key = encounter.key →
      (fetchStoredPathEncounter store encounter shuffle).2 =
        { encounter with encrypted := (p.cells g).encrypted }) ∧
    ((fetchStoredPathEncounter store encounter shuffle).1 = false →
      (fetchStoredPathEncounter store encounter shuffle).2 = encounter) := by
  cases hstore : store shuffle with
  | none => simp [fetchStoredPathEncounter, hstore]
  | some p =>
    by_cases hmem : ∃ g < p.count, (p.cells g).key = encounter.key
    · obtain ⟨g, hg, hkey⟩ := hmem
      obtain ⟨i, hi, hkey', hfetch⟩ := fetchStoredPathEncounter_found hstore
        (fun i j => (hsorted p hstore).rank_le) hg hkey encounter.encrypted
      rw [hfetch]
      refine ⟨iff_of_true rfl ⟨p, rfl, g, hg, hkey⟩, fun p' hp' g' hg' hkey'' => ?_, fun h => ?_⟩
      · obtain rfl := Option.some.inj hp'
        rw [(hsorted p hstore).index_inj hi hg' (hkey'.trans hkey''.symm)]
      · cases h
    · have hfetch := fetchStoredPathEncounter_missing hstore (fun g hg hkey => hmem ⟨g, hg, hkey⟩)
        encounter.encrypted
      rw [hfetch]
      refine ⟨iff_of_false Bool.false_ne_true ?_, fun p' hp' g hg hkey => ?_, fun _ => rfl⟩
      · rintro ⟨p', hp', g, hg, hkey⟩
        obtain rfl := Option.some.inj hp'
        exact hmem ⟨g, hg, hkey⟩
      · obtain rfl := Option.some.inj hp'
        exact absurd ⟨g, hg, hkey⟩ hmem

/-- A shuffle of two records, and the key of the second one. -/
theorem fetchStoredPathEncounter_two :
    let store : ShuffleStore := fun _ => some ⟨2, Cells.ofList [⟨1, 5⟩, ⟨4, 7⟩] ⟨0, 0⟩⟩
    ((fetchStoredPathEncounter store ⟨4, 0⟩ 3).1 = true ↔
      ∃ p, store 3 = some p ∧ ∃ g < p.count, (p.cells g).key = 4) ∧
    (∀ p, store 3 = some p → ∀ g < p.count, (p.cells g).key = 4 →
      (fetchStoredPathEncounter store ⟨4, 0⟩ 3).2 = ⟨4, (p.cells g).encrypted⟩) ∧
    ((fetchStoredPathEncounter store ⟨4, 0⟩ 3).1 = false →
      (fetchStoredPathEncounter store ⟨4, 0⟩ 3).2 = ⟨4, 0⟩) := by
  refine fetchStoredPathEncounter_spec _ 3 ⟨4, 0⟩ fun p hp => ?_
  obtain rfl := Option.some.inj hp
  refine ⟨fun i j hij hj => ?_, fun i j hij hj => ?_⟩
  all_goals
    obtain rfl : j = 1 := by simp only at hj; omega
    obtain rfl : i = 0 := by omega
    decide +kernel

end CoVault.PathStore
