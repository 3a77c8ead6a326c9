import Mathlib

/-!
# Binary search

The search looks for an index strictly between its bounds. What it finds is a hit; over
an ascending row it finds a hit whenever there is one.
-/

namespace CoVault.Library.BinarySearch

/-- Halve the range between `min` and `max` until a guess hits or no guess is left. -/
def search (hit above : Nat → Bool) (min max : Nat) : Option Nat :=
  if min + 1 < max then
    let guess := min + (max - min) / 2
    if hit guess then some guess
    else if above guess then search hit above min guess
    else search hit above guess max
  else none
termination_by max - min

variable {hit above : Nat → Bool}

theorem search_eq_some {min max g : Nat} (h : search hit above min max = some g) :
    hit g = true ∧ min < g ∧ g < max := by
  induction min, max using search.induct hit above with
  | case1 min max hlt guess hhit =>
    rw [search] at h
    have hg : g = guess := by simpa [hlt, guess, hhit, eq_comm] using h
    exact ⟨hg ▸ hhit, by omega, by omega⟩
  | case2 min max hlt guess hmiss habove ih =>
    rw [search] at h
    simp only [hlt, if_true, guess, hmiss, habove, Bool.false_eq_true, if_false] at h
    obtain ⟨hg, h1, h2⟩ := ih h
    exact ⟨hg, h1, by omega⟩
  | case3 min max hlt guess hmiss hbelow ih =>
    rw [search] at h
    simp only [hlt, if_true, guess, hmiss, hbelow, Bool.false_eq_true, if_false] at h
    obtain ⟨hg, h1, h2⟩ := ih h
    exact ⟨hg, by omega, h2⟩
  | case4 min max hge =>
    rw [search] at h
    simp [hge] at h

/-- Over an ascending row the search does not miss. -/
theorem exists_search {β : Type*} [LinearOrder β] {f : Nat → β} {r : β}
    (hhit : ∀ i, hit i = true ↔ f i = r) (habove : ∀ i, above i = true ↔ r < f i) {min max : Nat}
    (hasc : ∀ i j, i ≤ j → j < max → f i ≤ f j) {t : Nat} (hmin : min < t) (hmax : t < max)
    (ht : f t = r) : ∃ g, search hit above min max = some g := by
  induction min, max using search.induct hit above with
  | case1 min max hlt guess hg =>
    rw [search]
    exact ⟨guess, by simp [hlt, guess, hg]⟩
  | case2 min max hlt guess hmiss hab ih =>
    rw [search]
    simp only [hlt, if_true, guess, hmiss, hab, Bool.false_eq_true, if_false]
    refine ih (fun i j hij hj => hasc i j hij (by omega)) hmin ?_
    -- what lies from the guess on is greater than the target
    by_contra hge
    have hle := hasc guess t (by omega) hmax
    rw [ht] at hle
    exact absurd ((habove guess).mp hab) (not_lt.mpr hle)
  | case3 min max hlt guess hmiss hbelow ih =>
    rw [search]
    simp only [hlt, if_true, guess, hmiss, hbelow, Bool.false_eq_true, if_false]
    refine ih hasc ?_ hmax
    by_contra hge
    have hle := hasc t guess (by omega) (by omega)
    rw [ht] at hle
    rcases lt_or_eq_of_le hle with h | h
    · exact hbelow ((habove guess).mpr h)
    · exact hmiss ((hhit guess).mpr h.symm)
  | case4 min max hge => omega

end CoVault.Library.BinarySearch
