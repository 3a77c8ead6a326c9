import CoVault.Library.SortNetwork

/-!
# Networks over cells with known contents

A network only moves contents, so what holds of all cells in the beginning holds of all cells at
every step. Two networks whose comparisons agree on such cells do the same, and one whose
comparisons leave such cells alone does nothing.
-/

namespace CoVault.Library.SortNetwork

open Cells

variable {α : Type*} {P : α → Prop} {lo n m r : Nat} {f : Nat → α}

/-- All cells of the window have the property. -/
def AllCells (P : α → Prop) (lo n : Nat) (f : Nat → α) : Prop :=
  ∀ k, lo ≤ k → k < lo + n → P (f k)

theorem AllCells.mono {lo' n' : Nat} (h : AllCells P lo n f) (hlo : lo ≤ lo')
    (hhi : lo' + n' ≤ lo + n) : AllCells P lo' n' f := fun k hk hk' => h k (by omega) (by omega)

theorem AllCells.rearranged {lo' n' : Nat} {g : Nat → α} (h : AllCells P lo n f)
    (hfg : Rearranged lo' n' f g) (hlo : lo ≤ lo') (hhi : lo' + n' ≤ lo + n) :
    AllCells P lo n g := by
  intro k hk hk'
  obtain ⟨j, hj, heq⟩ := (hfg.mono hlo hhi).source (k := k) ⟨hk, hk'⟩
  rw [heq]
  exact h j hj.1 hj.2

section Agree

variable {ce ce' : Nat → Nat → (Nat → α) → (Nat → α)} (hc : Exchanging ce)
  (hagree : ∀ i j f, P (f i) → P (f j) → ce i j f = ce' i j f)
include hc hagree

theorem layer_congr (hall : AllCells P lo n f) (hr : r + m ≤ n) :
    layer ce lo m r f = layer ce' lo m r f := by
  induction r with
  | zero => rfl
  | succ r ih =>
    have hnow : AllCells P lo n (layer ce lo m r f) :=
      hall.rearranged (layer_rearranged hc (by omega)) le_rfl le_rfl
    rw [layer_succ, layer_succ, ← ih (by omega)]
    exact hagree _ _ _ (hnow _ (by omega) (by omega)) (hnow _ (by omega) (by omega))

theorem merge_congr (hall : AllCells P lo n f) : merge ce lo n f = merge ce' lo n f := by
  induction n using Nat.strong_induction_on generalizing lo f with
  | _ n ih =>
    by_cases h : 1 < n
    · have hlt := greatestPowerBelow_lt h
      have hpos := greatestPowerBelow_pos n
      have hlayer : AllCells P lo n (layer ce lo (greatestPowerBelow n) (n - greatestPowerBelow n)
          f) := hall.rearranged (layer_rearranged hc (by omega)) le_rfl le_rfl
      have hlow := hlayer.rearranged (merge_rearranged hc lo (greatestPowerBelow n) _) le_rfl
        (by omega)
      rw [merge_of_lt ce lo h, merge_of_lt ce' lo h,
        ← layer_congr hc hagree hall (by omega),
        ← ih _ hlt (hlayer.mono le_rfl (by omega)),
        ← ih _ (by omega) (hlow.mono (by omega) (by omega))]
    · rw [merge_of_le ce lo h, merge_of_le ce' lo h]

end Agree

theorem sort_congr {ce ce' : Bool → Nat → Nat → (Nat → α) → (Nat → α)}
    (hc : ∀ asc, Exchanging (ce asc))
    (hagree : ∀ asc i j f, P (f i) → P (f j) → ce asc i j f = ce' asc i j f) (asc : Bool)
    (hall : AllCells P lo n f) : sort ce lo n asc f = sort ce' lo n asc f := by
  induction n using Nat.strong_induction_on generalizing lo asc f with
  | _ n ih =>
    by_cases h : 1 < n
    · have hlow := hall.rearranged (sort_rearranged hc lo (n / 2) (!asc) f) le_rfl (by omega)
      have hhigh := hlow.rearranged (sort_rearranged hc (lo + n / 2) (n - n / 2) asc _) (by omega)
        (by omega)
      rw [sort_of_lt ce lo h, sort_of_lt ce' lo h,
        ← ih _ (by omega) _ (hall.mono le_rfl (by omega)),
        ← ih _ (by omega) _ (hlow.mono (by omega) (by omega)),
        ← merge_congr (hc asc) (hagree asc) hhigh]
    · rw [sort_of_le ce lo h, sort_of_le ce' lo h]

/-! ## Comparisons that change nothing -/

section Idle

variable {ce : Nat → Nat → (Nat → α) → (Nat → α)}

theorem layer_eq_self (hidle : ∀ t < r, ce (lo + t) (lo + t + m) f = f) :
    layer ce lo m r f = f := by
  induction r with
  | zero => rfl
  | succ r ih => rw [layer_succ, ih fun t ht => hidle t (by omega), hidle r (by omega)]

theorem merge_eq_self (hidle : ∀ i j, lo ≤ i → i < j → j < lo + n → ce i j f = f) :
    merge ce lo n f = f := by
  induction n using Nat.strong_induction_on generalizing lo with
  | _ n ih =>
    by_cases h : 1 < n
    · have hlt := greatestPowerBelow_lt h
      have hpos := greatestPowerBelow_pos n
      rw [merge_of_lt ce lo h, layer_eq_self fun t ht => hidle _ _ (by omega) (by omega) (by omega),
        ih _ hlt fun i j hi hij hj => hidle i j hi hij (by omega),
        ih _ (by omega) fun i j hi hij hj => hidle i j (by omega) hij (by omega)]
    · rw [merge_of_le ce lo h]

end Idle

/-- If no comparison against the direction changes anything, the last cell is left alone. -/
theorem sort_last {ce : Bool → Nat → Nat → (Nat → α) → (Nat → α)}
    (hc : ∀ asc, Exchanging (ce asc))
    (hidle : ∀ i j f, P (f i) → P (f j) → ce false i j f = f) (hall : AllCells P lo n f)
    (hn : 0 < n) : sort ce lo n false f (lo + n - 1) = f (lo + n - 1) := by
  induction n using Nat.strong_induction_on generalizing lo f with
  | _ n ih =>
    by_cases h : 1 < n
    · have hfirst := sort_rearranged hc lo (n / 2) (!false) f
      have hlow := hall.rearranged hfirst le_rfl (by omega)
      have hhigh := hlow.rearranged (sort_rearranged hc (lo + n / 2) (n - n / 2) false _) (by omega)
        (by omega)
      have hrest : AllCells P (lo + n / 2) (n - n / 2) _ := hlow.mono (by omega) (by omega)
      have hlast := ih (n - n / 2) (by omega) hrest (by omega)
      rw [show lo + n / 2 + (n - n / 2) - 1 = lo + n - 1 by omega] at hlast
      rw [sort_of_lt ce lo h, merge_eq_self fun i j (hi : lo ≤ i) hij (hj : j < lo + n) =>
        hidle i j _ (hhigh i hi (by omega)) (hhigh j (by omega) hj), hlast]
      exact hfirst.outside (by omega)
    · rw [sort_of_le ce lo h]

end CoVault.Library.SortNetwork
