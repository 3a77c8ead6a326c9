import Mathlib
import CoVault.Library.Cells

/-!
# Bitonic networks of any length

A merge network splits `n` cells at the greatest power of two below `n`, compares
every cell of the upper part with the cell one split below it, and merges both
parts. A sort network sorts one half in each direction and merges.

For a length that is a power of two the merge sorts every *bitonic* input. For
other lengths it sorts the inputs that never rise and fall again (`Valley`): the
upper part is again such an input, the lower part is bitonic of length a power of
two, and no lower cell exceeds an upper one. No zero-one principle is needed, since
a violated inequality always shows up on two, three or four input cells.
-/

namespace CoVault.Library.SortNetwork

open Cells

variable {α β : Type*} [LinearOrder β]

/-- The greatest power of two below `n`, for `n` at least two. -/
def greatestPowerBelow (n : Nat) : Nat := 2 ^ Nat.log 2 (n - 1)

theorem greatestPowerBelow_pos (n : Nat) : 0 < greatestPowerBelow n := Nat.two_pow_pos _

theorem greatestPowerBelow_lt {n : Nat} (h : 1 < n) : greatestPowerBelow n < n := by
  have := Nat.pow_log_le_self 2 (x := n - 1) (by omega)
  simp only [greatestPowerBelow]
  omega

theorem le_two_mul_greatestPowerBelow (n : Nat) : n ≤ 2 * greatestPowerBelow n := by
  have h := Nat.lt_pow_succ_log_self (b := 2) (by omega) (n - 1)
  rw [pow_succ] at h
  simp only [greatestPowerBelow]
  omega

/-- A power of two is split into two halves. -/
theorem greatestPowerBelow_two_pow (k : Nat) : greatestPowerBelow (2 ^ (k + 1)) = 2 ^ k := by
  have h2 : 2 ^ (k + 1) = 2 * 2 ^ k := pow_succ' 2 k
  have hpos := Nat.two_pow_pos k
  have : Nat.log 2 (2 ^ (k + 1) - 1) = k := by
    rw [Nat.log_eq_iff (Or.inr ⟨by omega, by omega⟩)]
    omega
  rw [greatestPowerBelow, this]

/-- The step leaves its two cells as they are or exchanges them. -/
def Exchanging (ce : Nat → Nat → (Nat → α) → (Nat → α)) : Prop :=
  ∀ i j f, ce i j f = f ∨ ce i j f = exchange f i j

/-- A compare-exchange step leaves the smaller key in its first cell. -/
structure Comparator (key : α → β) (ce : Nat → Nat → (Nat → α) → (Nat → α)) : Prop where
  exchanging : Exchanging ce
  ordered : ∀ i j f, key (ce i j f i) ≤ key (ce i j f j)

/-- Compare the `r` cells from `lo` on with the cells `m` above them. -/
def layer (ce : Nat → Nat → (Nat → α) → (Nat → α)) (lo m r : Nat) (f : Nat → α) : Nat → α :=
  (List.range r).foldl (fun g t => ce (lo + t) (lo + t + m) g) f

/-- The merge network on the `n` cells from `lo` on. -/
def merge (ce : Nat → Nat → (Nat → α) → (Nat → α)) (lo n : Nat) (f : Nat → α) : Nat → α :=
  if _h : 1 < n then
    let m := greatestPowerBelow n
    merge ce (lo + m) (n - m) (merge ce lo m (layer ce lo m (n - m) f))
  else f
termination_by n
decreasing_by
  · exact greatestPowerBelow_lt _h
  · have := greatestPowerBelow_pos n; omega

/-- The sort network: the first half against the direction, then the second, then a merge. -/
def sort (ce : Bool → Nat → Nat → (Nat → α) → (Nat → α)) (lo n : Nat) (asc : Bool)
    (f : Nat → α) : Nat → α :=
  if _h : 1 < n then
    let m := n / 2
    merge (ce asc) lo n (sort ce (lo + m) (n - m) asc (sort ce lo m (!asc) f))
  else f
termination_by n

theorem merge_of_lt (ce : Nat → Nat → (Nat → α) → (Nat → α)) (lo : Nat) {n : Nat} (h : 1 < n)
    (f : Nat → α) : merge ce lo n f =
      merge ce (lo + greatestPowerBelow n) (n - greatestPowerBelow n)
        (merge ce lo (greatestPowerBelow n)
          (layer ce lo (greatestPowerBelow n) (n - greatestPowerBelow n) f)) := by
  rw [merge, dif_pos h]

theorem merge_of_le (ce : Nat → Nat → (Nat → α) → (Nat → α)) (lo : Nat) {n : Nat} (h : ¬ 1 < n)
    (f : Nat → α) : merge ce lo n f = f := by
  rw [merge, dif_neg h]

theorem sort_of_lt (ce : Bool → Nat → Nat → (Nat → α) → (Nat → α)) (lo : Nat) {n : Nat}
    (h : 1 < n) (asc : Bool) (f : Nat → α) : sort ce lo n asc f =
      merge (ce asc) lo n (sort ce (lo + n / 2) (n - n / 2) asc (sort ce lo (n / 2) (!asc) f)) := by
  rw [sort, dif_pos h]

theorem sort_of_le (ce : Bool → Nat → Nat → (Nat → α) → (Nat → α)) (lo : Nat) {n : Nat}
    (h : ¬ 1 < n) (asc : Bool) (f : Nat → α) : sort ce lo n asc f = f := by
  rw [sort, dif_neg h]

/-! ## What a network can do to the cells -/

section Rearrange

variable {ce : Nat → Nat → (Nat → α) → (Nat → α)} {lo n m r : Nat} {f : Nat → α}

theorem layer_succ (ce : Nat → Nat → (Nat → α) → (Nat → α)) (lo m r : Nat) (f : Nat → α) :
    layer ce lo m (r + 1) f = ce (lo + r) (lo + r + m) (layer ce lo m r f) := by
  simp [layer, List.range_succ]

theorem layer_rearranged (hc : Exchanging ce) (hr : r + m ≤ n) :
    Rearranged lo n f (layer ce lo m r f) := by
  induction r with
  | zero => exact Rearranged.refl lo n f
  | succ r ih =>
    rw [layer_succ]
    refine (ih (by omega)).trans ?_
    rcases hc (lo + r) (lo + r + m) (layer ce lo m r f) with h | h
    · rw [h]; exact Rearranged.refl lo n _
    · rw [h]; exact Rearranged.of_exchange (by omega) (by omega)

theorem merge_rearranged (hc : Exchanging ce) (lo n : Nat) (f : Nat → α) :
    Rearranged lo n f (merge ce lo n f) := by
  induction lo, n, f using merge.induct ce with
  | case1 lo n f h m ihLow _ ihHigh =>
    rw [merge_of_lt ce lo h]
    have hm : m < n := greatestPowerBelow_lt h
    have hfirst : Rearranged lo n f (layer ce lo m (n - m) f) := layer_rearranged hc (by omega)
    have hlow : Rearranged lo n _ _ := ihLow.mono (le_refl lo) (by omega)
    have hhigh : Rearranged lo n _ _ := ihHigh.mono (by omega) (by omega)
    exact hfirst.trans (hlow.trans hhigh)
  | case2 lo n f h =>
    rw [merge_of_le ce lo h]
    exact Rearranged.refl lo n f

theorem sort_rearranged {ce : Bool → Nat → Nat → (Nat → α) → (Nat → α)}
    (hc : ∀ asc, Exchanging (ce asc)) (lo n : Nat) (asc : Bool) (f : Nat → α) :
    Rearranged lo n f (sort ce lo n asc f) := by
  induction lo, n, asc, f using sort.induct ce with
  | case1 lo n asc f h m ihLow _ ihHigh =>
    rw [sort_of_lt ce lo h]
    have hm : m = n / 2 := rfl
    have hlow : Rearranged lo n _ _ := ihLow.mono (le_refl lo) (by omega)
    have hhigh : Rearranged lo n _ _ := ihHigh.mono (by omega) (by omega)
    exact hlow.trans (hhigh.trans (merge_rearranged (hc asc) lo n _))
  | case2 lo n asc f h =>
    rw [sort_of_le ce lo h]
    exact Rearranged.refl lo n f

end Rearrange

/-! ## Keys after one layer -/

section Keys

variable {key : α → β} {ce : Nat → Nat → (Nat → α) → (Nat → α)} {lo m r : Nat} {f : Nat → α}

theorem Comparator.key_left (hc : Comparator key ce) (i j : Nat) (f : Nat → α) :
    key (ce i j f i) = min (key (f i)) (key (f j)) := by
  have hle := hc.ordered i j f
  rcases hc.exchanging i j f with h | h <;> rw [h] at hle ⊢
  · rw [min_eq_left hle]
  · rw [exchange_left, exchange_right] at hle
    rw [exchange_left, min_eq_right hle]

theorem Comparator.key_right (hc : Comparator key ce) (i j : Nat) (f : Nat → α) :
    key (ce i j f j) = max (key (f i)) (key (f j)) := by
  have hle := hc.ordered i j f
  rcases hc.exchanging i j f with h | h <;> rw [h] at hle ⊢
  · rw [max_eq_right hle]
  · rw [exchange_left, exchange_right] at hle
    rw [exchange_right, max_eq_left hle]

theorem Comparator.frame (hc : Comparator key ce) {i j k : Nat} (f : Nat → α) (hi : k ≠ i)
    (hj : k ≠ j) : ce i j f k = f k := by
  rcases hc.exchanging i j f with h | h <;> rw [h]
  exact exchange_of_ne f hi hj

/-- The layer leaves a cell alone that none of its comparisons touches. -/
theorem layer_frame (hc : Comparator key ce) {k : Nat}
    (hk : ∀ t, t < r → k ≠ lo + t ∧ k ≠ lo + t + m) : layer ce lo m r f k = f k := by
  induction r with
  | zero => rfl
  | succ r ih =>
    obtain ⟨h1, h2⟩ := hk r (by omega)
    rw [layer_succ, hc.frame _ h1 h2, ih fun t ht => hk t (by omega)]

theorem layer_low (hc : Comparator key ce) (hr : r ≤ m) {t : Nat} (ht : t < r) :
    key (layer ce lo m r f (lo + t)) = min (key (f (lo + t))) (key (f (lo + t + m))) := by
  induction r with
  | zero => omega
  | succ r ih =>
    rw [layer_succ]
    by_cases h : t = r
    · subst h
      rw [hc.key_left, layer_frame hc (by omega), layer_frame hc (by omega)]
    · rw [hc.frame _ (by omega) (by omega), ih (by omega) (by omega)]

theorem layer_high (hc : Comparator key ce) (hr : r ≤ m) {t : Nat} (ht : t < r) :
    key (layer ce lo m r f (lo + t + m)) = max (key (f (lo + t))) (key (f (lo + t + m))) := by
  induction r with
  | zero => omega
  | succ r ih =>
    rw [layer_succ]
    by_cases h : t = r
    · subst h
      rw [hc.key_right, layer_frame hc (by omega), layer_frame hc (by omega)]
    · rw [hc.frame _ (by omega) (by omega), ih (by omega) (by omega)]

end Keys

/-! ## Input shapes -/

/-- The keys of the cells from `lo` on. -/
def keys (key : α → β) (f : Nat → α) (lo : Nat) : Nat → β := fun i => key (f (lo + i))

/-- The first `n` entries never decrease. -/
def Ascending (x : Nat → β) (n : Nat) : Prop := ∀ i j, i ≤ j → j < n → x i ≤ x j

/-- The first `n` entries never increase. -/
def Descending (x : Nat → β) (n : Nat) : Prop := ∀ i j, i ≤ j → j < n → x j ≤ x i

/-- No entry lies above an earlier and a later one: the sequence descends, then ascends. -/
def Valley (x : Nat → β) (n : Nat) : Prop :=
  ∀ i j k, i < j → j < k → k < n → ¬ (x i < x j ∧ x k < x j)

/-- No four entries alternate: up to a rotation the sequence rises once and falls once. -/
def Bitonic (x : Nat → β) (n : Nat) : Prop :=
  ∀ i j k l, i < j → j < k → k < l → l < n →
    ¬ (x i < x j ∧ x k < x j ∧ x i < x l ∧ x k < x l) ∧
    ¬ (x j < x i ∧ x j < x k ∧ x l < x i ∧ x l < x k)

theorem Valley.bitonic {x : Nat → β} {n : Nat} (h : Valley x n) : Bitonic x n := by
  intro i j k l hij hjk hkl hl
  have h1 := h i j k hij hjk (by omega)
  have h2 := h j k l hjk hkl hl
  grind

theorem Ascending.valley {x : Nat → β} {n : Nat} (h : Ascending x n) : Valley x n := by
  intro i j k _ hjk hk hlt
  exact absurd hlt.2 (not_lt.mpr (h j k (by omega) hk))

theorem Descending.valley {x : Nat → β} {n : Nat} (h : Descending x n) : Valley x n := by
  intro i j k hij _ hk hlt
  exact absurd hlt.1 (not_lt.mpr (h i j (by omega) (by omega)))

theorem valley_of_descending_ascending {x : Nat → β} {m n : Nat} (hdesc : Descending x m)
    (hasc : Ascending (fun i => x (m + i)) (n - m)) : Valley x n := by
  rintro i j k hij hjk hk ⟨hij', hkj'⟩
  by_cases hj : j < m
  · exact absurd hij' (not_lt.mpr (hdesc i j (by omega) hj))
  · have := hasc (j - m) (k - m) (by omega) (by omega)
    simp only [show m + (j - m) = j by omega, show m + (k - m) = k by omega] at this
    exact absurd hkj' (not_lt.mpr this)

/-- A valley stays one between entries that are greatest. -/
theorem valley_between (lo m : Nat) {x : Nat → β} {n : Nat} {top : β} (htop : ∀ i < n, x i ≤ top)
    (hvalley : Valley (fun i => x (lo + i)) m)
    (hout : ∀ i < n, i < lo ∨ lo + m ≤ i → x i = top) : Valley x n := by
  rintro i j k hij hjk hk ⟨hij', hkj'⟩
  have hin : ∀ l < n, x l < x j → lo ≤ l ∧ l < lo + m := fun l hl hlt => by
    by_contra hrange
    rw [hout l hl (by omega)] at hlt
    exact absurd (htop j (by omega)) (not_le.mpr hlt)
  obtain ⟨hi, -⟩ := hin i (by omega) hij'
  obtain ⟨-, hk'⟩ := hin k hk hkj'
  refine hvalley (i - lo) (j - lo) (k - lo) (by omega) (by omega) (by omega) ?_
  simp only [Nat.add_sub_cancel' hi, Nat.add_sub_cancel' (hi.trans hij.le),
    Nat.add_sub_cancel' (hi.trans (hij.trans hjk).le)]
  exact ⟨hij', hkj'⟩

/-- What is bitonic stays so in the dual order. -/
theorem Bitonic.dual {x : Nat → β} {n : Nat} (h : Bitonic x n) :
    Bitonic (fun i => OrderDual.toDual (x i)) n := fun i j k l hij hjk hkl hl =>
  (h i j k l hij hjk hkl hl).symm

theorem bitonic_of_ascending_descending {x : Nat → β} {m n : Nat} (hasc : Ascending x m)
    (hdesc : Descending (fun i => x (m + i)) (n - m)) : Bitonic x n := by
  -- in the dual order the sequence descends, then ascends
  have hdual : Valley (fun i => OrderDual.toDual (x i)) n :=
    valley_of_descending_ascending hasc hdesc
  exact hdual.bitonic.dual

/-- `low` and `high` hold the smaller and the larger entries of the pairs `(i, i + m)`
with `i < r`; the other entries of `low` are those of `x`. -/
structure HalfCleaned (m r : Nat) (x low high : Nat → β) : Prop where
  low_le : ∀ i, i < m → low i ≤ x i
  low_le_upper : ∀ i, i < r → low i ≤ x (i + m)
  low_source : ∀ i, i < m → low i = x i ∨ (i < r ∧ low i = x (i + m))
  le_high : ∀ i, i < r → x i ≤ high i
  upper_le_high : ∀ i, i < r → x (i + m) ≤ high i
  high_source : ∀ i, i < r → high i = x i ∨ high i = x (i + m)

namespace HalfCleaned

variable {m r : Nat} {x low high : Nat → β}

/-- No lower entry exceeds an upper one. -/
theorem separated_of_valley (h : HalfCleaned m r x low high) (hr : r ≤ m)
    (hv : Valley x (m + r)) {i j : Nat} (hi : i < m) (hj : j < r) : low i ≤ high j := by
  by_contra hlt
  have hlow := h.low_le i hi
  have hj1 := h.le_high j hj
  have hj2 := h.upper_le_high j hj
  rcases lt_trichotomy i j with hij | rfl | hij
  · have hlow' := h.low_le_upper i (by omega)
    have := hv j (i + m) (j + m) (by omega) (by omega) (by omega)
    grind
  · grind
  · have := hv j i (j + m) (by omega) (by omega) (by omega)
    grind

theorem low_bitonic_of_valley (h : HalfCleaned m r x low high) (hr : r ≤ m)
    (hv : Valley x (m + r)) : Bitonic low m := by
  intro i j k l hij hjk hkl hl
  have hi := h.low_le i (by omega)
  have hj := h.low_le j (by omega)
  have hk := h.low_le k (by omega)
  have hl' := h.low_le l hl
  -- the two small entries decide which three entries of `x` rise and fall
  constructor
  · rintro ⟨hij', hkj', hil', hkl'⟩
    rcases h.low_source i (by omega) with ei | ⟨_, ei⟩ <;>
      rcases h.low_source k (by omega) with ek | ⟨_, ek⟩
    · have := hv i j k hij hjk (by omega)
      grind
    · have := hv i j (k + m) hij (by omega) (by omega)
      grind
    · have := hv k l (i + m) hkl (by omega) (by omega)
      grind
    · have := hv (i + m) (j + m) (k + m) (by omega) (by omega) (by omega)
      have := h.low_le_upper j (by omega)
      grind
  · rintro ⟨hji', hjk', hli', hlk'⟩
    rcases h.low_source j (by omega) with ej | ⟨_, ej⟩ <;>
      rcases h.low_source l hl with el | ⟨_, el⟩
    · have := hv j k l hjk hkl (by omega)
      grind
    · have := hv j k (l + m) hjk (by omega) (by omega)
      grind
    · have := hv l (i + m) (j + m) (by omega) (by omega) (by omega)
      have := h.low_le_upper i (by omega)
      grind
    · have := hv (j + m) (k + m) (l + m) (by omega) (by omega) (by omega)
      have := h.low_le_upper k (by omega)
      grind

theorem high_valley (h : HalfCleaned m r x low high)
    (hv : Valley x (m + r)) : Valley high r := by
  rintro i j k hij hjk hk ⟨hij', hkj'⟩
  have := h.le_high i (by omega)
  have := h.upper_le_high i (by omega)
  have := h.le_high k hk
  have := h.upper_le_high k hk
  rcases h.high_source j (by omega) with ej | ej
  · have := hv i j k hij hjk (by omega)
    grind
  · have := hv (i + m) (j + m) (k + m) (by omega) (by omega) (by omega)
    grind

theorem separated_of_bitonic (h : HalfCleaned m m x low high) (hb : Bitonic x (m + m))
    {i j : Nat} (hi : i < m) (hj : j < m) : low i ≤ high j := by
  by_contra hlt
  have := h.low_le i hi
  have := h.low_le_upper i hi
  have := h.le_high j hj
  have := h.upper_le_high j hj
  rcases lt_trichotomy i j with hij | rfl | hij
  · have := hb i j (i + m) (j + m) hij (by omega) (by omega) (by omega)
    grind
  · grind
  · have := hb j i (j + m) (i + m) hij (by omega) (by omega) (by omega)
    grind

theorem low_bitonic (h : HalfCleaned m m x low high) (hb : Bitonic x (m + m)) :
    Bitonic low m := by
  intro i j k l hij hjk hkl hl
  have bounds : ∀ t, t < m → low t ≤ x t ∧ low t ≤ x (t + m) :=
    fun t ht => ⟨h.low_le t ht, h.low_le_upper t ht⟩
  have hi := bounds i (by omega)
  have hj := bounds j (by omega)
  have hk := bounds k (by omega)
  have hl' := bounds l hl
  have h1 := hb i j k l hij hjk hkl (by omega)
  have h2 := hb i j (k + m) (l + m) hij (by omega) (by omega) (by omega)
  have h3 := hb k l (i + m) (j + m) hkl (by omega) (by omega) (by omega)
  have h4 := hb (i + m) (j + m) (k + m) (l + m) (by omega) (by omega) (by omega) (by omega)
  have h5 := hb i j k (l + m) hij hjk (by omega) (by omega)
  constructor
  · rcases h.low_source i (by omega) with ei | ⟨_, ei⟩ <;>
      rcases h.low_source k (by omega) with ek | ⟨_, ek⟩ <;> grind
  · rcases h.low_source j (by omega) with ej | ⟨_, ej⟩ <;>
      rcases h.low_source l hl with el | ⟨_, el⟩ <;> grind

/-- In the dual order the upper entries are the smaller ones. -/
theorem dual (h : HalfCleaned m m x low high) : HalfCleaned m m (fun i => OrderDual.toDual (x i))
    (fun i => OrderDual.toDual (high i)) (fun i => OrderDual.toDual (low i)) where
  low_le := h.le_high
  low_le_upper := h.upper_le_high
  low_source i hi := (h.high_source i hi).imp_right fun heq => ⟨hi, heq⟩
  le_high := h.low_le
  upper_le_high := h.low_le_upper
  high_source i hi := (h.low_source i hi).imp_right And.right

theorem high_bitonic (h : HalfCleaned m m x low high) (hb : Bitonic x (m + m)) :
    Bitonic high m := (h.dual.low_bitonic hb.dual).dual

end HalfCleaned

/-! ## Sorting -/

section Sorting

variable {key : α → β} {ce : Nat → Nat → (Nat → α) → (Nat → α)} {lo n m r : Nat} {f : Nat → α}

theorem layer_halfCleaned (hc : Comparator key ce) (lo : Nat) (f : Nat → α) (hr : r ≤ m) :
    HalfCleaned m r (keys key f lo) (keys key (layer ce lo m r f) lo)
      (keys key (layer ce lo m r f) (lo + m)) := by
  have hlow : ∀ i, i < r → keys key (layer ce lo m r f) lo i =
      min (keys key f lo i) (keys key f lo (i + m)) := by
    intro i hi
    rw [keys, layer_low hc hr hi, Nat.add_assoc]
    rfl
  have hrest : ∀ i, i < m → ¬ i < r → keys key (layer ce lo m r f) lo i = keys key f lo i := by
    intro i hi hir
    simp only [keys]
    rw [layer_frame hc (by omega)]
  have hhigh : ∀ i, i < r → keys key (layer ce lo m r f) (lo + m) i =
      max (keys key f lo i) (keys key f lo (i + m)) := by
    intro i hi
    rw [keys, show lo + m + i = lo + i + m by omega, layer_high hc hr hi, Nat.add_assoc]
    rfl
  constructor
  · intro i hi
    by_cases hir : i < r
    · rw [hlow i hir]; exact min_le_left _ _
    · rw [hrest i hi hir]
  · intro i hi
    rw [hlow i hi]
    exact min_le_right _ _
  · intro i hi
    by_cases hir : i < r
    · rw [hlow i hir]
      exact (min_choice _ _).imp_right fun e => ⟨hir, e⟩
    · exact Or.inl (hrest i hi hir)
  · intro i hi
    rw [hhigh i hi]
    exact le_max_left _ _
  · intro i hi
    rw [hhigh i hi]
    exact le_max_right _ _
  · intro i hi
    rw [hhigh i hi]
    exact max_choice _ _

/-- Two sorted parts, the lower nowhere above the upper, are sorted together. -/
theorem Ascending.glue {x : Nat → β} (hlow : Ascending x m)
    (hhigh : Ascending (fun i => x (m + i)) (n - m))
    (hsep : ∀ i j, i < m → j < n - m → x i ≤ x (m + j)) : Ascending x n := by
  intro i j hij hj
  by_cases hjm : j < m
  · exact hlow i j hij hjm
  · by_cases him : i < m
    · have := hsep i (j - m) him (by omega)
      rwa [show m + (j - m) = j by omega] at this
    · have := hhigh (i - m) (j - m) (by omega) (by omega)
      simp only at this
      rwa [show m + (i - m) = i by omega, show m + (j - m) = j by omega] at this

/-- Two separated parts that are sorted one after the other are sorted together. -/
theorem Ascending.of_parts {g h u : Nat → α} (hlow : Rearranged lo m g h)
    (hhigh : Rearranged (lo + m) (n - m) h u)
    (hsep : ∀ i j, i < m → j < n - m → keys key g lo i ≤ keys key g (lo + m) j)
    (hsorted : Ascending (keys key h lo) m)
    (hsorted' : Ascending (keys key u (lo + m)) (n - m)) : Ascending (keys key u lo) n := by
  have hkeep : ∀ j, j < n - m → h (lo + m + j) = g (lo + m + j) :=
    fun j _ => hlow.outside (by omega)
  have hlowCell : ∀ i, i < m → u (lo + i) = h (lo + i) :=
    fun i _ => hhigh.outside (by omega)
  apply Ascending.glue (m := m)
  · intro i j hij hj
    simp only [keys, hlowCell i (by omega), hlowCell j hj]
    exact hsorted i j hij hj
  · intro i j hij hj
    have := hsorted' i j hij hj
    simpa only [keys, Nat.add_assoc] using this
  · intro i j hi hj
    obtain ⟨i', hi', ei⟩ := hlow.source (k := lo + i) (by omega)
    obtain ⟨j', hj', ej⟩ := hhigh.source (k := lo + (m + j)) (by omega)
    have hle := hsep (i' - lo) (j' - (lo + m)) (by omega) (by omega)
    simp only [keys] at hle ⊢
    rw [show lo + (i' - lo) = i' by omega,
      show lo + m + (j' - (lo + m)) = j' by omega] at hle
    rw [hlowCell i hi, ei, ej]
    have := hkeep (j' - (lo + m)) (by omega)
    rw [show lo + m + (j' - (lo + m)) = j' by omega] at this
    rwa [this]

/-- A merge sorts when its first layer separates the parts and the merges of the parts sort. -/
theorem merge_ascending (hc : Comparator key ce) (h : 1 < n)
    (hsep : ∀ i j, i < greatestPowerBelow n → j < n - greatestPowerBelow n →
      keys key (layer ce lo (greatestPowerBelow n) (n - greatestPowerBelow n) f) lo i ≤
      keys key (layer ce lo (greatestPowerBelow n) (n - greatestPowerBelow n) f)
        (lo + greatestPowerBelow n) j)
    (hlow : ∀ g, g = layer ce lo (greatestPowerBelow n) (n - greatestPowerBelow n) f →
      Ascending (keys key (merge ce lo (greatestPowerBelow n) g) lo) (greatestPowerBelow n))
    (hhigh : ∀ g, (∀ j, j < n - greatestPowerBelow n →
        keys key g (lo + greatestPowerBelow n) j =
        keys key (layer ce lo (greatestPowerBelow n) (n - greatestPowerBelow n) f)
          (lo + greatestPowerBelow n) j) →
      Ascending (keys key (merge ce (lo + greatestPowerBelow n) (n - greatestPowerBelow n) g)
        (lo + greatestPowerBelow n)) (n - greatestPowerBelow n)) :
    Ascending (keys key (merge ce lo n f) lo) n := by
  rw [merge_of_lt ce lo h]
  generalize greatestPowerBelow n = m at *
  generalize layer ce lo m (n - m) f = g at *
  have hmerged := merge_rearranged hc.exchanging lo m g
  refine Ascending.of_parts hmerged (merge_rearranged hc.exchanging (lo + m) (n - m) _) hsep
    (hlow g rfl) (hhigh _ fun j hj => ?_)
  rw [keys, keys, hmerged.outside (by omega)]

theorem Valley.congr {x y : Nat → β} (h : Valley x n) (heq : ∀ i, i < n → y i = x i) :
    Valley y n := by
  intro i j k hij hjk hk
  rw [heq i (by omega), heq j (by omega), heq k hk]
  exact h i j k hij hjk hk

theorem Bitonic.congr {x y : Nat → β} (h : Bitonic x n) (heq : ∀ i, i < n → y i = x i) :
    Bitonic y n := by
  intro i j k l hij hjk hkl hl
  rw [heq i (by omega), heq j (by omega), heq k (by omega), heq l hl]
  exact h i j k l hij hjk hkl hl

/-- For a power of two every bitonic input is sorted. -/
theorem merge_ascending_of_bitonic (hc : Comparator key ce) (k : Nat) :
    ∀ (lo : Nat) (f : Nat → α), Bitonic (keys key f lo) (2 ^ k) →
      Ascending (keys key (merge ce lo (2 ^ k) f) lo) (2 ^ k) := by
  induction k with
  | zero =>
    intro lo f _ i j hij hj
    have : i = j := by omega
    rw [this]
  | succ k ih =>
    intro lo f hb
    have hhalf := greatestPowerBelow_two_pow k
    have hpow : 2 ^ (k + 1) = 2 ^ k + 2 ^ k := by rw [pow_succ]; ring
    have hpos := Nat.two_pow_pos k
    have hrest : 2 ^ (k + 1) - 2 ^ k = 2 ^ k := by omega
    rw [hpow] at hb
    have hclean := layer_halfCleaned hc lo f (le_refl (2 ^ k))
    apply merge_ascending hc (by omega) <;> rw [hhalf, hrest]
    · intro i j hi hj
      exact hclean.separated_of_bitonic hb hi hj
    · rintro g rfl
      exact ih lo _ (hclean.low_bitonic hb)
    · intro g hg
      exact ih _ g ((hclean.high_bitonic hb).congr hg)

/-- For any length a descending part followed by an ascending part is sorted. -/
theorem merge_ascending_of_valley (hc : Comparator key ce) (n : Nat) :
    ∀ (lo : Nat) (f : Nat → α), Valley (keys key f lo) n →
      Ascending (keys key (merge ce lo n f) lo) n := by
  induction n using Nat.strong_induction_on with
  | _ n ih =>
    intro lo f hv
    by_cases h : 1 < n
    · have hlt := greatestPowerBelow_lt h
      have hpos := greatestPowerBelow_pos n
      have hle := le_two_mul_greatestPowerBelow n
      have hsplit : n = greatestPowerBelow n + (n - greatestPowerBelow n) := by omega
      have hr : n - greatestPowerBelow n ≤ greatestPowerBelow n := by omega
      have hclean := layer_halfCleaned hc lo f hr
      rw [hsplit] at hv
      apply merge_ascending hc h
      · intro i j hi hj
        exact hclean.separated_of_valley hr hv hi hj
      · rintro g rfl
        exact merge_ascending_of_bitonic hc _ lo _ (hclean.low_bitonic_of_valley hr hv)
      · intro g hg
        exact ih _ (by omega) _ g ((hclean.high_valley hv).congr hg)
    · rw [merge_of_le ce lo h]
      intro i j hij hj
      have : i = j := by omega
      rw [this]

/-- The steps of a sort: one direction puts the smaller key first, the other the larger. -/
structure TwoWay (key : α → β) (ce : Bool → Nat → Nat → (Nat → α) → (Nat → α)) : Prop where
  up : Comparator key (ce true)
  down : Comparator (OrderDual.toDual ∘ key) (ce false)

/-- The same in terms of the one order. -/
theorem TwoWay.of_ordered {ce : Bool → Nat → Nat → (Nat → α) → (Nat → α)}
    (hexch : ∀ asc, Exchanging (ce asc))
    (hup : ∀ i j f, key (ce true i j f i) ≤ key (ce true i j f j))
    (hdown : ∀ i j f, key (ce false i j f j) ≤ key (ce false i j f i)) : TwoWay key ce where
  up := ⟨hexch true, hup⟩
  down := ⟨hexch false, hdown⟩

theorem TwoWay.exchanging {ce : Bool → Nat → Nat → (Nat → α) → (Nat → α)} (hc : TwoWay key ce) :
    ∀ asc, Exchanging (ce asc)
  | true => hc.up.exchanging
  | false => hc.down.exchanging

/-- The steps that exchange two cells if `(key[i] > key[j]) == acc`. -/
theorem twoWay_of_key (key : α → β) : TwoWay key fun acc i j f =>
    if decide (key (f j) < key (f i)) == acc then exchange f i j else f := by
  refine TwoWay.of_ordered (fun acc i j f => ?_) (fun i j f => ?_) (fun i j f => ?_)
  · split_ifs
    · exact .inr rfl
    · exact .inl rfl
  · by_cases h : key (f j) < key (f i)
    · simp [h, h.le]
    · simpa [h] using not_lt.mp h
  · by_cases h : key (f j) < key (f i)
    · simp [h, h.le]
    · simpa [h] using not_lt.mp h

/-- Sorted in the direction of the flag. -/
def SortedIn (asc : Bool) (x : Nat → β) (n : Nat) : Prop :=
  if asc then Ascending x n else Descending x n

theorem SortedIn.congr {asc : Bool} {x y : Nat → β} {n : Nat} (h : SortedIn asc x n)
    (heq : ∀ i, i < n → y i = x i) : SortedIn asc y n := by
  cases asc
  all_goals
    intro i j hij hj
    rw [heq i (by omega), heq j hj]
    exact h i j hij hj

/-- What turns valleys into sorted cells, in either direction, also sorts a part against the
direction followed by one in the direction. -/
theorem sortedIn_of_valley {lo m n : Nat} {asc : Bool} {g : Nat → α} {u : Bool → Nat → α}
    (hup : Valley (keys key g lo) n → Ascending (keys key (u true) lo) n)
    (hdown : Valley (keys (OrderDual.toDual ∘ key) g lo) n →
      Ascending (keys (OrderDual.toDual ∘ key) (u false) lo) n)
    (hlow : SortedIn (!asc) (keys key g lo) m)
    (hhigh : SortedIn asc (keys key g (lo + m)) (n - m)) :
    SortedIn asc (keys key (u asc) lo) n := by
  have hkeys : ∀ i, keys key g lo (m + i) = keys key g (lo + m) i :=
    fun i => by simp only [keys, Nat.add_assoc]
  cases asc with
  | true =>
    refine hup (valley_of_descending_ascending (m := m) hlow ?_)
    simp only [hkeys]
    exact hhigh
  | false =>
    -- the same argument in the dual order
    refine hdown (valley_of_descending_ascending (m := m)
      (x := keys (OrderDual.toDual ∘ key) g lo) hlow ?_)
    intro i j hij hj
    have hle := hhigh i j hij hj
    simp only [keys, Nat.add_assoc] at hle ⊢
    exact hle

theorem sort_sortedIn {ce : Bool → Nat → Nat → (Nat → α) → (Nat → α)} (hc : TwoWay key ce)
    (lo n : Nat) (asc : Bool) (f : Nat → α) :
    SortedIn asc (keys key (sort ce lo n asc f) lo) n := by
  induction lo, n, asc, f using sort.induct ce with
  | case1 lo n asc f h m ihLow _ ihHigh =>
    have hm : m = n / 2 := rfl
    rw [sort_of_lt ce lo h, ← hm]
    have hkeep := sort_rearranged hc.exchanging (lo + m) (n - m) asc (sort ce lo m (!asc) f)
    refine sortedIn_of_valley (u := fun asc => merge (ce asc) lo n _)
      (merge_ascending_of_valley hc.up n lo _) (merge_ascending_of_valley hc.down n lo _)
      (ihLow.congr fun i hi => ?_) ihHigh
    rw [keys, keys, hkeep.outside (by omega)]
  | case2 lo n asc f h =>
    rw [sort_of_le ce lo h]
    have honly : ∀ i j, i ≤ j → j < n → i = j := by omega
    cases asc <;> intro i j hij hj <;> rw [honly i j hij hj]

end Sorting

end CoVault.Library.SortNetwork
