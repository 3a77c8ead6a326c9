import CoVault.Library.SortNetwork

/-!
# Inputs that a merge leaves unsorted

Whatever ends up in the upper part of a merge stays there. If the lower part holds a key and a
greater one, and the upper part holds the same key again, the two equal keys are kept apart.
Three keys in a row of which the middle one is the smallest stay in this order.
-/

namespace CoVault.Library.SortNetwork

open Cells

variable {α β : Type*} [LinearOrder β]

/-- The key `y` stands before a greater key and again behind it. -/
def Apart (x : Nat → β) (n : Nat) (y : β) : Prop :=
  ∃ i j k, i < j ∧ j < k ∧ k < n ∧ x i = y ∧ y < x j ∧ x k = y

variable {key : α → β} {ce : Nat → Nat → (Nat → α) → (Nat → α)} {lo n m r : Nat} {f : Nat → α}
  {y top : β}

theorem keys_layer_low (hc : Comparator key ce) (hr : r ≤ m) {i : Nat} (hi : i < m) :
    keys key (layer ce lo m r f) lo i =
      if i < r then min (keys key f lo i) (keys key f lo (i + m)) else keys key f lo i := by
  split_ifs with hir
  · rw [keys, layer_low hc hr hir, Nat.add_assoc]
    rfl
  · rw [keys, layer_frame hc fun t ht => by omega]
    rfl

theorem keys_layer_high (hc : Comparator key ce) (hr : r ≤ m) {i : Nat} (hi : i < r) :
    keys key (layer ce lo m r f) (lo + m) i = max (keys key f lo i) (keys key f lo (i + m)) := by
  rw [keys, show lo + m + i = lo + i + m by omega, layer_high hc hr hi, Nat.add_assoc]
  rfl

theorem merge_low (hc : Exchanging ce) (h : 1 < n) (lo : Nat) (f : Nat → α) {i : Nat}
    (hi : i < greatestPowerBelow n) : merge ce lo n f (lo + i) = merge ce lo (greatestPowerBelow n)
      (layer ce lo (greatestPowerBelow n) (n - greatestPowerBelow n) f) (lo + i) := by
  rw [merge_of_lt ce lo h]
  exact (merge_rearranged hc ..).outside (by omega)

/-- The merge of the upper part starts from what the first layer has left there. -/
theorem merge_high (hc : Exchanging ce) (h : 1 < n) (lo : Nat) (f : Nat → α) :
    ∃ g, (∀ i < n - greatestPowerBelow n, g (lo + greatestPowerBelow n + i) =
        layer ce lo (greatestPowerBelow n) (n - greatestPowerBelow n) f
          (lo + greatestPowerBelow n + i)) ∧
      ∀ i, merge ce lo n f (lo + (greatestPowerBelow n + i)) =
        merge ce (lo + greatestPowerBelow n) (n - greatestPowerBelow n) g
          (lo + greatestPowerBelow n + i) := by
  refine ⟨merge ce lo (greatestPowerBelow n)
    (layer ce lo (greatestPowerBelow n) (n - greatestPowerBelow n) f),
    fun i _ => (merge_rearranged hc ..).outside (by omega), fun i => ?_⟩
  rw [merge_of_lt ce lo h, Nat.add_assoc]

theorem keys_merge_two (hc : Comparator key ce) (lo : Nat) (f : Nat → α) :
    keys key (merge ce lo 2 f) lo 0 = min (keys key f lo 0) (keys key f lo 1) ∧
    keys key (merge ce lo 2 f) lo 1 = max (keys key f lo 0) (keys key f lo 1) := by
  have hsplit : greatestPowerBelow 2 = 1 := greatestPowerBelow_two_pow 0
  rw [merge_of_lt ce lo (by omega), hsplit, merge_of_le ce _ (by omega),
    merge_of_le ce _ (by omega)]
  refine ⟨?_, ?_⟩
  · rw [keys_layer_low hc le_rfl Nat.one_pos, if_pos (by omega)]
  · exact keys_layer_high hc le_rfl Nat.one_pos

/-- What is apart after the merge of the lower part stays apart. -/
theorem merge_apart_of_low (hc : Comparator key ce) (h : 1 < n)
    (hlow : Apart (keys key (merge ce lo (greatestPowerBelow n)
      (layer ce lo (greatestPowerBelow n) (n - greatestPowerBelow n) f)) lo)
      (greatestPowerBelow n) y) :
    Apart (keys key (merge ce lo n f) lo) n y := by
  have hlt := greatestPowerBelow_lt h
  obtain ⟨i, j, k, hij, hjk, hk, hi, hj, hk'⟩ := hlow
  exact ⟨i, j, k, hij, hjk, by omega,
    by rwa [keys, merge_low hc.exchanging h _ _ (by omega)],
    by rwa [keys, merge_low hc.exchanging h _ _ (by omega)],
    by rwa [keys, merge_low hc.exchanging h _ _ hk]⟩

/-- A key on both sides of the first layer, with a greater one on the lower side. -/
theorem merge_apart (hc : Comparator key ce) (h : 1 < n) {g : Nat → α}
    (hg : g = layer ce lo (greatestPowerBelow n) (n - greatestPowerBelow n) f)
    (hlow : Bitonic (keys key g lo) (greatestPowerBelow n))
    (hy : ∃ i < greatestPowerBelow n, keys key g lo i = y)
    (hgreater : ∃ j < greatestPowerBelow n, y < keys key g lo j)
    (hupper : ∃ k < n - greatestPowerBelow n, keys key g (lo + greatestPowerBelow n) k = y) :
    Apart (keys key (merge ce lo n f) lo) n y := by
  have hlt := greatestPowerBelow_lt h
  have hsorted := merge_ascending_of_bitonic hc (Nat.log 2 (n - 1)) lo g hlow
  rw [merge_of_lt ce lo h, ← hg]
  change Ascending (keys key (merge ce lo (greatestPowerBelow n) g) lo) (greatestPowerBelow n)
    at hsorted
  generalize greatestPowerBelow n = m at *
  have hmoved := merge_rearranged hc.exchanging lo m g
  have hmoved' := merge_rearranged hc.exchanging (lo + m) (n - m) (merge ce lo m g)
  have hkeep : ∀ i < m, keys key (merge ce (lo + m) (n - m) (merge ce lo m g)) lo i =
      keys key (merge ce lo m g) lo i := fun i _ => congrArg key (hmoved'.outside (by omega))
  have hfind : ∀ i < m, ∃ i' < m, keys key (merge ce lo m g) lo i' = keys key g lo i := fun i hi => by
    obtain ⟨i', hi', heq⟩ := hmoved.symm.source (k := lo + i) (by omega)
    exact ⟨i' - lo, by omega, by rw [keys, keys, show lo + (i' - lo) = i' by omega, heq]⟩
  obtain ⟨i₀, hi₀, hy⟩ := hy
  obtain ⟨j₀, hj₀, hgreater⟩ := hgreater
  obtain ⟨k₀, hk₀, hupper⟩ := hupper
  obtain ⟨i, hi, hyi⟩ := hfind i₀ hi₀
  obtain ⟨j, hj, hyj⟩ := hfind j₀ hj₀
  obtain ⟨k, hk, heq⟩ := hmoved'.symm.source (k := lo + m + k₀) (by omega)
  rw [hy] at hyi
  rw [← hyj] at hgreater
  have hij : i < j := by
    by_contra hle
    have := hsorted j i (by omega) hi
    rw [hyi] at this
    exact absurd hgreater (not_lt.mpr this)
  refine ⟨i, j, k - lo, hij, by omega, by omega, by rw [hkeep i hi, hyi], by rwa [hkeep j hj], ?_⟩
  rw [keys, show lo + (k - lo) = k by omega, ← heq, hmoved.outside (by omega), ← hupper]
  rfl

/-- A few keys in front and one (or two) more at a distance divisible by a power of two that
exceeds their number; all other keys are the greatest one. -/
structure Stray (c s p : Nat) (y top : β) (x : Nat → β) (n : Nat) : Prop where
  before : c < p
  inside : p < n
  dvd : 2 ^ (c + s + 1) ∣ p - c
  front : ∀ i ≤ c, x i ≤ y
  front_eq : ∃ i ≤ c, x i = y
  stray : ∀ i, p - s ≤ i → i ≤ p → x i = y
  others : ∀ i < n, c < i → ¬ (p - s ≤ i ∧ i ≤ p) → x i = top

/-- Different multiples of a unit are at least one unit apart. -/
theorem add_le_of_dvd_of_lt {u a b : Nat} (ha : u ∣ a) (hb : u ∣ b) (hlt : a < b) : a + u ≤ b := by
  have := Nat.le_of_dvd (Nat.sub_pos_of_lt hlt) (Nat.dvd_sub hb ha)
  omega

namespace Stray

variable {c s p : Nat} {x : Nat → β}

theorem lt_size (h : Stray c s p y top x n) : 2 ^ (c + s + 1) + c < n := by
  have hpos : 0 < p - c := Nat.sub_pos_of_lt h.before
  have := Nat.le_of_dvd hpos h.dvd
  have := h.inside
  omega

/-- The greatest power of two below the size is a multiple of the unit, too. -/
theorem dvd_greatestPowerBelow (h : Stray c s p y top x n) :
    2 ^ (c + s + 1) ∣ greatestPowerBelow n := by
  have hsize := h.lt_size
  have hpos := Nat.two_pow_pos (c + s + 1)
  have hlog : c + s + 1 ≤ Nat.log 2 (n - 1) :=
    (Nat.le_log_iff_pow_le (by omega) (by omega)).mpr (by omega)
  exact pow_dvd_pow 2 hlog

theorem le_top (h : Stray c s p y top x n) (hy : y < top) {i : Nat} (hi : i < n) : x i ≤ top := by
  by_cases hfront : i ≤ c
  · exact (h.front i hfront).trans hy.le
  · by_cases hstray : p - s ≤ i ∧ i ≤ p
    · exact (h.stray i hstray.1 hstray.2).trans_le hy.le
    · exact (h.others i hi (by omega) hstray).le

end Stray

section Strays

variable {c s p : Nat}

/-- Strays in the lower part stay. -/
theorem stray_low_near (hc : Comparator key ce) (hy : y < top)
    (h : Stray c s p y top (keys key f lo) n) (hnear : p < greatestPowerBelow n) :
    Stray c s p y top (keys key (layer ce lo (greatestPowerBelow n)
      (n - greatestPowerBelow n) f) lo) (greatestPowerBelow n) := by
  have hbefore := h.before
  have hinside := h.inside
  have hlt : greatestPowerBelow n < n := greatestPowerBelow_lt (by omega)
  have hle := le_two_mul_greatestPowerBelow n
  generalize greatestPowerBelow n = m at *
  have hsame : ∀ i < m, keys key (layer ce lo m (n - m) f) lo i = keys key f lo i := fun i hi => by
    rw [keys_layer_low hc (by omega) hi]
    split_ifs with hir
    · rw [h.others (i + m) (by omega) (by omega) (by omega)]
      exact min_eq_left (h.le_top hy (by omega))
    · rfl
  refine ⟨h.before, hnear, h.dvd, fun i hi => ?_, ?_, fun i hi hi' => ?_, fun i hi hi' hne => ?_⟩
  · rw [hsame i (by omega)]
    exact h.front i hi
  · obtain ⟨i, hi, heq⟩ := h.front_eq
    exact ⟨i, hi, by rw [hsame i (by omega), heq]⟩
  · rw [hsame i (by omega)]
    exact h.stray i hi hi'
  · rw [hsame i hi]
    exact h.others i (by omega) hi' hne

/-- Strays far behind the front cells move into the lower part. -/
theorem stray_low_far (hc : Comparator key ce) (hy : y < top)
    (h : Stray c s p y top (keys key f lo) n) (hfar : greatestPowerBelow n < p - c) :
    Stray c s (p - greatestPowerBelow n) y top (keys key (layer ce lo (greatestPowerBelow n)
      (n - greatestPowerBelow n) f) lo) (greatestPowerBelow n) := by
  have hinside := h.inside
  have hdvd := h.dvd_greatestPowerBelow
  have hgap := add_le_of_dvd_of_lt hdvd h.dvd hfar
  have hroom : c + s + 1 < 2 ^ (c + s + 1) := Nat.lt_two_pow_self
  have hlt : greatestPowerBelow n < n := by omega
  have hle := le_two_mul_greatestPowerBelow n
  have hunit := Nat.le_of_dvd (greatestPowerBelow_pos n) hdvd
  generalize greatestPowerBelow n = m at *
  have hupper : ∀ i, i + m < n → i < p - m - s → keys key f lo (i + m) = top := fun i hi hi' =>
    h.others (i + m) hi (by omega) (by omega)
  refine ⟨by omega, by omega, ?_, fun i hi => ?_, ?_, fun i hi hi' => ?_, fun i hi hi' hne => ?_⟩
  · rw [show p - m - c = p - c - m by omega]
    exact Nat.dvd_sub h.dvd hdvd
  · rw [keys_layer_low hc (by omega) (by omega), if_pos (by omega), hupper i (by omega) (by omega)]
    exact (min_le_left ..).trans (h.front i hi)
  · obtain ⟨i, hi, heq⟩ := h.front_eq
    refine ⟨i, hi, ?_⟩
    rw [keys_layer_low hc (by omega) (by omega), if_pos (by omega), hupper i (by omega) (by omega),
      heq, min_eq_left hy.le]
  · rw [keys_layer_low hc (by omega) (by omega), if_pos (by omega),
      h.others i (by omega) (by omega) (by omega), h.stray (i + m) (by omega) (by omega)]
    exact min_eq_right hy.le
  · rw [keys_layer_low hc (by omega) (by omega)]
    have htop : keys key f lo i = top := h.others i (by omega) hi' (by omega)
    split_ifs with hir
    · rw [htop, h.others (i + m) (by omega) (by omega) (by omega), min_self]
    · exact htop

/-- Strays that meet the front cells in the first layer are kept apart from them. -/
theorem stray_meets (hc : Comparator key ce) (hy : y < top) (hcs : c + s ≤ 1)
    (h : Stray c s p y top (keys key f lo) n) (hmeet : p - c = greatestPowerBelow n) :
    Apart (keys key (merge ce lo n f) lo) n y := by
  have hbefore := h.before
  have hinside := h.inside
  have hroom : c + s + 1 < 2 ^ (c + s + 1) := Nat.lt_two_pow_self
  have hunit := Nat.le_of_dvd (by omega) h.dvd
  have hone : 1 < n := by omega
  have hlt : greatestPowerBelow n < n := greatestPowerBelow_lt hone
  have hle := le_two_mul_greatestPowerBelow n
  have hfront : ∀ i ≤ c, keys key (layer ce lo (greatestPowerBelow n)
      (n - greatestPowerBelow n) f) lo i = keys key f lo i := fun i hi => by
    rw [keys_layer_low hc (by omega) (by omega)]
    split_ifs with hir
    · refine min_eq_left ((h.front i hi).trans ?_)
      by_cases hic : i = c
      · rw [h.stray _ (by omega) (by omega)]
      · rw [h.others _ (by omega) (by omega) (by omega)]
        exact hy.le
    · rfl
  have hmiddle : ∀ i, c < i → i < greatestPowerBelow n - s → keys key (layer ce lo
      (greatestPowerBelow n) (n - greatestPowerBelow n) f) lo i = top := fun i hi hi' => by
    have htop : keys key f lo i = top := h.others i (by omega) hi (by omega)
    rw [keys_layer_low hc (by omega) (by omega)]
    split_ifs with hir
    · rw [htop, h.others _ (by omega) (by omega) (by omega), min_self]
    · exact htop
  have hall : ∀ i < greatestPowerBelow n, keys key (layer ce lo (greatestPowerBelow n)
      (n - greatestPowerBelow n) f) lo i ≤ top := fun i hi => by
    rw [keys_layer_low hc (by omega) hi]
    split_ifs with hir
    · exact (min_le_left ..).trans (h.le_top hy (by omega))
    · exact h.le_top hy (by omega)
  refine merge_apart hc hone rfl ?_ ?_ ?_ ?_
  · -- only the first cells and the last one can lie below the greatest key
    intro i j k l hij hjk hkl hl
    have hk := hmiddle k (by omega) (by omega)
    refine ⟨fun ⟨_, hkj, _, _⟩ => ?_, fun ⟨hji, _, hli, hlk⟩ => ?_⟩
    · exact absurd (hall j (by omega)) (not_le.mpr (hk ▸ hkj))
    · by_cases hcj : c < j
      · have hj := hmiddle j hcj (by omega)
        exact absurd (hall i (by omega)) (not_le.mpr (hj ▸ hji))
      · have hl' := hmiddle l (by omega) (by omega)
        exact absurd (hall k (by omega)) (not_le.mpr (hl' ▸ hlk))
  · obtain ⟨i, hi, heq⟩ := h.front_eq
    exact ⟨i, by omega, by rw [hfront i hi, heq]⟩
  · exact ⟨c + 1, by omega, by rw [hmiddle (c + 1) (by omega) (by omega)]; exact hy⟩
  · refine ⟨c, by omega, ?_⟩
    rw [keys_layer_high hc (by omega) (by omega),
      h.stray (c + greatestPowerBelow n) (by omega) (by omega)]
    exact max_eq_right (h.front c le_rfl)

theorem merge_apart_of_stray (hc : Comparator key ce) (hy : y < top) (hcs : c + s ≤ 1) (n : Nat) :
    ∀ (lo : Nat) (f : Nat → α) (p : Nat), Stray c s p y top (keys key f lo) n →
      Apart (keys key (merge ce lo n f) lo) n y := by
  induction n using Nat.strong_induction_on with
  | _ n ih =>
    intro lo f p h
    have hbefore := h.before
    have hinside := h.inside
    have hone : 1 < n := by omega
    have hlt := greatestPowerBelow_lt hone
    rcases Nat.lt_trichotomy (p - c) (greatestPowerBelow n) with hnear | hmeet | hfar
    · -- the unit divides both, so the strays are below the split as well
      have hgap := add_le_of_dvd_of_lt h.dvd h.dvd_greatestPowerBelow hnear
      have hroom : c + s + 1 < 2 ^ (c + s + 1) := Nat.lt_two_pow_self
      have h' := stray_low_near hc hy h (by omega)
      exact merge_apart_of_low hc hone (ih _ hlt lo _ p h')
    · exact stray_meets hc hy hcs h hmeet
    · have h' := stray_low_far hc hy h hfar
      exact merge_apart_of_low hc hone (ih _ hlt lo _ _ h')

end Strays

/-! ## Two keys around a smaller one -/

/-- How far cell `i` of a ring of `n` cells lies behind cell `s`. -/
def turn (n s i : Nat) : Nat := if s ≤ i then i - s else i + n - s

/-- Three keys in a row, and a fourth one everywhere else. -/
def crest {γ : Type*} (x v y bot : γ) : Nat → γ
  | 0 => x
  | 1 => v
  | 2 => y
  | _ => bot

theorem crest_of_le {γ : Type*} {x v y bot : γ} {j : Nat} (h : 3 ≤ j) :
    crest x v y bot j = bot := by
  obtain ⟨j, rfl⟩ := Nat.exists_eq_add_of_le' h
  rfl

/-- Behind its first cell a row does not depend on it. -/
theorem crest_succ {γ : Type*} (x x' v y bot : γ) (j : Nat) :
    crest x v y bot (j + 1) = crest x' v y bot (j + 1) := by
  match j with
  | 0 | 1 | j + 2 => rfl

theorem map_crest {γ δ : Type*} (g : γ → δ) (x v y bot : γ) (j : Nat) :
    g (crest x v y bot j) = crest (g x) (g v) (g y) (g bot) j := by
  match j with
  | 0 | 1 | 2 | j + 3 => rfl

/-- Of the two cells that are compared, one lies where it does in the half ring. -/
theorem turn_half {m s i : Nat} (hs : s < 2 * m) (hi : i < m) :
    let s' := if s < m then s else s - m
    turn (2 * m) s i = turn m s' i ∧ turn (2 * m) s (i + m) = turn m s' i + m ∨
      turn (2 * m) s i = turn m s' i + m ∧ turn (2 * m) s (i + m) = turn m s' i := by
  intro s'
  simp only [s', turn]
  split_ifs <;> omega

section Crest

variable {x v bot : β}

theorem le_crest (hx : bot ≤ x) (hv : bot ≤ v) (hy : bot ≤ y) (j : Nat) :
    bot ≤ crest x v y bot j := by
  match j with
  | 0 => exact hx
  | 1 => exact hv
  | 2 => exact hy
  | j + 3 => exact le_rfl

/-- On four cells the outer keys meet, and so do the other two. -/
theorem merge_crest_four (hc : Comparator key ce) (hx : bot ≤ x) (hv : bot ≤ v) (hxy : x ≤ y)
    (hvy : v ≤ y) {s : Nat} (hs : s < 4)
    (h : ∀ i < 4, keys key f lo i = crest x v y bot (turn 4 s i)) :
    ∀ i < 4, keys key (merge ce lo 4 f) lo i = crest x v y bot (turn 4 1 i) := by
  have hsplit : greatestPowerBelow 4 = 2 := greatestPowerBelow_two_pow 1
  have hfour : 1 < 4 := by omega
  obtain ⟨g, hg, hmerge⟩ := merge_high hc.exchanging hfour lo f
  have hmerge' := fun i (hi : i < greatestPowerBelow 4) =>
    merge_low hc.exchanging hfour lo f hi
  rw [hsplit] at hg hmerge hmerge'
  replace hmerge : ∀ i, keys key (merge ce lo 4 f) lo (2 + i) =
      keys key (merge ce (lo + 2) 2 g) (lo + 2) i := fun i => congrArg key (hmerge i)
  replace hmerge' : ∀ i < 2, keys key (merge ce lo 4 f) lo i =
      keys key (merge ce lo 2 (layer ce lo 2 2 f)) lo i := fun i hi => congrArg key (hmerge' i hi)
  have hlow : ∀ i < 2, keys key (layer ce lo 2 2 f) lo i =
      min (crest x v y bot (turn 4 s i)) (crest x v y bot (turn 4 s (i + 2))) := fun i hi => by
    rw [keys_layer_low hc le_rfl hi, if_pos hi, h i (by omega), h (i + 2) (by omega)]
  have hhigh : ∀ i < 2, keys key g (lo + 2) i =
      max (crest x v y bot (turn 4 s i)) (crest x v y bot (turn 4 s (i + 2))) := fun i hi => by
    rw [← h i (by omega), ← h (i + 2) (by omega), ← keys_layer_high hc le_rfl hi]
    exact congrArg key (hg i hi)
  obtain ⟨hfirst, hsecond⟩ := keys_merge_two hc lo (layer ce lo 2 2 f)
  obtain ⟨hthird, hfourth⟩ := keys_merge_two hc (lo + 2) g
  rw [hlow 0 (by omega), hlow 1 (by omega)] at hfirst hsecond
  rw [hhigh 0 (by omega), hhigh 1 (by omega)] at hthird hfourth
  have hmin : keys key (merge ce lo 4 f) lo 0 = bot ∧ keys key (merge ce lo 4 f) lo 1 = x := by
    rw [hmerge' 0 (by omega), hmerge' 1 (by omega), hfirst, hsecond]
    interval_cases s <;> simp [turn, crest, hx, hv, hxy]
  have hmax : keys key (merge ce lo 4 f) lo 2 = v ∧ keys key (merge ce lo 4 f) lo 3 = y := by
    have htwo : keys key (merge ce lo 4 f) lo 2 = _ := hmerge 0
    have hthree : keys key (merge ce lo 4 f) lo 3 = _ := hmerge 1
    rw [htwo, hthree, hthird, hfourth]
    interval_cases s <;> simp [turn, crest, hv, hxy, hvy]
  intro i hi
  interval_cases i
  · exact hmin.1
  · exact hmin.2
  · exact hmax.1
  · exact hmax.2

/-- A merge does not change equal keys. -/
theorem keys_merge_const (hc : Comparator key ce) {c : β} (h : ∀ i < n, keys key f lo i = c) :
    ∀ i < n, keys key (merge ce lo n f) lo i = c := by
  intro i hi
  obtain ⟨j, hj, heq⟩ := (merge_rearranged hc.exchanging lo n f).source (k := lo + i) (by omega)
  rw [keys, heq, ← h (j - lo) (by omega), keys, show lo + (j - lo) = j by omega]

/-- The upper half receives all three keys, in a row again. -/
theorem layer_crest (hc : Comparator key ce) (hx : bot ≤ x) (hv : bot ≤ v) (hxy : x ≤ y)
    {m s lo : Nat} (hm : 3 ≤ m) (hs : s < 2 * m) {f : Nat → α}
    (h : ∀ i < 2 * m, keys key f lo i = crest x v y bot (turn (2 * m) s i)) :
    (∀ i < m, keys key (layer ce lo m m f) lo i = bot) ∧
      ∀ i < m, keys key (layer ce lo m m f) (lo + m) i =
        crest x v y bot (turn m (if s < m then s else s - m) i) := by
  have hhalf := fun i (hi : i < m) => turn_half hs hi
  have hbot : ∀ j, bot ≤ crest x v y bot j := le_crest hx hv (hx.trans hxy)
  have hbeyond : ∀ j, crest x v y bot (j + m) = bot := fun j => crest_of_le (by omega)
  constructor
  · intro i hi
    rw [keys_layer_low hc le_rfl hi, if_pos hi, h i (by omega), h (i + m) (by omega)]
    rcases hhalf i hi with ⟨hi, hi'⟩ | ⟨hi, hi'⟩ <;> rw [hi, hi', hbeyond]
    · exact min_eq_right (hbot _)
    · exact min_eq_left (hbot _)
  · intro i hi
    rw [keys_layer_high hc le_rfl hi, h i (by omega), h (i + m) (by omega)]
    rcases hhalf i hi with ⟨hi, hi'⟩ | ⟨hi, hi'⟩ <;> rw [hi, hi', hbeyond]
    · exact max_eq_left (hbot _)
    · exact max_eq_right (hbot _)

/-- The smaller key stays between the others, and they all end up at the end. -/
theorem merge_crest (hc : Comparator key ce) (hx : bot ≤ x) (hv : bot ≤ v) (hxy : x ≤ y)
    (hvy : v ≤ y) (k : Nat) :
    ∀ lo f s, s < 2 ^ (k + 2) →
      (∀ i < 2 ^ (k + 2), keys key f lo i = crest x v y bot (turn (2 ^ (k + 2)) s i)) →
      ∀ i < 2 ^ (k + 2), keys key (merge ce lo (2 ^ (k + 2)) f) lo i =
        crest x v y bot (turn (2 ^ (k + 2)) (2 ^ (k + 2) - 3) i) := by
  induction k with
  | zero => exact fun lo f s hs h => merge_crest_four hc hx hv hxy hvy hs h
  | succ k ih =>
    intro lo f s hs h
    have hsplit : greatestPowerBelow (2 ^ (k + 1 + 2)) = 2 ^ (k + 2) :=
      greatestPowerBelow_two_pow (k + 2)
    have hfour : 4 ≤ 2 ^ (k + 2) := Nat.pow_le_pow_right (n := 2) (by omega) (by omega : 2 ≤ k + 2)
    have hdouble : 2 ^ (k + 1 + 2) = 2 * 2 ^ (k + 2) := by ring
    have hone : 1 < 2 ^ (k + 1 + 2) := by omega
    obtain ⟨g, hg, hmerge⟩ := merge_high hc.exchanging hone lo f
    have hmerge' := fun i (hi : i < greatestPowerBelow (2 ^ (k + 1 + 2))) =>
      merge_low hc.exchanging hone lo f hi
    have hrest : 2 * 2 ^ (k + 2) - 2 ^ (k + 2) = 2 ^ (k + 2) := by omega
    rw [hsplit, hdouble, hrest] at hg hmerge hmerge'
    rw [hdouble] at hs h ⊢
    clear hsplit hdouble hone hrest
    generalize 2 ^ (k + 2) = m at *
    replace hmerge : ∀ i, keys key (merge ce lo (2 * m) f) lo (m + i) =
        keys key (merge ce (lo + m) m g) (lo + m) i := fun i => congrArg key (hmerge i)
    replace hmerge' : ∀ i < m, keys key (merge ce lo (2 * m) f) lo i =
        keys key (merge ce lo m (layer ce lo m m f)) lo i := fun i hi => congrArg key (hmerge' i hi)
    have hs' : (if s < m then s else s - m) < m := by split_ifs <;> omega
    obtain ⟨hlow, hhigh⟩ := layer_crest hc hx hv hxy (by omega) hs h
    replace hhigh : ∀ i < m, keys key g (lo + m) i = _ := fun i hi =>
      (congrArg key (hg i hi)).trans (hhigh i hi)
    generalize (if s < m then s else s - m) = s' at *
    intro i hi
    by_cases hlower : i < m
    · rw [hmerge' i hlower, keys_merge_const hc hlow i hlower]
      refine (crest_of_le ?_).symm
      rw [turn, if_neg (by omega)]
      omega
    · obtain ⟨i, rfl⟩ := Nat.exists_eq_add_of_le (Nat.le_of_not_lt hlower)
      rw [hmerge, ih (lo + m) g s' hs' hhigh i (by omega)]
      by_cases hlast : m - 3 ≤ i
      · rw [turn, turn, if_pos hlast, if_pos (by omega)]
        congr 1
        omega
      · rw [turn, turn, if_neg hlast, if_neg (by omega), crest_of_le (by omega),
          crest_of_le (by omega)]

end Crest

end CoVault.Library.SortNetwork
