import Mathlib

/-!
# Positional numbers

The value of a row of digits, the highest last. Comparing two rows digit by digit
leaves two masks, the positions where the one is greater and those where the other is;
read as binary numbers the masks compare like the values do.
-/

namespace CoVault.Library.Positional

/-- The number with the `n` digits `f 0, ..., f (n - 1)` in base `B`. -/
def value (B : Nat) (f : Nat → Nat) : Nat → Nat
  | 0 => 0
  | n + 1 => f n * B ^ n + value B f n

variable {B : Nat} {f g : Nat → Nat} {n : Nat}

theorem value_lt (hf : ∀ i < n, f i < B) : value B f n < B ^ n := by
  induction n with
  | zero => simp [value]
  | succ n ih =>
    have htop : f n + 1 ≤ B := hf n (by omega)
    have hlow := ih fun i hi => hf i (by omega)
    calc value B f (n + 1) < f n * B ^ n + B ^ n := by simp only [value]; omega
      _ = (f n + 1) * B ^ n := by ring
      _ ≤ B * B ^ n := Nat.mul_le_mul_right _ htop
      _ = B ^ (n + 1) := by ring

/-- A greater top digit decides. -/
theorem top_lt {a b p q P : Nat} (hab : a < b) (hp : p < P) : a * P + p < b * P + q := by
  have : (a + 1) * P ≤ b * P := Nat.mul_le_mul_right _ hab
  linarith [Nat.add_mul a 1 P]

theorem value_inj (hf : ∀ i < n, f i < B) (hg : ∀ i < n, g i < B) :
    value B f n = value B g n ↔ ∀ i < n, f i = g i := by
  induction n with
  | zero => simp [value]
  | succ n ih =>
    have hf' : ∀ i < n, f i < B := fun i hi => hf i (by omega)
    have hg' : ∀ i < n, g i < B := fun i hi => hg i (by omega)
    have hlowf := value_lt hf'
    have hlowg := value_lt hg'
    constructor
    · intro h
      simp only [value] at h
      have htop : f n = g n := by
        rcases lt_trichotomy (f n) (g n) with hlt | heq | hlt
        · have := top_lt (q := value B g n) hlt hlowf
          omega
        · exact heq
        · have := top_lt (q := value B f n) hlt hlowg
          omega
      rw [htop, Nat.add_left_cancel_iff] at h
      intro i hi
      rcases Nat.lt_succ_iff_lt_or_eq.mp hi with hlt | rfl
      · exact (ih hf' hg').mp h i hlt
      · exact htop
    · intro h
      rw [value, value, h n (by omega), (ih hf' hg').mpr fun i hi => h i (by omega)]

/-- The masks of a comparison compare like the numbers. -/
theorem mask_lt_iff (hf : ∀ i < n, f i < B) (hg : ∀ i < n, g i < B) :
    value 2 (fun i => (decide (g i < f i)).toNat) n <
        value 2 (fun i => (decide (f i < g i)).toNat) n ↔ value B f n < value B g n := by
  induction n with
  | zero => simp [value]
  | succ n ih =>
    have hf' : ∀ i < n, f i < B := fun i hi => hf i (by omega)
    have hg' : ∀ i < n, g i < B := fun i hi => hg i (by omega)
    have hmask : ∀ p : Nat → Bool, value 2 (fun i => (p i).toNat) n < 2 ^ n := fun p =>
      value_lt fun i _ => Bool.toNat_lt _
    have hm := hmask fun i => decide (g i < f i)
    have hm' := hmask fun i => decide (f i < g i)
    have hlowf := value_lt hf'
    have hlowg := value_lt hg'
    simp only [value]
    rcases lt_trichotomy (f n) (g n) with hlt | heq | hlt
    · have := top_lt (q := value B g n) hlt hlowf
      simp only [hlt, not_lt_of_gt hlt, decide_true, decide_false, Bool.toNat_true,
        Bool.toNat_false]
      omega
    · simp only [heq, lt_irrefl, decide_false, Bool.toNat_false, Nat.zero_mul, Nat.zero_add,
        Nat.add_lt_add_iff_left]
      exact ih hf' hg'
    · have := top_lt (q := value B f n) hlt hlowg
      simp only [hlt, not_lt_of_gt hlt, decide_true, decide_false, Bool.toNat_true,
        Bool.toNat_false]
      omega

end CoVault.Library.Positional
