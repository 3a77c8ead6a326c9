import Mathlib
import CoVault.Library.Cells

/-!
# Compaction by powers of two

Every cell that is to stay knows how many blanks stand before it. In round `i` a cell moves
`2 ^ i` cells towards the front if bit `i` of that number is set, and leaves a blank behind. No
two cells ever meet, because from one to the next the number grows by no more than the blanks
in between. In the end the cells stand in the order in which they came, followed by blanks.
-/

namespace CoVault.Library.Compaction

open Cells

variable {α : Type*}

/-- The cells, and the distance each still has to go in units of the round. -/
structure State (α : Type*) where
  data : Nat → α
  distance : Nat → Nat

section Algorithm

variable (blank : α)

/-- Cell `j` in round `i`. -/
def move (i : Nat) (s : State α) (j : Nat) : State α :=
  if s.distance j % 2 = 1 then
    ⟨Function.update (Function.update s.data (j - 2 ^ i) (s.data j)) j blank,
      Function.update (Function.update s.distance (j - 2 ^ i) (s.distance j / 2)) j 0⟩
  else ⟨s.data, Function.update s.distance j (s.distance j / 2)⟩

/-- Round `i`, from its first cell that can move on. -/
def round (size : Nat) (s : State α) (i : Nat) : State α :=
  (List.range' (2 ^ i) (size - 2 ^ i)).foldl (move blank i) s

def compact (size rounds : Nat) (s : State α) : State α :=
  (List.range rounds).foldl (round blank size) s

/-- Round `i` when its first `n` cells are done. -/
def progress (size i n : Nat) (s : State α) : State α :=
  (List.range' (2 ^ i) n).foldl (move blank i) (compact blank size i s)

variable {σ : Type*} (toState : σ → State α) (cell : Nat → σ → Nat → σ)
  (hcell : ∀ i s j, toState (cell i s j) = move blank i (toState s) j)
include hcell

/-- What moves its cells in the same way compacts in the same way. -/
theorem compact_of_move (size rounds : Nat) (s : σ) :
    toState ((List.range rounds).foldl
      (fun s i => (List.range' (2 ^ i) (size - 2 ^ i)).foldl (cell i) s) s) =
      compact blank size rounds (toState s) := by
  refine (List.foldl_hom toState fun s i => ?_).symm
  exact List.foldl_hom toState fun s j => (hcell i s j).symm

theorem progress_of_move (size i n : Nat) (s : σ) :
    toState ((List.range' (2 ^ i) n).foldl (cell i) ((List.range i).foldl
      (fun s i => (List.range' (2 ^ i) (size - 2 ^ i)).foldl (cell i) s) s)) =
      progress blank size i n (toState s) := by
  rw [progress, ← compact_of_move blank toState cell hcell]
  exact (List.foldl_hom toState fun s j => (hcell i s j).symm).symm

end Algorithm

/-! ## Distances in words -/

section Words

variable {w : Nat}

theorem and_one_ne_zero (hw : 0 < w) (d : BitVec w) :
    (d &&& 1 != 0) = decide (d.toNat % 2 = 1) := by
  have hone : 1 % 2 ^ w = 1 := Nat.mod_eq_of_lt (Nat.one_lt_two_pow (by omega))
  rw [Bool.eq_iff_iff, bne_iff_ne, ne_eq, ← BitVec.toNat_inj, decide_eq_true_iff, BitVec.toNat_and]
  simp [hone, Nat.and_one_is_mod]

/-- Masking a distance with the complement of the move bit. -/
theorem and_fill (d : BitVec w) (move : Bool) :
    d &&& BitVec.fill w (!move) = if move then 0 else d := by
  cases move
  · rw [Bool.not_false, BitVec.fill_true, BitVec.and_allOnes]
    rfl
  · simp [BitVec.fill]

/-- Shifting and masking words moves a cell by their lowest bit. -/
theorem move_toNat (hw : 0 < w) (blank : α) (i : Nat) (data : Nat → α) (distance : Nat → BitVec w)
    (j : Nat) : move blank i ⟨data, BitVec.toNat ∘ distance⟩ j =
      let left := distance j &&& 1 != 0
      let data := Function.update data (j - 2 ^ i) (if left then data j else data (j - 2 ^ i))
      ⟨Function.update data j (if left then blank else data j), BitVec.toNat ∘
        Function.update (Function.update distance (j - 2 ^ i)
          (if left then distance j >>> 1 else distance (j - 2 ^ i))) j
          (if left then 0 else distance j >>> 1)⟩ := by
  have hhalf : (distance j >>> 1).toNat = (distance j).toNat / 2 := by
    simp [Nat.shiftRight_succ]
  simp only [and_one_ne_zero hw, move, Function.comp_apply, Function.comp_update]
  by_cases hodd : (distance j).toNat % 2 = 1
  · simp only [hodd, decide_true, if_true, hhalf]
    rfl
  · have hself : Function.update (BitVec.toNat ∘ distance) (j - 2 ^ i) (distance (j - 2 ^ i)).toNat =
        BitVec.toNat ∘ distance := Function.update_eq_self _ (BitVec.toNat ∘ distance)
    simp only [hodd, decide_false, Bool.false_eq_true, if_false, Function.update_eq_self, hhalf,
      hself]

end Words

variable {blank : α} {f : Nat → α} {size i j p : Nat}

/-- The cells that stay are where `pos` says, all others are blank. -/
structure Placed (blank : α) (f : Nat → α) (size : Nat) (pos rest : Nat → Nat) (s : State α) :
    Prop where
  kept : ∀ p < size, f p ≠ blank → s.data (pos p) = f p ∧ s.distance (pos p) = rest p
  empty : ∀ k < size, (∀ p < size, f p ≠ blank → pos p ≠ k) → s.data k = blank ∧ s.distance k = 0
  outside : ∀ k, size ≤ k → s.data k = f k

theorem Placed.congr {pos pos' rest rest' : Nat → Nat} {s : State α}
    (h : Placed blank f size pos rest s)
    (heq : ∀ p < size, f p ≠ blank → pos' p = pos p ∧ rest' p = rest p) :
    Placed blank f size pos' rest' s where
  kept p hp hf := by
    rw [(heq p hp hf).1, (heq p hp hf).2]
    exact h.kept p hp hf
  empty k hk hnone := h.empty k hk fun p hp hf => (heq p hp hf).1 ▸ hnone p hp hf
  outside := h.outside

variable [DecidableEq α]

/-- The blanks before cell `p`. -/
def gaps (blank : α) (f : Nat → α) (p : Nat) : Nat :=
  (List.range p).countP fun k => decide (f k = blank)

theorem gaps_succ (blank : α) (f : Nat → α) (p : Nat) :
    gaps blank f (p + 1) = gaps blank f p + if f p = blank then 1 else 0 := by
  simp [gaps, List.range_succ, List.countP_append]

/-- A loop that counts the blanks in words, and measures each cell by the count so far. -/
theorem measure_step {w n : Nat} {distance : Nat → BitVec w} {count : BitVec w}
    (hdistance : ∀ k < n, distance k = if f k = blank then 0 else BitVec.ofNat w (gaps blank f k))
    (hcount : count = BitVec.ofNat w (gaps blank f n)) :
    (∀ k < n + 1, Function.update distance n (if f n = blank then 0 else count) k =
      if f k = blank then 0 else BitVec.ofNat w (gaps blank f k)) ∧
    (count + if f n = blank then 1 else 0) = BitVec.ofNat w (gaps blank f (n + 1)) := by
  constructor
  · intro k hk
    by_cases hkn : k = n
    · rw [hkn, Function.update_self, hcount]
    · rw [Function.update_of_ne hkn, hdistance k (by omega)]
  · rw [hcount, gaps_succ]
    split_ifs <;> simp [BitVec.ofNat_add]

theorem gaps_le (blank : α) (f : Nat → α) (p : Nat) : gaps blank f p ≤ p := by
  simpa [gaps] using List.countP_le_length (p := fun k => decide (f k = blank)) (l := List.range p)

theorem gaps_congr {g : Nat → α} (h : ∀ k < p, f k = g k) : gaps blank f p = gaps blank g p :=
  List.countP_congr fun k hk => by rw [h k (List.mem_range.mp hk)]

/-- Between two cells there are at most as many blanks as cells. -/
theorem gaps_add (hp : f p ≠ blank) (n : Nat) :
    ∃ t ≤ n, gaps blank f (p + 1 + n) = gaps blank f p + t := by
  induction n with
  | zero => exact ⟨0, le_rfl, by rw [Nat.add_zero, gaps_succ, if_neg hp]⟩
  | succ n ih =>
    obtain ⟨t, ht, heq⟩ := ih
    rw [← Nat.add_assoc, gaps_succ, heq]
    by_cases hn : f (p + 1 + n) = blank
    · exact ⟨t + 1, by omega, by rw [if_pos hn, Nat.add_assoc]⟩
    · exact ⟨t, by omega, by rw [if_neg hn]; rfl⟩

/-- Where cell `p` has got to before round `i`. -/
def position (blank : α) (f : Nat → α) (i p : Nat) : Nat := p - gaps blank f p % 2 ^ i

@[simp] theorem position_zero (blank : α) (f : Nat → α) (p : Nat) : position blank f 0 p = p := by
  rw [position, pow_zero, Nat.mod_one, Nat.sub_zero]

theorem position_lt {p' : Nat} (hp : f p ≠ blank) (hlt : p < p') (i : Nat) :
    position blank f i p < position blank f i p' := by
  obtain ⟨t, ht, heq⟩ := gaps_add hp (p' - (p + 1))
  rw [show p + 1 + (p' - (p + 1)) = p' by omega] at heq
  have hmod : gaps blank f p' % 2 ^ i ≤ gaps blank f p % 2 ^ i + t := by
    rw [heq, ← Nat.mod_add_mod]
    exact Nat.mod_le ..
  have hle := gaps_le blank f p
  have hle' := Nat.mod_le (gaps blank f p) (2 ^ i)
  unfold position
  omega

theorem position_inj {p' : Nat} (hp : f p ≠ blank) (hp' : f p' ≠ blank)
    (h : position blank f i p = position blank f i p') : p = p' := by
  rcases Nat.lt_trichotomy p p' with hlt | heq | hlt
  · have := position_lt hp hlt i
    omega
  · exact heq
  · have := position_lt hp' hlt i
    omega

theorem position_succ (blank : α) (f : Nat → α) (i p : Nat) : position blank f (i + 1) p =
    position blank f i p - 2 ^ i * (gaps blank f p / 2 ^ i % 2) := by
  rw [position, position, Nat.mod_pow_succ, Nat.sub_sub]

/-- The way still to go is not longer than the way to the front. -/
theorem rest_le_position (blank : α) (f : Nat → α) (i p : Nat) :
    2 ^ i * (gaps blank f p / 2 ^ i) ≤ position blank f i p := by
  have hle := gaps_le blank f p
  have hdiv := Nat.div_add_mod (gaps blank f p) (2 ^ i)
  unfold position
  omega

/-- Where cell `p` is in round `i` once the cells before `j` have moved. -/
def during (blank : α) (f : Nat → α) (i j p : Nat) : Nat :=
  if position blank f i p < j then position blank f (i + 1) p else position blank f i p

/-- What cell `p` then has to go. -/
def rest (blank : α) (f : Nat → α) (i j p : Nat) : Nat :=
  if position blank f i p < j then gaps blank f p / 2 ^ (i + 1) else gaps blank f p / 2 ^ i

theorem position_succ_le (blank : α) (f : Nat → α) (i p : Nat) :
    position blank f (i + 1) p ≤ position blank f i p := by
  rw [position_succ]
  exact Nat.sub_le ..

/-- Cells that have moved are out of the way, and so are those that have not. -/
theorem during_ne {p' t : Nat} (hp : f p ≠ blank) (hp' : f p' ≠ blank) (hne : p' ≠ p)
    (hpos : position blank f i p = j) (ht : t = j ∨ t = position blank f (i + 1) p) :
    during blank f i j p' ≠ t := by
  have hle := position_succ_le blank f i p
  have hle' := position_succ_le blank f i p'
  have hother : position blank f i p' ≠ j := fun heq =>
    hne (position_inj hp' hp (heq.trans hpos.symm))
  unfold during
  split_ifs with hlt
  · rcases ht with rfl | rfl
    · omega
    · exact fun heq => hne (position_inj hp' hp heq)
  · rcases ht with rfl | rfl <;> omega

theorem during_succ {p' : Nat} (hother : position blank f i p' ≠ j) :
    during blank f i (j + 1) p' = during blank f i j p' ∧
      rest blank f i (j + 1) p' = rest blank f i j p' := by
  unfold during rest
  split_ifs <;> first | exact ⟨rfl, rfl⟩ | omega

/-- What is free in the next step, except for the place of `p`, is free already. -/
theorem during_ne_of_succ (hf : f p ≠ blank) (hpos : position blank f i p = j) {k : Nat}
    (hkj : k ≠ j) (hnone : ∀ p' < size, f p' ≠ blank → during blank f i (j + 1) p' ≠ k) :
    ∀ p' < size, f p' ≠ blank → during blank f i j p' ≠ k := by
  intro p' hp' hf'
  by_cases hne : p' = p
  · have hhere : during blank f i j p = j := by simp [during, hpos]
    rw [hne, hhere]
    exact hkj.symm
  · rw [← (during_succ fun heq => hne (position_inj hf' hf (heq.trans hpos.symm))).1]
    exact hnone p' hp' hf'

section Move

variable {s : State α} (h : Placed blank f size (during blank f i j) (rest blank f i j) s)
include h

/-- A cell whose number has the bit moves to a place that no other cell takes. -/
theorem placed_move_odd (hp : p < size) (hf : f p ≠ blank) (hpos : position blank f i p = j)
    (hodd : gaps blank f p / 2 ^ i % 2 = 1) :
    Placed blank f size (during blank f i (j + 1)) (rest blank f i (j + 1)) (move blank i s j) := by
  have hpow := Nat.two_pow_pos i
  have hle : position blank f i p ≤ p := Nat.sub_le ..
  have hsucc := position_succ blank f i p
  rw [hodd, hpos, Nat.mul_one] at hsucc
  have hroom : 2 ^ i ≤ j := by
    have hrest := rest_le_position blank f i p
    have hone : 1 ≤ gaps blank f p / 2 ^ i :=
      Nat.one_le_iff_ne_zero.mpr fun hzero => by simp [hzero] at hodd
    have := Nat.mul_le_mul_left (2 ^ i) hone
    omega
  have hhere : during blank f i j p = j ∧ rest blank f i j p = gaps blank f p / 2 ^ i := by
    simp [during, rest, hpos]
  have hnext : during blank f i (j + 1) p = j - 2 ^ i ∧
      rest blank f i (j + 1) p = gaps blank f p / 2 ^ i / 2 := by
    simp [during, rest, hpos, hsucc, pow_succ, Nat.div_div_eq_div_mul]
  have hothers : ∀ p', f p' ≠ blank → p' ≠ p →
      during blank f i (j + 1) p' = during blank f i j p' ∧
      rest blank f i (j + 1) p' = rest blank f i j p' ∧
      during blank f i j p' ≠ j ∧ during blank f i j p' ≠ j - 2 ^ i := fun p' hf' hne =>
    have hsame := during_succ fun heq => hne (position_inj hf' hf (heq.trans hpos.symm))
    ⟨hsame.1, hsame.2, during_ne hf hf' hne hpos (.inl rfl),
      during_ne hf hf' hne hpos (.inr hsucc.symm)⟩
  obtain ⟨hdata, hdistance⟩ := h.kept p hp hf
  rw [hhere.1] at hdata hdistance
  rw [hhere.2] at hdistance
  have hmove : move blank i s j = ⟨Function.update (Function.update s.data (j - 2 ^ i) (f p)) j
      blank, Function.update (Function.update s.distance (j - 2 ^ i)
        (gaps blank f p / 2 ^ i / 2)) j 0⟩ := by
    rw [move, if_pos (by rw [hdistance, hodd]), hdata, hdistance]
  rw [hmove]
  refine ⟨fun p' hp' hf' => ?_, fun k hk hnone => ?_, fun k hk => ?_⟩
  · by_cases hne : p' = p
    · subst hne
      rw [hnext.1, hnext.2]
      simp [Function.update_of_ne (show j - 2 ^ i ≠ j by omega)]
    · obtain ⟨hsame, hrest, hj, ht⟩ := hothers p' hf' hne
      rw [hsame, hrest]
      simpa [Function.update_of_ne hj, Function.update_of_ne ht] using h.kept p' hp' hf'
  · by_cases hkj : k = j
    · simp [hkj]
    · have hkt : k ≠ j - 2 ^ i := fun heq => hnone p hp hf (by rw [hnext.1, heq])
      simp only [Function.update_of_ne hkj, Function.update_of_ne hkt]
      exact h.empty k hk (during_ne_of_succ hf hpos hkj hnone)
  · simp only [Function.update_of_ne (show k ≠ j by omega),
      Function.update_of_ne (show k ≠ j - 2 ^ i by omega)]
    exact h.outside k hk

theorem placed_move_even (hp : p < size) (hf : f p ≠ blank) (hpos : position blank f i p = j)
    (heven : gaps blank f p / 2 ^ i % 2 = 0) :
    Placed blank f size (during blank f i (j + 1)) (rest blank f i (j + 1)) (move blank i s j) := by
  have hsucc := position_succ blank f i p
  rw [heven, hpos, Nat.mul_zero, Nat.sub_zero] at hsucc
  have hhere : during blank f i j p = j ∧ rest blank f i j p = gaps blank f p / 2 ^ i := by
    simp [during, rest, hpos]
  have hnext : during blank f i (j + 1) p = j ∧
      rest blank f i (j + 1) p = gaps blank f p / 2 ^ i / 2 := by
    simp [during, rest, hpos, hsucc, pow_succ, Nat.div_div_eq_div_mul]
  have hothers : ∀ p', f p' ≠ blank → p' ≠ p →
      during blank f i (j + 1) p' = during blank f i j p' ∧
      rest blank f i (j + 1) p' = rest blank f i j p' ∧ during blank f i j p' ≠ j :=
    fun p' hf' hne =>
      have hsame := during_succ fun heq => hne (position_inj hf' hf (heq.trans hpos.symm))
      ⟨hsame.1, hsame.2, during_ne hf hf' hne hpos (.inl rfl)⟩
  obtain ⟨hdata, hdistance⟩ := h.kept p hp hf
  rw [hhere.1] at hdata hdistance
  rw [hhere.2] at hdistance
  have hmove : move blank i s j =
      ⟨s.data, Function.update s.distance j (gaps blank f p / 2 ^ i / 2)⟩ := by
    rw [move, if_neg (by rw [hdistance]; omega), hdistance]
  rw [hmove]
  refine ⟨fun p' hp' hf' => ?_, fun k hk hnone => ?_, h.outside⟩
  · by_cases hne : p' = p
    · subst hne
      rw [hnext.1, hnext.2]
      simp [hdata]
    · obtain ⟨hsame, hrest, hj⟩ := hothers p' hf' hne
      rw [hsame, hrest]
      simpa [Function.update_of_ne hj] using h.kept p' hp' hf'
  · have hkj : k ≠ j := fun heq => hnone p hp hf (by rw [hnext.1, heq])
    simp only [Function.update_of_ne hkj]
    exact h.empty k hk (during_ne_of_succ hf hpos hkj hnone)

theorem placed_move_free (hj : j < size)
    (hfree : ∀ p < size, f p ≠ blank → position blank f i p ≠ j) :
    Placed blank f size (during blank f i (j + 1)) (rest blank f i (j + 1)) (move blank i s j) := by
  have hzero : s.distance j = 0 := by
    refine (h.empty j hj fun p hp hf => ?_).2
    have hne := hfree p hp hf
    have := position_succ_le blank f i p
    unfold during
    split_ifs <;> omega
  have hmove : move blank i s j = s := by
    rw [move, if_neg (by omega), show s.distance j / 2 = s.distance j by omega,
      Function.update_eq_self]
  rw [hmove]
  exact h.congr fun p hp hf => during_succ (hfree p hp hf)

theorem placed_move (hj : j < size) :
    Placed blank f size (during blank f i (j + 1)) (rest blank f i (j + 1)) (move blank i s j) := by
  by_cases hcell : ∃ p < size, f p ≠ blank ∧ position blank f i p = j
  · obtain ⟨p, hp, hf, hpos⟩ := hcell
    rcases Nat.mod_two_eq_zero_or_one (gaps blank f p / 2 ^ i) with heven | hodd
    · exact placed_move_even h hp hf hpos heven
    · exact placed_move_odd h hp hf hpos hodd
  · push Not at hcell
    exact placed_move_free h hj hcell

end Move

/-- Cells that are too near to the front have nothing left to go. -/
theorem during_start (blank : α) (f : Nat → α) (i p : Nat) :
    during blank f i (2 ^ i) p = position blank f i p ∧
      rest blank f i (2 ^ i) p = gaps blank f p / 2 ^ i := by
  have hrest := rest_le_position blank f i p
  unfold during rest
  split_ifs with hlt
  · have hzero : gaps blank f p / 2 ^ i = 0 := by
      by_contra hne
      have := Nat.mul_le_mul_left (2 ^ i) (Nat.one_le_iff_ne_zero.mpr hne)
      omega
    rw [position_succ, pow_succ, ← Nat.div_div_eq_div_mul, hzero]
    simp
  · exact ⟨rfl, rfl⟩

/-- In the middle of a round the cells up to there have moved. -/
theorem placed_moves {s : State α}
    (h : Placed blank f size (position blank f i) (fun p => gaps blank f p / 2 ^ i) s) (n : Nat)
    (hn : n ≤ size - 2 ^ i) :
    Placed blank f size (during blank f i (2 ^ i + n)) (rest blank f i (2 ^ i + n))
      ((List.range' (2 ^ i) n).foldl (move blank i) s) := by
  induction n with
  | zero => exact h.congr fun p _ _ => during_start blank f i p
  | succ n ih =>
    rw [List.range'_1_concat, List.foldl_concat]
    have hcell : 2 ^ i + n < size := by omega
    exact placed_move (ih (by omega)) hcell

/-- One round takes every cell to its next place. -/
theorem placed_round {s : State α}
    (h : Placed blank f size (position blank f i) (fun p => gaps blank f p / 2 ^ i) s) :
    Placed blank f size (position blank f (i + 1)) (fun p => gaps blank f p / 2 ^ (i + 1))
      (round blank size s i) := by
  refine (placed_moves h _ le_rfl).congr fun p hp hf => ?_
  have hlt : position blank f i p < 2 ^ i + (size - 2 ^ i) := by
    have : position blank f i p ≤ p := Nat.sub_le ..
    omega
  simp [during, rest, hlt]

/-- The distances with which a compaction starts. -/
def Measured (blank : α) (f : Nat → α) (size : Nat) (distance : Nat → Nat) : Prop :=
  ∀ p < size, distance p = if f p = blank then 0 else gaps blank f p

theorem placed_compact {distance : Nat → Nat} (h : Measured blank f size distance)
    (rounds : Nat) :
    Placed blank f size (position blank f rounds) (fun p => gaps blank f p / 2 ^ rounds)
      (compact blank size rounds ⟨f, distance⟩) := by
  induction rounds with
  | zero =>
    refine ⟨fun p hp hf => ?_, fun k hk hnone => ?_, fun k _ => rfl⟩
    · simp [compact, h p hp, hf]
    · have hblank : f k = blank := by
        by_contra hf
        exact hnone k hk hf (position_zero ..)
      exact ⟨hblank, (h k hk).trans (if_pos hblank)⟩
  | succ rounds ih =>
    rw [compact, List.range_succ, List.foldl_concat]
    exact placed_round ih

/-- Whatever moves goes to a blank cell. -/
theorem target_free {distance : Nat → Nat} (h : Measured blank f size distance) (i n : Nat)
    (hn : 2 ^ i + n < size)
    (hodd : (progress blank size i n ⟨f, distance⟩).distance (2 ^ i + n) % 2 = 1) :
    (progress blank size i n ⟨f, distance⟩).data n = blank := by
  have hplaced := placed_moves (placed_compact h i) n (by omega)
  have hcell : ∃ p < size, f p ≠ blank ∧ during blank f i (2 ^ i + n) p = 2 ^ i + n := by
    by_contra hnone
    push Not at hnone
    rw [progress, (hplaced.empty _ hn hnone).2] at hodd
    omega
  obtain ⟨p, hp, hf, hduring⟩ := hcell
  have hpos : position blank f i p = 2 ^ i + n := by
    have hle := position_succ_le blank f i p
    unfold during at hduring
    split_ifs at hduring <;> omega
  have hgaps : gaps blank f p / 2 ^ i % 2 = 1 := by
    have hrest := (hplaced.kept p hp hf).2
    rw [hduring, rest, if_neg (by omega)] at hrest
    rwa [progress, hrest] at hodd
  have hsucc := position_succ blank f i p
  rw [hgaps, hpos] at hsucc
  refine (hplaced.empty n (by omega) fun p' hp' hf' => ?_).1
  by_cases hne : p' = p
  · have := Nat.two_pow_pos i
    rw [hne, hduring]
    omega
  · exact during_ne hf hf' hne hpos (.inr (by omega))

/-- With enough rounds, the cells that are not blank come first, in their order. -/
theorem window_compact {distance : Nat → Nat} (h : Measured blank f size distance) {rounds : Nat}
    (hrounds : size ≤ 2 ^ rounds) :
    window (compact blank size rounds ⟨f, distance⟩).data 0 size =
      (window f 0 size).filter (fun x => decide (x ≠ blank)) ++
        List.replicate (gaps blank f size) blank := by
  have hplaced := placed_compact h rounds
  have hposition : ∀ p < size, position blank f rounds p = p - gaps blank f p := fun p hp => by
    rw [position, Nat.mod_eq_of_lt]
    have := gaps_le blank f p
    omega
  have hfront : ∀ m ≤ size, window (compact blank size rounds ⟨f, distance⟩).data 0
      (m - gaps blank f m) = (window f 0 m).filter fun x => decide (x ≠ blank) := by
    intro m
    induction m with
    | zero => exact fun _ => rfl
    | succ m ih =>
      intro hm
      have hle := gaps_le blank f m
      rw [window_succ, List.filter_append, ← ih (by omega), gaps_succ, Nat.zero_add]
      by_cases hf : f m = blank
      · rw [if_pos hf, show m + 1 - (gaps blank f m + 1) = m - gaps blank f m by omega]
        simp [hf]
      · rw [if_neg hf, show m + 1 - (gaps blank f m + 0) = m - gaps blank f m + 1 by omega,
          window_succ, Nat.zero_add, ← hposition m (by omega), (hplaced.kept m (by omega) hf).1]
        simp [hf]
  have hback : ∀ k < gaps blank f size,
      (compact blank size rounds ⟨f, distance⟩).data (size - gaps blank f size + k) = blank := by
    intro k hk
    have hle := gaps_le blank f size
    refine (hplaced.empty _ (by omega) fun p hp hf => ?_).1
    obtain ⟨t, ht, heq⟩ := gaps_add hf (size - (p + 1))
    rw [show p + 1 + (size - (p + 1)) = size by omega] at heq
    have := gaps_le blank f p
    rw [hposition p hp]
    omega
  have hsplit : size = size - gaps blank f size + gaps blank f size :=
    (Nat.sub_add_cancel (gaps_le blank f size)).symm
  rw [show window (compact blank size rounds ⟨f, distance⟩).data 0 size =
    window (compact blank size rounds ⟨f, distance⟩).data 0
      (size - gaps blank f size + gaps blank f size) by rw [← hsplit], window_append,
    hfront size le_rfl]
  congr 1
  refine List.eq_replicate_iff.mpr ⟨by simp, fun x hx => ?_⟩
  obtain ⟨k, hk, rfl⟩ := mem_window.mp hx
  rw [Nat.zero_add]
  exact hback k hk

end CoVault.Library.Compaction
