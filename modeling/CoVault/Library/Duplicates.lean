import CoVault.Library.Cells

/-!
# Marking duplicates of neighbours

Every entry that equals the next one is blanked, so the last of each run stays. In a sorted
list equal entries are neighbours and each value stays exactly once; a value that comes back
after another one stays twice.
-/

namespace CoVault.Library.Duplicates

open Cells

variable {α : Type*} [DecidableEq α]

/-- The list with every entry blanked that equals the next one. -/
def markRuns (blank : α) : List α → List α
  | [] => []
  | [x] => [x]
  | x :: y :: l => (if x = y then blank else x) :: markRuns blank (y :: l)

variable {blank w : α}

/-- What stays. -/
abbrev unmarked (blank : α) (l : List α) : List α :=
  (markRuns blank l).filter fun x => decide (x ≠ blank)

theorem mem_markRuns (hw : w ≠ blank) (l : List α) : w ∈ markRuns blank l ↔ w ∈ l := by
  induction l using markRuns.induct with
  | case1 => rfl
  | case2 x => rfl
  | case3 x y l ih =>
    rw [markRuns, List.mem_cons, ih, List.mem_cons (a := w) (b := x)]
    split_ifs with hxy
    · simp [hw, hxy]
    · rfl

theorem mem_unmarked {l : List α} : w ∈ unmarked blank l ↔ w ≠ blank ∧ w ∈ l := by
  rw [List.mem_filter, decide_eq_true_iff, and_comm]
  exact and_congr_right fun hw => mem_markRuns hw l

theorem unmarked_sublist (blank : α) (l : List α) : (unmarked blank l).Sublist l := by
  induction l using markRuns.induct with
  | case1 => exact List.Sublist.slnil
  | case2 x => exact List.filter_sublist
  | case3 x y l ih =>
    rw [unmarked, markRuns]
    split_ifs
    · rw [List.filter_cons_of_neg (by simp)]
      exact ih.cons x
    · rw [List.filter_cons]
      split
      · exact ih.cons_cons x
      · exact ih.cons x

/-- In a sorted list each value stays once, in its place. -/
theorem pairwise_unmarked (blank : α) {r : α → α → Prop} (htrans : ∀ a b c, r a b → r b c → r a c)
    {l : List α} (h : l.Pairwise fun a b => a = b ∨ r a b) : (unmarked blank l).Pairwise r := by
  induction l using markRuns.induct with
  | case1 => exact .nil
  | case2 x => exact List.Pairwise.filter _ (List.pairwise_singleton r x)
  | case3 x y l ih =>
    obtain ⟨hx, htail⟩ := List.pairwise_cons.mp h
    have hrest := ih htail
    rw [unmarked, markRuns]
    by_cases hkeep : x = y ∨ x = blank
    · have hblank : (if x = y then blank else x) = blank := by
        rcases hkeep with hxy | hxb
        · exact if_pos hxy
        · split_ifs <;> first | rfl | exact hxb
      rw [hblank, List.filter_cons_of_neg (by simp)]
      exact hrest
    · push Not at hkeep
      rw [if_neg hkeep.1, List.filter_cons_of_pos (by simpa using hkeep.2), List.pairwise_cons]
      refine ⟨fun w hw => ?_, hrest⟩
      have hxy := (hx y (by simp)).resolve_left hkeep.1
      rcases List.mem_cons.mp (mem_unmarked.mp hw).2 with rfl | hw
      · exact hxy
      · rcases (List.pairwise_cons.mp htail).1 w hw with rfl | hyw
        · exact hxy
        · exact htrans x y w hxy hyw

/-- If no value is there twice, nothing but blanks goes. -/
theorem unmarked_of_nodup {l : List α} (h : (l.filter fun x => decide (x ≠ blank)).Nodup) :
    unmarked blank l = l.filter fun x => decide (x ≠ blank) := by
  induction l using markRuns.induct with
  | case1 => rfl
  | case2 x => rfl
  | case3 x y l ih =>
    have hcons : ∀ l' : List α, (x :: l').filter (fun x => decide (x ≠ blank)) =
        if x = blank then l'.filter fun x => decide (x ≠ blank)
        else x :: l'.filter fun x => decide (x ≠ blank) := fun l' => by
      rw [List.filter_cons]
      by_cases hx : x = blank <;> simp [hx]
    have hrest := ih (h.sublist ((List.sublist_cons_self ..).filter _))
    rw [hcons, ← hrest]
    rw [hcons] at h
    rw [unmarked, markRuns]
    split_ifs with hxy hx hx
    · exact List.filter_cons_of_neg (by simp)
    · -- the value would be there twice
      rw [if_neg hx, hxy, List.filter_cons_of_pos (by simpa [← hxy] using hx)] at h
      simp at h
    · rw [hx]
      exact List.filter_cons_of_neg (by simp)
    · exact List.filter_cons_of_pos (by simpa using hx)

theorem markRuns_suffix (l₁ : List α) (z : α) (l₂ : List α) :
    markRuns blank (z :: l₂) <:+ markRuns blank (l₁ ++ z :: l₂) := by
  induction l₁ with
  | nil => exact List.suffix_rfl
  | cons x l₁ ih =>
    cases l₁ with
    | nil => exact ih.trans (List.suffix_cons ..)
    | cons y l₁ => exact ih.trans (List.suffix_cons ..)

/-- Before a different value one entry more stays. -/
theorem count_markRuns_append {z : α} (hz : w ≠ z) {l₁ : List α} (hmem : w ∈ l₁) (l₂ : List α) :
    (markRuns blank (z :: l₂)).count w < (markRuns blank (l₁ ++ z :: l₂)).count w := by
  induction l₁ with
  | nil => simp at hmem
  | cons x l₁ ih =>
    cases l₁ with
    | nil =>
      obtain rfl := List.mem_singleton.mp hmem
      rw [List.cons_append, List.nil_append, markRuns, if_neg hz, List.count_cons_self]
      exact Nat.lt_succ_self _
    | cons y l₁ =>
      rw [List.cons_append, List.cons_append, markRuns, ← List.cons_append]
      by_cases hrest : w ∈ y :: l₁
      · exact (ih hrest).trans_le List.count_le_count_cons
      · obtain rfl := (List.mem_cons.mp hmem).resolve_right hrest
        have hxy : ¬ w = y := fun heq => hrest (by simp [heq])
        rw [if_neg hxy, List.count_cons_self]
        exact Nat.lt_succ_of_le ((markRuns_suffix ..).sublist.count_le w)

/-- A value that comes back after another one stays twice. -/
theorem two_le_count_unmarked {z : α} (hw : w ≠ blank) (hz : w ≠ z) {l₁ l₂ : List α}
    (hmem : w ∈ l₁) (hmem' : w ∈ l₂) : 2 ≤ (unmarked blank (l₁ ++ z :: l₂)).count w := by
  have hlater : 0 < (markRuns blank (z :: l₂)).count w :=
    List.count_pos_iff.mpr ((mem_markRuns hw _).mpr (List.mem_cons_of_mem z hmem'))
  have hlt : (markRuns blank (z :: l₂)).count w < _ := count_markRuns_append hz hmem l₂
  rw [List.count_filter (by simpa using hw)]
  omega

/-! ## On cells -/

/-- The cells below `size`, blanked where the next one below `size` is the same. -/
def mark (blank : α) (size : Nat) (f : Nat → α) : Nat → α := fun i =>
  if i + 1 < size ∧ f i = f (i + 1) then blank else f i

theorem window_cons {α : Type*} (f : Nat → α) (lo n : Nat) :
    window f lo (n + 1) = f lo :: window f (lo + 1) n := by
  rw [Nat.add_comm n 1, window_append]
  simp [window]

theorem window_mark (f : Nat → α) (n lo : Nat) :
    window (mark blank (lo + n) f) lo n = markRuns blank (window f lo n) := by
  induction n generalizing lo with
  | zero => rfl
  | succ n ih =>
    have hnext := ih (lo + 1)
    rw [Nat.add_assoc, Nat.add_comm 1 n] at hnext
    cases n with
    | zero => simp [window, mark, markRuns]
    | succ n =>
      rw [window_cons, hnext, window_cons f lo, window_cons f (lo + 1), markRuns]
      congr 1
      simp [mark]

/-- No other value stands between two cells with value `w`. -/
def Adjacent (f : Nat → α) (size : Nat) (w : α) : Prop :=
  ∀ i j k, i ≤ j → j ≤ k → k < size → f i = w → f k = w → f j = w

/-- Of adjacent values only the last stays. -/
theorem mark_of_adjacent {f : Nat → α} {size i j : Nat} (h : Adjacent f size w) (hij : i < j)
    (hj : j < size) (hi : f i = w) (hjw : f j = w) : mark blank size f i = blank := by
  have hnext := h i (i + 1) j (by omega) (by omega) hj hi hjw
  rw [mark, if_pos ⟨by omega, by rw [hi, hnext]⟩]

/-- If equal values are adjacent, each stays once. -/
theorem nodup_unmarked {f : Nat → α} {size : Nat} (h : ∀ w, w ≠ blank → Adjacent f size w) :
    (unmarked blank (window f 0 size)).Nodup := by
  have hcell : ∀ i, mark blank size f i ≠ blank → mark blank size f i = f i := fun i hi => by
    unfold mark at hi ⊢
    split_ifs at hi ⊢
    · exact absurd rfl hi
    · rfl
  have hpair : (window (mark blank size f) 0 size).Pairwise fun a b => a ≠ blank → a ≠ b := by
    refine pairwise_window.mpr fun i j hij hj hi heq => hi ?_
    simp only [Nat.zero_add] at hi heq ⊢
    refine mark_of_adjacent (h _ hi) hij hj (hcell i hi).symm ?_
    rw [← hcell j (heq ▸ hi), ← heq]
  rw [unmarked, ← window_mark, Nat.zero_add]
  refine (hpair.filter _).imp_of_mem fun ha _ hne => hne ?_
  simpa using (List.mem_filter.mp ha).2

/-! ## Runs -/

/-- The number of cells up to `k` in the run that `k` is in. -/
def run (f : Nat → α) : Nat → Nat
  | 0 => 1
  | k + 1 => if f (k + 1) = f k then run f k + 1 else 1

/-- Cell `i` is the last one below `size` of its run. -/
def IsLast (f : Nat → α) (size i : Nat) : Prop := i + 1 = size ∨ f (i + 1) ≠ f i

instance (f : Nat → α) (size i : Nat) : Decidable (IsLast f size i) := by
  unfold IsLast
  infer_instance

/-- Every run has a last cell. -/
theorem exists_isLast (f : Nat → α) {size i : Nat} (hi : i < size) :
    ∃ k, i ≤ k ∧ k < size ∧ f k = f i ∧ IsLast f size k := by
  obtain ⟨n, hn⟩ : ∃ n, n = size - (i + 1) := ⟨_, rfl⟩
  induction n generalizing i with
  | zero => exact ⟨i, le_rfl, hi, rfl, .inl (by omega)⟩
  | succ n ih =>
    by_cases hnext : f (i + 1) = f i
    · obtain ⟨k, hik, hk, heq, hlast⟩ := ih (show i + 1 < size by omega) (by omega)
      exact ⟨k, by omega, hk, heq.trans hnext, hlast⟩
    · exact ⟨i, le_rfl, hi, rfl, .inr hnext⟩

/-! ## Weights -/

section Weights

variable {M : Type*} [AddCommMonoid M]

/-- The weights of the cells up to `k` in the run that `k` is in. -/
def runTotal (f : Nat → α) (g : Nat → M) : Nat → M
  | 0 => g 0
  | k + 1 => if f (k + 1) = f k then runTotal f g k + g (k + 1) else g (k + 1)

/-- The weights of the entries with value `w`. -/
def total (w : α) (l : List (α × M)) : M := ((l.filter fun x => decide (x.1 = w)).map Prod.snd).sum

theorem total_append (w : α) (l l' : List (α × M)) :
    total w (l ++ l') = total w l + total w l' := by
  rw [total, List.filter_append, List.map_append, List.sum_append]
  rfl

theorem total_perm {l l' : List (α × M)} (h : l.Perm l') (w : α) : total w l = total w l' :=
  ((h.filter _).map _).sum_eq

theorem total_of_not_mem {l : List (α × M)} (h : ∀ x ∈ l, x.1 ≠ w) : total w l = 0 := by
  rw [total, List.filter_eq_nil_iff.mpr fun x hx => by simpa using h x hx]
  rfl

theorem total_singleton (w : α) (x : M) : total w [(w, x)] = x := by
  simp [total]

/-- Where every value is there once, its weight is the whole. -/
theorem total_map {words : List α} (h : words.Nodup) (g : α → M) (hw : w ∈ words) :
    total w (words.map fun x => (x, g x)) = g w := by
  induction words with
  | nil => simp at hw
  | cons x words ih =>
    obtain ⟨hx, hwords⟩ := List.nodup_cons.mp h
    rw [List.map_cons, ← List.singleton_append, total_append]
    rcases List.mem_cons.mp hw with rfl | hw
    · rw [total_singleton, total_of_not_mem, add_zero]
      intro y hy
      obtain ⟨z, hz, rfl⟩ := List.mem_map.mp hy
      exact fun heq => hx (heq ▸ hz)
    · rw [ih hwords hw, total_of_not_mem, zero_add]
      intro y hy
      rw [List.mem_singleton.mp hy]
      rintro rfl
      exact hx hw

/-- Where all weights are the same, the number of entries decides. -/
theorem total_const (w : α) (x : M) (l : List α) :
    total w (l.map fun y => (y, x)) = l.count w • x := by
  induction l with
  | nil => simp [total]
  | cons y l ih =>
    rw [List.map_cons, ← List.singleton_append, total_append, ih, List.count_cons]
    by_cases hy : y = w
    · rw [hy, total_singleton, if_pos (beq_self_eq_true w), succ_nsmul']
    · rw [total_of_not_mem (by simpa using hy), zero_add, if_neg (by simpa using hy), Nat.add_zero]

/-- If equal values are adjacent, a run has all the weights of its value up to a cell. -/
theorem runTotal_eq_total {f : Nat → α} (g : Nat → M) {size k : Nat}
    (h : ∀ w, Adjacent f size w) (hk : k < size) :
    runTotal f g k = total (f k) (window (fun i => (f i, g i)) 0 (k + 1)) := by
  induction k with
  | zero =>
    rw [runTotal, window_succ, total_append, total_singleton,
      total_of_not_mem (by simp [window]), zero_add]
  | succ k ih =>
    rw [runTotal, window_succ, Nat.zero_add, total_append, total_singleton]
    split_ifs with heq
    · rw [ih (by omega), heq]
    · rw [total_of_not_mem, zero_add]
      intro x hx hval
      obtain ⟨i, hi, rfl⟩ := mem_window.mp hx
      rw [Nat.zero_add] at hval
      exact heq (h (f (k + 1)) i k (k + 1) (by omega) (by omega) hk hval rfl).symm

/-- The last cell of a run has all weights of its value. -/
theorem runTotal_of_isLast {f : Nat → α} (g : Nat → M) {size k : Nat}
    (h : ∀ w, Adjacent f size w) (hk : k < size) (hlast : IsLast f size k) :
    runTotal f g k = total (f k) (window (fun i => (f i, g i)) 0 size) := by
  have hsplit : window (fun i => (f i, g i)) 0 size = window (fun i => (f i, g i)) 0 (k + 1) ++
      window (fun i => (f i, g i)) (0 + (k + 1)) (size - (k + 1)) := by
    rw [← window_append, show k + 1 + (size - (k + 1)) = size by omega]
  have hrest : total (f k) (window (fun i => (f i, g i)) (0 + (k + 1)) (size - (k + 1))) = 0 := by
    refine total_of_not_mem fun x hx hval => ?_
    obtain ⟨i, hi, rfl⟩ := mem_window.mp hx
    refine hlast.elim (fun hend => by omega) fun hne => hne ?_
    exact h (f k) k (k + 1) (0 + (k + 1) + i) (by omega) (by omega) (by omega) rfl hval
  rw [runTotal_eq_total g h hk, hsplit, total_append, hrest, add_zero]

end Weights

theorem run_eq_runTotal (f : Nat → α) (k : Nat) : run f k = runTotal f (fun _ => 1) k := by
  induction k with
  | zero => rfl
  | succ k ih => rw [run, runTotal, ih]

/-- If equal values are adjacent, the last cell of a run has counted all of it. -/
theorem run_of_isLast {f : Nat → α} {size k : Nat} (h : ∀ w, Adjacent f size w) (hk : k < size)
    (hlast : IsLast f size k) : run f k = (window f 0 size).count (f k) := by
  have hones : window (fun i => (f i, 1)) 0 size = (window f 0 size).map fun y => (y, 1) := by
    rw [window, window, List.map_map]
    rfl
  rw [run_eq_runTotal, runTotal_of_isLast _ h hk hlast, hones, total_const, smul_eq_mul,
    Nat.mul_one]

end CoVault.Library.Duplicates
