import Mathlib

/-!
# Slices of a list

Reading a run of cells and writing one in place. A write is seen by the slice it
covers and by no slice beside it; this is all that code copying fields at fixed
offsets relies on. A loop that writes every place of a list leaves nothing old in it.
-/

namespace CoVault.Library.Slices

variable {α : Type*}

/-- The `n` cells from `off` on. -/
def slice (xs : List α) (off n : Nat) : List α := (xs.drop off).take n

/-- Write `ys` over the cells from `off` on. -/
def overwrite (xs : List α) (off : Nat) (ys : List α) : List α :=
  xs.take off ++ ys ++ xs.drop (off + ys.length)

variable {xs ys : List α} {off n : Nat}

@[simp] theorem length_slice : (slice xs off n).length = min n (xs.length - off) := by
  simp [slice]

theorem length_overwrite (h : off + ys.length ≤ xs.length) :
    (overwrite xs off ys).length = xs.length := by
  simp [overwrite]
  omega

theorem slice_overwrite_self (h : off ≤ xs.length) :
    slice (overwrite xs off ys) off ys.length = ys := by
  have hlen : (xs.take off).length = off := by simp [h]
  rw [slice, overwrite, List.append_assoc, List.drop_left' hlen, List.take_left]

theorem getElem?_overwrite (h : off ≤ xs.length) (i : Nat) :
    (overwrite xs off ys)[i]? =
      if off ≤ i ∧ i < off + ys.length then ys[i - off]? else xs[i]? := by
  have hlen : (xs.take off).length = off := by simp [h]
  rw [overwrite, List.append_assoc]
  by_cases hlo : i < off
  · rw [List.getElem?_append_left (by omega), List.getElem?_take_of_lt hlo, if_neg (by omega)]
  · rw [List.getElem?_append_right (by omega), hlen]
    by_cases hhi : i < off + ys.length
    · rw [if_pos ⟨by omega, hhi⟩, List.getElem?_append_left (by omega)]
    · rw [if_neg (by omega), List.getElem?_append_right (by omega), List.getElem?_drop]
      congr 1
      omega

theorem getElem?_slice (i : Nat) :
    (slice xs off n)[i]? = if i < n then xs[off + i]? else none := by
  rw [slice, List.getElem?_take, List.getElem?_drop]

/-- A slice beside the written cells keeps its contents. -/
theorem slice_overwrite_of_disjoint {off' : Nat} (h : off' ≤ xs.length)
    (hd : off + n ≤ off' ∨ off' + ys.length ≤ off) :
    slice (overwrite xs off' ys) off n = slice xs off n := by
  apply List.ext_getElem?
  intro i
  rw [getElem?_slice, getElem?_slice, getElem?_overwrite h]
  split_ifs <;> first | rfl | omega

theorem slice_append_left (h : off + n ≤ xs.length) :
    slice (xs ++ ys) off n = slice xs off n := by
  rw [slice, slice, List.drop_append_of_le_length (by omega),
    List.take_append_of_le_length (by simp; omega)]

theorem slice_append_right (h : xs.length ≤ off) :
    slice (xs ++ ys) off n = slice ys (off - xs.length) n := by
  simp [slice, List.drop_append, List.drop_eq_nil_of_le h]

theorem slice_length : slice xs 0 xs.length = xs := by simp [slice]

/-- Rows of one width, one after the other. -/
theorem getElem?_flatMap {β : Type*} {g : β → List α} (hg : ∀ x, (g x).length = n) (rows : List β)
    {i j : Nat} (hi : i < n) : (rows.flatMap g)[j * n + i]? = rows[j]?.bind fun x => (g x)[i]? := by
  induction rows generalizing j with
  | nil => simp
  | cons x rows ih =>
    rw [List.flatMap_cons]
    cases j with
    | zero => simp [List.getElem?_append_left, hg, hi]
    | succ j =>
      rw [List.getElem?_append_right (by rw [hg, Nat.succ_mul]; omega), hg, Nat.succ_mul,
        show j * n + n + i - n = j * n + i by omega, ih, List.getElem?_cons_succ]

/-- Writing one cell after the other. -/
theorem foldl_set_eq_overwrite (xs ys : List α) (h : off + ys.length ≤ xs.length) :
    ys.foldl (fun s y => (s.1.set s.2 y, s.2 + 1)) (xs, off) =
      (overwrite xs off ys, off + ys.length) := by
  induction ys using List.reverseRecOn with
  | nil => simp [overwrite]
  | append_singleton ys y ih =>
    rw [List.length_append, List.length_singleton] at h
    rw [List.foldl_concat, ih (by omega), List.length_append, List.length_singleton]
    refine Prod.ext (List.ext_getElem? fun k => ?_) (by simp only; omega)
    simp only [List.getElem?_set, getElem?_overwrite (show off ≤ xs.length by omega),
      length_overwrite (show off + ys.length ≤ xs.length by omega), List.length_append,
      List.length_singleton]
    grind

/-! ## A loop of writes -/

section Filled

variable (n : Nat) (place : Nat → Nat) (cells : Nat → α)

/-- The list after `n` writes, the one of `cells i` to `place i`. Behind the end nothing is
written. -/
def filled (xs : List α) : List α :=
  (List.range n).foldl (fun xs i => xs.set (place i) (cells i)) xs

theorem filled_succ (xs : List α) :
    filled (n + 1) place cells xs = (filled n place cells xs).set (place n) (cells n) := by
  rw [filled, filled, List.range_succ, List.foldl_append, List.foldl_cons, List.foldl_nil]

@[simp] theorem length_filled (xs : List α) : (filled n place cells xs).length = xs.length := by
  induction n with
  | zero => rfl
  | succ n ih => rw [filled_succ, List.length_set, ih]

variable {n place}

theorem getElem?_filled (hplace : Set.InjOn place {i | i < n}) {i : Nat} (hi : i < n)
    (hxs : place i < xs.length) : (filled n place cells xs)[place i]? = some (cells i) := by
  induction n with
  | zero => omega
  | succ n ih =>
    rw [filled_succ]
    rcases Nat.lt_succ_iff_lt_or_eq.mp hi with hlt | rfl
    · have hne : place n ≠ place i := fun h =>
        absurd (hplace (Nat.lt_succ_self n) hi h) (by omega)
      rw [List.getElem?_set_ne hne]
      exact ih (hplace.mono fun k (hk : k < n) => Nat.lt_succ_of_lt hk) hlt
    · rw [List.getElem?_set_self (by simpa using hxs)]

/-- If every place of the list is written, from `back` of the place, nothing old is left. -/
theorem filled_eq (xs : List α) (hplace : Set.InjOn place {i | i < n}) (back : Nat → Nat)
    (hback : ∀ k < xs.length, back k < n ∧ place (back k) = k) :
    filled n place cells xs = (List.range xs.length).map fun k => cells (back k) := by
  apply List.ext_getElem?
  intro k
  by_cases hk : k < xs.length
  · obtain ⟨hlt, heq⟩ := hback k hk
    have hwritten := getElem?_filled cells hplace hlt (by rwa [heq])
    rw [heq] at hwritten
    rw [hwritten, List.getElem?_map, List.getElem?_range hk, Option.map_some]
  · rw [List.getElem?_eq_none (by simpa using hk), List.getElem?_eq_none (by simpa using hk)]

end Filled

end CoVault.Library.Slices
