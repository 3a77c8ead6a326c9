import Mathlib

/-!
# Arrays as cell functions

A block of memory reached through a pointer is a function from indices to
contents. `window f lo n` reads `n` cells as a list, `exchange` swaps two cells,
and `Rearranged lo n f g` says that `g` holds the contents of `f` in another
order, with every cell outside the window untouched.
-/

namespace CoVault.Library.Cells

variable {α β : Type*}

/-- The contents of the `n` cells from `lo` on. -/
def window (f : Nat → α) (lo n : Nat) : List α := (List.range n).map (fun i => f (lo + i))

@[simp] theorem length_window (f : Nat → α) (lo n : Nat) : (window f lo n).length = n := by
  simp [window]

@[simp] theorem getElem_window (f : Nat → α) (lo n i : Nat) (h : i < (window f lo n).length) :
    (window f lo n)[i] = f (lo + i) := by
  simp [window]

theorem mem_window {f : Nat → α} {lo n : Nat} {x : α} :
    x ∈ window f lo n ↔ ∃ i, i < n ∧ f (lo + i) = x := by
  simp [window]

/-- A cell is read off the window. -/
theorem cell_of_window {f : Nat → α} {lo n i : Nat} {l : List α} {x : α} (h : window f lo n = l)
    (hi : i < n) (hx : l[i]? = some x) : f (lo + i) = x := by
  have hlen : i < (window f lo n).length := by rwa [length_window]
  rwa [← h, List.getElem?_eq_getElem hlen, getElem_window, Option.some.injEq] at hx

theorem window_congr {f g : Nat → α} {lo n : Nat} (h : ∀ i, i < n → f (lo + i) = g (lo + i)) :
    window f lo n = window g lo n :=
  List.map_congr_left fun i hi => h i (List.mem_range.mp hi)

theorem window_succ (f : Nat → α) (lo n : Nat) :
    window f lo (n + 1) = window f lo n ++ [f (lo + n)] := by
  simp [window, List.range_succ]

theorem window_append (f : Nat → α) (lo m n : Nat) :
    window f lo (m + n) = window f lo m ++ window f (lo + m) n := by
  simp [window, List.range_add, Nat.add_assoc, Function.comp_def]

theorem pairwise_window {r : α → α → Prop} {f : Nat → α} {lo n : Nat} :
    (window f lo n).Pairwise r ↔ ∀ i j, i < j → j < n → r (f (lo + i)) (f (lo + j)) := by
  rw [List.pairwise_iff_getElem]
  constructor
  · intro h i j hij hj
    have hlen : j < (window f lo n).length := by rwa [length_window]
    have hr := h i j (hij.trans hlen) hlen hij
    rwa [getElem_window, getElem_window] at hr
  · intro h i j _ hj hij
    rw [getElem_window, getElem_window]
    exact h i j hij (by rwa [length_window] at hj)

theorem pairwise_window_of_refl {r : α → α → Prop} (hr : ∀ x, r x x) {f : Nat → α} {lo n : Nat} :
    (window f lo n).Pairwise r ↔ ∀ i j, i ≤ j → j < n → r (f (lo + i)) (f (lo + j)) := by
  rw [pairwise_window]
  refine ⟨fun h i j hij hj => ?_, fun h i j hij hj => h i j hij.le hj⟩
  rcases Nat.eq_or_lt_of_le hij with rfl | hlt
  · exact hr _
  · exact h i j hlt hj

/-- Cells filled from a list, with a fixed value behind its end. -/
def ofList (l : List α) (d : α) : Nat → α := fun i => l.getD i d

theorem window_ofList (l : List α) (d : α) : window (ofList l d) 0 l.length = l := by
  apply List.ext_getElem
  · simp
  · intro i h h'
    simp [ofList, h']

/-- The contents of cells `i` and `j` change places. -/
def exchange (f : Nat → α) (i j : Nat) : Nat → α :=
  fun k => if k = i then f j else if k = j then f i else f k

@[simp] theorem exchange_left (f : Nat → α) (i j : Nat) : exchange f i j i = f j := by
  simp [exchange]

@[simp] theorem exchange_right (f : Nat → α) (i j : Nat) : exchange f i j j = f i := by
  by_cases h : j = i <;> simp [exchange, h]

theorem exchange_of_ne (f : Nat → α) {i j k : Nat} (hi : k ≠ i) (hj : k ≠ j) :
    exchange f i j k = f k := by
  simp [exchange, hi, hj]

theorem exchange_of_eq {f : Nat → α} {i j : Nat} (h : f i = f j) : exchange f i j = f := by
  funext k
  rw [exchange]
  split_ifs with hi hj
  · rw [hi, h]
  · rw [hj, h]
  · rfl

theorem exchange_eq_comp (f : Nat → α) (i j : Nat) : exchange f i j = f ∘ Equiv.swap i j := by
  funext k
  simp only [exchange, Function.comp_apply, Equiv.swap_apply_def]
  split_ifs <;> rfl

/-- `g` is `f` with the cells of the window `[lo, lo + n)` permuted. -/
def Rearranged (lo n : Nat) (f g : Nat → α) : Prop :=
  ∃ σ : Equiv.Perm Nat, (∀ k, (k < lo ∨ lo + n ≤ k) → σ k = k) ∧ g = f ∘ σ

namespace Rearranged

variable {lo n : Nat} {f g h : Nat → α}

theorem refl (lo n : Nat) (f : Nat → α) : Rearranged lo n f f := ⟨Equiv.refl Nat, fun _ _ => rfl, rfl⟩

theorem trans (hfg : Rearranged lo n f g) (hgh : Rearranged lo n g h) : Rearranged lo n f h := by
  obtain ⟨σ, hσ, rfl⟩ := hfg
  obtain ⟨τ, hτ, rfl⟩ := hgh
  refine ⟨τ.trans σ, fun k hk => ?_, rfl⟩
  rw [Equiv.trans_apply, hτ k hk, hσ k hk]

theorem symm (hfg : Rearranged lo n f g) : Rearranged lo n g f := by
  obtain ⟨σ, hσ, rfl⟩ := hfg
  refine ⟨σ.symm, fun k hk => by rw [Equiv.symm_apply_eq, hσ k hk], ?_⟩
  funext k
  simp

theorem mono {lo' n' : Nat} (hfg : Rearranged lo n f g) (hlo : lo' ≤ lo)
    (hhi : lo + n ≤ lo' + n') : Rearranged lo' n' f g := by
  obtain ⟨σ, hσ, rfl⟩ := hfg
  exact ⟨σ, fun k hk => hσ k (by omega), rfl⟩

theorem of_exchange {i j : Nat} (hi : lo ≤ i ∧ i < lo + n) (hj : lo ≤ j ∧ j < lo + n) :
    Rearranged lo n f (exchange f i j) := by
  refine ⟨Equiv.swap i j, fun k hk => ?_, exchange_eq_comp f i j⟩
  exact Equiv.swap_apply_of_ne_of_ne (by omega) (by omega)

theorem outside (hfg : Rearranged lo n f g) {k : Nat} (hk : k < lo ∨ lo + n ≤ k) : g k = f k := by
  obtain ⟨σ, hσ, rfl⟩ := hfg
  simp [hσ k hk]

/-- Every cell of the window comes from some cell of the window. -/
theorem source (hfg : Rearranged lo n f g) {k : Nat} (hk : lo ≤ k ∧ k < lo + n) :
    ∃ j, (lo ≤ j ∧ j < lo + n) ∧ g k = f j := by
  obtain ⟨σ, hσ, rfl⟩ := hfg
  refine ⟨σ k, ?_, rfl⟩
  by_contra hout
  have hfix : σ (σ k) = σ k := hσ (σ k) (by omega)
  have hk' : σ k = k := σ.injective hfix
  omega

theorem perm (hfg : Rearranged lo n f g) : (window g lo n).Perm (window f lo n) := by
  obtain ⟨σ, hσ, rfl⟩ := hfg
  have hin : ∀ i, i < n → lo ≤ σ (lo + i) ∧ σ (lo + i) < lo + n := by
    intro i hi
    by_contra hout
    have hfix : σ (σ (lo + i)) = σ (lo + i) := hσ _ (by omega)
    have := σ.injective hfix
    omega
  have hidx : ((List.range n).map (fun i => σ (lo + i) - lo)).Perm (List.range n) := by
    apply List.Subperm.perm_of_length_le
    · apply List.subperm_of_subset
      · apply List.Nodup.map_on _ List.nodup_range
        intro a ha b hb hab
        have h1 := hin a (List.mem_range.mp ha)
        have h2 := hin b (List.mem_range.mp hb)
        have : σ (lo + a) = σ (lo + b) := by omega
        have := σ.injective this
        omega
      · intro x hx
        obtain ⟨i, hi, rfl⟩ := List.mem_map.mp hx
        have := hin i (List.mem_range.mp hi)
        exact List.mem_range.mpr (by omega)
    · simp
  have hmap := hidx.map (fun i => f (lo + i))
  have heq : (List.range n).map (fun i => (f ∘ σ) (lo + i)) =
      ((List.range n).map (fun i => σ (lo + i) - lo)).map (fun i => f (lo + i)) := by
    rw [List.map_map]
    apply List.map_congr_left
    intro i hi
    have h1 := hin i (List.mem_range.mp hi)
    have h2 : lo + (σ (lo + i) - lo) = σ (lo + i) := by omega
    simp [h2]
  exact (List.Perm.of_eq heq).trans hmap

end Rearranged

end CoVault.Library.Cells
