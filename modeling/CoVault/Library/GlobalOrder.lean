import Mathlib

/-!
# Meetings in one global order

Processes meet pairwise, each at its own list of meetings. When all lists are parts
of one global list, the process that is furthest back in it never waits for one
that waits for it: whoever it meets next stands before the same meeting or has
that meeting behind it.
-/

namespace CoVault.Library.GlobalOrder

variable {C P : Type*} [DecidableEq C]

/-- A process that takes part in the meetings `uses` has `rest` before it and, of each
kind of meeting, `done` many behind it. -/
def Aligned (order : List C) (uses : C → Bool) (done : C → Nat) (rest : List C) : Prop :=
  ∃ pre post, order = pre ++ post ∧ rest = post.filter uses ∧
    ∀ c, uses c = true → done c = pre.count c

variable {order : List C}

theorem Aligned.start {uses : C → Bool} {done : C → Nat} (h : ∀ c, uses c = true → done c = 0) :
    Aligned order uses done (order.filter uses) :=
  ⟨[], order, rfl, rfl, by simpa using h⟩

/-- The global list can be cut right before the next meeting. -/
theorem Aligned.cut {uses : C → Bool} {done : C → Nat} {c : C} {rest : List C}
    (h : Aligned order uses done (c :: rest)) :
    ∃ pre post, order = pre ++ c :: post ∧ rest = post.filter uses ∧ uses c = true ∧
      ∀ d, uses d = true → done d = pre.count d := by
  obtain ⟨pre, post, horder, hrest, hdone⟩ := h
  obtain ⟨skipped, later, rfl, hskip, hc, hlater⟩ := List.filter_eq_cons_iff.mp hrest.symm
  refine ⟨pre ++ skipped, later, by simp [horder], hlater.symm, hc, fun d hd => ?_⟩
  have hnone : skipped.count d = 0 :=
    List.count_eq_zero.mpr fun hmem => by simpa [hd] using hskip d hmem
  rw [hdone d hd, List.count_append, hnone, Nat.add_zero]

theorem Aligned.next {uses : C → Bool} {done done' : C → Nat} {c : C} {rest : List C}
    (h : Aligned order uses done (c :: rest))
    (hdone : ∀ d, uses d = true → done' d = done d + if d = c then 1 else 0) :
    Aligned order uses done' rest := by
  obtain ⟨pre, post, horder, hrest, _, hpre⟩ := h.cut
  refine ⟨pre ++ [c], post, by simp [horder], hrest, fun d hd => ?_⟩
  rw [hdone d hd, hpre d hd, List.count_append, List.count_singleton]
  by_cases hdc : d = c
  · simp [hdc]
  · simp [hdc, Ne.symm hdc]

/-- What a process furthest back has before it, seen from any other process. -/
theorem exists_foremost {uses : P → C → Bool} {done : P → C → Nat}
    {rest : P → List C} (h : ∀ p, Aligned order (uses p) (done p) (rest p))
    {p₀ : P} (h₀ : rest p₀ ≠ []) :
    ∃ p c tail, rest p = c :: tail ∧ uses p c = true ∧ ∀ q, uses q c = true →
      done p c < done q c ∨ done p c = done q c ∧ ∃ tail', rest q = c :: tail' := by
  classical
  have hcut : ∀ p, ∃ n, rest p ≠ [] → ∃ c tail pre post, rest p = c :: tail ∧
      order = pre ++ c :: post ∧ tail = post.filter (uses p) ∧ uses p c = true ∧
      (∀ d, uses p d = true → done p d = pre.count d) ∧ n = pre.length := by
    intro p
    cases hp : rest p with
    | nil => exact ⟨0, by simp⟩
    | cons c tail =>
      obtain ⟨pre, post, h1, h2, h3, h4⟩ := (hp ▸ h p : Aligned _ _ _ (c :: tail)).cut
      exact ⟨pre.length, fun _ => ⟨c, tail, pre, post, rfl, h1, h2, h3, h4, rfl⟩⟩
  choose n hn using hcut
  obtain ⟨p, hp, hleast⟩ := (measure n).wf.has_min {p | rest p ≠ []} ⟨p₀, h₀⟩
  obtain ⟨c, tail, pre, post, hrest, horder, -, hc, hdone, hlen⟩ := hn p hp
  refine ⟨p, c, tail, hrest, hc, fun q hq => ?_⟩
  by_cases hfin : rest q = []
  · -- all of the global list is behind a process that is through
    obtain ⟨pre', post', horder', hrest', hdone'⟩ := h q
    left
    have hnone : post'.count c = 0 := List.count_eq_zero.mpr fun hmem =>
      List.ne_nil_of_mem (List.mem_filter.mpr ⟨hmem, hq⟩) (hrest'.symm.trans hfin)
    have hcount := congrArg (List.count c) (horder.symm.trans horder')
    simp only [List.count_append, List.count_cons_self, hnone] at hcount
    rw [hdone c hc, hdone' c hq]
    omega
  · obtain ⟨c', tail', pre', post', hrest', horder', -, hc', hdone', hlen'⟩ := hn q hfin
    have hle : pre.length ≤ pre'.length := hlen ▸ hlen' ▸ Nat.not_lt.mp (hleast q hfin)
    rw [hdone c hc, hdone' c hq]
    rcases List.append_eq_append_iff.mp (horder.symm.trans horder') with
      ⟨between, hpre', hbetween⟩ | ⟨between, hpre, _⟩
    · cases between with
      | nil =>
        simp only [List.nil_append, List.cons.injEq] at hbetween
        exact .inr ⟨by simp [hpre'], tail', hbetween.1 ▸ hrest'⟩
      | cons x xs =>
        rw [List.cons_append, List.cons.injEq] at hbetween
        left
        rw [hpre', ← hbetween.1, List.count_append, List.count_cons_self]
        omega
    · have hsame : between = [] := by
        rw [hpre, List.length_append] at hle
        exact List.length_eq_zero_iff.mp (by omega)
      subst hsame
      have hpre : pre = pre' := by simpa using hpre
      have hcc : c = c' := by
        have := horder.symm.trans horder'
        rw [hpre] at this
        exact (List.cons.inj (List.append_cancel_left this)).1
      exact .inr ⟨by rw [hpre], tail', hcc ▸ hrest'⟩

end CoVault.Library.GlobalOrder
