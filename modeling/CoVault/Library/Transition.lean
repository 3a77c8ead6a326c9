import Mathlib

/-!
# Runs of a transition system

Interleavings of several processes are the paths of one step relation. An
invariant that holds initially and survives every step holds in every reachable
state.
-/

namespace CoVault.Library.Transition

variable {σ : Type*}

/-- The states a system can get into from its initial states. -/
inductive Reachable (init : σ → Prop) (step : σ → σ → Prop) : σ → Prop where
  | start {s : σ} : init s → Reachable init step s
  | next {s t : σ} : Reachable init step s → step s t → Reachable init step t

namespace Reachable

variable {init : σ → Prop} {step : σ → σ → Prop}

theorem invariant {inv : σ → Prop} (h0 : ∀ s, init s → inv s)
    (hstep : ∀ s t, inv s → step s t → inv t) {s : σ} (h : Reachable init step s) : inv s := by
  induction h with
  | start hs => exact h0 _ hs
  | next _ hst ih => exact hstep _ _ ih hst

/-- A list of acts that all go through leads from a reachable state to a reachable one. -/
theorem foldlM {α : Type*} {act : σ → α → Option σ}
    (hact : ∀ s a t, act s a = some t → step s t) {as : List α} {s t : σ}
    (h : Reachable init step s) (hrun : as.foldlM act s = some t) : Reachable init step t := by
  induction as generalizing s with
  | nil => exact (Option.some.inj hrun) ▸ h
  | cons a as ih =>
    rw [List.foldlM_cons] at hrun
    obtain ⟨u, hu, hrest⟩ := Option.bind_eq_some_iff.mp hrun
    exact ih (.next h (hact _ _ _ hu)) hrest

/-- A system that takes a step of another one or none with each of its own gets into no other states
than that one. -/
theorem simulated {τ : Type*} {inv : σ → Prop} {init' : τ → Prop} {step' : τ → τ → Prop}
    (f : σ → τ) (h0 : ∀ s, init s → inv s ∧ init' (f s))
    (hstep : ∀ s t, inv s → step s t → inv t ∧ (f t = f s ∨ step' (f s) (f t))) {s : σ}
    (h : Reachable init step s) : inv s ∧ Reachable init' step' (f s) := by
  induction h with
  | start hs => exact ⟨(h0 _ hs).1, .start (h0 _ hs).2⟩
  | next _ hst ih =>
    obtain ⟨hinv, heq | hst'⟩ := hstep _ _ ih.1 hst
    · exact ⟨hinv, heq ▸ ih.2⟩
    · exact ⟨hinv, .next ih.2 hst'⟩

end Reachable

/-- No run goes on for ever if every step makes some number smaller. -/
theorem acc_of_decreasing {inv : σ → Prop} {step : σ → σ → Prop} {m : σ → Nat}
    (hstep : ∀ s t, inv s → step s t → inv t ∧ m t < m s) {s : σ} (hs : inv s) :
    Acc (fun t s => step s t) s := by
  induction hm : m s using Nat.strong_induction_on generalizing s with
  | h n ih =>
    refine ⟨_, fun t hst => ?_⟩
    obtain ⟨ht, hlt⟩ := hstep s t hs hst
    exact ih (m t) (hm ▸ hlt) ht rfl

end CoVault.Library.Transition
