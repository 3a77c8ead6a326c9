import CoVault.Dualex.SwapInvariant

/-!
# What two swapping processes may rely on

Everything here is read off the invariant in reachable states: who owns which region
between two calls of `swap`, how far the processes can run apart, what a process finds
after a swap, and that two processes which both want to swap are never both blocked.
-/

namespace CoVault.Dualex.Ram

variable {V : Type} {s : Ram V}

theorem Inv.get_of_outside (hs : Inv s) {p : Bool} (hp : Outside s p) :
    (s.proc p).handle.get = some (owned p (s.proc p).returned) := by
  unfold Outside at hp
  simpa [hp, SwapPc.index] using (hs.flagged p).get

theorem clock_of_outside {p : Bool} (hp : Outside s p) :
    clock (s.proc p) = 6 * (s.proc p).returned := by
  unfold Outside at hp
  simp [clock, hp, SwapPc.index]

/-- Between two swaps the processes are the same number of calls along. -/
theorem Inv.returned_eq (hs : Inv s) {p : Bool} (hp : Outside s p) (hq : Outside s !p) :
    (s.proc p).returned = (s.proc !p).returned := by
  have h1 := (hs.synced p).returned
  have h2 := (hs.synced !p).returned
  rw [Bool.not_not] at h2
  rw [clock_of_outside hp] at h2
  rw [clock_of_outside hq] at h1
  omega

/-- Outside `swap` the processes own different regions. -/
theorem Inv.get_ne (hs : Inv s) {p : Bool} (hp : Outside s p) (hq : Outside s !p) :
    (s.proc p).handle.get ≠ (s.proc !p).handle.get := by
  rw [hs.get_of_outside hp, hs.get_of_outside hq, ← hs.returned_eq hp hq]
  intro h
  exact owned_not_ne p _ (Option.some.inj h).symm

/-- A swap returns only after the other process has entered the swap of the same number. -/
theorem Inv.returned_le_entered (hs : Inv s) (p : Bool) :
    (s.proc p).returned ≤ entered s !p := by
  have h := (hs.synced p).returned
  have hle := SwapPc.index_le (s.proc !p).pc
  unfold entered
  unfold clock at h
  split_ifs with hout
  · simp only [hout, SwapPc.index] at h
    omega
  · omega

/-- After its swap number `k` a process owns what the other process owned when it entered
its swap number `k`, and reads there what the other process left. -/
theorem Inv.takes_over (hs : Inv s) {p : Bool} (hp : Outside s p) {k : Nat}
    (hk : (s.proc p).returned = k + 1) :
    (s.proc p).handle.get = ((s.proc !p).handed k).1 ∧
      ((s.proc p).wrote = false → s.read p = ((s.proc !p).handed k).2) := by
  have hsync := (hs.synced p).returned
  have hhanded := hs.handed !p
  rw [Bool.not_not] at hhanded
  have hclock := clock_of_outside hp
  have hget := hs.get_of_outside hp
  have hregion := hhanded.region k (by omega)
  rw [owned_not] at hregion
  refine ⟨by rw [hget, hregion, hk], fun hwrote => ?_⟩
  have hcontent := hhanded.content k (by omega) (Or.inr ⟨by omega, hwrote⟩)
  rw [hcontent, read, hget, hk, owned_not]
  rfl

/-- The intermediate mutex a process waits for is held by a process that is behind. -/
theorem Inv.inter_free_of_behind (hs : Inv s) {p : Bool} (hpc : (s.proc p).pc = .lockNext)
    (hbehind : clock (s.proc p) ≤ clock (s.proc !p)) :
    s.locked (interMutex p (s.proc p).returned) = false := by
  rw [← Bool.not_eq_true, hs.locked_iff p]
  have hclock : clock (s.proc p) = 6 * (s.proc p).returned + 1 := by
    simp [clock, hpc, SwapPc.index]
  obtain ⟨h1, h2, h3⟩ := hs.synced !p
  rw [Bool.not_not] at h1 h2 h3
  have hle := SwapPc.index_le (s.proc !p).pc
  rintro (h | h)
  · simp only [Held, hpc] at h
    exact mainMutex_ne_interMutex _ _ _ _ h.symm
  · rcases h.cases_clock with ⟨j, hm, _, _⟩ | ⟨j, hm, hj, hj'⟩
    · exact mainMutex_ne_interMutex _ _ _ _ hm.symm
    · rw [interMutex_not, interMutex_eq_iff] at hm
      unfold clock at *
      omega

/-- The same for the main mutex of the next call. -/
theorem Inv.main_free_of_behind (hs : Inv s) {p : Bool} (hpc : (s.proc p).pc = .lockMine)
    (hbehind : clock (s.proc p) ≤ clock (s.proc !p)) :
    s.locked (mainMutex p ((s.proc p).returned + 1)) = false := by
  rw [← Bool.not_eq_true, hs.locked_iff p]
  have hclock : clock (s.proc p) = 6 * (s.proc p).returned + 4 := by
    simp [clock, hpc, SwapPc.index]
  obtain ⟨h1, h2, h3⟩ := hs.synced !p
  rw [Bool.not_not] at h1 h2 h3
  have hle := SwapPc.index_le (s.proc !p).pc
  rintro (h | h)
  · simp only [Held, hpc] at h
    exact mainMutex_ne_interMutex _ _ _ _ h
  · rcases h.cases_clock with ⟨j, hm, hj, hj'⟩ | ⟨j, hm, _, _⟩
    · rw [mainMutex_not, mainMutex_eq_iff] at hm
      unfold clock at *
      omega
    · exact mainMutex_ne_interMutex _ _ _ _ hm

/-- The process that is behind is never blocked. -/
theorem Inv.advance_of_behind (hs : Inv s) {p : Bool}
    (hbehind : clock (s.proc p) ≤ clock (s.proc !p)) : ∃ t, s.advance p = some t := by
  have hmove : ∃ t, Move s p t := by
    cases hpc : (s.proc p).pc with
    | outside => exact ⟨_, .enter hpc⟩
    | lockNext => exact ⟨_, .lockNext hpc (hs.inter_free_of_behind hpc hbehind)⟩
    | unlockMine => exact ⟨_, .unlockMine hpc⟩
    | flip => exact ⟨_, .flip hpc⟩
    | lockMine => exact ⟨_, .lockMine hpc (hs.main_free_of_behind hpc hbehind)⟩
    | unlockOld => exact ⟨_, .unlockOld hpc⟩
  obtain ⟨t, ht⟩ := hmove
  exact ⟨t, (advance_eq_some_iff (hs.flagged p)).mpr ht⟩

theorem Inv.exists_advance (hs : Inv s) : ∃ p t, s.advance p = some t := by
  rcases Nat.le_total (clock (s.proc true)) (clock (s.proc false)) with h | h
  · exact ⟨true, hs.advance_of_behind h⟩
  · exact ⟨false, hs.advance_of_behind h⟩

/-! ## One step, for clients that keep track of a process

A process outside `swap` reads the same whatever the other process does, and a statement of
`swap` either enters it, stays inside or returns. -/

theorem Inv.read_isSome (hs : Inv s) (p : Bool) : ∃ v, s.read p = some v :=
  ⟨_, congrArg (Option.map s.content) (hs.flagged p).get⟩

theorem Inv.proc_not_of_advance (hs : Inv s) {t : Ram V} {p : Bool} (h : s.advance p = some t) :
    t.proc (!p) = s.proc !p :=
  ((advance_eq_some_iff (hs.flagged p)).mp h).proc_not

theorem Inv.content_of_advance (hs : Inv s) {t : Ram V} {p : Bool} (h : s.advance p = some t) :
    t.content = s.content :=
  ((advance_eq_some_iff (hs.flagged p)).mp h).content_eq

theorem Inv.advance_cases (hs : Inv s) {t : Ram V} {p : Bool} (h : s.advance p = some t) :
    (Outside s p ∧ ¬ Outside t p ∧ (t.proc p).returned = (s.proc p).returned ∧
      (t.proc p).wrote = (s.proc p).wrote ∧ (t.proc p).handed =
        Function.update (s.proc p).handed (s.proc p).returned ((s.proc p).handle.get, s.read p)) ∨
    (¬ Outside s p ∧ ¬ Outside t p ∧ (t.proc p).returned = (s.proc p).returned ∧
      (t.proc p).wrote = (s.proc p).wrote ∧ (t.proc p).handed = (s.proc p).handed) ∨
    (¬ Outside s p ∧ Outside t p ∧ (t.proc p).returned = (s.proc p).returned + 1 ∧
      (t.proc p).wrote = false ∧ (t.proc p).handed = (s.proc p).handed) := by
  have hget := (hs.flagged p).get
  cases (advance_eq_some_iff (hs.flagged p)).mp h with
  | enter hpc =>
    simp only [hpc, SwapPc.index] at hget
    refine .inl ⟨hpc, by simp [Outside], by simp, by simp, ?_⟩
    simp [read, hget]
  | lockNext hpc | unlockMine hpc | flip hpc | lockMine hpc =>
    exact .inr (.inl ⟨by simp [Outside, hpc], by simp [Outside], by simp, by simp, by simp⟩)
  | unlockOld hpc =>
    exact .inr (.inr ⟨by simp [Outside, hpc], by simp [Outside], by simp, by simp, by simp⟩)

/-- Only a process outside `swap` writes, and it can. -/
theorem Inv.exists_write (hs : Inv s) {p : Bool} (hp : Outside s p) (v : V) :
    ∃ t, s.write p v = some t :=
  ⟨_, (write_eq_some_iff (hs.flagged p)).mpr ⟨hp, rfl⟩⟩

theorem Inv.write_spec (hs : Inv s) {t : Ram V} {p : Bool} {v : V} (h : s.write p v = some t) :
    Outside s p ∧ t.proc p = { s.proc p with wrote := true } ∧ t.proc (!p) = s.proc !p ∧
      t.read p = some v ∧ (Outside s (!p) → t.read (!p) = s.read !p) := by
  obtain ⟨hpc, rfl⟩ := (write_eq_some_iff (hs.flagged p)).mp h
  refine ⟨hpc, by simp, by simp, ?_, fun hq => ?_⟩
  · have hget := hs.get_of_outside hpc
    simp [read, hget]
  · have hget := hs.get_of_outside hq
    rw [← hs.returned_eq hpc hq] at hget
    simp [read, hget, owned_not_ne]

/-- The contract of swappable memory, in every state of every interleaving. -/
theorem swap_contract (h : Reachable s) :
    (∀ p, Outside s p → Outside s (!p) → (s.proc p).handle.get ≠ (s.proc !p).handle.get) ∧
    (∀ p, (s.proc p).returned ≤ entered s !p) ∧
    (∀ p k, Outside s p → (s.proc p).returned = k + 1 →
      (s.proc p).handle.get = ((s.proc !p).handed k).1 ∧
      ((s.proc p).wrote = false → s.read p = ((s.proc !p).handed k).2)) ∧
    ∃ p t, s.advance p = some t := by
  have hs := h.inv
  exact ⟨fun _ => hs.get_ne, hs.returned_le_entered, fun _ _ hp hk => hs.takes_over hp hk,
    hs.exists_advance⟩

/-- Fresh memory holding `0` in both regions. -/
def fresh : Ram Nat where
  content := fun _ => 0
  locked := fun m => decide (m = .a ∨ m = .b)
  proc := fun p =>
    { handle := ((Handle.construct 8).chooseSide p).2, pc := .outside, returned := 0
      handed := fun _ => (none, none), wrote := false }

theorem fresh_initial : Initial fresh :=
  ⟨⟨rfl, rfl, rfl, rfl⟩, fun _ => ⟨⟨8, rfl⟩, rfl, rfl⟩⟩

/-- Process `true` writes `7`; then both swap, `true` running ahead as far as it can. -/
def oneSwap : Option (Ram Nat) :=
  (fresh.write true 7).bind
    ([true, true, true, true, false, false, false, true, false, true, false, false].foldlM advance)

theorem oneSwap_contract : ∃ s, oneSwap = some s ∧ Outside s true ∧ Outside s false ∧
    s.read false = some 7 ∧ ((s.proc true).handed 0).2 = some 7 ∧
    s.read false = ((s.proc true).handed 0).2 := by
  have hview : oneSwap.map (fun s => ((s.proc true).pc, (s.proc false).pc,
      (s.proc false).returned, (s.proc false).wrote, s.read false)) =
      some (.outside, .outside, 1, false, some 7) := by rfl
  obtain ⟨s, hs, hview⟩ := Option.map_eq_some_iff.mp hview
  simp only [Prod.mk.injEq] at hview
  obtain ⟨h1, h2, hret, hwrote, hread⟩ := hview
  obtain ⟨t, ht, hrun⟩ := Option.bind_eq_some_iff.mp hs
  have hstep : ∀ (u : Ram Nat) (p : Bool) (v : Ram Nat), u.advance p = some v → Step u v :=
    fun _ p _ h => .advance p h
  have hreach : Reachable s :=
    .foldlM hstep (.next (.start fresh_initial) (.write true 7 ht)) hrun
  have hover := ((swap_contract hreach).2.2.1 false 0 h2 hret).2 hwrote
  exact ⟨s, hs, h1, h2, hread, hover ▸ hread, hover⟩

end CoVault.Dualex.Ram
