import CoVault.Dualex.SwappableRam

/-!
# The invariant of swappable memory

Number the calls of `swap` of one process from zero. In call `k` process `p` takes
the intermediate mutex `interMutex p k`, gives up `mainMutex p k`, flips its flag,
takes `mainMutex p (k + 1)` and gives the intermediate mutex back. The other process
uses the same mutexes one call earlier or later: `mainMutex (!p) k` is
`mainMutex p (k + 1)`, and likewise for the intermediate ones. So a fast process
that starts call `k + 1` needs an intermediate mutex that the slow one holds until it
has finished call `k`.
-/

namespace CoVault.Dualex.Ram

variable {V : Type}

/-- The flag of process `p` after `k` flips. -/
def flag (p : Bool) (k : Nat) : Bool := p == (k % 2 == 0)

@[simp] theorem flag_not (p : Bool) (k : Nat) : flag (!p) k = !flag p k := by
  cases p <;> simp [flag]

theorem flag_succ (p : Bool) (k : Nat) : flag p (k + 1) = !flag p k := by
  have h : k % 2 = 0 ∧ (k + 1) % 2 = 1 ∨ k % 2 = 1 ∧ (k + 1) % 2 = 0 := by omega
  rcases h with ⟨h1, h2⟩ | ⟨h1, h2⟩ <;> cases p <;> simp [flag, h1, h2]

def owned (p : Bool) (k : Nat) : Region := if flag p k then .a else .b

def mainMutex (p : Bool) (k : Nat) : Mutex := if flag p k then .a else .b

def interMutex (p : Bool) (k : Nat) : Mutex := if flag p k then .ab else .ba

theorem mainMutex_not (p : Bool) (k : Nat) : mainMutex (!p) k = mainMutex p (k + 1) := by
  simp [mainMutex, flag_succ]

theorem interMutex_not (p : Bool) (k : Nat) : interMutex (!p) k = interMutex p (k + 1) := by
  simp [interMutex, flag_succ]

theorem owned_not_ne (p : Bool) (k : Nat) : owned (!p) k ≠ owned p k := by
  cases h : flag p k <;> simp [owned, h]

theorem owned_succ_ne (p : Bool) (k : Nat) : owned p (k + 1) ≠ owned p k := by
  cases h : flag p k <;> simp [owned, flag_succ, h]

theorem owned_not (p : Bool) (k : Nat) : owned (!p) k = owned p (k + 1) := by
  simp [owned, flag_succ]

theorem mainMutex_ne_interMutex (p q : Bool) (j k : Nat) : mainMutex p j ≠ interMutex q k := by
  cases h : flag p j <;> cases h' : flag q k <;> simp [mainMutex, interMutex, h, h']

theorem mainMutex_eq_iff (p : Bool) (j k : Nat) :
    mainMutex p j = mainMutex p k ↔ j % 2 = k % 2 := by
  have hj := Nat.mod_two_eq_zero_or_one j
  have hk := Nat.mod_two_eq_zero_or_one k
  rcases hj with hj | hj <;> rcases hk with hk | hk <;> cases p <;>
    simp [mainMutex, flag, hj, hk]

theorem interMutex_eq_iff (p : Bool) (j k : Nat) :
    interMutex p j = interMutex p k ↔ j % 2 = k % 2 := by
  have hj := Nat.mod_two_eq_zero_or_one j
  have hk := Nat.mod_two_eq_zero_or_one k
  rcases hj with hj | hj <;> rcases hk with hk | hk <;> cases p <;>
    simp [interMutex, flag, hj, hk]

/-- Statements of `swap` process `x` has executed in its whole life. -/
def clock (x : Proc V) : Nat := 6 * x.returned + x.pc.index

/-- The mutexes process `p` holds. -/
def Held (p : Bool) (x : Proc V) (m : Mutex) : Prop :=
  match x.pc with
  | .outside | .lockNext => m = mainMutex p x.returned
  | .unlockMine => m = mainMutex p x.returned ∨ m = interMutex p x.returned
  | .flip | .lockMine => m = interMutex p x.returned
  | .unlockOld => m = mainMutex p (x.returned + 1) ∨ m = interMutex p x.returned

/-- How far process `y` has come at least when `x` stands where it stands. -/
structure Synced (x y : Proc V) : Prop where
  returned : 6 * x.returned ≤ clock y + 3
  inside : 2 ≤ x.pc.index → 6 * x.returned ≤ clock y
  leaving : 5 ≤ x.pc.index → 6 * x.returned + 3 ≤ clock y

/-- The private flag follows the number of flips. -/
structure Flagged (p : Bool) (x : Proc V) : Prop where
  set : x.handle.swapSet = true
  swapped : x.handle.swapped = flag p (if 4 ≤ x.pc.index then x.returned + 1 else x.returned)

/-- What `x` owned on entering its swaps, for as long as the other process `y` has not
written over it. -/
structure HandedOver (p : Bool) (content : Region → V) (x y : Proc V) : Prop where
  region : ∀ k, 6 * k + 1 ≤ clock x → (x.handed k).1 = some (owned p k)
  content : ∀ k, 6 * k + 1 ≤ clock x →
    (clock y < 6 * k + 6 ∨ clock y = 6 * k + 6 ∧ y.wrote = false) →
    (x.handed k).2 = some (content (owned p k))

structure Inv (s : Ram V) : Prop where
  flagged : ∀ p, Flagged p (s.proc p)
  synced : ∀ p, Synced (s.proc p) (s.proc !p)
  locked : ∀ m, s.locked m = true ↔ ∃ p, Held p (s.proc p) m
  handed : ∀ p, HandedOver p s.content (s.proc p) (s.proc !p)

theorem forall_of_self_not {P : Bool → Prop} (p : Bool) (h : P p) (h' : P !p) : ∀ q, P q := by
  intro q
  by_cases hq : q = p
  · exact hq ▸ h
  · exact (Bool.eq_not.mpr hq) ▸ h'

theorem SwapPc.index_le (pc : SwapPc) : pc.index ≤ 5 := by cases pc <;> decide

/-- Holding a mutex, read off the clock. -/
theorem Held.cases_clock {p : Bool} {x : Proc V} {m : Mutex} (h : Held p x m) :
    (∃ k, m = mainMutex p k ∧ 6 * k ≤ clock x + 1 ∧ clock x ≤ 6 * k + 2) ∨
    (∃ k, m = interMutex p k ∧ 6 * k + 2 ≤ clock x ∧ clock x ≤ 6 * k + 5) := by
  unfold Held at h
  unfold clock
  cases hpc : x.pc <;> simp only [hpc, SwapPc.index] at h ⊢
  case outside => exact Or.inl ⟨_, h, by omega, by omega⟩
  case lockNext => exact Or.inl ⟨_, h, by omega, by omega⟩
  case unlockMine =>
    rcases h with h | h
    · exact Or.inl ⟨_, h, by omega, by omega⟩
    · exact Or.inr ⟨_, h, by omega, by omega⟩
  case flip => exact Or.inr ⟨_, h, by omega, by omega⟩
  case lockMine => exact Or.inr ⟨_, h, by omega, by omega⟩
  case unlockOld =>
    rcases h with h | h
    · exact Or.inl ⟨_, h, by omega, by omega⟩
    · exact Or.inr ⟨_, h, by omega, by omega⟩

/-- Two synchronized processes never hold the same mutex. -/
theorem held_exclusive {p : Bool} {x y : Proc V} (hxy : Synced x y) (hyx : Synced y x)
    {m : Mutex} (hx : Held p x m) (hy : Held (!p) y m) : False := by
  have hix := SwapPc.index_le x.pc
  have hiy := SwapPc.index_le y.pc
  obtain ⟨h1, h2, h3⟩ := hxy
  obtain ⟨h4, h5, h6⟩ := hyx
  rcases hx.cases_clock with ⟨k, rfl, hk, hk'⟩ | ⟨k, rfl, hk, hk'⟩ <;>
    rcases hy.cases_clock with ⟨j, hm, hj, hj'⟩ | ⟨j, hm, hj, hj'⟩
  · rw [mainMutex_not, mainMutex_eq_iff] at hm
    unfold clock at *
    omega
  · exact mainMutex_ne_interMutex _ _ _ _ hm
  · exact mainMutex_ne_interMutex _ _ _ _ hm.symm
  · rw [interMutex_not, interMutex_eq_iff] at hm
    unfold clock at *
    omega

/-! ## What one statement does -/

/-- The effect of one statement of process `p`, with the mutexes named by call number. -/
inductive Move (s : Ram V) (p : Bool) : Ram V → Prop where
  | enter : (s.proc p).pc = .outside → Move s p (s.setProc p { s.proc p with
      pc := .lockNext
      handed := Function.update (s.proc p).handed (s.proc p).returned
        (some (owned p (s.proc p).returned), some (s.content (owned p (s.proc p).returned))) })
  | lockNext : (s.proc p).pc = .lockNext →
      s.locked (interMutex p (s.proc p).returned) = false →
      Move s p ({ s with
        locked := Function.update s.locked (interMutex p (s.proc p).returned) true }.setProc p
        { s.proc p with pc := .unlockMine })
  | unlockMine : (s.proc p).pc = .unlockMine →
      Move s p ({ s with
        locked := Function.update s.locked (mainMutex p (s.proc p).returned) false }.setProc p
        { s.proc p with pc := .flip })
  | flip : (s.proc p).pc = .flip → Move s p (s.setProc p { s.proc p with
      pc := .lockMine
      handle := { (s.proc p).handle with swapped := !(s.proc p).handle.swapped } })
  | lockMine : (s.proc p).pc = .lockMine →
      s.locked (mainMutex p ((s.proc p).returned + 1)) = false →
      Move s p ({ s with
        locked := Function.update s.locked (mainMutex p ((s.proc p).returned + 1)) true }.setProc p
        { s.proc p with pc := .unlockOld })
  | unlockOld : (s.proc p).pc = .unlockOld →
      Move s p ({ s with
        locked := Function.update s.locked (interMutex p (s.proc p).returned) false }.setProc p
        { s.proc p with pc := .outside, returned := (s.proc p).returned + 1, wrote := false })

theorem Flagged.get {p : Bool} {x : Proc V} (h : Flagged p x) :
    x.handle.get = some (owned p (if 4 ≤ x.pc.index then x.returned + 1 else x.returned)) := by
  simp [Handle.get, h.set, h.swapped, owned]

theorem Flagged.myMutex {p : Bool} {x : Proc V} (h : Flagged p x) : x.handle.myMutex =
    some (mainMutex p (if 4 ≤ x.pc.index then x.returned + 1 else x.returned)) := by
  simp [Handle.myMutex, h.set, h.swapped, mainMutex]

theorem Flagged.nextIntermediate {p : Bool} {x : Proc V} (h : Flagged p x)
    (hpc : x.pc = .lockNext) : x.handle.nextIntermediate = some (interMutex p x.returned) := by
  simp [Handle.nextIntermediate, h.set, h.swapped, interMutex, hpc, SwapPc.index]

theorem Flagged.oldIntermediate {p : Bool} {x : Proc V} (h : Flagged p x)
    (hpc : x.pc = .unlockOld) : x.handle.oldIntermediate = some (interMutex p x.returned) := by
  cases hf : flag p x.returned <;>
    simp [Handle.oldIntermediate, h.set, h.swapped, interMutex, hpc, SwapPc.index, flag_succ, hf]

theorem lock_eq_some_iff {s t : Ram V} {m : Mutex} : s.lock (some m) = some t ↔
    s.locked m = false ∧ t = { s with locked := Function.update s.locked m true } := by
  by_cases h : s.locked m = true <;> simp [lock, h, eq_comm]

/-- `advance` carries out exactly the move of the statement. -/
theorem advance_eq_some_iff {s t : Ram V} {p : Bool} (hf : Flagged p (s.proc p)) :
    s.advance p = some t ↔ Move s p t := by
  have hget := hf.get
  have hmy := hf.myMutex
  constructor
  · intro h
    unfold advance at h
    cases hpc : (s.proc p).pc <;> simp only [hpc] at h <;> simp [hpc, SwapPc.index] at hget hmy
    case outside =>
      simp only [hf.set, if_true, Option.some.injEq, read, hget, Option.map_some] at h
      exact h ▸ .enter hpc
    case lockNext =>
      rw [hf.nextIntermediate hpc, Option.map_eq_some_iff] at h
      obtain ⟨u, hu, rfl⟩ := h
      obtain ⟨hfree, rfl⟩ := lock_eq_some_iff.mp hu
      exact .lockNext hpc hfree
    case unlockMine =>
      simp only [hmy, unlock, Option.map_some, Option.some.injEq] at h
      exact h ▸ .unlockMine hpc
    case flip =>
      simp only [Option.some.injEq] at h
      exact h ▸ .flip hpc
    case lockMine =>
      rw [hmy, Option.map_eq_some_iff] at h
      obtain ⟨u, hu, rfl⟩ := h
      obtain ⟨hfree, rfl⟩ := lock_eq_some_iff.mp hu
      exact .lockMine hpc hfree
    case unlockOld =>
      simp only [hf.oldIntermediate hpc, unlock, Option.map_some, Option.some.injEq] at h
      exact h ▸ .unlockOld hpc
  · intro h
    unfold advance
    cases h with
    | enter hpc => simp [hpc, SwapPc.index, hf.set, read, hget]
    | lockNext hpc hfree => simp [hpc, hf.nextIntermediate hpc, lock, hfree]
    | unlockMine hpc => simp [hpc, SwapPc.index, hmy, unlock]
    | flip hpc => simp [hpc]
    | lockMine hpc hfree => simp [hpc, SwapPc.index, hmy, lock, hfree]
    | unlockOld hpc => simp [hpc, hf.oldIntermediate hpc, unlock]

@[simp] theorem setProc_proc_self (s : Ram V) (p : Bool) (x : Proc V) :
    (s.setProc p x).proc p = x := by
  simp [setProc]

@[simp] theorem setProc_proc_not (s : Ram V) (p : Bool) (x : Proc V) :
    (s.setProc p x).proc (!p) = s.proc !p := by
  simp [setProc]

@[simp] theorem setProc_content (s : Ram V) (p : Bool) (x : Proc V) :
    (s.setProc p x).content = s.content := rfl

@[simp] theorem setProc_locked (s : Ram V) (p : Bool) (x : Proc V) :
    (s.setProc p x).locked = s.locked := rfl

theorem exists_bool_iff {P : Bool → Prop} (p : Bool) : (∃ q, P q) ↔ P p ∨ P !p := by
  cases p <;> simp [or_comm]

/-- One process moves: what has to be shown of it and of the process that stands still. -/
theorem Inv.of_proc {s t : Ram V} {p : Bool} (hs : Inv s)
    (hstill : t.proc (!p) = s.proc !p)
    (hflag : Flagged p (t.proc p))
    (hsync : Synced (t.proc p) (s.proc !p))
    (hclock : clock (s.proc p) ≤ clock (t.proc p))
    (hlock : ∀ m, t.locked m = true ↔ Held p (t.proc p) m ∨ Held (!p) (s.proc !p) m)
    (hmine : HandedOver p t.content (t.proc p) (s.proc !p))
    (hother : HandedOver (!p) t.content (s.proc !p) (t.proc p)) : Inv t where
  flagged := forall_of_self_not p hflag (hstill ▸ hs.flagged !p)
  synced := by
    obtain ⟨h1, h2, h3⟩ := hs.synced !p
    rw [Bool.not_not] at h1 h2 h3
    refine forall_of_self_not p (hstill ▸ hsync) ?_
    rw [hstill, Bool.not_not]
    exact ⟨by omega, fun h => Nat.le_trans (h2 h) hclock,
      fun h => Nat.le_trans (h3 h) hclock⟩
  locked := fun m => by rw [exists_bool_iff p, hstill]; exact hlock m
  handed := by
    refine forall_of_self_not p (hstill ▸ hmine) ?_
    rw [hstill, Bool.not_not]
    exact hother

/-- A mutex the other process holds is not free. -/
theorem Inv.not_held {s : Ram V} (hs : Inv s) {m : Mutex} (hfree : s.locked m = false) (p : Bool) :
    ¬ Held p (s.proc p) m := by
  intro h
  have := (hs.locked m).mpr ⟨p, h⟩
  rw [hfree] at this
  cases this

theorem Inv.locked_iff {s : Ram V} (hs : Inv s) (p : Bool) (m : Mutex) :
    s.locked m = true ↔ Held p (s.proc p) m ∨ Held (!p) (s.proc !p) m :=
  (hs.locked m).trans (exists_bool_iff p)

/-- Standing before the intermediate mutex of call `k`, the process has it to itself only
once the other process is past call `k - 1`. -/
theorem Inv.sync_of_inter_free {s : Ram V} (hs : Inv s) {p : Bool}
    (hfree : s.locked (interMutex p (s.proc p).returned) = false) :
    6 * (s.proc p).returned ≤ clock (s.proc !p) := by
  obtain ⟨h1, _, _⟩ := hs.synced p
  have hle := SwapPc.index_le (s.proc !p).pc
  by_contra hlt
  apply hs.not_held hfree (!p)
  have hret : (s.proc p).returned = (s.proc !p).returned + 1 := by unfold clock at *; omega
  have hidx : 3 ≤ (s.proc !p).pc.index := by unfold clock at *; omega
  rw [hret, ← interMutex_not]
  unfold Held
  cases hpc : (s.proc !p).pc <;> simp [hpc, SwapPc.index] at hidx ⊢

/-- The main mutex of the next call is free only once the other process has given it up. -/
theorem Inv.sync_of_main_free {s : Ram V} (hs : Inv s) {p : Bool}
    (hpc : 2 ≤ (s.proc p).pc.index)
    (hfree : s.locked (mainMutex p ((s.proc p).returned + 1)) = false) :
    6 * (s.proc p).returned + 3 ≤ clock (s.proc !p) := by
  obtain ⟨_, h2, _⟩ := hs.synced p
  have hpast := h2 hpc
  have hle := SwapPc.index_le (s.proc !p).pc
  by_contra hlt
  apply hs.not_held hfree (!p)
  have hret : (s.proc p).returned = (s.proc !p).returned := by unfold clock at *; omega
  have hidx : (s.proc !p).pc.index ≤ 2 := by unfold clock at *; omega
  rw [hret, ← mainMutex_not]
  unfold Held
  cases hpc : (s.proc !p).pc <;> simp [hpc, SwapPc.index] at hidx ⊢

theorem Move.content_eq {s t : Ram V} {p : Bool} (h : Move s p t) : t.content = s.content := by
  cases h <;> rfl

theorem Move.proc_not {s t : Ram V} {p : Bool} (h : Move s p t) : t.proc (!p) = s.proc !p := by
  cases h <;> simp [setProc]

theorem Move.clock_eq {s t : Ram V} {p : Bool} (h : Move s p t) :
    clock (t.proc p) = clock (s.proc p) + 1 := by
  cases h <;> simp_all [clock, SwapPc.index]
  omega

/-- What the other process handed over stays while this one moves on. -/
theorem HandedOver.of_clock_lt {p : Bool} {content : Region → V} {x y y' : Proc V}
    (h : HandedOver p content x y) (hlt : clock y < clock y') : HandedOver p content x y' where
  region := h.region
  content := fun k hk hy => h.content k hk (Or.inl (by omega))

/-- Inside a swap nothing more is handed over. -/
theorem HandedOver.of_inside {p : Bool} {content : Region → V} {x x' y : Proc V}
    (h : HandedOver p content x y) (hin : x.pc ≠ .outside) (hclock : clock x' = clock x + 1)
    (hsame : x'.handed = x.handed) : HandedOver p content x' y := by
  have hearlier : ∀ k, 6 * k + 1 ≤ clock x' → 6 * k + 1 ≤ clock x := by
    intro k hk
    have hpos : 1 ≤ x.pc.index := by cases hpc : x.pc <;> simp_all [SwapPc.index]
    have hle := SwapPc.index_le x.pc
    unfold clock at *
    omega
  exact
    { region := fun k hk => hsame ▸ h.region k (hearlier k hk)
      content := fun k hk hy => hsame ▸ h.content k (hearlier k hk) hy }

/-- On entering a swap the process hands over the region it owns. -/
theorem HandedOver.of_enter {p : Bool} {content : Region → V} {x y : Proc V}
    (h : HandedOver p content x y) (hpc : x.pc = .outside) :
    HandedOver p content { x with
      pc := .lockNext
      handed := Function.update x.handed x.returned
        (some (owned p x.returned), some (content (owned p x.returned))) } y := by
  have hclock : clock x = 6 * x.returned := by simp [clock, hpc, SwapPc.index]
  constructor
  · intro k hk
    by_cases hkr : k = x.returned
    · simp [hkr]
    · simp only [clock, SwapPc.index] at hk
      simpa [hkr] using h.region k (by omega)
  · intro k hk hy
    by_cases hkr : k = x.returned
    · simp [hkr]
    · simp only [clock, SwapPc.index] at hk
      simpa [hkr] using h.content k (by omega) hy

/-- Taking a free mutex adds it to those the process holds. -/
theorem locked_of_lock {p : Bool} {x x' y : Proc V} {locked : Mutex → Bool} {m₀ : Mutex}
    (h : ∀ m, locked m = true ↔ Held p x m ∨ Held (!p) y m)
    (hheld : ∀ m, Held p x' m ↔ Held p x m ∨ m = m₀) (m : Mutex) :
    Function.update locked m₀ true m = true ↔ Held p x' m ∨ Held (!p) y m := by
  rw [hheld, Function.update_apply]
  by_cases hm : m = m₀
  · simp [hm]
  · simp only [hm, if_false, or_false]
    exact h m

/-- Releasing a mutex takes it from those the process holds. -/
theorem locked_of_unlock {p : Bool} {x x' y : Proc V} {locked : Mutex → Bool} {m₀ : Mutex}
    (h : ∀ m, locked m = true ↔ Held p x m ∨ Held (!p) y m)
    (hheld : ∀ m, Held p x' m ↔ Held p x m ∧ m ≠ m₀) (hother : ¬ Held (!p) y m₀) (m : Mutex) :
    Function.update locked m₀ false m = true ↔ Held p x' m ∨ Held (!p) y m := by
  rw [hheld, Function.update_apply]
  by_cases hm : m = m₀
  · simp [hm, hother]
  · simp only [hm, if_false, ne_eq, not_false_eq_true, and_true]
    exact h m

/-- Every statement keeps the invariant. -/
theorem Move.inv {s t : Ram V} {p : Bool} (h : Move s p t) (hs : Inv s) : Inv t := by
  have hclock := h.clock_eq
  have hflag := hs.flagged p
  have hsync := hs.synced p
  have hlock := hs.locked_iff p
  have hmine := hs.handed p
  have hother : HandedOver (!p) t.content (s.proc !p) (t.proc p) := by
    have := hs.handed !p
    rw [Bool.not_not] at this
    exact h.content_eq ▸ this.of_clock_lt (by omega)
  have hexcl : ∀ m, Held p (s.proc p) m → ¬ Held (!p) (s.proc !p) m := fun m h1 h2 =>
    held_exclusive hsync (by simpa using hs.synced !p) h1 h2
  refine hs.of_proc h.proc_not ?_ ?_ (by omega) ?_ ?_ hother
  · -- the flag is flipped by one statement only
    obtain ⟨hset, hswap⟩ := hflag
    cases h <;> constructor <;> simp_all [SwapPc.index, flag_succ]
  · -- only taking a mutex needs to know more of the other process
    obtain ⟨h1, h2, h3⟩ := hsync
    cases h with
    | enter hpc => constructor <;> simp_all [SwapPc.index]
    | lockNext hpc hfree =>
      have := hs.sync_of_inter_free hfree
      constructor <;> simp_all [SwapPc.index]
    | unlockMine hpc => constructor <;> simp_all [SwapPc.index]
    | flip hpc => constructor <;> simp_all [SwapPc.index]
    | lockMine hpc hfree =>
      have := hs.sync_of_main_free (by simp [hpc, SwapPc.index]) hfree
      constructor <;> simp_all [SwapPc.index]
    | unlockOld hpc =>
      constructor <;> simp_all [SwapPc.index]
      omega
  · have hne := mainMutex_ne_interMutex p p
    cases h with
    | enter hpc =>
      intro m
      simp only [setProc_locked, setProc_proc_self, hlock, Held, hpc]
    | lockNext hpc hfree =>
      exact locked_of_lock hlock (by simp [Held, hpc])
    | unlockMine hpc =>
      refine locked_of_unlock hlock (fun m => ?_) (hexcl _ (by simp [Held, hpc]))
      simp only [setProc_proc_self, Held, hpc]
      grind
    | flip hpc =>
      intro m
      simp only [setProc_locked, setProc_proc_self, hlock, Held, hpc]
    | lockMine hpc hfree =>
      exact locked_of_lock hlock (by simp [Held, hpc, or_comm])
    | unlockOld hpc =>
      refine locked_of_unlock hlock (fun m => ?_) (hexcl _ (by simp [Held, hpc]))
      simp only [setProc_proc_self, Held, hpc]
      grind
  · rw [h.content_eq]
    cases h with
    | enter hpc =>
      rw [setProc_proc_self]
      exact hmine.of_enter hpc
    | lockNext hpc _ => exact hmine.of_inside (by simp [hpc]) hclock (by simp)
    | unlockMine hpc => exact hmine.of_inside (by simp [hpc]) hclock (by simp)
    | flip hpc => exact hmine.of_inside (by simp [hpc]) hclock (by simp)
    | lockMine hpc _ => exact hmine.of_inside (by simp [hpc]) hclock (by simp)
    | unlockOld hpc => exact hmine.of_inside (by simp [hpc]) hclock (by simp)

/-- A write outside `swap`, with the region named by the call number. -/
theorem write_eq_some_iff {s t : Ram V} {p : Bool} {v : V} (hf : Flagged p (s.proc p)) :
    s.write p v = some t ↔ (s.proc p).pc = .outside ∧
      t = { s with content := Function.update s.content (owned p (s.proc p).returned) v }.setProc p
        { s.proc p with wrote := true } := by
  unfold write
  by_cases hpc : (s.proc p).pc = .outside
  · have hget := hf.get
    simp only [hpc, SwapPc.index] at hget
    simp [hpc, hget, eq_comm]
  · simp [hpc]

/-- Writing the owned region keeps the invariant: what either process handed over and the
other has not overwritten lies in the other region, or has been taken over already. -/
theorem Inv.write {s t : Ram V} {p : Bool} {v : V} (hs : Inv s) (h : s.write p v = some t) :
    Inv t := by
  obtain ⟨hpc, rfl⟩ := (write_eq_some_iff (hs.flagged p)).mp h
  have hflag := hs.flagged p
  have hclock : clock (s.proc p) = 6 * (s.proc p).returned := by simp [clock, hpc, SwapPc.index]
  obtain ⟨hpq, _, _⟩ := hs.synced p
  obtain ⟨hqp, _, _⟩ := hs.synced !p
  rw [Bool.not_not] at hqp
  have hle := SwapPc.index_le (s.proc !p).pc
  have hmine := hs.handed p
  have hother := hs.handed !p
  rw [Bool.not_not] at hother
  have hsync := hs.synced p
  refine hs.of_proc (p := p) (by simp) ?_ ?_ ?_ ?_ ?_ ?_
  · rw [setProc_proc_self]
    exact ⟨hflag.set, hflag.swapped⟩
  · rw [setProc_proc_self]
    exact ⟨hsync.returned, hsync.inside, hsync.leaving⟩
  · rw [setProc_proc_self]
    exact Nat.le_refl _
  · intro m
    rw [setProc_proc_self]
    exact hs.locked_iff p m
  · rw [setProc_proc_self, setProc_content]
    refine ⟨hmine.region, fun k hk hy => ?_⟩
    have hk' : 6 * k + 1 ≤ clock (s.proc p) := hk
    have hnext : (s.proc p).returned = k + 1 := by unfold clock at *; omega
    change _ = some (Function.update s.content (owned p (s.proc p).returned) v (owned p k))
    rw [hnext, Function.update_of_ne (owned_succ_ne p k).symm]
    exact hmine.content k hk' hy
  · rw [setProc_proc_self, setProc_content]
    refine ⟨hother.region, fun k hk hy => ?_⟩
    have hlt : clock (s.proc p) < 6 * k + 6 := by
      rcases hy with hy | ⟨_, hy⟩
      · exact hy
      · cases hy
    have hsame : (s.proc p).returned = k := by unfold clock at *; omega
    change _ = some (Function.update s.content (owned p (s.proc p).returned) v (owned (!p) k))
    rw [hsame, Function.update_of_ne (owned_not_ne p k)]
    exact hother.content k hk (Or.inl hlt)

theorem Handle.construct_init_chooseSide (size : Nat) (side : Bool) :
    ((Handle.construct size).init.2.chooseSide side).2 =
      { swapped := side, swapSet := true, initCalled := true } := by
  by_cases h : 0 < size <;> simp [Handle.construct, Handle.init, Handle.chooseSide, h]

theorem Initial.inv {s : Ram V} (h : Initial s) : Inv s := by
  obtain ⟨⟨ha, hb, hab, hba⟩, hp⟩ := h
  have hclock : ∀ p, clock (s.proc p) = 0 := fun p => by
    simp [clock, (hp p).2.1, (hp p).2.2, SwapPc.index]
  refine ⟨fun p => ?_, fun p => ?_, fun m => ?_, fun p => ?_⟩
  · obtain ⟨⟨size, hh⟩, hpc, hret⟩ := hp p
    rw [Handle.construct_init_chooseSide] at hh
    constructor <;> simp [hh, hpc, hret, flag, SwapPc.index]
  · obtain ⟨_, hpc, hret⟩ := hp p
    constructor <;> simp [hpc, hret, SwapPc.index]
  · rw [exists_bool_iff true]
    simp only [Held, (hp _).2.1, (hp _).2.2]
    cases m <;> simp [ha, hb, hab, hba, mainMutex, flag]
  · constructor <;> intro k hk <;> have := hclock p <;> omega

theorem Step.inv {s t : Ram V} (hs : Inv s) (h : Step s t) : Inv t := by
  cases h with
  | advance p h => exact ((advance_eq_some_iff (hs.flagged p)).mp h).inv hs
  | write p v h => exact hs.write h

theorem Reachable.inv {s : Ram V} (h : Reachable s) : Inv s := by
  have h0 : ∀ s : Ram V, Initial s → Inv s := fun _ => Initial.inv
  have hstep : ∀ s t : Ram V, Inv s → Step s t → Inv t := fun _ _ => Step.inv
  exact Library.Transition.Reachable.invariant h0 hstep h

end CoVault.Dualex.Ram
