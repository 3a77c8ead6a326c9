import CoVault.Dualex.RevealProtocol

/-!
# How the processes are set up

`fork_and_setup` runs on both machines. Each forks into a garbler, a non-garbler and one
equality checker for every revealer; a process connects to one process of the other machine,
fixes whether ALICE is the left side, and calls `choose_side` on its copies of the revealers.
What `swap` and the reveal protocol ask for in the beginning, two users with opposite sides for
each region, has to come out of this, in as many processes as there are.

The constructors of the circuit library's objects are left out, and so is what a checker does
once it has chosen its sides.
-/

namespace CoVault.Dualex.Setup

open Circuit Reveal

/-! ## The forks -/

/-- The loop of `fork_n_processes`, with `count` rounds to go: what the original process returns,
and what its children do. `fork i` is what the call returns in the original process. -/
def forkLoop (fork : Nat → Int) : Nat → Nat → Int × List Int
  | 0, _ => (0, [])
  | count + 1, i =>
    if fork i < 0 then (fork i, [])
    else
      let (original, children) := forkLoop fork count (i + 1)
      (original, (i : Int) :: children)

def forkNProcesses (fork : Nat → Int) (n : Nat) : Int × List Int := forkLoop fork (n - 1) 1

/-! ## A revealer in one process -/

/-- What `choose_side` reads and writes of a revealer. -/
structure RevealerCopy where
  iAmLeft : Bool
  sideChosen : Bool
  handles : Chan → Handle

/-- The sizes of the regions, in bytes. -/
def regionSize (bits : Nat) : Chan → Nat
  | .labels _ => 16 * bits
  | .bools => bits
  | .value => (bits + 7) / 8
  | .wants _ => 16
  | .result _ => 1

/-- A revealer after its constructor and `init`. -/
def init (side : Side) (bits : Nat) : RevealerCopy where
  iAmLeft := side == Side.LEFT
  sideChosen := false
  handles c := Handle.construct (regionSize bits c)

/-- Calls of `choose_side` joined by `&&`. -/
def chooseSides : List (Chan × Bool) → (Chan → Handle) → Bool × (Chan → Handle)
  | [], handles => (true, handles)
  | (c, side) :: rest, handles =>
    let (ok, handle) := (handles c).chooseSide side
    let handles := Function.update handles c handle
    if ok then chooseSides rest handles else (false, handles)

/-- The sides chosen in `begin_garbler_process`, `begin_non_garbler_process` and
`begin_eq_check_process`. -/
def beginSides : Party → List (Chan × Bool)
  | .dualex .garbler =>
    [(.labels .garbler, false), (.value, true), (.wants .garbler, false),
      (.result .garbler, false)]
  | .dualex .nonGarbler =>
    [(.labels .nonGarbler, false), (.bools, false), (.value, false), (.wants .nonGarbler, false),
      (.result .nonGarbler, false)]
  | .checker =>
    [(.wants .garbler, true), (.wants .nonGarbler, true), (.result .garbler, true),
      (.result .nonGarbler, true), (.labels .garbler, true), (.labels .nonGarbler, true),
      (.bools, true)]

namespace RevealerCopy

variable (r : RevealerCopy) (aliceIsLeft iAmEqChecker : Bool)

def isGarbler : Bool := r.iAmLeft == aliceIsLeft

/-- The part that a process plays for this revealer. -/
def party : Party :=
  if iAmEqChecker then .checker
  else if r.isGarbler aliceIsLeft then .dualex .garbler
  else .dualex .nonGarbler

def chooseSide : Bool × RevealerCopy :=
  if r.sideChosen then (false, r)
  else
    let (ok, handles) := chooseSides (beginSides (r.party aliceIsLeft iAmEqChecker)) r.handles
    (ok, { r with sideChosen := true, handles := handles })

end RevealerCopy

/-! ## A process of a machine -/

/-- The arguments that both machines are given. -/
structure Args where
  leftIp : String
  rightIp : String
  leftAlicePort : BitVec 32
  leftBobPort : BitVec 32
  rightAlicePort : BitVec 32
  rightBobPort : BitVec 32
  leftEqPort : Nat → BitVec 32
  rightEqPort : Nat → BitVec 32
  leftSideOfEqCheckerIsGarbler : Nat → Bool

/-- What a process has set up: its connection, to an address or from anywhere, the party it is in
the circuits, and its copies of the revealers. -/
structure Process where
  address : Option String
  port : BitVec 32
  party : UInt8
  aliceIsLeft : Bool
  revealers : List RevealerCopy

/-- The loop over all revealers; it ends at the first whose sides cannot be chosen. -/
def chooseAll (aliceIsLeft : Bool) : List RevealerCopy → Bool × List RevealerCopy
  | [] => (true, [])
  | r :: rs =>
    let (ok, r) := r.chooseSide aliceIsLeft false
    if ok then
      let (ok, rs) := chooseAll aliceIsLeft rs
      (ok, r :: rs)
    else (false, r :: rs)

/-- `choose_side` of one revealer, for a checker. -/
def chooseOne (aliceIsLeft : Bool) (rs : List RevealerCopy) (index : Nat) :
    Bool × List RevealerCopy :=
  match rs[index]? with
  | none => (false, rs)
  | some r =>
    let (ok, r) := r.chooseSide aliceIsLeft true
    (ok, rs.set index r)

variable (a : Args) (iAmLeft : Bool) (revealers : List RevealerCopy)

/-- The garbler. -/
def launchAlice : Bool × Process :=
  let (ok, revealers) := chooseAll iAmLeft revealers
  (ok, ⟨none, if iAmLeft then a.leftAlicePort else a.rightAlicePort, ALICE, iAmLeft, revealers⟩)

/-- The non-garbler. -/
def launchBob : Bool × Process :=
  let (ok, revealers) := chooseAll (!iAmLeft) revealers
  (ok, ⟨some (if iAmLeft then a.rightIp else a.leftIp),
    if iAmLeft then a.leftBobPort else a.rightBobPort, BOB, !iAmLeft, revealers⟩)

/-- The equality checker of one revealer. -/
def launchEqChecker (index : Nat) : Bool × Process :=
  let isGarbler := a.leftSideOfEqCheckerIsGarbler index == iAmLeft
  let (ok, revealers) := chooseOne (isGarbler == iAmLeft) revealers index
  (ok, ⟨if isGarbler then none else some (if iAmLeft then a.rightIp else a.leftIp),
    if iAmLeft then a.leftEqPort index else a.rightEqPort index,
    if isGarbler then ALICE else BOB, isGarbler == iAmLeft, revealers⟩)

/-- What follows the forks in the process that got `me` from them: the value returned, and what
was set up unless the fork had failed. -/
def setup (me : Int) : Int × Option Process :=
  if me < 0 then (me, none)
  else
    let (ok, p) :=
      if me = 0 then launchAlice a iAmLeft revealers
      else if me = 1 then launchBob a iAmLeft revealers
      else launchEqChecker a iAmLeft revealers (me - 2).toNat
    (if ok then me else -400, some p)

/-- What `fork_and_setup` returns in every process there is in the end, the original one first. -/
def forkAndSetup (fork : Nat → Int) : List (Int × Option Process) :=
  let (original, children) := forkNProcesses fork (revealers.length + 2)
  (original :: children).map (setup a iAmLeft revealers)

/-! ## All processes start -/

theorem forkLoop_eq {fork : Nat → Int} {count i : Nat}
    (h : ∀ j, i ≤ j → j < i + count → 0 ≤ fork j) :
    forkLoop fork count i = (0, (List.range' i count).map Nat.cast) := by
  induction count generalizing i with
  | zero => rfl
  | succ count ih =>
    have hstarted : ¬ fork i < 0 := not_lt.mpr (h i le_rfl (by omega))
    have hrest := ih (i := i + 1) fun j hj hlt => h j (by omega) (by omega)
    rw [forkLoop, if_neg hstarted, hrest, List.range'_succ]
    rfl

/-- If no fork fails, every number belongs to one process, and 0 to the original one. -/
theorem forkNProcesses_eq {fork : Nat → Int} {n : Nat} (h : ∀ j, 0 < j → j < n + 1 → 0 ≤ fork j) :
    forkNProcesses fork (n + 1) = (0, (List.range' 1 n).map Nat.cast) :=
  forkLoop_eq fun j hj hlt => h j hj (by omega)

/-- If one does, the original process gets its error, and those before it run without the rest. -/
theorem forkLoop_fails {fork : Nat → Int} {count i k : Nat} (hk : k < count)
    (hstarted : ∀ j, i ≤ j → j < i + k → 0 ≤ fork j) (hfails : fork (i + k) < 0) :
    forkLoop fork count i = (fork (i + k), (List.range' i k).map Nat.cast) := by
  induction count generalizing i k with
  | zero => exact absurd hk k.not_lt_zero
  | succ count ih =>
    cases k with
    | zero => exact if_pos hfails
    | succ k =>
      have hnow : ¬ fork i < 0 := not_lt.mpr (hstarted i le_rfl (by omega))
      have hshift : i + 1 + k = i + (k + 1) := by omega
      have hrest := ih (i := i + 1) (k := k) (by omega)
        (fun j hj hlt => hstarted j (by omega) (by omega)) (hshift ▸ hfails)
      rw [forkLoop, if_neg hnow, hrest, hshift, List.range'_succ]
      rfl

/-! ## The sides of a revealer -/

/-- A region that nobody has chosen a side of. -/
def Unchosen (h : Handle) : Prop := h.initCalled = true ∧ h.swapSet = false

theorem Unchosen.chooseSide {h : Handle} (hfree : Unchosen h) (side : Bool) :
    (h.chooseSide side).1 = true := by
  rw [Handle.chooseSide, hfree.1, hfree.2]
  rfl

theorem chooseSides_eq {sides : List (Chan × Bool)} (hnodup : (sides.map Prod.fst).Nodup)
    {handles : Chan → Handle} (hfree : ∀ c ∈ sides.map Prod.fst, Unchosen (handles c)) :
    chooseSides sides handles = (true, fun c =>
      ((sides.lookup c).map fun side => ((handles c).chooseSide side).2).getD (handles c)) := by
  induction sides generalizing handles with
  | nil => rfl
  | cons first rest ih =>
    obtain ⟨c, side⟩ := first
    obtain ⟨hnew, hrest⟩ := List.nodup_cons.mp hnodup
    have hok := (hfree c List.mem_cons_self).chooseSide side
    have hkept : ∀ c' ∈ rest.map Prod.fst,
        Unchosen (Function.update handles c ((handles c).chooseSide side).2 c') := by
      intro c' hc'
      have hne : c' ≠ c := fun h => hnew (h ▸ hc')
      rw [Function.update_of_ne hne]
      exact hfree c' (List.mem_cons_of_mem _ hc')
    have hgone : rest.lookup c = none := by
      apply List.lookup_eq_none_iff.mpr
      intro pair hpair
      apply bne_iff_ne.mpr
      rintro rfl
      exact hnew (List.mem_map.mpr ⟨pair, hpair, rfl⟩)
    rw [chooseSides]
    simp only [hok, if_true, ih hrest hkept, Prod.mk.injEq, true_and]
    funext c'
    rw [List.lookup_cons]
    by_cases hc : c' = c
    · subst hc
      rw [hgone, beq_self_eq_true, Function.update_self]
      rfl
    · rw [Function.update_of_ne hc, beq_false_of_ne hc]

/-- Each process chooses a side of the regions it uses in the reveal protocol, and it is the one
that it has there. -/
theorem lookup_beginSides (p : Party) (c : Chan) :
    (beginSides p).lookup c = if p.uses c then some (p.side c) else none := by
  rcases p with (_ | _) | _ <;> rcases c with (_ | _) | _ | _ | (_ | _) | (_ | _) <;> rfl

theorem side_user (c : Chan) (side : Bool) : (c.user side).side c = side := by
  rcases c with (_ | _) | _ | _ | (_ | _) | (_ | _) <;> cases side <;> rfl

theorem uses_user (c : Chan) (side : Bool) : (c.user side).uses c = true := by
  rw [Party.uses, side_user, decide_eq_true rfl]

/-- A revealer as the callers construct it. -/
def Prepared (iAmLeft : Bool) (r : RevealerCopy) : Prop :=
  ∃ bits, 0 < bits ∧ r = init (if iAmLeft then Side.LEFT else Side.RIGHT) bits

namespace RevealerCopy

/-- The copy of a process that plays a part for this revealer. -/
def chosen (r : RevealerCopy) (p : Party) : RevealerCopy :=
  { r with
    sideChosen := true
    handles := fun c => if p.uses c then ((r.handles c).chooseSide (p.side c)).2 else r.handles c }

theorem chooseSide_eq {r : RevealerCopy} (hfresh : r.sideChosen = false)
    (hfree : ∀ c, Unchosen (r.handles c)) (aliceIsLeft iAmEqChecker : Bool) :
    r.chooseSide aliceIsLeft iAmEqChecker =
      (true, r.chosen (r.party aliceIsLeft iAmEqChecker)) := by
  have hnodup : ∀ p, ((beginSides p).map Prod.fst).Nodup := by
    intro p
    rcases p with (_ | _) | _ <;> decide
  rw [chooseSide, hfresh, chooseSides_eq (hnodup _) fun c _ => hfree c]
  simp only [Bool.false_eq_true, if_false, chosen, lookup_beginSides]
  congr
  funext c
  split_ifs <;> rfl

end RevealerCopy

namespace Prepared

variable {iAmLeft : Bool} {r : RevealerCopy}

theorem unchosen (h : Prepared iAmLeft r) (c : Chan) : Unchosen (r.handles c) := by
  obtain ⟨bits, hbits, rfl⟩ := h
  have hsize : 0 < regionSize bits c := by
    cases c <;> simp only [regionSize] <;> omega
  exact ⟨decide_eq_true hsize, rfl⟩

theorem iAmLeft_eq (h : Prepared iAmLeft r) : r.iAmLeft = iAmLeft := by
  obtain ⟨bits, -, rfl⟩ := h
  cases iAmLeft <;> rfl

theorem chooseSide_eq (h : Prepared iAmLeft r) (aliceIsLeft iAmEqChecker : Bool) :
    r.chooseSide aliceIsLeft iAmEqChecker =
      (true, r.chosen (r.party aliceIsLeft iAmEqChecker)) := by
  have hfresh : r.sideChosen = false := by
    obtain ⟨bits, -, rfl⟩ := h
    rfl
  exact RevealerCopy.chooseSide_eq hfresh h.unchosen aliceIsLeft iAmEqChecker

/-- What `Ram.Initial` asks of the handle of a process. -/
theorem chosen_handles (h : Prepared iAmLeft r) (c : Chan) (side : Bool) : ∃ size,
    (r.chosen (c.user side)).handles c = ((Handle.construct size).init.2.chooseSide side).2 := by
  have hfree := h.unchosen c
  obtain ⟨bits, -, rfl⟩ := h
  refine ⟨regionSize bits c, ?_⟩
  have hinit : (Handle.construct (regionSize bits c)).init.2 =
      Handle.construct (regionSize bits c) := by
    rw [Handle.init]
    exact congrArg Prod.snd (if_pos hfree.1)
  rw [RevealerCopy.chosen, hinit]
  simp only [uses_user, if_true, side_user]
  rfl

end Prepared

/-- The revealers are as the callers construct them, and no fork fails. -/
structure Starts (iAmLeft : Bool) (revealers : List RevealerCopy) (fork : Nat → Int) : Prop where
  prepared : ∀ r ∈ revealers, Prepared iAmLeft r
  forks : ∀ j, 0 < j → j < revealers.length + 2 → 0 ≤ fork j

/-! ## The processes of one machine -/

section Machine

variable {a : Args} {iAmLeft : Bool} {revealers : List RevealerCopy}

/-- The part of each process, the checkers being numbered from 2 on. -/
def partyOf (me i : Nat) : Option Party :=
  match me with
  | 0 => some (.dualex .garbler)
  | 1 => some (.dualex .nonGarbler)
  | index + 2 => if index = i then some .checker else none

/-- The process that plays a part for revealer `i`. -/
def processOf (i : Nat) : Party → Nat
  | .dualex .garbler => 0
  | .dualex .nonGarbler => 1
  | .checker => i + 2

theorem partyOf_eq_some_iff {me i : Nat} {p : Party} :
    partyOf me i = some p ↔ me = processOf i p := by
  rcases p with (_ | _) | _ <;> rcases me with _ | _ | index <;> grind [partyOf, processOf]

theorem processOf_le (i : Nat) (p : Party) : processOf i p ≤ i + 2 := by
  rcases p with (_ | _) | _ <;> grind [processOf]

theorem chooseAll_eq (hrs : ∀ r ∈ revealers, Prepared iAmLeft r) (aliceIsLeft : Bool) :
    chooseAll aliceIsLeft revealers =
      (true, revealers.map fun r => r.chosen (r.party aliceIsLeft false)) := by
  induction revealers with
  | nil => rfl
  | cons r rs ih =>
    have hrest := ih fun r hr => hrs r (List.mem_cons_of_mem _ hr)
    rw [chooseAll, (hrs r List.mem_cons_self).chooseSide_eq, List.map_cons]
    simp only [if_true, hrest]

variable (a iAmLeft revealers)

/-- The process with the given number. -/
def launch : Nat → Bool × Process
  | 0 => launchAlice a iAmLeft revealers
  | 1 => launchBob a iAmLeft revealers
  | index + 2 => launchEqChecker a iAmLeft revealers index

variable {a iAmLeft revealers}

theorem setup_natCast (me : Nat) : setup a iAmLeft revealers me =
    (if (launch a iAmLeft revealers me).1 then (me : Int) else -400,
      some (launch a iAmLeft revealers me).2) := by
  have hnonneg : ¬ (me : Int) < 0 := by omega
  rw [setup, if_neg hnonneg]
  match me with
  | 0 => rfl
  | 1 => rfl
  | index + 2 =>
    have hzero : ¬ ((index + 2 : Nat) : Int) = 0 := by omega
    have hone : ¬ ((index + 2 : Nat) : Int) = 1 := by omega
    have hindex : (((index + 2 : Nat) : Int) - 2).toNat = index := by omega
    rw [if_neg hzero, if_neg hone, hindex]
    rfl

/-- Every process chooses its sides, of the revealers that it plays a part for. -/
theorem launch_revealers (hrs : ∀ r ∈ revealers, Prepared iAmLeft r) {me : Nat}
    (hme : me < revealers.length + 2) : (launch a iAmLeft revealers me).1 = true ∧
      ∀ i, (launch a iAmLeft revealers me).2.revealers[i]? =
        revealers[i]?.map fun r => (partyOf me i).elim r r.chosen := by
  match me with
  | 0 =>
    have hparty : ∀ r ∈ revealers, r.party iAmLeft false = .dualex .garbler := by
      intro r hr
      simp [RevealerCopy.party, RevealerCopy.isGarbler, (hrs r hr).iAmLeft_eq]
    rw [launch, launchAlice, chooseAll_eq hrs]
    refine ⟨rfl, fun i => ?_⟩
    rw [List.getElem?_map]
    cases hget : revealers[i]? with
    | none => rfl
    | some r => exact congrArg (fun p => some (r.chosen p)) (hparty r (List.mem_of_getElem? hget))
  | 1 =>
    have hparty : ∀ r ∈ revealers, r.party (!iAmLeft) false = .dualex .nonGarbler := by
      intro r hr
      simp [RevealerCopy.party, RevealerCopy.isGarbler, (hrs r hr).iAmLeft_eq]
    rw [launch, launchBob, chooseAll_eq hrs]
    refine ⟨rfl, fun i => ?_⟩
    rw [List.getElem?_map]
    cases hget : revealers[i]? with
    | none => rfl
    | some r => exact congrArg (fun p => some (r.chosen p)) (hparty r (List.mem_of_getElem? hget))
  | index + 2 =>
    have hindex : index < revealers.length := by omega
    have hget := List.getElem?_eq_getElem hindex
    rw [launch, launchEqChecker, chooseOne]
    simp only [hget, (hrs _ (List.getElem_mem hindex)).chooseSide_eq]
    refine ⟨trivial, fun i => ?_⟩
    grind [partyOf, RevealerCopy.party]

theorem setup_eq (hrs : ∀ r ∈ revealers, Prepared iAmLeft r) {me : Nat}
    (hme : me < revealers.length + 2) :
    setup a iAmLeft revealers me = ((me : Int), some (launch a iAmLeft revealers me).2) := by
  rw [setup_natCast, (launch_revealers (a := a) hrs hme).1]
  rfl

theorem forkAndSetup_eq {fork : Nat → Int} (h : Starts iAmLeft revealers fork) :
    forkAndSetup a iAmLeft revealers fork = (List.range (revealers.length + 2)).map
      fun (me : Nat) => ((me : Int), some (launch a iAmLeft revealers me).2) := by
  have hnumbers : (0 : Int) :: (List.range' 1 (revealers.length + 1)).map Nat.cast =
      (List.range (revealers.length + 2)).map Nat.cast := by
    rw [List.range_eq_range', List.range'_succ]
    rfl
  rw [forkAndSetup, forkNProcesses_eq h.forks]
  simp only [hnumbers, List.map_map]
  apply List.map_congr_left
  intro me hme
  exact setup_eq h.prepared (List.mem_range.mp hme)

/-- If a fork fails, the original process, which should have been the garbler, returns the error
with nothing set up, and those started before it have chosen their sides as ever. -/
theorem forkAndSetup_fails (hrs : ∀ r ∈ revealers, Prepared iAmLeft r) {fork : Nat → Int} {k : Nat}
    (hk : k < revealers.length + 1) (hstarted : ∀ j, 0 < j → j < k + 1 → 0 ≤ fork j)
    (hfails : fork (k + 1) < 0) : forkAndSetup a iAmLeft revealers fork =
      (fork (k + 1), none) :: (List.range' 1 k).map
        fun (me : Nat) => ((me : Int), some (launch a iAmLeft revealers me).2) := by
  have hplace : 1 + k = k + 1 := Nat.add_comm 1 k
  have hnumbers : forkNProcesses fork (revealers.length + 2) =
      (fork (1 + k), (List.range' 1 k).map Nat.cast) :=
    forkLoop_fails hk (fun j hj hlt => hstarted j hj (hplace ▸ hlt)) (hplace ▸ hfails)
  have hnothing : setup a iAmLeft revealers (fork (k + 1)) = (fork (k + 1), none) := if_pos hfails
  rw [forkAndSetup, hnumbers, hplace]
  simp only [List.map_cons, hnothing, List.map_map, List.cons.injEq, true_and]
  apply List.map_congr_left
  intro me hme
  have hbound : me < revealers.length + 2 := by
    have hrange := List.mem_range'_1.mp hme
    omega
  exact setup_eq hrs hbound

theorem Starts.eq_launch {fork : Nat → Int} (h : Starts iAmLeft revealers fork) {me : Nat}
    {code : Int} {p : Process}
    (hp : (forkAndSetup a iAmLeft revealers fork)[me]? = some (code, some p)) :
    me < revealers.length + 2 ∧ p = (launch a iAmLeft revealers me).2 := by
  rw [forkAndSetup_eq h] at hp
  grind

/-- The handle of a region in one process's copy of revealer `i`. -/
def handleAt (processes : List Process) (me i : Nat) (c : Chan) : Option Handle := do
  let p ← processes[me]?
  let r ← p.revealers[i]?
  return r.handles c

theorem Unchosen.get_eq_none {h : Handle} (hfree : Unchosen h) : h.get = none := by
  rw [Handle.get, hfree.2]
  rfl

theorem handleAt_launch (hrs : ∀ r ∈ revealers, Prepared iAmLeft r) {me i : Nat}
    (hme : me < revealers.length + 2) {r : RevealerCopy} (hr : revealers[i]? = some r) (c : Chan) :
    handleAt ((List.range (revealers.length + 2)).map fun me => (launch a iAmLeft revealers me).2)
        me i c = some (((partyOf me i).elim r r.chosen).handles c) := by
  have hprocess : ((List.range (revealers.length + 2)).map
      fun me => (launch a iAmLeft revealers me).2)[me]? =
      some (launch a iAmLeft revealers me).2 := by
    rw [List.getElem?_map, List.getElem?_range hme]
    rfl
  have hcopy := (launch_revealers (a := a) hrs hme).2 i
  rw [hr] at hcopy
  rw [handleAt, hprocess]
  exact congrArg (Option.bind · fun r : RevealerCopy => some (r.handles c)) hcopy

/-- Each process returns its number, and each region of each revealer gets two users: they are
the processes that use it in the reveal protocol, with the handles that `Ram.Initial` asks for,
and no other process can get at it. -/
theorem forkAndSetup_regions (a : Args) {iAmLeft : Bool} {revealers : List RevealerCopy}
    {fork : Nat → Int} (h : Starts iAmLeft revealers fork) :
    ∃ processes : List Process, processes.length = revealers.length + 2 ∧
      forkAndSetup a iAmLeft revealers fork =
        processes.mapIdx (fun me p => ((me : Int), some p)) ∧
      ∀ i < revealers.length, ∀ c,
        (∀ side, ∃ size, handleAt processes (processOf i (c.user side)) i c =
          some ((Handle.construct size).init.2.chooseSide side).2) ∧
        ∀ me h, handleAt processes me i c = some h → h.get ≠ none →
          ∃ side, me = processOf i (c.user side) := by
  refine ⟨(List.range (revealers.length + 2)).map fun me => (launch a iAmLeft revealers me).2,
    by simp, ?_, fun i hi c => ?_⟩
  · rw [forkAndSetup_eq h]
    symm
    apply List.mapIdx_eq_iff.mpr
    intro me
    grind
  · have hget := List.getElem?_eq_getElem hi
    have hprepared := h.prepared _ (List.getElem_mem hi)
    constructor
    · intro side
      have hparty := partyOf_eq_some_iff.mpr (rfl : processOf i (c.user side) = _)
      have hbound : processOf i (c.user side) < revealers.length + 2 :=
        (processOf_le i _).trans_lt (Nat.add_lt_add_right hi 2)
      rw [handleAt_launch h.prepared hbound hget, hparty]
      obtain ⟨size, hhandle⟩ := hprepared.chosen_handles c side
      exact ⟨size, congrArg some hhandle⟩
    · intro me handle hhandle hchosen
      have hme : me < revealers.length + 2 := by
        by_contra hout
        have hnobody : ((List.range (revealers.length + 2)).map
            fun me => (launch a iAmLeft revealers me).2)[me]? = none := by
          rw [List.getElem?_eq_none]
          simpa using hout
        rw [handleAt, hnobody] at hhandle
        cases hhandle
      rw [handleAt_launch h.prepared hme hget, Option.some.injEq] at hhandle
      cases hparty : partyOf me i with
      | none =>
        rw [hparty] at hhandle
        exact absurd (hhandle ▸ (hprepared.unchosen c).get_eq_none) hchosen
      | some p =>
        rw [hparty] at hhandle
        by_cases huses : p.uses c
        · refine ⟨p.side c, ?_⟩
          rw [of_decide_eq_true huses]
          exact partyOf_eq_some_iff.mp hparty
        · have hkept : (revealers[i].chosen p).handles c = revealers[i].handles c := if_neg huses
          exact absurd (hhandle ▸ hkept ▸ (hprepared.unchosen c).get_eq_none) hchosen

end Machine

/-- The ports of the tests, from a base port on. -/
def testArgs (port : BitVec 32) : Args where
  leftIp := "127.0.0.1"
  rightIp := "127.0.0.1"
  leftAlicePort := port
  leftBobPort := port + 1
  rightAlicePort := port + 1
  rightBobPort := port
  leftEqPort i := port + 2 + BitVec.ofNat 32 i
  rightEqPort i := port + 2 + BitVec.ofNat 32 i
  leftSideOfEqCheckerIsGarbler i := i == 1

def testRevealers (iAmLeft : Bool) : List RevealerCopy :=
  [init (if iAmLeft then Side.LEFT else Side.RIGHT) 64,
    init (if iAmLeft then Side.LEFT else Side.RIGHT) 64]

theorem starts_testRevealers (iAmLeft : Bool) :
    Starts iAmLeft (testRevealers iAmLeft) fun i => i where
  prepared r hr := ⟨64, by decide, by simpa [testRevealers] using hr⟩
  forks j _ _ := Int.natCast_nonneg j

/-- Two revealers make four processes. -/
theorem forkAndSetup_regions_two : ∃ processes : List Process, processes.length = 4 ∧
    forkAndSetup (testArgs 8000) true (testRevealers true) (fun i => i) =
      processes.mapIdx (fun me p => ((me : Int), some p)) ∧
    ∀ i < 2, ∀ c,
      (∀ side, ∃ size, handleAt processes (processOf i (c.user side)) i c =
        some ((Handle.construct size).init.2.chooseSide side).2) ∧
      ∀ me h, handleAt processes me i c = some h → h.get ≠ none →
        ∃ side, me = processOf i (c.user side) :=
  forkAndSetup_regions (testArgs 8000) (starts_testRevealers true)

/-! ## The processes of both machines -/

/-- `party` of the secrets: who holds the secret of a side. -/
def partyOfSide (aliceIsLeft : Bool) (side : Side) : UInt8 :=
  if side = Side.BOTH then PUBLIC
  else if side = Side.LEFT then (if aliceIsLeft then ALICE else BOB)
  else (if aliceIsLeft then BOB else ALICE)

/-- The port of each process. -/
def Args.port (a : Args) (iAmLeft : Bool) : Nat → BitVec 32
  | 0 => if iAmLeft then a.leftAlicePort else a.rightAlicePort
  | 1 => if iAmLeft then a.leftBobPort else a.rightBobPort
  | index + 2 => if iAmLeft then a.leftEqPort index else a.rightEqPort index

/-- Where one machine listens the other connects, with `n` revealers. -/
structure Args.PortsMatch (a : Args) (n : Nat) : Prop where
  leftAlice : a.leftAlicePort = a.rightBobPort
  rightAlice : a.rightAlicePort = a.leftBobPort
  eq : ∀ i < n, a.leftEqPort i = a.rightEqPort i

/-- One of two processes listens, and the other connects to it. -/
def Process.Meets (a : Args) (left right : Process) : Prop :=
  left.port = right.port ∧ (left.address = none ∧ right.address = some a.leftIp ∨
    left.address = some a.rightIp ∧ right.address = none)

/-- The process of the other machine that each belongs to. -/
def partner : Nat → Nat
  | 0 => 1
  | 1 => 0
  | me => me

section Machines

variable {a : Args} {iAmLeft : Bool} {revealers : List RevealerCopy}

theorem launch_port (me : Nat) :
    (launch a iAmLeft revealers me).2.port = a.port iAmLeft me := by
  match me with
  | 0 => rfl
  | 1 => rfl
  | _ + 2 => rfl

/-- In each process the secret of this machine's side is an input of the party that it is. -/
theorem launch_party (me : Nat) : (launch a iAmLeft revealers me).2.party =
    partyOfSide (launch a iAmLeft revealers me).2.aliceIsLeft
      (if iAmLeft then Side.LEFT else Side.RIGHT) := by
  match me with
  | 0 => cases iAmLeft <;> rfl
  | 1 => cases iAmLeft <;> rfl
  | index + 2 =>
    rw [launch, launchEqChecker]
    cases iAmLeft <;> cases a.leftSideOfEqCheckerIsGarbler index <;> rfl

theorem partner_partner (me : Nat) : partner (partner me) = me := by
  match me with
  | 0 => rfl
  | 1 => rfl
  | _ + 2 => rfl

theorem partner_lt {n me : Nat} (h : me < n + 2) : partner me < n + 2 := by
  match me with
  | 0 => exact Nat.lt_add_left n Nat.one_lt_two
  | 1 => exact Nat.zero_lt_succ _
  | _ + 2 => exact h

theorem Args.PortsMatch.port_eq {n you : Nat} (h : a.PortsMatch n) (hyou : you < n + 2) :
    a.port false you = a.port true (partner you) := by
  match you with
  | 0 => exact h.rightAlice
  | 1 => exact h.leftAlice.symm
  | index + 2 => exact (h.eq index (Nat.lt_of_add_lt_add_right hyou)).symm

/-- Of a process and its partner one listens. -/
theorem launch_address {lefts rights : List RevealerCopy} (me : Nat) :
    (launch a true lefts me).2.address = none ∧
        (launch a false rights (partner me)).2.address = some a.leftIp ∨
      (launch a true lefts me).2.address = some a.rightIp ∧
        (launch a false rights (partner me)).2.address = none := by
  match me with
  | 0 => exact .inl ⟨rfl, rfl⟩
  | 1 => exact .inr ⟨rfl, rfl⟩
  | index + 2 =>
    cases hside : a.leftSideOfEqCheckerIsGarbler index <;>
      simp [partner, launch, launchEqChecker, hside]

theorem launch_aliceIsLeft {lefts rights : List RevealerCopy} (me : Nat) :
    (launch a true lefts me).2.aliceIsLeft =
      (launch a false rights (partner me)).2.aliceIsLeft := by
  match me with
  | 0 => rfl
  | 1 => rfl
  | index + 2 =>
    cases hside : a.leftSideOfEqCheckerIsGarbler index <;>
      simp [partner, launch, launchEqChecker, hside]

theorem meets_iff {n me you : Nat} (hmatch : a.PortsMatch n)
    (hdistinct : ∀ me < n + 2, ∀ you < n + 2, a.port true me = a.port true you → me = you)
    (hme : me < n + 2) (hyou : you < n + 2) (lefts rights : List RevealerCopy) :
    (launch a true lefts me).2.Meets a (launch a false rights you).2 ↔ you = partner me := by
  rw [Process.Meets, launch_port, launch_port, hmatch.port_eq hyou]
  constructor
  · rintro ⟨hport, -⟩
    rw [hdistinct me hme _ (partner_lt hyou) hport, partner_partner]
  · rintro rfl
    rw [partner_partner]
    exact ⟨rfl, launch_address me⟩

end Machines

/-- On two machines, with one port for each pair of processes, every process meets the one of the
other machine that has the other part in the same run, and no other. They agree in whether ALICE is
the left side, and in both the secret of the own side is an input of the own party. -/
theorem forkAndSetup_pairs {a : Args} {lefts rights : List RevealerCopy} {fork fork' : Nat → Int}
    (hlefts : Starts true lefts fork) (hrights : Starts false rights fork')
    (hlength : lefts.length = rights.length) (hmatch : a.PortsMatch lefts.length)
    (hdistinct : ∀ me < lefts.length + 2, ∀ you < lefts.length + 2,
      a.port true me = a.port true you → me = you) {me you : Nat} {code code' : Int}
    {left right : Process} (hleft : (forkAndSetup a true lefts fork)[me]? = some (code, some left))
    (hright : (forkAndSetup a false rights fork')[you]? = some (code', some right)) :
    (left.Meets a right ↔ you = partner me) ∧
      (left.Meets a right → left.aliceIsLeft = right.aliceIsLeft) ∧
      left.party = partyOfSide left.aliceIsLeft Side.LEFT ∧
      right.party = partyOfSide right.aliceIsLeft Side.RIGHT := by
  obtain ⟨hme, rfl⟩ := hlefts.eq_launch hleft
  obtain ⟨hyou, rfl⟩ := hrights.eq_launch hright
  have hmeets := meets_iff hmatch hdistinct hme (hlength ▸ hyou) lefts rights
  refine ⟨hmeets, fun h => ?_, launch_party me, launch_party you⟩
  rw [hmeets.mp h]
  exact launch_aliceIsLeft me

/-- The second checkers of the test with two revealers. -/
theorem forkAndSetup_pairs_two : ∃ left right : Process,
    (forkAndSetup (testArgs 8000) true (testRevealers true) fun i => i)[3]? = some (3, some left) ∧
    (forkAndSetup (testArgs 8000) false (testRevealers false) fun i => i)[3]? =
      some (3, some right) ∧
    left.Meets (testArgs 8000) right ∧ left.aliceIsLeft = right.aliceIsLeft := by
  have hmatch : (testArgs 8000).PortsMatch 2 := ⟨rfl, rfl, fun _ _ => rfl⟩
  have hleft : (forkAndSetup (testArgs 8000) true (testRevealers true) fun i => i)[3]? =
      some (3, some (launch (testArgs 8000) true (testRevealers true) 3).2) := rfl
  have hright : (forkAndSetup (testArgs 8000) false (testRevealers false) fun i => i)[3]? =
      some (3, some (launch (testArgs 8000) false (testRevealers false) 3).2) := rfl
  obtain ⟨hmeets, hagree, -⟩ := forkAndSetup_pairs (starts_testRevealers true)
    (starts_testRevealers false) rfl hmatch (by decide) hleft hright
  exact ⟨_, _, hleft, hright, hmeets.mpr rfl, hagree (hmeets.mpr rfl)⟩

end CoVault.Dualex.Setup
