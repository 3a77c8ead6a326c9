import CoVault.Circuit.Cipher
import CoVault.Dualex.Revealer
import CoVault.Dualex.SwappableRam

/-!
# The reveal protocol of one machine

A garbler, a non-garbler and an equality checker share eight swappable regions. Each
process runs its own list of statements, one at a time, and a call of `swap` takes
several steps; an interleaving is a path of `Step`.

What comes from outside the machine are parameters: the labels and Booleans the circuit
library hands over in a reveal, and the hash the other machine's checker puts into the
comparison of the same number. Copying the opened value to the caller is left out; it
touches no shared region but the one the copying process owns.
-/

namespace CoVault.Dualex.Reveal

open Circuit

/-- The two DualEx processes. -/
inductive Role where
  | garbler | nonGarbler
  deriving DecidableEq, Repr

inductive Party where
  | dualex (r : Role)
  | checker
  deriving DecidableEq, Repr

/-- The eight pairs of regions. -/
inductive Chan where
  /-- `garbler_labels`, `non_garbler_labels` -/
  | labels (r : Role)
  /-- `non_garbler_bools` -/
  | bools
  /-- `revealed_value` -/
  | value
  /-- `garbler_wants_eq_check`, `non_garbler_wants_eq_check` -/
  | wants (r : Role)
  /-- `garbler_eq_check_result`, `non_garbler_eq_check_result` -/
  | result (r : Role)
  deriving DecidableEq, Repr

structure RevealRequest where
  wantReveal : Bool
  revealSide : Side
  revealableBits : Nat
  deriving DecidableEq

abbrev Content : Chan → Type
  | .labels _ => Nat → BitVec 128
  | .bools => Nat → Bool
  | .value => Nat → Bool
  | .wants _ => RevealRequest
  | .result _ => Bool

/-- The argument a process gives to `choose_side`. -/
def Party.side : Party → Chan → Bool
  | .checker, _ => true
  | .dualex .garbler, .value => true
  | .dualex _, _ => false

/-- The process that chose the given side. -/
def Chan.user : Chan → Bool → Party
  | .value, true => .dualex .garbler
  | .value, false => .dualex .nonGarbler
  | .bools, false => .dualex .nonGarbler
  | .labels r, false | .wants r, false | .result r, false => .dualex r
  | _, true => .checker

/-- The process chose a side of these regions. -/
def Party.uses (p : Party) (c : Chan) : Bool := c.user (p.side c) = p

inductive Op where
  | swap (c : Chan)
  /-- the first `n` cells of the region -/
  | write (c : Chan) (n : Nat) (f : Content c → Content c)
  /-- `return *eq_check_result` -/
  | collect (r : Role)
  /-- the test of the checker's loop, with the loads of `reveal_side` and `revealable_bits` -/
  | whileWanted
  /-- from `apply_labels` to `twopc.online` -/
  | checkEquality
  /-- `*eq_check_result = is_equal` -/
  | sendResult (r : Role)

/-- The arguments of one `reveal` of both parties, with what the circuit library hands
over in it. -/
structure Round where
  integers : List Integer
  revealSide : Side
  maxRevealableBits : Nat
  labels : Role → Nat → BitVec 128
  bools : Nat → Bool
  value : Nat → Bool

/-- What does not change while the three processes run. -/
structure Config where
  bits : Nat
  /-- this machine -/
  side : Side
  /-- whether the checker of this machine is ALICE -/
  isGarbler : Bool
  crypto : Crypto
  applyLabel : BitVec 128 → Bool → BitVec 64
  /-- the hash of the other machine's checker, by the number of the comparison -/
  remote : Nat → BitVec 256

namespace Config

variable (cfg : Config)

/-- `revealable_bits` in `reveal`. -/
def revealableBits (r : Round) : Nat :=
  let limit := if r.maxRevealableBits = 0 then cfg.bits else r.maxRevealableBits
  min (Revealer.totalSize limit 0 r.integers) limit

/-- `apply_labels` over `n` labels. -/
def applyLabels (labels : Nat → BitVec 128) (bools : Nat → Bool) (n : Nat) : List (BitVec 64) :=
  (List.range n).map fun i => cfg.applyLabel (labels i) (bools i)

/-- `hashMe`, in the order that makes it the same for both machines' checkers. -/
def hashMe (labels : Role → Nat → BitVec 128) (bools : Nat → Bool) (n : Nat) :
    List (BitVec 64) :=
  if cfg.isGarbler then
    cfg.applyLabels (labels .garbler) bools n ++ cfg.applyLabels (labels .nonGarbler) bools n
  else cfg.applyLabels (labels .nonGarbler) bools n ++ cfg.applyLabels (labels .garbler) bools n

/-- `hash_value`. -/
def hash (hashMe : List (BitVec 64)) : BitVec 256 := cfg.crypto.sha3 (hashMe.flatMap bitsOf)

/-- The malicious equality check number `k`: the hash against the other machine's. -/
def isEqual (k : Nat) (hashMe : List (BitVec 64)) : Bool := cfg.hash hashMe = cfg.remote k

/-- The cells of a region. -/
def room : Chan → Nat
  | .labels _ | .bools | .value => cfg.bits
  | .wants _ | .result _ => 1

/-! ## The statements of the three processes -/

/-- `stop_eq_checker`, past its test. -/
def stopEqChecker (r : Role) : List Op :=
  [.write (.wants r) 1 fun v => { v with wantReveal := false }, .swap (.wants r)]

/-- `get_eq_check_results`, past its test. -/
def getEqCheckResults (r : Role) : List Op := [.swap (.result r), .collect r]

/-- `request_eq_check`, past its test. -/
def requestEqCheck (r : Role) (revealSide : Side) (revealableBits : Nat) : List Op :=
  let request : RevealRequest :=
    { wantReveal := true, revealSide := revealSide
      revealableBits := if revealableBits = 0 then cfg.bits else revealableBits }
  .write (.wants r) 1 (fun _ => request) :: .swap (.wants r) :: .swap (.labels r) ::
    match r with
    | .garbler => []
    | .nonGarbler => [.swap .bools]

/-- The first `n` cells change. -/
def fill {α : Type} (n : Nat) (new old : Nat → α) : Nat → α := fun i => if i < n then new i else old i

/-- `reveal` up to the call of `request_eq_check`. -/
def openValue (r : Role) (x : Round) : List Op :=
  let n := cfg.revealableBits x
  let output := x.revealSide = Side.BOTH ∨ cfg.side = x.revealSide
  match r with
  | .garbler =>
    (if output then [.swap .value] else []) ++
      [.write (.labels .garbler) n (fill n (x.labels .garbler))]
  | .nonGarbler =>
    .write .bools n (fill n x.bools) ::
      (if output then [.write .value n (fill n x.value), .swap .value] else []) ++
        [.write (.labels .nonGarbler) n (fill n (x.labels .nonGarbler))]

inductive Call where
  | reveal (x : Round)
  | getEqCheckResults
  | stopEqChecker

/-- The flags of one process. -/
structure Flags where
  readyToRequestEqCheck : Bool
  eqCheckInProgress : Bool
  deriving DecidableEq

/-- The statements a list of calls runs through, from given flags. -/
def statements (r : Role) : Flags → List Call → List Op
  | _, [] => []
  | f, .reveal x :: calls =>
    if f.readyToRequestEqCheck then
      cfg.openValue r x ++ cfg.requestEqCheck r x.revealSide (cfg.revealableBits x) ++
        statements r ⟨false, true⟩ calls
    else cfg.openValue r x ++ statements r f calls
  | f, .getEqCheckResults :: calls =>
    if f.eqCheckInProgress then getEqCheckResults r ++ statements r ⟨true, false⟩ calls
    else statements r f calls
  | f, .stopEqChecker :: calls =>
    if f.readyToRequestEqCheck then stopEqChecker r ++ statements r ⟨false, false⟩ calls
    else statements r f calls

/-- Every round is a `reveal` and a `get_eq_check_results`; in the end the checker is stopped. -/
def calls (rounds : List Round) : List Call :=
  rounds.flatMap (fun x => [.reveal x, .getEqCheckResults]) ++ [.stopEqChecker]

/-- The body of the loop of `begin_eq_check_process`. -/
def checkRound : List Op :=
  [.swap (.labels .garbler), .swap (.labels .nonGarbler), .swap .bools, .checkEquality,
    .sendResult .garbler, .sendResult .nonGarbler,
    .swap (.result .garbler), .swap (.result .nonGarbler),
    .swap (.wants .garbler), .swap (.wants .nonGarbler)]

/-- What each process runs after `choose_side`. -/
def program (rounds : List Round) : Party → List Op
  | .dualex r => cfg.statements r ⟨true, false⟩ (calls rounds)
  | .checker => [.swap (.wants .garbler), .swap (.wants .nonGarbler), .whileWanted]

end Config

/-! ## States and steps -/

structure Sys where
  mem : (c : Chan) → Ram (Content c)
  todo : Party → List Op
  /-- what `get_eq_check_results` returned to each party -/
  results : Role → List Bool
  /-- the checker's `revealable_bits` and `is_equal`, and what it has put into its checks -/
  revealableBits : Nat
  isEqual : Bool
  hashes : List (BitVec 256)

namespace Sys

variable (cfg : Config)

/-- What a process reads in the region it owns. -/
def read (s : Sys) (p : Party) (c : Chan) : Option (Content c) := (s.mem c).read (p.side c)

/-- The process has the statement behind it. -/
def done (s : Sys) (p : Party) (rest : List Op) : Sys :=
  { s with todo := Function.update s.todo p rest }

def setMem (s : Sys) (c : Chan) (m : Ram (Content c)) : Sys :=
  { s with mem := Function.update s.mem c m }

/-- `*region = f(*region)`. -/
def modify (s : Sys) (p : Party) (c : Chan) (f : Content c → Content c) : Option Sys :=
  (s.read p c).bind fun v => ((s.mem c).write (p.side c) (f v)).map (s.setMem c)

/-- The next step of a process; `none` while it is blocked or has nothing left to do. A write past the
end of a region has no meaning, so there is no step then either. -/
def step (s : Sys) (p : Party) : Option Sys :=
  match s.todo p with
  | [] => none
  | .swap c :: rest =>
    ((s.mem c).advance (p.side c)).map fun m =>
      let t := s.setMem c m
      -- the call returns with its last statement
      if (m.proc (p.side c)).pc = .outside then t.done p rest else t
  | .write c n f :: rest =>
    if n ≤ cfg.room c then (s.modify p c f).map (·.done p rest) else none
  | .collect r :: rest => (s.read p (.result r)).map fun b =>
      { s with results := Function.update s.results r (s.results r ++ [b]) }.done p rest
  | .whileWanted :: _ => do
    let g ← s.read p (.wants .garbler)
    let n ← s.read p (.wants .nonGarbler)
    if g.wantReveal && n.wantReveal then
      some ({ s with revealableBits := g.revealableBits }.done p
        (Config.checkRound ++ [Op.whileWanted]))
    else some (s.done p [])
  | .checkEquality :: rest => do
    let g ← s.read p (.labels .garbler)
    let n ← s.read p (.labels .nonGarbler)
    let b ← s.read p .bools
    let hashMe := cfg.hashMe (fun | .garbler => g | .nonGarbler => n) b s.revealableBits
    some ({ s with
      isEqual := cfg.isEqual s.hashes.length hashMe
      hashes := s.hashes ++ [cfg.hash hashMe] }.done p rest)
  | .sendResult r :: rest => (s.modify p (.result r) fun _ => s.isEqual).map (·.done p rest)

inductive Step : Sys → Sys → Prop where
  | run {s t : Sys} (p : Party) : s.step cfg p = some t → Step s t

/-- All three processes have chosen their sides. -/
structure Initial (rounds : List Round) (s : Sys) : Prop where
  mem : ∀ c, (s.mem c).Initial
  todo : s.todo = cfg.program rounds
  results : ∀ r, s.results r = []
  hashes : s.hashes = []

def Reachable (rounds : List Round) : Sys → Prop :=
  Library.Transition.Reachable (Initial cfg rounds) (Step cfg)

/-- What the check of one round is about: the labels and Booleans both parties wrote in it. -/
def payload (x : Round) : List (BitVec 64) := cfg.hashMe x.labels x.bools (cfg.revealableBits x)

end Sys

end CoVault.Dualex.Reveal
