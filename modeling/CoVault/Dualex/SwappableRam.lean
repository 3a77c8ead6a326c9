import Mathlib
import CoVault.Library.Transition

/-!
# Swappable shared memory

Two processes share two regions of memory and four mutexes. Each process keeps a
private flag that says which region it owns; a call of `swap` takes the mutexes in
an order that lets both processes flip their flags only together. A process runs
one statement at a time, so a state records for each process the statement of
`swap` it stands before, and an interleaving is a path of `Step`.

The counters `returned`, the record `handed` and the flag `wrote` are not in the
program. They keep what the statements about runs speak of: how many swaps a
process has finished, what it owned and held when it entered each of them, and
whether it has written since the last one.
-/

namespace CoVault.Dualex

inductive Region where
  | a | b
  deriving DecidableEq, Repr

inductive Mutex where
  | a | b | ab | ba
  deriving DecidableEq, Repr

/-- The private fields of one process's copy of the object. -/
structure Handle where
  swapped : Bool
  swapSet : Bool
  initCalled : Bool
  deriving DecidableEq, Repr

namespace Handle

/-- Construction before the fork; a positive size calls `init` at once. -/
def construct (size : Nat) : Handle :=
  { swapped := false, swapSet := false, initCalled := decide (0 < size) }

/-- `init` succeeds once. -/
def init (h : Handle) : Bool × Handle :=
  if h.initCalled then (false, h) else (true, { h with initCalled := true })

/-- `choose_side` succeeds once, after `init`. -/
def chooseSide (h : Handle) (side : Bool) : Bool × Handle :=
  if !h.initCalled then (false, h)
  else if h.swapSet then (false, h)
  else (true, { h with swapped := side, swapSet := true })

/-- `get`, `none` being the null pointer. -/
def get (h : Handle) : Option Region :=
  if h.swapSet then some (if h.swapped then .a else .b) else none

def myMutex (h : Handle) : Option Mutex :=
  if h.swapSet then some (if h.swapped then .a else .b) else none

def oldIntermediate (h : Handle) : Option Mutex :=
  if h.swapSet then some (if h.swapped then .ba else .ab) else none

def nextIntermediate (h : Handle) : Option Mutex :=
  if h.swapSet then some (if h.swapped then .ab else .ba) else none

end Handle

/-- The statement of `swap` a process stands before. -/
inductive SwapPc where
  /-- not inside `swap` -/
  | outside
  /-- before `next_intermediate()->lock()` -/
  | lockNext
  /-- before `my_mutex()->unlock()` -/
  | unlockMine
  /-- before `swapped = !swapped` -/
  | flip
  /-- before `my_mutex()->lock()` -/
  | lockMine
  /-- before `old_intermediate()->unlock()` -/
  | unlockOld
  deriving DecidableEq, Repr

/-- How many statements of the current swap are done. -/
def SwapPc.index : SwapPc → Nat
  | .outside => 0
  | .lockNext => 1
  | .unlockMine => 2
  | .flip => 3
  | .lockMine => 4
  | .unlockOld => 5

structure Proc (V : Type) where
  handle : Handle
  pc : SwapPc
  returned : Nat
  handed : Nat → Option Region × Option V
  wrote : Bool

/-- Shared memory, mutexes and the two processes, named by the side they chose. -/
structure Ram (V : Type) where
  content : Region → V
  locked : Mutex → Bool
  proc : Bool → Proc V

namespace Ram

variable {V : Type}

/-- Run one process's statement, leaving the other process alone. -/
def setProc (s : Ram V) (p : Bool) (x : Proc V) : Ram V :=
  { s with proc := Function.update s.proc p x }

/-- A mutex is a binary semaphore: locking blocks while it is taken. -/
def lock (s : Ram V) : Option Mutex → Option (Ram V)
  | none => none
  | some m => if s.locked m then none
      else some { s with locked := Function.update s.locked m true }

/-- Either process may release a mutex. -/
def unlock (s : Ram V) : Option Mutex → Option (Ram V)
  | none => none
  | some m => some { s with locked := Function.update s.locked m false }

/-- What a process sees in the region it owns. -/
def read (s : Ram V) (p : Bool) : Option V := (s.proc p).handle.get.map s.content

/-- The next statement of process `p`; `none` while it is blocked. From outside this is
a call of `swap`. -/
def advance (s : Ram V) (p : Bool) : Option (Ram V) :=
  let x := s.proc p
  match x.pc with
  | .outside =>
    if x.handle.swapSet then
      some (s.setProc p { x with
        pc := .lockNext
        handed := Function.update x.handed x.returned (x.handle.get, s.read p) })
    else none
  | .lockNext => (s.lock x.handle.nextIntermediate).map (·.setProc p { x with pc := .unlockMine })
  | .unlockMine => (s.unlock x.handle.myMutex).map (·.setProc p { x with pc := .flip })
  | .flip => some (s.setProc p
      { x with pc := .lockMine, handle := { x.handle with swapped := !x.handle.swapped } })
  | .lockMine => (s.lock x.handle.myMutex).map (·.setProc p { x with pc := .unlockOld })
  | .unlockOld => (s.unlock x.handle.oldIntermediate).map (·.setProc p
      { x with pc := .outside, returned := x.returned + 1, wrote := false })

/-- Outside `swap` a process may write the region it owns. -/
def write (s : Ram V) (p : Bool) (v : V) : Option (Ram V) :=
  let x := s.proc p
  if x.pc = .outside then
    x.handle.get.map fun r =>
      { s with content := Function.update s.content r v }.setProc p { x with wrote := true }
  else none

/-- One statement of either process. -/
inductive Step : Ram V → Ram V → Prop where
  | advance {s t : Ram V} (p : Bool) : s.advance p = some t → Step s t
  | write {s t : Ram V} (p : Bool) (v : V) : s.write p v = some t → Step s t

/-- After construction, `init`, fork and the two calls of `choose_side`, one with each
side. A positive size makes the constructor call `init`; the second call then changes
nothing. -/
def Initial (s : Ram V) : Prop :=
  (s.locked .a = true ∧ s.locked .b = true ∧ s.locked .ab = false ∧ s.locked .ba = false) ∧
  ∀ p, (∃ size, (s.proc p).handle = ((Handle.construct size).init.2.chooseSide p).2) ∧
    (s.proc p).pc = .outside ∧ (s.proc p).returned = 0

def Reachable : Ram V → Prop := Library.Transition.Reachable Initial Step

/-- The process is between two calls of `swap`. -/
def Outside (s : Ram V) (p : Bool) : Prop := (s.proc p).pc = .outside

/-- How many calls of `swap` a process has started. -/
def entered (s : Ram V) (p : Bool) : Nat :=
  if (s.proc p).pc = .outside then (s.proc p).returned else (s.proc p).returned + 1

end Ram

end CoVault.Dualex
