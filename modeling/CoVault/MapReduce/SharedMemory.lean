import CoVault.Library.SingleUse
import CoVault.MapReduce.ReduceLayer

/-!
# Lists in shared memory, statement by statement

A sender stores its list in a vector in a named segment, block by block, and posts a named
semaphore. The receiver waits for the semaphore, reads the vector and removes both names. The
processes of a machine do this for several lists at a time, and their statements come in any order.

As long as no semaphore has been left behind with a positive value, that order does not matter: a
list is read when it is complete, and nobody waits for ever.
-/

namespace CoVault.MapReduce.SharedMemory

open Library Library.SingleUse

/-- A text with a number behind it. -/
structure Name where
  text : String
  number : Nat
  deriving DecidableEq

/-- `semaphore_name` and `managed_shm_name`. -/
structure Names where
  semaphore : Name
  managedShm : Name
  deriving DecidableEq

variable {ι κ α β : Type*}

/-- What the names stand for: the value of a semaphore, and the vector in a segment if its
`SharedData` has been constructed. -/
structure Os (β : Type*) where
  semaphore : Name → Option Nat
  segment : Name → Option (Option (List β))

namespace Os

def setSemaphore (os : Os β) (n : Name) (v : Option Nat) : Os β :=
  { os with semaphore := Function.update os.semaphore n v }

def setSegment (os : Os β) (n : Name) (v : Option (Option (List β))) : Os β :=
  { os with segment := Function.update os.segment n v }

end Os

/-- How far a process has come in a call of `sender` or `receiver`. -/
inductive Pc (β : Type*) where
  | start
  | opened
  | constructed
  | stored (k : Nat)
  | named
  | waiting
  | signalled
  | mapped
  | loaded (got : List β)
  | removed (got : List β)
  /-- It has found no list and returned, or reads behind the end of the vector. What the process
  does then is left open. -/
  | failed

/-- Within a call, or behind it. -/
inductive Next (β ρ : Type*) where
  | goOn (pc : Pc β)
  | returns (result : ρ)

/-- One statement of `sender`; `none` where it cannot be executed. -/
def senderStep [Inhabited β] (fits : List β → Nat → Bool) (n : Names) (list : List β) (os : Os β) :
    Pc β → Option (Next β Unit × Os β)
  | .start => some (.goOn .opened, os.setSegment n.managedShm (some (os.segment n.managedShm).join))
  | .opened =>
    (os.segment n.managedShm).map fun data =>
      (.goOn .constructed, os.setSegment n.managedShm (some (some (data.getD []))))
  | .constructed =>
    (os.segment n.managedShm).join.map fun vec =>
      if fits vec (list.length * blockSize) then
        (.goOn (.stored 0),
          os.setSegment n.managedShm (some (some (vec.takeD list.length default))))
      -- the exception is caught and printed
      else (.returns (), os)
  | .stored k =>
    if hk : k < list.length then
      (os.segment n.managedShm).join.map fun vec =>
        (.goOn (.stored (k + 1)), os.setSegment n.managedShm (some (some (vec.set k list[k]))))
    else
      some (.goOn .named, os.setSemaphore n.semaphore (some ((os.semaphore n.semaphore).getD 0)))
  | .named =>
    (os.semaphore n.semaphore).map fun v =>
      (.returns (), os.setSemaphore n.semaphore (some (v + 1)))
  | _ => none

/-- One statement of `receiver`, which reads `size` blocks. While there is no semaphore it tries
again, and while the semaphore is zero it waits. -/
def receiverStep (n : Names) (size : Nat) (os : Os β) : Pc β → Option (Next β (List β) × Os β)
  | .start => (os.semaphore n.semaphore).map fun _ => (.goOn .waiting, os)
  | .waiting =>
    match os.semaphore n.semaphore with
    | some (v + 1) => some (.goOn .signalled, os.setSemaphore n.semaphore (some v))
    | _ => none
  | .signalled =>
    match os.segment n.managedShm with
    | some _ => some (.goOn .mapped, os)
    | none => some (.goOn .start, os)
  | .mapped =>
    (os.segment n.managedShm).map fun
      | some _ => (.goOn (.loaded []), os)
      | none => (.goOn .failed, os)
  | .loaded got =>
    if got.length < size then
      (os.segment n.managedShm).join.map fun vec =>
        match vec[got.length]? with
        | some block => (.goOn (.loaded (got ++ [block])), os)
        | none => (.goOn .failed, os)
    else some (.goOn (.removed got), os.setSegment n.managedShm none)
  | .removed got => some (.returns got, os.setSemaphore n.semaphore none)
  | _ => none

/-! ## The processes of a machine -/

/-- A process with the calls it has not returned from, and its place in the first of them. -/
structure Node (κ α β : Type*) where
  rest : List (Op κ α (List β))
  value : α
  pc : Pc β

structure Sys (ι κ α β : Type*) where
  node : ι → Node κ α β
  os : Os β

/-- The names that a process makes for each of its calls, the number of blocks that are received,
and whether a vector can be made large enough for some bytes. -/
structure Setting (ι κ β : Type*) where
  names : ι → κ → Names
  size : κ → Nat
  fits : List β → Nat → Bool

namespace Sys

variable [DecidableEq ι] (s : Sys ι κ α β) (i : ι)

def goOn (pc : Pc β) (os : Os β) : Sys ι κ α β :=
  ⟨Function.update s.node i { s.node i with pc := pc }, os⟩

/-- The first call returns. -/
def finish (rest : List (Op κ α (List β))) (value : α) (os : Os β) : Sys ι κ α β :=
  ⟨Function.update s.node i ⟨rest, value, .start⟩, os⟩

/-- The next statement of a process; `none` while it waits, or when it is through. -/
def step [Inhabited β] (g : Setting ι κ β) : Option (Sys ι κ α β) :=
  let node := s.node i
  match node.rest with
  | [] => none
  | .send c message :: rest =>
    (senderStep g.fits (g.names i c) (message node.value) s.os node.pc).map fun
      | (.goOn pc, os) => s.goOn i pc os
      | (.returns _, os) => s.finish i rest node.value os
  | .receive c absorb :: rest =>
    (receiverStep (g.names i c) (g.size c) s.os node.pc).bind fun
      | (.goOn pc, os) => some (s.goOn i pc os)
      | (.returns got, os) => (absorb got node.value).map fun value => s.finish i rest value os

def Step [Inhabited β] (g : Setting ι κ β) (s t : Sys ι κ α β) : Prop := ∃ i, s.step i g = some t

end Sys

/-! ## One link -/

/-- What a sender has done to its segment. -/
def Prepared (list : List β) : Pc β → Option (Option (List β)) → Prop
  | .start, _ => True
  | .opened, data => data ≠ none
  | .constructed, data => ∃ vec, data = some (some vec)
  | .stored k, data => ∃ vec, data = some (some vec) ∧ k ≤ list.length ∧
      vec.length = list.length ∧ vec.take k = list.take k
  | .named, data => data = some (some list)
  | _, _ => False

/-- What a receiver has done to both objects, the list having been sent. -/
def Delivered (list : List β) : Pc β → Option Nat → Option (Option (List β)) → Prop
  | .start, v, data => v = some 1 ∧ data = some (some list)
  | .waiting, v, data => v = some 1 ∧ data = some (some list)
  | .signalled, v, data => v = some 0 ∧ data = some (some list)
  | .mapped, v, data => v = some 0 ∧ data = some (some list)
  | .loaded got, v, data => v = some 0 ∧ data = some (some list) ∧ got <+: list
  | .removed got, v, data => v = some 0 ∧ data = none ∧ got = list
  | _, _, _ => False

/-- The objects of a link, by what its sender and its receiver have still to do. -/
def Link (list : List β) (sending receiving : Option (Pc β)) (v : Option Nat)
    (data : Option (Option (List β))) : Prop :=
  match sending, receiving with
  | some pc, some pc' => Prepared list pc data ∧
      (v = none ∧ pc' = .start ∧ pc ≠ .named ∨ v = some 0 ∧ (pc' = .start ∨ pc' = .waiting))
  | none, some pc' => Delivered list pc' v data
  | none, none => v = none ∧ data = none
  | some _, none => False

/-- The statements that are left of a call that moves `n` blocks. -/
def Pc.left (n : Nat) : Pc β → Nat
  | .start => n + 7
  | .opened | .waiting => n + 6
  | .constructed | .signalled => n + 5
  | .mapped => n + 4
  | .stored k => n - k + 2
  | .loaded got => n - got.length + 2
  | .named | .removed _ => 1
  | .failed => 1

/-- Only the objects of one link change. -/
structure Os.Within (n : Names) (os os' : Os β) : Prop where
  semaphore : ∀ m, m ≠ n.semaphore → os'.semaphore m = os.semaphore m
  segment : ∀ m, m ≠ n.managedShm → os'.segment m = os.segment m

section Link

variable {n : Names} {os os' : Os β} {list : List β} {pc pc' : Pc β}

@[simp] theorem Os.semaphore_setSemaphore (v : Option Nat) (m : Name) :
    (os.setSemaphore m v).semaphore m = v := Function.update_self ..

@[simp] theorem Os.segment_setSemaphore (v : Option Nat) (m : Name) :
    (os.setSemaphore m v).segment = os.segment := rfl

@[simp] theorem Os.segment_setSegment (v : Option (Option (List β))) (m : Name) :
    (os.setSegment m v).segment m = v := Function.update_self ..

@[simp] theorem Os.semaphore_setSegment (v : Option (Option (List β))) (m : Name) :
    (os.setSegment m v).semaphore = os.semaphore := rfl

theorem Os.Within.rfl : os.Within n os := ⟨fun _ _ => Eq.refl _, fun _ _ => Eq.refl _⟩

theorem Os.within_setSemaphore (v : Option Nat) : os.Within n (os.setSemaphore n.semaphore v) :=
  ⟨fun _ hm => Function.update_of_ne hm .., fun _ _ => Eq.refl _⟩

theorem Os.within_setSegment (v : Option (Option (List β))) :
    os.Within n (os.setSegment n.managedShm v) :=
  ⟨fun _ _ => Eq.refl _, fun _ hm => Function.update_of_ne hm ..⟩

/-- A sender can go on, and what it does keeps the link in order. -/
theorem senderStep_link [Inhabited β] {fits : List β → Nat → Bool}
    (hfits : ∀ vec, fits vec (list.length * blockSize) = true)
    (h : Link list (some pc) (some pc') (os.semaphore n.semaphore) (os.segment n.managedShm)) :
    ∃ next os', senderStep fits n list os pc = some (next, os') ∧ os.Within n os' ∧
      match next with
      | .goOn new => new.left list.length < pc.left list.length ∧
          Link list (some new) (some pc') (os'.semaphore n.semaphore) (os'.segment n.managedShm)
      | .returns _ =>
          Link list none (some pc') (os'.semaphore n.semaphore) (os'.segment n.managedShm) := by
  obtain ⟨hprepared, hvalue⟩ := h
  cases pc with
  | start =>
    refine ⟨_, _, rfl, Os.within_setSegment _, by simp [Pc.left], ?_, ?_⟩
    · simp [Prepared]
    · simpa using hvalue
  | opened =>
    obtain ⟨data, hdata⟩ := Option.ne_none_iff_exists'.mp hprepared
    have hstep : senderStep fits n list os .opened = some (.goOn .constructed,
        os.setSegment n.managedShm (some (some (data.getD [])))) := by simp [senderStep, hdata]
    refine ⟨_, _, hstep, Os.within_setSegment _, by simp [Pc.left], ?_, ?_⟩
    · simp [Prepared]
    · simpa using hvalue
  | constructed =>
    obtain ⟨vec, hvec⟩ := hprepared
    have hstep : senderStep fits n list os .constructed = some (.goOn (.stored 0),
        os.setSegment n.managedShm (some (some (vec.takeD list.length default)))) := by
      simp [senderStep, hvec, hfits]
    refine ⟨_, _, hstep, Os.within_setSegment _, by simp [Pc.left], ?_, ?_⟩
    · simp [Prepared, List.takeD_length]
    · simpa using hvalue
  | stored k =>
    obtain ⟨vec, hvec, hk, hlength, htake⟩ := hprepared
    by_cases hlt : k < list.length
    · have hstep : senderStep fits n list os (.stored k) = some (.goOn (.stored (k + 1)),
          os.setSegment n.managedShm (some (some (vec.set k list[k])))) := by
        simp [senderStep, hvec, hlt]
      refine ⟨_, _, hstep, Os.within_setSegment _, by simp [Pc.left]; omega, ?_, ?_⟩
      · refine ⟨vec.set k list[k], by simp, hlt, by simpa using hlength, ?_⟩
        rw [List.take_add_one, List.take_add_one, List.take_set_of_le le_rfl, htake]
        simp [hlt, hlength]
      · simpa using hvalue
    · -- all blocks are there
      have hvec' : vec = list := by
        rwa [List.take_of_length_le (by omega), List.take_of_length_le (by omega)] at htake
      have hstep : senderStep fits n list os (.stored k) = some (.goOn .named,
          os.setSemaphore n.semaphore (some ((os.semaphore n.semaphore).getD 0))) := by
        simp [senderStep, hlt]
      refine ⟨_, _, hstep, Os.within_setSemaphore _, by simp [Pc.left], ?_, .inr ?_⟩
      · simp [Prepared, hvec, hvec']
      · rcases hvalue with ⟨hv, hpc, -⟩ | ⟨hv, hpc⟩ <;> simp [hv, hpc]
  | named =>
    rcases hvalue with ⟨-, -, hnot⟩ | ⟨hv, hpc⟩
    · exact (hnot rfl).elim
    · have hstep : senderStep fits n list os .named =
          some (.returns (), os.setSemaphore n.semaphore (some 1)) := by simp [senderStep, hv]
      have hdata : os.segment n.managedShm = some (some list) := hprepared
      refine ⟨_, _, hstep, Os.within_setSemaphore _, ?_⟩
      rcases hpc with rfl | rfl <;> simp [Link, Delivered, hdata]
  | _ => exact hprepared.elim

/-- A receiver of a list that has been sent can go on; it returns with the list, and then nothing
is left of the link. -/
theorem receiverStep_link (h : Link list none (some pc) (os.semaphore n.semaphore)
    (os.segment n.managedShm)) :
    ∃ next os', receiverStep n list.length os pc = some (next, os') ∧ os.Within n os' ∧
      match next with
      | .goOn new => new.left list.length < pc.left list.length ∧
          Link list none (some new) (os'.semaphore n.semaphore) (os'.segment n.managedShm)
      | .returns got => got = list ∧
          Link list none none (os'.semaphore n.semaphore) (os'.segment n.managedShm) := by
  cases pc with
  | start =>
    obtain ⟨hv, hdata⟩ := h
    have hstep : receiverStep n list.length os .start = some (.goOn .waiting, os) := by
      simp [receiverStep, hv]
    exact ⟨_, _, hstep, .rfl, by simp [Pc.left], hv, hdata⟩
  | waiting =>
    obtain ⟨hv, hdata⟩ := h
    have hstep : receiverStep n list.length os .waiting =
        some (.goOn .signalled, os.setSemaphore n.semaphore (some 0)) := by simp [receiverStep, hv]
    exact ⟨_, _, hstep, Os.within_setSemaphore _, by simp [Pc.left], by simp, hdata⟩
  | signalled =>
    obtain ⟨hv, hdata⟩ := h
    have hstep : receiverStep n list.length os .signalled = some (.goOn .mapped, os) := by
      simp [receiverStep, hdata]
    exact ⟨_, _, hstep, .rfl, by simp [Pc.left], hv, hdata⟩
  | mapped =>
    obtain ⟨hv, hdata⟩ := h
    have hstep : receiverStep n list.length os .mapped = some (.goOn (.loaded []), os) := by
      simp [receiverStep, hdata]
    exact ⟨_, _, hstep, .rfl, by simp [Pc.left], hv, hdata, List.nil_prefix⟩
  | loaded got =>
    obtain ⟨hv, hdata, rest, rfl⟩ := h
    cases rest with
    | nil =>
      have hstep : receiverStep n (got ++ []).length os (.loaded got) =
          some (.goOn (.removed got), os.setSegment n.managedShm none) := by simp [receiverStep]
      exact ⟨_, _, hstep, Os.within_setSegment _, by simp [Pc.left], hv, by simp,
        (List.append_nil got).symm⟩
    | cons b rest =>
      have hstep : receiverStep n (got ++ b :: rest).length os (.loaded got) =
          some (.goOn (.loaded (got ++ [b])), os) := by simp [receiverStep, hdata]
      exact ⟨_, _, hstep, .rfl, by simp [Pc.left]; omega, hv, hdata, rest, by simp⟩
  | removed got =>
    obtain ⟨-, hdata, hgot⟩ := h
    exact ⟨_, _, rfl, Os.within_setSemaphore _, hgot, by simp, hdata⟩
  | _ => exact h.elim

/-- Before the list has been sent a receiver does not get beyond its wait. -/
theorem receiverStep_unsent {size : Nat} {next : Next β (List β)}
    (h : Link list (some pc) (some pc') (os.semaphore n.semaphore) (os.segment n.managedShm))
    (hstep : receiverStep n size os pc' = some (next, os')) :
    ∃ new, next = .goOn new ∧ os' = os ∧ new.left size < pc'.left size ∧
      Link list (some pc) (some new) (os.semaphore n.semaphore) (os.segment n.managedShm) := by
  obtain ⟨hprepared, ⟨hv, rfl, -⟩ | ⟨hv, rfl | rfl⟩⟩ := h
  · simp [receiverStep, hv] at hstep
  · simp only [receiverStep, hv, Option.map_some, Option.some.injEq, Prod.mk.injEq] at hstep
    obtain ⟨rfl, rfl⟩ := hstep
    exact ⟨_, rfl, rfl, by simp [Pc.left], hprepared, .inr ⟨hv, .inr rfl⟩⟩
  · simp [receiverStep, hv] at hstep

end Link

/-! ## The machine as a network -/

/-- Where a process is in its call for a channel; `none` when it has returned from it. -/
def Node.pcAt [DecidableEq κ] (node : Node κ α β) (c : κ) : Option (Pc β) :=
  match node.rest with
  | [] => none
  | op :: tail =>
    if op.channel = c then some node.pc
    else if c ∈ tail.map Op.channel then some .start else none

/-- The network whose channels hold the lists that have been sent and not yet received. -/
def Sys.net [DecidableEq κ] (source target : κ → ι) (carried : κ → List β) (s : Sys ι κ α β) :
    Net ι κ α (List β) where
  proc i := ⟨(s.node i).rest, (s.node i).value⟩
  held c :=
    if c ∉ (s.node (source c)).rest.map Op.channel ∧ c ∈ (s.node (target c)).rest.map Op.channel
    then some (carried c) else none

/-- Both ends of a channel use the same names, and no other channel does. -/
structure Setting.Named (g : Setting ι κ β) (order : List κ) (source target : κ → ι) : Prop where
  agree : ∀ c ∈ order, g.names (target c) c = g.names (source c) c
  apart : ∀ c ∈ order, ∀ d ∈ order, d ≠ c →
    (g.names (source d) d).semaphore ≠ (g.names (source c) c).semaphore ∧
      (g.names (source d) d).managedShm ≠ (g.names (source c) c).managedShm

/-- As many blocks are read as are sent, and vectors can be made large enough for them. -/
structure Setting.Room (g : Setting ι κ β) (order : List κ) (carried : κ → List β) : Prop where
  size : ∀ c ∈ order, (carried c).length = g.size c
  fits : ∀ c ∈ order, ∀ vec, g.fits vec ((carried c).length * blockSize) = true

/-- No process has called anything. Segments may have been left behind, and semaphores that nobody
has posted. -/
structure Sys.Initial (g : Setting ι κ β) (order : List κ) (source : κ → ι)
    (prog : ι → List (Op κ α (List β))) (start : ι → α) (s : Sys ι κ α β) : Prop where
  node : ∀ i, s.node i = ⟨prog i, start i, .start⟩
  semaphore : ∀ c ∈ order, s.os.semaphore (g.names (source c) c).semaphore = none ∨
    s.os.semaphore (g.names (source c) c).semaphore = some 0

section Machine

variable [DecidableEq κ] {g : Setting ι κ β} {order : List κ}
  {source target : κ → ι} {prog : ι → List (Op κ α (List β))} {carried : κ → List β}
  {final : ι → α} {s t : Sys ι κ α β} {i j : ι} {c d : κ}

theorem Node.pcAt_eq_none {node : Node κ α β} :
    node.pcAt c = none ↔ c ∉ node.rest.map Op.channel := by
  unfold Node.pcAt
  split
  next h => simp [h]
  next op tail h =>
    rw [h, List.map_cons, List.mem_cons]
    split_ifs with hc htail
    · simp [hc]
    · simp [htail]
    · simp [htail, Ne.symm hc]

theorem Node.pcAt_front {node : Node κ α β} {op : Op κ α (List β)} {tail : List (Op κ α (List β))}
    (h : node.rest = op :: tail) : node.pcAt op.channel = some node.pc := by
  simp [Node.pcAt, h]

/-- A statement within a call is seen on its channel only. -/
theorem Node.pcAt_goOn {node : Node κ α β} {op : Op κ α (List β)} {tail : List (Op κ α (List β))}
    (h : node.rest = op :: tail) (pc : Pc β) :
    ({ node with pc := pc } : Node κ α β).pcAt d =
      if d = op.channel then some pc else node.pcAt d := by
  simp only [Node.pcAt, h]
  by_cases hd : d = op.channel
  · simp [hd]
  · simp [hd, Ne.symm hd]

theorem Node.pcAt_start {rest : List (Op κ α (List β))} {value : α} :
    (⟨rest, value, .start⟩ : Node κ α β).pcAt d =
      if d ∈ rest.map Op.channel then some .start else none := by
  cases rest with
  | nil => rfl
  | cons op tail =>
    by_cases hd : op.channel = d
    · simp [Node.pcAt, hd]
    · simp [Node.pcAt, hd, Ne.symm hd]

/-- So is its return. -/
theorem Node.pcAt_finish {node : Node κ α β} {op : Op κ α (List β)} {tail : List (Op κ α (List β))}
    (h : node.rest = op :: tail) (hnodup : (node.rest.map Op.channel).Nodup) (value : α) :
    (⟨tail, value, .start⟩ : Node κ α β).pcAt d =
      if d = op.channel then none else node.pcAt d := by
  rw [h, List.map_cons, List.nodup_cons] at hnodup
  rw [Node.pcAt_start]
  by_cases hd : d = op.channel
  · simp [hd, hnodup.1]
  · simp [Node.pcAt, h, hd, Ne.symm hd]

/-- What holds of the machine in every run. -/
structure Sys.Inv (g : Setting ι κ β) (order : List κ) (source target : κ → ι)
    (prog : ι → List (Op κ α (List β))) (carried : κ → List β) (final : ι → α)
    (s : Sys ι κ α β) : Prop where
  net : (s.net source target carried).Inv order source target prog carried final
  link : ∀ c ∈ order, Link (carried c) ((s.node (source c)).pcAt c) ((s.node (target c)).pcAt c)
    (s.os.semaphore (g.names (source c) c).semaphore)
    (s.os.segment (g.names (source c) c).managedShm)

/-- What is left of a program leads to the value the process is to come to. -/
theorem Sys.Inv.follows (hs : s.Inv g order source target prog carried final)
    {rest : List (Op κ α (List β))} (hrest : (s.node i).rest = rest) :
    Follows carried rest (s.node i).value (final i) := by
  rw [← hrest]
  exact hs.net.follows i

/-- The statements that are left of all calls. -/
def Node.left (size : κ → Nat) (node : Node κ α β) : Nat :=
  match node.rest with
  | [] => 0
  | op :: tail =>
    node.pc.left (size op.channel) + (tail.map fun op => size op.channel + 7).sum

theorem Pc.left_pos (n : Nat) (pc : Pc β) : 0 < pc.left n := by
  cases pc <;> simp [Pc.left]

omit [DecidableEq κ] in
theorem Node.left_goOn {size : κ → Nat} {node : Node κ α β} {op : Op κ α (List β)}
    {tail : List (Op κ α (List β))} (h : node.rest = op :: tail) {pc : Pc β}
    (hpc : pc.left (size op.channel) < node.pc.left (size op.channel)) :
    ({ node with pc := pc } : Node κ α β).left size < node.left size := by
  simp only [Node.left, h]
  omega

omit [DecidableEq κ] in
theorem Node.left_finish {size : κ → Nat} {node : Node κ α β} {op : Op κ α (List β)}
    {tail : List (Op κ α (List β))} (h : node.rest = op :: tail) (value : α) :
    (⟨tail, value, .start⟩ : Node κ α β).left size < node.left size := by
  have hpos := Pc.left_pos (size op.channel) node.pc
  simp only [Node.left, h]
  cases tail with
  | nil => simpa using hpos
  | cons op' tail =>
    have hstart : Pc.left (size op'.channel) (.start : Pc β) = size op'.channel + 7 := rfl
    simp only [List.map_cons, List.sum_cons, hstart]
    omega

/-! ## One step -/

/-- Where a process is in its call for a channel after process `i` has got to `place` in its own. -/
def Sys.placed [DecidableEq ι] (s : Sys ι κ α β) (i : ι) (c : κ) (place : Option (Pc β)) (j : ι) :
    Option (Pc β) :=
  if j = i then place else (s.node j).pcAt c

/-- A step that the network takes too, or does not see, and that leaves fewer statements. -/
structure Sys.Goes [DecidableEq ι] (g : Setting ι κ β) (order : List κ) (source target : κ → ι)
    (prog : ι → List (Op κ α (List β))) (carried : κ → List β) (final : ι → α)
    (s t : Sys ι κ α β) (i : ι) : Prop where
  inv : t.Inv g order source target prog carried final
  simulated : t.net source target carried = s.net source target carried ∨
    (s.net source target carried).step i = some (t.net source target carried)
  others : ∀ j, j ≠ i → t.node j = s.node j
  left : (t.node i).left g.size < (s.node i).left g.size

section Steps

variable [DecidableEq ι] (h : Wired order source target prog) (hnames : g.Named order source target)
  (hs : s.Inv g order source target prog carried final)
  {op : Op κ α (List β)} {tail : List (Op κ α (List β))} {os : Os β}

include h hs

theorem Sys.Inv.front (hrest : (s.node i).rest = op :: tail) :
    op.channel ∈ order ∧ (source op.channel = i ∨ target op.channel = i) :=
  h.mem_of_ahead (hs.net.suffix i)
    (show op.channel ∈ (s.node i).rest.map Op.channel by simp [hrest])

include hnames

/-- Only the link of a step changes. -/
theorem Sys.Inv.links (hrest : (s.node i).rest = op :: tail) {place : Option (Pc β)}
    (hothers : ∀ j, j ≠ i → t.node j = s.node j)
    (hplace : ∀ d, (t.node i).pcAt d = if d = op.channel then place else (s.node i).pcAt d)
    (hos : s.os.Within (g.names i op.channel) t.os)
    (hlink : Link (carried op.channel) (s.placed i op.channel place (source op.channel))
      (s.placed i op.channel place (target op.channel))
      (t.os.semaphore (g.names i op.channel).semaphore)
      (t.os.segment (g.names i op.channel).managedShm)) :
    ∀ d ∈ order, Link (carried d) ((t.node (source d)).pcAt d) ((t.node (target d)).pcAt d)
      (t.os.semaphore (g.names (source d) d).semaphore)
      (t.os.segment (g.names (source d) d).managedShm) := by
  obtain ⟨hc, huses⟩ := hs.front h hrest
  have hname : g.names i op.channel = g.names (source op.channel) op.channel := by
    rcases huses with huses | huses
    · rw [huses]
    · rw [← hnames.agree _ hc, huses]
  intro d hd
  by_cases hdc : d = op.channel
  · have hplaced : ∀ j, (t.node j).pcAt op.channel = s.placed i op.channel place j := by
      intro j
      by_cases hj : j = i
      · rw [hj, hplace, if_pos rfl, Sys.placed, if_pos rfl]
      · rw [hothers j hj, Sys.placed, if_neg hj]
    rw [hdc, ← hname, hplaced, hplaced]
    exact hlink
  · have hstays : ∀ j, (t.node j).pcAt d = (s.node j).pcAt d := by
      intro j
      by_cases hj : j = i
      · rw [hj, hplace, if_neg hdc]
      · rw [hothers j hj]
    obtain ⟨hsemaphore, hsegment⟩ := hnames.apart _ hc d hd hdc
    rw [hname] at hos
    rw [hstays, hstays, hos.semaphore _ hsemaphore, hos.segment _ hsegment]
    exact hs.link d hd

/-- A statement within a call. -/
theorem Sys.Inv.goOn (hrest : (s.node i).rest = op :: tail) {pc : Pc β}
    (hos : s.os.Within (g.names i op.channel) os)
    (hlink : Link (carried op.channel) (s.placed i op.channel (some pc) (source op.channel))
      (s.placed i op.channel (some pc) (target op.channel))
      (os.semaphore (g.names i op.channel).semaphore)
      (os.segment (g.names i op.channel).managedShm))
    (hleft : pc.left (g.size op.channel) < (s.node i).pc.left (g.size op.channel)) :
    s.Goes g order source target prog carried final (s.goOn i pc os) i := by
  have hself : (s.goOn i pc os).node i = { s.node i with pc := pc } := Function.update_self ..
  have hothers : ∀ j, j ≠ i → (s.goOn i pc os).node j = s.node j :=
    fun j hj => Function.update_of_ne hj ..
  have hsame : ∀ j, ((s.goOn i pc os).node j).rest = (s.node j).rest ∧
      ((s.goOn i pc os).node j).value = (s.node j).value := by
    intro j
    by_cases hj : j = i
    · rw [hj, hself]
      exact ⟨rfl, rfl⟩
    · rw [hothers j hj]
      exact ⟨rfl, rfl⟩
  have hnet : (s.goOn i pc os).net source target carried = s.net source target carried := by
    simp only [Sys.net, hsame]
  refine ⟨⟨hnet ▸ hs.net, ?_⟩, .inl hnet, hothers, ?_⟩
  · exact hs.links h hnames hrest hothers
      (fun d => by rw [hself]; exact Node.pcAt_goOn hrest pc) hos hlink
  · rw [hself]
    exact Node.left_goOn hrest hleft

/-- The call in front returns, and the network takes the step of its channel. -/
theorem Sys.Inv.finish (hrest : (s.node i).rest = op :: tail) {value : α}
    (hos : s.os.Within (g.names i op.channel) os)
    (hlink : Link (carried op.channel) (s.placed i op.channel none (source op.channel))
      (s.placed i op.channel none (target op.channel))
      (os.semaphore (g.names i op.channel).semaphore)
      (os.segment (g.names i op.channel).managedShm))
    (hstep : (s.net source target carried).step i =
      some ((s.finish i tail value os).net source target carried)) :
    s.Goes g order source target prog carried final (s.finish i tail value os) i := by
  have hself : (s.finish i tail value os).node i = ⟨tail, value, .start⟩ := Function.update_self ..
  have hothers : ∀ j, j ≠ i → (s.finish i tail value os).node j = s.node j :=
    fun j hj => Function.update_of_ne hj ..
  have hnodup : (((s.net source target carried).rest i).map Op.channel).Nodup :=
    h.suffix_nodup (hs.net.suffix i)
  refine ⟨⟨hs.net.step h hstep, ?_⟩, .inr hstep, hothers, ?_⟩
  · exact hs.links h hnames hrest hothers
      (fun d => by rw [hself]; exact Node.pcAt_finish hrest hnodup value) hos hlink
  · rw [hself]
    exact Node.left_finish hrest value

omit hnames in
/-- What the network holds after a return. -/
theorem Sys.Inv.net_finish (hrest : (s.node i).rest = op :: tail) (value : α) {m : Option (List β)}
    (hheld : m = if source op.channel = i then some (carried op.channel) else none) :
    (s.finish i tail value os).net source target carried =
      ⟨Function.update (s.net source target carried).proc i ⟨tail, value⟩,
        Function.update (s.net source target carried).held op.channel m⟩ := by
  obtain ⟨hc, huses⟩ := hs.front h hrest
  have hproc : ((s.finish i tail value os).net source target carried).proc =
      Function.update (s.net source target carried).proc i ⟨tail, value⟩ := by
    funext j
    by_cases hj : j = i
    · subst hj
      simp [Sys.net, Sys.finish]
    · simp [Sys.net, Sys.finish, hj]
  have hnodup : (((s.net source target carried).rest i).map Op.channel).Nodup :=
    h.suffix_nodup (hs.net.suffix i)
  have hahead : ∀ j d, d ∈ ((s.finish i tail value os).node j).rest.map Op.channel ↔
      d ∈ (s.node j).rest.map Op.channel ∧ ¬ (j = i ∧ d = op.channel) := by
    intro j d
    have hrests := Net.rest_update hproc
    have hupdate := Ahead.update_iff (j := j) (d := d) hnodup hrest
    rwa [← hrests] at hupdate
  rw [Net.mk.injEq]
  refine ⟨hproc, ?_⟩
  funext d
  by_cases hd : d = op.channel
  · subst hd
    rw [Function.update_self, hheld]
    have hfront : op.channel ∈ (s.node i).rest.map Op.channel := by simp [hrest]
    by_cases hsource : source op.channel = i
    · have htarget : target op.channel ≠ i := hsource ▸ (h.apart _ hc).symm
      have hreceiver : op.channel ∈ (s.node (target op.channel)).rest.map Op.channel :=
        hs.net.sentFirst _ hc (hsource ▸ hfront)
      simp only [Sys.net, hahead]
      rw [if_pos hsource, if_pos]
      exact ⟨fun hsent => hsent.2 ⟨hsource, trivial⟩, hreceiver, fun hself => htarget hself.1⟩
    · simp only [Sys.net, hahead]
      rw [if_neg hsource, if_neg]
      exact fun hboth => hboth.2.2 ⟨huses.resolve_left hsource, trivial⟩
  · rw [Function.update_of_ne hd]
    simp only [Sys.net, hahead, hd, and_false, not_false_eq_true, and_true]

/-- A process that sends can go on. -/
theorem Sys.Inv.send [Inhabited β] (hroom : g.Room order carried) {message : α → List β}
    (hrest : (s.node i).rest = .send c message :: tail) :
    ∃ t, s.step i g = some t ∧ s.Goes g order source target prog carried final t i := by
  obtain ⟨hc, -⟩ := hs.front h hrest
  have hsource : source c = i := (h.source_iff (hs.net.suffix i) hrest).mp rfl
  have hmessage : message (s.node i).value = carried c := (hs.follows hrest).1
  have hplace : (s.node i).pcAt c = some (s.node i).pc := Node.pcAt_front hrest
  have hlink := hs.link c hc
  rw [hsource, hplace] at hlink
  obtain ⟨pc', hpc'⟩ : ∃ pc', (s.node (target c)).pcAt c = some pc' := by
    refine Option.ne_none_iff_exists'.mp fun hnone => ?_
    rw [hnone] at hlink
    exact hlink
  rw [hpc'] at hlink
  have htarget : target c ≠ i := hsource ▸ (h.apart c hc).symm
  obtain ⟨next, os, hstep, hos, hnext⟩ := senderStep_link (hroom.fits c hc) hlink
  have hgoes : s.step i g = some (match next with
      | .goOn pc => s.goOn i pc os
      | .returns _ => s.finish i tail (s.node i).value os) := by
    simp only [Sys.step, hrest, hmessage, hstep, Option.map_some]
    cases next <;> rfl
  refine ⟨_, hgoes, ?_⟩
  cases next with
  | goOn pc =>
    refine hs.goOn h hnames hrest hos ?_ (hroom.size c hc ▸ hnext.1)
    simp only [Sys.placed, Op.channel, hsource, htarget, if_true, if_false, hpc']
    exact hnext.2
  | returns u =>
    refine hs.finish h hnames hrest hos ?_ ?_
    · simp only [Sys.placed, Op.channel, hsource, htarget, if_true, if_false, hpc']
      exact hnext
    · rw [hs.net_finish h hrest _ (if_pos hsource).symm, Net.step_send (s := s.net _ _ _) hrest]
      exact congrArg (fun m => some (Net.mk _ (Function.update _ c (some m)))) hmessage

section Receive

variable {absorb : List β → α → Option α} (hrest : (s.node i).rest = .receive c absorb :: tail)

include hrest

/-- A receiver's end of its channel. -/
theorem Sys.Inv.receiving : c ∈ order ∧ target c = i ∧ source c ≠ i ∧
    g.names i c = g.names (source c) c ∧ (s.node i).pcAt c = some (s.node i).pc ∧
      ∃ v, absorb (carried c) (s.node i).value = some v := by
  obtain ⟨hc, -⟩ := hs.front h hrest
  have htarget : target c = i := h.target_of_receive (hs.net.suffix i) hrest rfl
  obtain ⟨v, hv, -⟩ := hs.follows hrest
  exact ⟨hc, htarget, htarget ▸ h.apart c hc, htarget ▸ hnames.agree c hc,
    Node.pcAt_front hrest, v, hv⟩

/-- A process that receives what has been sent can go on. -/
theorem Sys.Inv.receive_sent [Inhabited β] (hroom : g.Room order carried)
    (hsent : (s.node (source c)).pcAt c = none) :
    ∃ t, s.step i g = some t ∧ s.Goes g order source target prog carried final t i := by
  obtain ⟨hc, htarget, hsource, hname, hplace, v, hv⟩ := hs.receiving h hnames hrest
  have hlink := hs.link c hc
  rw [hsent, htarget, hplace, ← hname] at hlink
  obtain ⟨next, os, hstep, hos, hnext⟩ := receiverStep_link hlink
  rw [hroom.size c hc] at hstep
  cases next with
  | goOn pc =>
    have hgoes : s.step i g = some (s.goOn i pc os) := by simp [Sys.step, hrest, hstep]
    refine ⟨_, hgoes, hs.goOn h hnames hrest hos ?_ (hroom.size c hc ▸ hnext.1)⟩
    simp only [Sys.placed, Op.channel, hsource, htarget, if_true, if_false, hsent]
    exact hnext.2
  | returns got =>
    obtain ⟨rfl, hgone⟩ := hnext
    have hgoes : s.step i g = some (s.finish i tail v os) := by
      simp [Sys.step, hrest, hstep, hv]
    refine ⟨_, hgoes, hs.finish h hnames hrest hos ?_ ?_⟩
    · simp only [Sys.placed, Op.channel, hsource, htarget, if_true, if_false, hsent]
      exact hgone
    · have hheld : (s.net source target carried).held c = some (carried c) := by
        have hreceiver : c ∈ (s.node (target c)).rest.map Op.channel := by
          simp [htarget, hrest, Op.channel]
        simp only [Sys.net]
        exact if_pos ⟨Node.pcAt_eq_none.mp hsent, hreceiver⟩
      rw [hs.net_finish h hrest _ (if_neg hsource).symm,
        Net.step_receive (s := s.net _ _ _) hrest hheld hv]
      rfl

/-- A process that receives goes on only as far as it may. -/
theorem Sys.Inv.receive [Inhabited β] (hroom : g.Room order carried)
    (hstep : s.step i g = some t) : s.Goes g order source target prog carried final t i := by
  obtain ⟨hc, htarget, hsource, hname, hplace, -⟩ := hs.receiving h hnames hrest
  cases hsent : (s.node (source c)).pcAt c with
  | none =>
    obtain ⟨t', ht', hgoes⟩ := hs.receive_sent h hnames hrest hroom hsent
    exact Option.some.inj (ht'.symm.trans hstep) ▸ hgoes
  | some pc =>
    have hlink := hs.link c hc
    rw [hsent, htarget, hplace, ← hname] at hlink
    simp only [Sys.step, hrest] at hstep
    obtain ⟨⟨next, os⟩, hnext, hstep⟩ := Option.bind_eq_some_iff.mp hstep
    obtain ⟨new, rfl, rfl, hleft, hlink'⟩ := receiverStep_unsent hlink hnext
    obtain rfl := Option.some.inj hstep
    refine hs.goOn h hnames hrest .rfl ?_ hleft
    simp only [Sys.placed, Op.channel, hsource, htarget, if_true, if_false, hsent]
    exact hlink'

end Receive

theorem Sys.Inv.step [Inhabited β] (hroom : g.Room order carried) (hstep : s.step i g = some t) :
    s.Goes g order source target prog carried final t i := by
  cases hrest : (s.node i).rest with
  | nil => simp [Sys.step, hrest] at hstep
  | cons op tail =>
    cases op with
    | send c message =>
      obtain ⟨t', ht', hgoes⟩ := hs.send h hnames hroom hrest
      exact Option.some.inj (ht'.symm.trans hstep) ▸ hgoes
    | receive c absorb => exact hs.receive h hnames hrest hroom hstep

/-- As long as a call is left, some process can go on. -/
theorem Sys.Inv.exists_step [Inhabited β] (hroom : g.Room order carried)
    (hj : (s.node j).rest ≠ []) : ∃ i t, s.step i g = some t := by
  obtain ⟨i, u, hu⟩ := hs.net.exists_step h hj
  obtain ⟨c, tail, -, -, ⟨message, hrest, -⟩ | ⟨absorb, m, hrest, hm, -⟩⟩ := Net.step_cases hu
  · obtain ⟨t, ht, -⟩ := hs.send h hnames hroom hrest
    exact ⟨i, t, ht⟩
  · obtain ⟨hc, -⟩ := hs.receiving h hnames hrest
    have hsent := Node.pcAt_eq_none.mpr ((hs.net.held c hc m).mp hm).1
    obtain ⟨t, ht, -⟩ := hs.receive_sent h hnames hrest hroom hsent
    exact ⟨i, t, ht⟩

end Steps

/-! ## Whole runs -/

section Runs

variable [DecidableEq ι] {start : ι → α}

theorem Sys.Initial.net_initial (h : Wired order source target prog)
    (hs : s.Initial g order source prog start) :
    (s.net source target carried).Initial prog start := by
  refine ⟨fun i => by simp [Sys.net, hs.node], fun c => ?_⟩
  simp only [Sys.net, hs.node]
  refine if_neg fun hboth => hboth.1 ?_
  have hc := hboth.2
  rw [h.channels, List.mem_filter] at hc
  rw [h.channels, List.mem_filter]
  exact ⟨hc.1, decide_eq_true (.inl rfl)⟩

theorem Sys.Initial.inv (h : Wired order source target prog)
    (hfollows : ∀ i, Follows carried (prog i) (start i) (final i))
    (hs : s.Initial g order source prog start) :
    s.Inv g order source target prog carried final := by
  refine ⟨(hs.net_initial h).inv h hfollows, fun c hc => ?_⟩
  have hplace : ∀ i, source c = i ∨ target c = i → (s.node i).pcAt c = some .start := by
    intro i huses
    rw [hs.node, Node.pcAt_start, h.channels, if_pos]
    exact List.mem_filter.mpr ⟨hc, decide_eq_true huses⟩
  rw [hplace _ (.inl rfl), hplace _ (.inr rfl)]
  refine ⟨trivial, ?_⟩
  rcases hs.semaphore c hc with hv | hv
  · exact .inl ⟨hv, rfl, by simp⟩
  · exact .inr ⟨hv, .inl rfl⟩

/-- What a run comes to: a process that is through has its value, the others are never stuck and
get through, and in the end nothing is left behind. -/
structure Sys.Right [Inhabited β] (g : Setting ι κ β) (order : List κ) (source : κ → ι)
    (final : ι → α) (s : Sys ι κ α β) : Prop where
  value : ∀ i, (s.node i).rest = [] → (s.node i).value = final i
  goesOn : ∀ i, (s.node i).rest ≠ [] → ∃ j t, s.step j g = some t
  ends : Acc (fun t s => Sys.Step g s t) s
  cleared : (∀ i, (s.node i).rest = []) → ∀ c ∈ order,
    s.os.semaphore (g.names (source c) c).semaphore = none ∧
      s.os.segment (g.names (source c) c).managedShm = none

theorem Sys.Inv.right [Inhabited β] [Fintype ι] (h : Wired order source target prog)
    (hnames : g.Named order source target) (hroom : g.Room order carried)
    (hs : s.Inv g order source target prog carried final) : s.Right g order source final where
  value i hi := hs.follows hi
  goesOn i hi := hs.exists_step h hnames hroom hi
  ends := by
    refine Transition.acc_of_decreasing (m := fun s => ∑ i, (s.node i).left g.size)
      (fun s t hs hst => ?_) hs
    obtain ⟨i, hst⟩ := hst
    obtain ⟨hinv, -, hothers, hleft⟩ := hs.step h hnames hroom hst
    refine ⟨hinv, Finset.sum_lt_sum (fun j _ => ?_) ⟨i, Finset.mem_univ i, hleft⟩⟩
    by_cases hj : j = i
    · exact hj ▸ hleft.le
    · rw [hothers j hj]
  cleared hend c hc := by
    have hlink := hs.link c hc
    have hdone : ∀ i, (s.node i).pcAt c = none := fun i => Node.pcAt_eq_none.mpr (by simp [hend i])
    rw [hdone, hdone] at hlink
    exact hlink

/-- Statement by statement, the processes of a machine run like the network of their channels, and
come to what the programs lead to. -/
theorem Sys.run_right [Inhabited β] [Fintype ι] (h : Wired order source target prog)
    (hnames : g.Named order source target) (hroom : g.Room order carried)
    (hfollows : ∀ i, Follows carried (prog i) (start i) (final i))
    (hs : Transition.Reachable (Sys.Initial g order source prog start) (Sys.Step g) s) :
    Transition.Reachable (Net.Initial prog start) Net.Step (s.net source target carried) ∧
      s.Right g order source final := by
  obtain ⟨hinv, hnet⟩ : s.Inv g order source target prog carried final ∧
      Transition.Reachable (Net.Initial prog start) Net.Step (s.net source target carried) := by
    refine hs.simulated _ (fun s hs => ⟨hs.inv h hfollows, hs.net_initial h⟩) fun s t hs hst => ?_
    obtain ⟨i, hst⟩ := hst
    have hgoes := hs.step h hnames hroom hst
    exact ⟨hgoes.inv, hgoes.simulated.imp_right fun hstep => ⟨i, hstep⟩⟩
  exact ⟨hnet, hinv.right h hnames hroom⟩

end Runs

/-! ### One process sends a number to another -/

def twoNames : Setting Bool Unit Nat where
  names _ _ := ⟨⟨"MyNewNamedSemaphore", 50100⟩, ⟨"MySharedNewMemory", 50100⟩⟩
  size _ := 1
  fits _ _ := true

def twoPrograms : Bool → List (Op Unit Nat (List Nat))
  | true => [.send () fun v => [v]]
  | false => [.receive () fun got _ => got.head?]

/-- Neither process has called anything. -/
def twoProcesses (os : Os Nat) : Sys Bool Unit Nat Nat :=
  ⟨fun i => ⟨twoPrograms i, if i then 5 else 0, .start⟩, os⟩

theorem twoProcesses_right :
    (twoProcesses ⟨fun _ => none, fun _ => none⟩).Right twoNames [()] (fun _ => true)
      fun _ => 5 := by
  have hwired : Wired [()] (fun _ => true) (fun _ => false) twoPrograms := by
    refine ⟨by decide, ?_, ?_, by decide⟩
    · rintro (_ | _) <;> rfl
    · rintro (_ | _) op hop <;> obtain rfl := List.mem_singleton.mp hop <;> rfl
  have hnames : twoNames.Named [()] (fun _ => true) fun _ => false :=
    ⟨fun _ _ => rfl, fun c _ d _ hne => (hne rfl).elim⟩
  have hroom : twoNames.Room [()] fun _ => [5] := ⟨fun _ _ => rfl, fun _ _ _ => rfl⟩
  have hfollows : ∀ i, Follows (fun _ => [5]) (twoPrograms i) (if i then 5 else 0) 5 := by
    rintro (_ | _)
    · exact ⟨5, rfl, rfl⟩
    · exact ⟨rfl, rfl⟩
  exact (Sys.run_right hwired hnames hroom hfollows
    (.start ⟨fun _ => rfl, fun _ _ => .inl rfl⟩)).2

/-! ## What an earlier run leaves behind -/

section Leftover

variable [DecidableEq ι] [Inhabited β] {absorb : List β → α → Option α}
  {tail : List (Op κ α (List β))} {old : List β} {v : Nat}

omit [DecidableEq κ] [Inhabited β] in
theorem Sys.goOn_goOn (pc pc' : Pc β) (os os' : Os β) :
    (s.goOn i pc os).goOn i pc' os' = s.goOn i pc' os' := by
  simp [Sys.goOn]

omit [DecidableEq κ] in
/-- A statement within a call of `receiver`, after others. -/
theorem Sys.step_goOn (hrest : (s.node i).rest = .receive c absorb :: tail) {pc pc' : Pc β}
    {os os' : Os β}
    (hstep : receiverStep (g.names i c) (g.size c) os pc = some (.goOn pc', os')) :
    (s.goOn i pc os).step i g = some (s.goOn i pc' os') := by
  rw [← Sys.goOn_goOn (s := s) pc pc' os os']
  simp [Sys.step, Sys.goOn, hrest, hstep]

omit [DecidableEq κ] in
/-- If a list and a posted semaphore have been left behind, a receiver takes that list for the one it
should get: with no step of another process its call goes on to the end. -/
theorem Sys.receives_leftover (hrest : (s.node i).rest = .receive c absorb :: tail)
    (hpc : (s.node i).pc = .start)
    (hsemaphore : s.os.semaphore (g.names i c).semaphore = some (v + 1))
    (hsegment : s.os.segment (g.names i c).managedShm = some (some old))
    (hlength : g.size c ≤ old.length) {value : α}
    (habsorb : absorb (old.take (g.size c)) (s.node i).value = some value) :
    ∃ os, Relation.ReflTransGen (fun s t => s.step i g = some t) s (s.finish i tail value os) := by
  have hnode : ({ s.node i with pc := .start } : Node κ α β) = s.node i := by rw [← hpc]
  have hstart : s.goOn i .start s.os = s := by rw [Sys.goOn, hnode, Function.update_eq_self]
  have hopen : (s.goOn i .start s.os).step i g = some (s.goOn i .waiting s.os) :=
    Sys.step_goOn hrest (by simp [receiverStep, hsemaphore])
  have hwait : (s.goOn i .waiting s.os).step i g = some (s.goOn i .signalled
      (s.os.setSemaphore (g.names i c).semaphore (some v))) :=
    Sys.step_goOn hrest (by simp [receiverStep, hsemaphore])
  generalize hos : s.os.setSemaphore (g.names i c).semaphore (some v) = os at hwait
  have hdata : os.segment (g.names i c).managedShm = some (some old) := by simp [← hos, hsegment]
  have hmap : (s.goOn i .signalled os).step i g = some (s.goOn i .mapped os) :=
    Sys.step_goOn hrest (by simp [receiverStep, hdata])
  have hfind : (s.goOn i .mapped os).step i g = some (s.goOn i (.loaded []) os) :=
    Sys.step_goOn hrest (by simp [receiverStep, hdata])
  have hload : ∀ k ≤ g.size c, Relation.ReflTransGen (fun s t => s.step i g = some t)
      (s.goOn i (.loaded []) os) (s.goOn i (.loaded (old.take k)) os) := by
    intro k hk
    induction k with
    | zero => exact .refl
    | succ k ih =>
      have hgot : (old.take k).length = k := List.length_take_of_le (by omega)
      have hblock : old[k]? = some old[k] := List.getElem?_eq_getElem (by omega)
      have htake : old.take (k + 1) = old.take k ++ [old[k]] := by
        rw [List.take_add_one, hblock, Option.toList_some]
      refine (ih (by omega)).tail (Sys.step_goOn hrest ?_)
      rw [htake, receiverStep, hgot, if_pos (by omega), hdata]
      simp only [Option.join_some, Option.map_some, hblock]
  have hremove : (s.goOn i (.loaded (old.take (g.size c))) os).step i g =
      some (s.goOn i (.removed (old.take (g.size c)))
        (os.setSegment (g.names i c).managedShm none)) :=
    Sys.step_goOn hrest (by simp [receiverStep, hlength])
  generalize os.setSegment (g.names i c).managedShm none = os' at hremove
  have hreturn : (s.goOn i (.removed (old.take (g.size c))) os').step i g =
      some (s.finish i tail value (os'.setSemaphore (g.names i c).semaphore none)) := by
    simp [Sys.step, Sys.goOn, Sys.finish, hrest, receiverStep, habsorb]
  have hrun := ((hload _ le_rfl).tail hremove).tail hreturn
  refine ⟨os'.setSemaphore (g.names i c).semaphore none, ?_⟩
  rw [hstart] at hopen
  exact .head hopen (.head hwait (.head hmap (.head hfind hrun)))

end Leftover

end Machine

/-- The number `7` of an earlier run, for the `5` that has not been sent. -/
theorem twoProcesses_leftover :
    ∃ os, Relation.ReflTransGen (fun s t => s.step false twoNames = some t)
      (twoProcesses ⟨fun _ => some 1, fun _ => some (some [7])⟩)
      ((twoProcesses ⟨fun _ => some 1, fun _ => some (some [7])⟩).finish false [] 7 os) :=
  Sys.receives_leftover (g := twoNames) (c := ()) rfl rfl rfl rfl le_rfl rfl

end CoVault.MapReduce.SharedMemory
