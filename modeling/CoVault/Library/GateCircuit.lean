import Mathlib

/-!
# Circuits of gates, run by two parties

A circuit is a list of gates on numbered wires. Whoever runs it gives every wire something of
its own: a Boolean, or a label that stands for one. Of the two parties of a run the sender puts
messages on a channel for each AND gate, and the receiver takes them off; the other gates need
no message. If every gate keeps a relation between what the two have on a wire and the Boolean
there, then so does every circuit, and the receiver takes off just what the sender put on.
-/

namespace CoVault.Library.GateCircuit

/-- A gate, with the wires it reads and the one it writes. -/
inductive Gate where
  | const (b : Bool) (out : Nat)
  | not (a out : Nat)
  | xor (a b out : Nat)
  | and (a b out : Nat)
  deriving DecidableEq, Repr

abbrev Circuit := List Gate

namespace Gate

def out : Gate → Nat
  | const _ out | not _ out | xor _ _ out | and _ _ out => out

/-- The number of AND gates that a gate is. -/
def ands : Gate → Nat
  | and _ _ _ => 1
  | _ => 0

/-- The Boolean that a gate writes. -/
def value (x : Nat → Bool) : Gate → Bool
  | const b _ => b
  | not a _ => !x a
  | xor a b _ => x a ^^ x b
  | and a b _ => x a && x b

end Gate

namespace Circuit

/-- The Booleans on all wires after the gates. -/
def values (c : Circuit) (x : Nat → Bool) : Nat → Bool :=
  c.foldl (fun x g => Function.update x g.out (g.value x)) x

@[simp] theorem values_nil (x : Nat → Bool) : values [] x = x := rfl

@[simp] theorem values_cons (g : Gate) (c : Circuit) (x : Nat → Bool) :
    values (g :: c) x = values c (Function.update x g.out (g.value x)) := rfl

theorem values_append (c c' : Circuit) (x : Nat → Bool) :
    values (c ++ c') x = values c' (values c x) := List.foldl_append

/-- A wire that no gate writes keeps its Boolean. -/
theorem values_of_not_out {c : Circuit} {i : Nat} (h : ∀ g ∈ c, g.out ≠ i) (x : Nat → Bool) :
    values c x i = x i := by
  induction c generalizing x with
  | nil => rfl
  | cons g c ih =>
    rw [values_cons, ih fun g' hg' => h g' (List.mem_cons_of_mem _ hg'),
      Function.update_of_ne (h g (List.mem_cons_self ..)).symm]

end Circuit

/-- The party that sends. An AND gate is given its number. -/
structure Sender (M W : Type*) where
  const : Bool → W
  not : W → W
  xor : W → W → W
  and : Nat → W → W → W × List M

/-- The party that receives. -/
structure Receiver (M W : Type*) where
  const : Bool → W
  not : W → W
  xor : W → W → W
  and : Nat → W → W → List M → Option (W × List M)

variable {M W V : Type*}

namespace Sender

variable (x : Sender M W)

/-- What the sender has on the wire that a gate writes, and what it sends. -/
def gate (n : Nat) (wires : Nat → W) : Gate → W × List M
  | .const b _ => (x.const b, [])
  | .not a _ => (x.not (wires a), [])
  | .xor a b _ => (x.xor (wires a) (wires b), [])
  | .and a b _ => x.and n (wires a) (wires b)

/-- The wires after a circuit, and all that was sent; `n` AND gates came before. -/
def run : Circuit → Nat → (Nat → W) → (Nat → W) × List M
  | [], _, wires => (wires, [])
  | g :: c, n, wires =>
    let (w, sent) := x.gate n wires g
    let (wires, later) := run c (n + g.ands) (Function.update wires g.out w)
    (wires, sent ++ later)

end Sender

namespace Receiver

variable (y : Receiver M V)

/-- What the receiver has on the wire that a gate writes, and what is left to receive. -/
def gate (n : Nat) (wires : Nat → V) (inbox : List M) : Gate → Option (V × List M)
  | .const b _ => some (y.const b, inbox)
  | .not a _ => some (y.not (wires a), inbox)
  | .xor a b _ => some (y.xor (wires a) (wires b), inbox)
  | .and a b _ => y.and n (wires a) (wires b) inbox

/-- The wires after a circuit, and what is left to receive. -/
def run : Circuit → Nat → (Nat → V) → List M → Option ((Nat → V) × List M)
  | [], _, wires, inbox => some (wires, inbox)
  | g :: c, n, wires, inbox => do
    let (v, inbox) ← y.gate n wires inbox g
    run c (n + g.ands) (Function.update wires g.out v) inbox

end Receiver

/-- The relation between the two parties' wires and the Boolean that every gate keeps. -/
structure Keeps (x : Sender M W) (y : Receiver M V) (R : W → V → Bool → Prop) : Prop where
  const : ∀ b, R (x.const b) (y.const b) b
  not : ∀ {w v b}, R w v b → R (x.not w) (y.not v) (!b)
  xor : ∀ {w v b w' v' b'}, R w v b → R w' v' b' → R (x.xor w w') (y.xor v v') (b ^^ b')
  and : ∀ {w v b w' v' b'}, R w v b → R w' v' b' → ∀ n rest, ∃ u,
    y.and n v v' ((x.and n w w').2 ++ rest) = some (u, rest) ∧ R (x.and n w w').1 u (b && b')

namespace Keeps

variable {x : Sender M W} {y : Receiver M V} {R : W → V → Bool → Prop}

/-- One gate. -/
theorem gate (h : Keeps x y R) {wires : Nat → W} {wires' : Nat → V} {values : Nat → Bool}
    (hin : ∀ i, R (wires i) (wires' i) (values i)) (g : Gate) (n : Nat) (rest : List M) :
    ∃ u, y.gate n wires' ((x.gate n wires g).2 ++ rest) g = some (u, rest) ∧
      R (x.gate n wires g).1 u (g.value values) := by
  cases g with
  | const b _ => exact ⟨_, rfl, h.const b⟩
  | not a _ => exact ⟨_, rfl, h.not (hin a)⟩
  | xor a b _ => exact ⟨_, rfl, h.xor (hin a) (hin b)⟩
  | and a b _ => exact h.and (hin a) (hin b) n rest

/-- A circuit: the receiver finishes, takes off the channel just what was sent, and what the two
have on each wire stands for the Boolean there. -/
theorem run (h : Keeps x y R) (c : Circuit) (n : Nat) {wires : Nat → W} {wires' : Nat → V}
    {values : Nat → Bool} (hin : ∀ i, R (wires i) (wires' i) (values i)) (rest : List M) :
    ∃ out, y.run c n wires' ((x.run c n wires).2 ++ rest) = some (out, rest) ∧
      ∀ i, R ((x.run c n wires).1 i) (out i) (c.values values i) := by
  induction c generalizing n wires wires' values with
  | nil => exact ⟨wires', rfl, hin⟩
  | cons g c ih =>
    obtain ⟨u, hgate, hout⟩ := h.gate hin g n
      ((x.run c (n + g.ands) (Function.update wires g.out (x.gate n wires g).1)).2 ++ rest)
    have hnext : ∀ i, R (Function.update wires g.out (x.gate n wires g).1 i)
        (Function.update wires' g.out u i)
        (Function.update values g.out (g.value values) i) := by
      intro i
      rcases eq_or_ne i g.out with rfl | hi
      · simpa only [Function.update_self] using hout
      · simpa only [Function.update_of_ne hi] using hin i
    obtain ⟨out, hrun, hall⟩ := ih (n + g.ands) hnext
    refine ⟨out, ?_, hall⟩
    rw [Receiver.run, Sender.run, List.append_assoc, hgate]
    exact hrun

end Keeps

end CoVault.Library.GateCircuit
