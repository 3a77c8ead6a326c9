import CoVault.Circuit.Cipher
import CoVault.Library.GateCircuit

/-!
# The equality circuit

The last step of a dual execution compares two digests by a circuit that is read from a file. The
circuit was written by the program that compares two integers of a given size: a gate pair for
every bit, chained by AND gates, and a copy of the result at the end.
-/

namespace CoVault.Garbling

open Library.GateCircuit Circuit

/-- What is read from a circuit file: the number of wires, of the input bits of the two parties and
of the output bits, and the gates. -/
structure BristolFormat where
  numWire : Nat
  n1 : Nat
  n2 : Nat
  n3 : Nat
  gates : Library.GateCircuit.Circuit

namespace BristolFormat

variable (cf : BristolFormat)

/-- The first wires are the inputs of the one party and then those of the other. -/
def inputs (in1 in2 : List Bool) (i : Nat) : Bool :=
  if i < cf.n1 then in1.getD i false
  else if i < cf.n1 + cf.n2 then in2.getD (i - cf.n1) false
  else false

/-- `compute`: the outputs are on the last wires. -/
def compute (in1 in2 : List Bool) : List Bool :=
  (List.range cf.n3).map fun i =>
    Circuit.values cf.gates (cf.inputs in1 in2) (cf.numWire - cf.n3 + i)

end BristolFormat

/-- The gates for bit `i + 1`. -/
def eqBit (n i : Nat) : Library.GateCircuit.Circuit :=
  [.xor (i + 1) (n + i + 1) (2 * n + 2 + 3 * i),
    .not (2 * n + 2 + 3 * i) (2 * n + 3 + 3 * i),
    .and (2 * n + 1 + 3 * i) (2 * n + 3 + 3 * i) (2 * n + 4 + 3 * i)]

/-- The gates for bits `0` to `k`. -/
def eqBits (n k : Nat) : Library.GateCircuit.Circuit :=
  [.xor 0 n (2 * n), .not (2 * n) (2 * n + 1)] ++ (List.range k).flatMap (eqBit n)

/-- The circuit of `gen_circuit("eq", ..)` for `n` bits, as it stands in the file. -/
def eqCircuit (n : Nat) : BristolFormat where
  numWire := 5 * n + 1
  n1 := n
  n2 := n
  n3 := 1
  gates := eqBits n (n - 1) ++
    [.xor 0 0 (5 * n - 1), .xor (5 * n - 1) (5 * n - 2) (5 * n)]

/-- `circuits/eq256.txt`. -/
def eq256 : BristolFormat := eqCircuit 256

theorem eqBits_succ (n k : Nat) : eqBits n (k + 1) = eqBits n k ++ eqBit n k := by
  rw [eqBits, eqBits, List.range_succ, List.flatMap_append, List.flatMap_singleton,
    List.append_assoc]

/-- The gates do not write to input wires. -/
theorem values_eqBits_input {n k i : Nat} (hi : i < 2 * n) (x : Nat → Bool) :
    Circuit.values (eqBits n k) x i = x i := by
  refine Circuit.values_of_not_out (fun g hg => ?_) x
  simp only [eqBits, eqBit, List.mem_append, List.mem_cons, List.mem_flatMap, List.mem_range,
    List.not_mem_nil, or_false] at hg
  rcases hg with (rfl | rfl) | ⟨j, -, rfl | rfl | rfl⟩
  all_goals simp only [Gate.out]
  all_goals omega

/-- The last AND gate says whether all bits so far are equal. -/
theorem values_eqBits {n k : Nat} (hk : k < n) (x : Nat → Bool) :
    Circuit.values (eqBits n k) x (2 * n + 1 + 3 * k) = decide (∀ i ≤ k, x i = x (n + i)) := by
  induction k with
  | zero =>
    have hout : Circuit.values (eqBits n 0) x (2 * n + 1) = !(x 0 ^^ x n) := by
      simp [eqBits, Gate.out, Gate.value]
    rw [Nat.mul_zero, Nat.add_zero, hout]
    simp only [Nat.le_zero, forall_eq, Nat.add_zero]
    cases x 0 <;> cases x n <;> rfl
  | succ k ih =>
    have hprev := ih (by omega)
    have hleft := values_eqBits_input (k := k) (show k + 1 < 2 * n by omega) x
    have hright := values_eqBits_input (k := k) (show n + k + 1 < 2 * n by omega) x
    have hout : ∀ y : Nat → Bool, Circuit.values (eqBit n k) y (2 * n + 4 + 3 * k) =
        (y (2 * n + 1 + 3 * k) && !(y (k + 1) ^^ y (n + k + 1))) := by
      intro y
      simp [eqBit, Gate.out, Gate.value]
    have hlast : (∀ i ≤ k + 1, x i = x (n + i)) ↔
        (∀ i ≤ k, x i = x (n + i)) ∧ x (k + 1) = x (n + k + 1) := by
      simp only [Nat.le_succ_iff, or_imp, forall_and, forall_eq]
      rfl
    rw [eqBits_succ, Circuit.values_append,
      show 2 * n + 1 + 3 * (k + 1) = 2 * n + 4 + 3 * k by ring, hout, hprev, hleft,
      hright, decide_eq_decide.mpr hlast, Bool.decide_and]
    cases x (k + 1) <;> cases x (n + k + 1) <;> rfl

/-- The output wire says whether the two inputs are equal. -/
theorem values_eqCircuit {n : Nat} (hn : 0 < n) {a b : List Bool} (ha : a.length = n)
    (hb : b.length = n) :
    Circuit.values (eqCircuit n).gates ((eqCircuit n).inputs a b) (5 * n) = decide (a = b) := by
  have hbits := values_eqBits (show n - 1 < n by omega) ((eqCircuit n).inputs a b)
  have hcopy : ∀ y : Nat → Bool, Circuit.values
      [.xor 0 0 (5 * n - 1), .xor (5 * n - 1) (5 * n - 2) (5 * n)] y (5 * n) =
        y (2 * n + 1 + 3 * (n - 1)) := by
    intro y
    have hwire : 5 * n - 2 = 2 * n + 1 + 3 * (n - 1) := by omega
    have hne : 2 * n + 1 + 3 * (n - 1) ≠ 5 * n - 1 := by omega
    simp [Gate.out, Gate.value, hwire, Function.update_of_ne hne]
  have hleft : ∀ i < n, (eqCircuit n).inputs a b i = a.getD i false := fun i hi => if_pos hi
  have hright : ∀ i < n, (eqCircuit n).inputs a b (n + i) = b.getD i false := by
    intro i hi
    simp [BristolFormat.inputs, eqCircuit, hi]
  have hequal : (∀ i ≤ n - 1, (eqCircuit n).inputs a b i = (eqCircuit n).inputs a b (n + i)) ↔
      a = b := by
    constructor
    · intro h
      apply List.ext_getElem (ha.trans hb.symm)
      intro i hi hi'
      have hbit := h i (by omega)
      rw [hleft i (by omega), hright i (by omega)] at hbit
      simpa [hi, hi'] using hbit
    · rintro rfl i hi
      rw [hleft i (by omega), hright i (by omega)]
  rw [← decide_eq_decide.mpr hequal, ← hbits]
  exact (congrFun (Circuit.values_append ..) _).trans (hcopy _)

theorem headD_compute_eqCircuit {n : Nat} (hn : 0 < n) {a b : List Bool} (ha : a.length = n)
    (hb : b.length = n) : ((eqCircuit n).compute a b).headD false = decide (a = b) :=
  values_eqCircuit hn ha hb

/-- For every number of bits, the circuit that is written compares its two inputs. -/
theorem compute_eqCircuit {n : Nat} (hn : 0 < n) {a b : List Bool} (ha : a.length = n)
    (hb : b.length = n) : (eqCircuit n).compute a b = [decide (a = b)] :=
  congrArg (fun out => [out]) (values_eqCircuit hn ha hb)

theorem compute_eqCircuit_three :
    (eqCircuit 3).compute [true, false, true] [true, true, true] = [decide ([true, false, true] =
      [true, true, true])] :=
  compute_eqCircuit (by decide) rfl rfl

end CoVault.Garbling
