import CoVault.Dualex.Labels
import CoVault.Garbling.EqualityCircuit
import CoVault.Garbling.HalfGate

/-!
# From the gates to the answer of a dual execution

Each party garbles one run and evaluates the other. At the end both hash what they have of the two
runs and compare the hashes. Evaluated gate by gate, two runs pass the comparison if their circuits
give the same results, and hardly otherwise. That an evaluator cannot come by the labels of other
results is another matter: with a `delta` that everybody knows it can.
-/

namespace CoVault.Garbling

open Circuit Dualex

/-- One run of a dual execution: what its garbler draws, its circuit, the labels of `0` and the
Booleans of the inputs, and the wire of each bit of each result. -/
structure GarbledRun where
  random : Random
  circuit : Library.GateCircuit.Circuit
  zeros : Nat → Block
  inputs : Nat → Bool
  out : Nat → Nat → Nat

namespace GarbledRun

variable (t : Toolkit) (eva : Evaluator) (g : GarbledRun)

/-- Bit `j` of result `i`. -/
def result (i j : Nat) : Bool := g.circuit.values g.inputs (g.out i j)

/-- The garbler's label for `0` of a bit of the result. -/
def zero (i j : Nat) : Block := (garble t g.random g.circuit g.zeros).1 (g.out i j)

/-- The evaluator's labels of the result. -/
def evaluated : Option (Nat → Nat → Block) :=
  (evaluate eva g.circuit (fun i => label (delta t) (g.zeros i) (g.inputs i))
    (garble t g.random g.circuit g.zeros).2).map fun end_ i j => end_.1 (g.out i j)

/-- The output wires of the run for an evaluator that comes along with the given labels, and is
given the Booleans that belong to them. -/
def run (labels : Nat → Nat → Block) (size bits : Nat) : Labels.Run size bits where
  delta := delta t
  integers := (List.range size).map fun i => (List.range bits).map fun j =>
    ⟨g.zero t i j, labels i j != g.zero t i j, getLSB (labels i j) ^^ getLSB (g.zero t i j)⟩
  length_integers := by simp
  length_wires := by simp

end GarbledRun

/-- `equality_check`: each party gives the hash of its words to the circuit, and `online` is what
the maliciously secure protocol computes. -/
def equalityCheck (c : Crypto) (online : BristolFormat → List Bool → List Bool → List Bool)
    (alice bob : List (BitVec 64)) : Bool :=
  (online eq256 (bitsOf (c.sha3 (alice.flatMap bitsOf)))
    (bitsOf (c.sha3 (bob.flatMap bitsOf)))).headD false

/-- The protocol computes the circuit that it is given. -/
def Computes (online : BristolFormat → List Bool → List Bool → List Bool) : Prop :=
  ∀ cf a b, a.length = cf.n1 → b.length = cf.n2 → online cf a b = cf.compute a b

theorem equalityCheck_iff {c : Crypto}
    {online : BristolFormat → List Bool → List Bool → List Bool} (honline : Computes online)
    (alice bob : List (BitVec 64)) : equalityCheck c online alice bob = true ↔
      c.sha3 (alice.flatMap bitsOf) = c.sha3 (bob.flatMap bitsOf) := by
  rw [equalityCheck, honline _ _ _ (by simp [eq256, eqCircuit]) (by simp [eq256, eqCircuit]), eq256,
    headD_compute_eqCircuit (by decide) (length_bitsOf _) (length_bitsOf _),
    decide_eq_true_iff, bitsOf_injective.eq_iff]

/-! ## The wires of a run -/

/-- A wire whose evaluator has the label of a Boolean and is given it. -/
def wireOf (zero : Block) (b : Bool) : Labels.Wire := ⟨zero, b, b⟩

theorem ne_label (t : Toolkit) (zero : Block) (b : Bool) :
    (label (delta t) zero b != zero) = b := by
  cases b
  · simp
  · have hne : zero ^^^ delta t ≠ zero := by
      intro heq
      have hbit := congrArg getLSB heq
      rw [← label_true, getLSB_label getLSB_delta] at hbit
      cases hzero : getLSB zero <;> simp [hzero] at hbit
    simpa using hne

namespace GarbledRun

variable {t : Toolkit} {eva : Evaluator} {g : GarbledRun} {labels : Nat → Nat → Block}

/-- An evaluator that follows the protocol gets the labels of the results. -/
theorem evaluated_eq (h : Evaluates t eva) (g : GarbledRun) :
    g.evaluated t eva = some fun i j => label (delta t) (g.zero t i j) (g.result i j) := by
  obtain ⟨out, hrun, hall⟩ := evaluate_labels h g.random g.circuit fun i =>
    Eq.refl (label (delta t) (g.zeros i) (g.inputs i))
  rw [evaluated, hrun, Option.map_some]
  exact congrArg some (funext fun i => funext fun j => hall (g.out i j))

/-- With the labels of some Booleans, whether results or not, the wires are those of the
Booleans. -/
theorem wires_run {b : Nat → Nat → Bool}
    (hlabels : ∀ i j, labels i j = label (delta t) (g.zero t i j) (b i j)) (size bits : Nat) :
    (g.run t labels size bits).wires =
      (List.range size).flatMap fun i => (List.range bits).map fun j =>
        wireOf (g.zero t i j) (b i j) := by
  have hwire : ∀ i j, (⟨g.zero t i j, labels i j != g.zero t i j,
      getLSB (labels i j) ^^ getLSB (g.zero t i j)⟩ : Labels.Wire) =
        wireOf (g.zero t i j) (b i j) := by
    intro i j
    rw [hlabels, ne_label, lsb_label, wireOf]
  simp only [Labels.Run.wires, run, hwire, List.flatMap]

theorem bools_run {b : Nat → Nat → Bool}
    (hlabels : ∀ i j, labels i j = label (delta t) (g.zero t i j) (b i j)) (size bits : Nat) :
    (g.run t labels size bits).bools =
      (List.range size).flatMap fun i => (List.range bits).map (b i) := by
  rw [Labels.Run.bools, wires_run hlabels, List.map_flatMap]
  simp only [List.map_map]
  rfl

theorem truthful_run {b : Nat → Nat → Bool}
    (hlabels : ∀ i j, labels i j = label (delta t) (g.zero t i j) (b i j)) (size bits : Nat) :
    ∀ x ∈ (g.run t labels size bits).wires, x.Truthful (g.run t labels size bits).delta := by
  intro x hx
  rw [wires_run hlabels] at hx
  simp only [List.mem_flatMap, List.mem_map] at hx
  obtain ⟨i, -, j, -, rfl⟩ := hx
  rfl

/-- The garbler's side of the wires does not depend on what the evaluator holds. -/
theorem zeros_run (labels labels' : Nat → Nat → Block) (size bits : Nat) :
    (g.run t labels size bits).zeros = (g.run t labels' size bits).zeros := by
  simp only [Labels.Run.zeros, run, List.map_map, Function.comp_def]

end GarbledRun

/-- Truthful wires give the words that the garbler has for their Booleans. -/
theorem words_of_truthful {size bits : Nat} {run : Labels.Run size bits}
    (h : ∀ x ∈ run.wires, x.Truthful run.delta) : run.words = run.wordsFor run.bools := by
  rw [Labels.Run.words, Labels.Run.wordsFor, Labels.Run.bools, List.zipWith_map, List.zipWith_self]
  refine List.map_congr_left fun x hx => ?_
  rw [Labels.Wire.applyLabel_garbler, h x hx]

theorem flatMap_range_eq_iff {α : Type} {size bits : Nat} {f f' : Nat → Nat → α} :
    ((List.range size).flatMap fun i => (List.range bits).map (f i)) =
        ((List.range size).flatMap fun i => (List.range bits).map (f' i)) ↔
      ∀ i < size, ∀ j < bits, f i j = f' i j := by
  induction size with
  | zero => simp
  | succ size ih =>
    have hrow : (List.range bits).map (f size) = (List.range bits).map (f' size) ↔
        ∀ j < bits, f size j = f' size j := by
      simp [List.map_inj_left]
    simp only [List.range_succ, List.flatMap_append, List.flatMap_singleton]
    rw [List.append_eq_append_iff_of_size_eq_right (by simp), ih, hrow]
    simp only [Nat.lt_succ_iff_lt_or_eq, or_imp, forall_and, forall_eq]

/-! ## Who passes the check -/

section Check

variable {t : Toolkit} {eva : Evaluator} {c : Crypto}
  {online : BristolFormat → List Bool → List Bool → List Bool} {size bits : Nat}

/-- No two different payloads of the two parties have one hash. -/
def NoCollision (c : Crypto) (alice bob : List (BitVec 64)) : Prop :=
  c.sha3 (alice.flatMap bitsOf) = c.sha3 (bob.flatMap bitsOf) → alice = bob

/-- Two evaluators with the labels of the same Booleans pass the check. -/
theorem equalityCheck_of_truthful (honline : Computes online) {run₁ run₂ : Labels.Run size bits}
    (h₁ : ∀ x ∈ run₁.wires, x.Truthful run₁.delta) (h₂ : ∀ x ∈ run₂.wires, x.Truthful run₂.delta)
    (hbools : run₁.bools = run₂.bools) (mem₁ mem₂ mem₁' mem₂' : Labels.Memory) :
    equalityCheck c online (Labels.concatAlice run₁ run₂ mem₁ mem₂)
      (Labels.concatBob run₁ run₂ mem₁' mem₂') = true := by
  rw [equalityCheck_iff honline, Labels.concatAlice_eq, Labels.concatBob_eq, words_of_truthful h₁,
    words_of_truthful h₂, hbools]

/-- Two runs, each evaluated as the protocol says: the evaluators are given the results of the two
circuits, the check succeeds if these are the same, and if it succeeds they are. -/
theorem equalityCheck_results (h : Evaluates t eva) (honline : Computes online)
    (g₁ g₂ : GarbledRun) {labels₁ labels₂ : Nat → Nat → Block}
    (hlabels₁ : g₁.evaluated t eva = some labels₁) (hlabels₂ : g₂.evaluated t eva = some labels₂)
    (mem₁ mem₂ mem₁' mem₂' : Labels.Memory) :
    let run₁ := g₁.run t labels₁ size bits
    let run₂ := g₂.run t labels₂ size bits
    let alice := Labels.concatAlice run₁ run₂ mem₁ mem₂
    let bob := Labels.concatBob run₁ run₂ mem₁' mem₂'
    (run₁.bools = (List.range size).flatMap fun i => (List.range bits).map (g₁.result i)) ∧
    (run₂.bools = (List.range size).flatMap fun i => (List.range bits).map (g₂.result i)) ∧
    ((∀ i < size, ∀ j < bits, g₁.result i j = g₂.result i j) →
      equalityCheck c online alice bob = true) ∧
    ((∀ x ∈ run₁.wires, x.HalvesDiffer run₁.delta) → (∀ x ∈ run₂.wires, x.HalvesDiffer run₂.delta) →
      NoCollision c alice bob → equalityCheck c online alice bob = true →
      ∀ i < size, ∀ j < bits, g₁.result i j = g₂.result i j) := by
  have heq₁ : ∀ i j, labels₁ i j = label (delta t) (g₁.zero t i j) (g₁.result i j) := by
    rw [GarbledRun.evaluated_eq h g₁, Option.some.injEq] at hlabels₁
    simp [← hlabels₁]
  have heq₂ : ∀ i j, labels₂ i j = label (delta t) (g₂.zero t i j) (g₂.result i j) := by
    rw [GarbledRun.evaluated_eq h g₂, Option.some.injEq] at hlabels₂
    simp [← hlabels₂]
  have hbools₁ := GarbledRun.bools_run heq₁ size bits
  have hbools₂ := GarbledRun.bools_run heq₂ size bits
  refine ⟨hbools₁, hbools₂, fun hsame => ?_, fun hdiffer₁ hdiffer₂ hfree hcheck => ?_⟩
  · refine equalityCheck_of_truthful honline (GarbledRun.truthful_run heq₁ size bits)
      (GarbledRun.truthful_run heq₂ size bits) ?_ mem₁ mem₂ mem₁' mem₂'
    rw [hbools₁, hbools₂, flatMap_range_eq_iff]
    exact hsame
  · have hpayload := hfree ((equalityCheck_iff honline _ _).mp hcheck)
    rw [Labels.concatAlice_eq, Labels.concatBob_eq] at hpayload
    obtain ⟨hsecond, hfirst⟩ := List.append_inj hpayload (by simp)
    have hagree := (Labels.words_agree_iff hdiffer₁ hdiffer₂).mp ⟨hsecond, hfirst.symm⟩
    have hbools := hagree.bools
    rwa [hbools₁, hbools₂, flatMap_range_eq_iff] at hbools

/-- A run of one XOR gate on labels that are counted up. -/
def xorRun (b : Bool) : GarbledRun where
  random := ⟨1#128, 2#128, 3#128, 4#128⟩
  circuit := [.xor 0 1 2]
  zeros i := BitVec.ofNat 128 (i + 4)
  inputs i := i == 0 && b
  out _ _ := 2

/-- Arrays of zeros, and a hash that is good for examples only. -/
def zeroMemory : Labels.Memory :=
  ⟨fun _ => 0#128, fun _ => 0#64, fun _ => false, fun _ => 0#64, fun _ => false⟩

def sumCrypto : Crypto := ⟨fun xs => BitVec.ofNat 256 (xs.foldl (fun n b => 2 * n + b.toNat) 0),
  fun _ _ _ => false⟩

theorem equalityCheck_results_xor :
    ∃ labels, (xorRun true).evaluated xorToolkit (halfGateEva xorToolkit) = some labels ∧
      let run := (xorRun true).run xorToolkit labels 1 1
      let alice := Labels.concatAlice run run zeroMemory zeroMemory
      let bob := Labels.concatBob run run zeroMemory zeroMemory
      (∀ x ∈ run.wires, x.HalvesDiffer run.delta) ∧ NoCollision sumCrypto alice bob ∧
      equalityCheck sumCrypto (fun cf a b => cf.compute a b) alice bob = true := by
  refine ⟨_, GarbledRun.evaluated_eq (evaluates_halfGateEva _) _, by decide, fun _ => by decide, ?_⟩
  exact (equalityCheck_results (evaluates_halfGateEva _) (fun _ _ _ _ _ => rfl) (xorRun true)
    (xorRun true) (GarbledRun.evaluated_eq (evaluates_halfGateEva _) _)
    (GarbledRun.evaluated_eq (evaluates_halfGateEva _) _) _ _ _ _).2.2.1 fun _ _ _ _ => rfl

/-- The labels of the Booleans `claims`, made from those of the Booleans `own` and `delta`. -/
def forge (delta : Block) (labels : Nat → Nat → Block) (own claims : Nat → Nat → Bool) (i j : Nat) :
    Block :=
  if own i j = claims i j then labels i j else labels i j ^^^ delta

theorem forge_eq {labels : Nat → Nat → Block} {zero : Nat → Nat → Block} {own : Nat → Nat → Bool}
    (hlabels : ∀ i j, labels i j = label (delta t) (zero i j) (own i j))
    (claims : Nat → Nat → Bool) (i j : Nat) :
    forge (delta t) labels own claims i j = label (delta t) (zero i j) (claims i j) := by
  have hback : zero i j ^^^ delta t ^^^ delta t = zero i j := by
    rw [BitVec.xor_assoc, BitVec.xor_self, BitVec.xor_zero]
  rw [forge, hlabels]
  cases own i j <;> cases claims i j
  · rfl
  · rfl
  · exact hback
  · rfl

/-- The second party garbles another circuit than the one agreed on, or the same on other inputs. It
has evaluated the run of the first party and knows the results of both. With `delta`, which it
shares with all garblers, it turns its labels into those of the wrong results, and the first
party's check succeeds. -/
theorem equalityCheck_forged (h : Evaluates t eva) (honline : Computes online)
    (g₁ g₂ : GarbledRun) {labels₁ labels₂ : Nat → Nat → Block}
    (hlabels₁ : g₁.evaluated t eva = some labels₁) (hlabels₂ : g₂.evaluated t eva = some labels₂)
    (mem₁ mem₂ mem₁' mem₂' : Labels.Memory) :
    equalityCheck c online
      (Labels.concatAlice (g₁.run t labels₁ size bits) (g₂.run t labels₂ size bits) mem₁ mem₂)
      (Labels.concatBob (g₁.run t (forge (delta t) labels₁ g₁.result g₂.result) size bits)
        (g₂.run t labels₂ size bits) mem₁' mem₂') = true := by
  have heq₁ : ∀ i j, labels₁ i j = label (delta t) (g₁.zero t i j) (g₁.result i j) := by
    rw [GarbledRun.evaluated_eq h g₁, Option.some.injEq] at hlabels₁
    simp [← hlabels₁]
  have heq₂ : ∀ i j, labels₂ i j = label (delta t) (g₂.zero t i j) (g₂.result i j) := by
    rw [GarbledRun.evaluated_eq h g₂, Option.some.injEq] at hlabels₂
    simp [← hlabels₂]
  have hforged := forge_eq heq₁ g₂.result
  -- of the first run the first party has only what it garbled itself
  have halice : Labels.concatAlice (g₁.run t labels₁ size bits) (g₂.run t labels₂ size bits)
      mem₁ mem₂ = Labels.concatAlice (g₁.run t (forge (delta t) labels₁ g₁.result g₂.result) size
        bits) (g₂.run t labels₂ size bits) mem₁ mem₂ := by
    have hgarbler : (g₁.run t labels₁ size bits).garblerLabels mem₁ =
        (g₁.run t (forge (delta t) labels₁ g₁.result g₂.result) size bits).garblerLabels mem₁ := by
      rw [Labels.Run.garblerLabels, Labels.Run.garblerLabels, GarbledRun.zeros_run]
      rfl
    rw [Labels.concatAlice, Labels.concatAlice, hgarbler]
  rw [halice]
  refine equalityCheck_of_truthful honline (GarbledRun.truthful_run hforged size bits)
    (GarbledRun.truthful_run heq₂ size bits) ?_ mem₁ mem₂ mem₁' mem₂'
  rw [GarbledRun.bools_run hforged, GarbledRun.bools_run heq₂]

theorem equalityCheck_forged_xor :
    ∃ labels₁ labels₂,
      (xorRun true).evaluated xorToolkit (halfGateEva xorToolkit) = some labels₁ ∧
      (xorRun false).evaluated xorToolkit (halfGateEva xorToolkit) = some labels₂ ∧
      (xorRun true).result 0 0 ≠ (xorRun false).result 0 0 ∧
      equalityCheck sumCrypto (fun cf a b => cf.compute a b)
        (Labels.concatAlice ((xorRun true).run xorToolkit labels₁ 1 1)
          ((xorRun false).run xorToolkit labels₂ 1 1) zeroMemory zeroMemory)
        (Labels.concatBob ((xorRun true).run xorToolkit (forge (delta xorToolkit) labels₁
          (xorRun true).result (xorRun false).result) 1 1)
          ((xorRun false).run xorToolkit labels₂ 1 1) zeroMemory zeroMemory) = true :=
  ⟨_, _, GarbledRun.evaluated_eq (evaluates_halfGateEva _) _,
    GarbledRun.evaluated_eq (evaluates_halfGateEva _) _, by decide,
    equalityCheck_forged (evaluates_halfGateEva _) (fun _ _ _ _ _ => rfl) (xorRun true)
      (xorRun false) (GarbledRun.evaluated_eq (evaluates_halfGateEva _) _)
      (GarbledRun.evaluated_eq (evaluates_halfGateEva _) _) _ _ _ _⟩

end Check

end CoVault.Garbling
