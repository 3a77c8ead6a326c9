import CoVault.Library.GateCircuit

/-!
# Garbling gate by gate

The garbler has a label for `0` on each wire, and the one for `1` differs from it by `delta`. The
evaluator has one of the two. XOR and NOT are taken on the labels; for an AND gate the garbler
sends two blocks, made from hashes of all four labels of the two wires.

The repository brings its own garbler, which takes the same `delta` in every execution: the
block it is asked to use is overwritten by the first one of a generator with a fixed seed. The
evaluator, the hash and the generator of random blocks come with the circuit library.
-/

namespace CoVault.Garbling

open Library.GateCircuit

abbrev Block := BitVec 128

def getLSB (x : Block) : Bool := x.getLsbD 0

/-- `select_mask`. -/
def selectMask (b : Bool) : Block := if b then BitVec.allOnes 128 else 0#128

/-- `set_bit`. -/
def setBit (x : Block) (i : Nat) : Block := x ||| BitVec.twoPow 128 i

/-- `halfgates_garble`, with the hash under two successive keys: the label for `0` of the output
and the two blocks of `table`. -/
def halfgatesGarble (hash : Nat → Block → Block) (n : Nat) (LA0 A1 LB0 B1 delta : Block) :
    Block × Block × Block :=
  let pa := getLSB LA0
  let pb := getLSB LB0
  let HLA0 := hash (2 * n) LA0
  let HA1 := hash (2 * n) A1
  let HLB0 := hash (2 * n + 1) LB0
  let HB1 := hash (2 * n + 1) B1
  let table0 := HLA0 ^^^ HA1 ^^^ (selectMask pb &&& delta)
  let W0 := HLA0 ^^^ (selectMask pa &&& table0)
  let tmp := HLB0 ^^^ HB1
  let table1 := tmp ^^^ LA0
  (W0 ^^^ HLB0 ^^^ (selectMask pb &&& tmp), table0, table1)

/-- What the circuit library gives: the first block of a generator with a given seed, and the
hash with its keys, which are made from the block that the garbler sends. -/
structure Toolkit where
  prg : Block → Block
  mitccrh : Block → Nat → Block → Block

/-- The blocks that a garbler takes at random when it is made: `tmp`, and `constant`. -/
structure Random where
  tmp0 : Block
  tmp1 : Block
  constant0 : Block
  constant1 : Block

/-- The fields of `HalfGateGen`. -/
structure HalfGateGen where
  delta : Block
  constant : Bool → Block
  hash : Nat → Block → Block

namespace HalfGateGen

/-- `set_delta`. What is given to it does not count. -/
def setDelta (t : Toolkit) (_delta : Block) (constant0 constant1 : Block) :
    Block × (Bool → Block) × List Block :=
  let fakeDelta := t.prg 0#128
  let delta := setBit fakeDelta 0
  (delta, fun b => if b then constant1 ^^^ delta else constant0, [constant0, constant1])

/-- The constructor, and what it sends. -/
def new (t : Toolkit) (r : Random) : HalfGateGen × List Block :=
  let (delta, constant, sent) := setDelta t r.tmp0 r.constant0 r.constant1
  (⟨delta, constant, t.mitccrh r.tmp1⟩, sent ++ [r.tmp1])

/-- The gates. -/
def sender (g : HalfGateGen) : Sender Block Block where
  const := g.constant
  not a := a ^^^ g.constant true
  xor a b := a ^^^ b
  and n a b :=
    let (res, table0, table1) :=
      halfgatesGarble g.hash n a (a ^^^ g.delta) b (b ^^^ g.delta) g.delta
    (res, [table0, table1])

end HalfGateGen

/-- The labels for `0` that the garbler has after a circuit, and all that it sends. -/
def garble (t : Toolkit) (r : Random) (c : Circuit) (zeros : Nat → Block) :
    (Nat → Block) × List Block :=
  let (g, sent) := HalfGateGen.new t r
  let (zeros, tables) := g.sender.run c 0 zeros
  (zeros, sent ++ tables)

/-- An evaluator, once it has received the two constants and the block for the hash. -/
abbrev Evaluator := (Bool → Block) → Block → Receiver Block Block

/-- What the evaluator of the circuit library does: the half-gate scheme that the garbler names,
and the same for the other gates as the garbler does. -/
structure Evaluates (t : Toolkit) (eva : Evaluator) : Prop where
  const : ∀ constant s b, (eva constant s).const b = constant b
  not : ∀ constant s a, (eva constant s).not a = a ^^^ constant true
  xor : ∀ constant s a b, (eva constant s).xor a b = a ^^^ b
  and : ∀ constant s n a b table0 table1 inbox,
    (eva constant s).and n a b (table0 :: table1 :: inbox) =
      some (t.mitccrh s (2 * n) a ^^^ (selectMask (getLSB a) &&& table0) ^^^
        t.mitccrh s (2 * n + 1) b ^^^ (selectMask (getLSB b) &&& (table1 ^^^ a)), inbox)

/-- The labels that an evaluator has after a circuit. -/
def evaluate (eva : Evaluator) (c : Circuit) (labels : Nat → Block) :
    List Block → Option ((Nat → Block) × List Block)
  | constant0 :: constant1 :: s :: inbox =>
    (eva (fun b => if b then constant1 else constant0) s).run c 0 labels inbox
  | _ => none

/-! ## Labels -/

/-- The label for a Boolean. -/
def label (delta zero : Block) (b : Bool) : Block := if b then zero ^^^ delta else zero

@[simp] theorem label_false (delta zero : Block) : label delta zero false = zero := rfl

@[simp] theorem label_true (delta zero : Block) : label delta zero true = zero ^^^ delta := rfl

theorem label_xor (delta a b : Block) (x y : Bool) :
    label delta a x ^^^ label delta b y = label delta (a ^^^ b) (x ^^ y) := by
  have hcancel : a ^^^ delta ^^^ (b ^^^ delta) = a ^^^ b ^^^ (delta ^^^ delta) := by ac_rfl
  cases x <;> cases y <;> simp only [label_false, label_true, Bool.xor_false, Bool.xor_true,
    Bool.not_false, Bool.not_true]
  · ac_rfl
  · ac_rfl
  · rw [hcancel, BitVec.xor_self, BitVec.xor_zero]

/-- The lowest bit of a label is that of the label for `0`, or its complement. -/
theorem getLSB_label {delta : Block} (hodd : getLSB delta = true) (zero : Block) (b : Bool) :
    getLSB (label delta zero b) = (getLSB zero ^^ b) := by
  unfold getLSB at *
  cases b
  · rw [label_false, Bool.xor_false]
  · rw [label_true, BitVec.getLsbD_xor, hodd]

@[simp] theorem selectMask_false_and (x : Block) : selectMask false &&& x = 0#128 :=
  BitVec.zero_and

@[simp] theorem selectMask_true_and (x : Block) : selectMask true &&& x = x :=
  BitVec.allOnes_and

theorem getLSB_setBit (x : Block) : getLSB (setBit x 0) = true := by
  simp [getLSB, setBit]

/-! ## One gate -/

section Gate

variable {delta : Block} (hash : Block → Block) (a b : Block)

/-- The half of an AND gate that the first wire decides: `delta` is added where both `x` and the
lowest bit `p` of the second wire are set. -/
theorem garblerHalf (hodd : getLSB delta = true) (x p : Bool) :
    hash (label delta a x) ^^^ (selectMask (getLSB (label delta a x)) &&&
        (hash a ^^^ hash (a ^^^ delta) ^^^ (selectMask p &&& delta))) =
      label delta (hash a ^^^ (selectMask (getLSB a) &&&
        (hash a ^^^ hash (a ^^^ delta) ^^^ (selectMask p &&& delta)))) (x && p) := by
  rw [getLSB_label hodd]
  cases x
  · simp
  · apply BitVec.eq_of_getLsbD_eq
    intro i hi
    cases getLSB a <;> cases p
    all_goals simp
    all_goals grind

/-- The half that the second wire decides. -/
theorem evaluatorHalf (hodd : getLSB delta = true) (x y : Bool) :
    hash (label delta b y) ^^^ (selectMask (getLSB (label delta b y)) &&&
        (hash b ^^^ hash (b ^^^ delta) ^^^ a ^^^ label delta a x)) =
      label delta (hash b ^^^ (selectMask (getLSB b) &&& (hash b ^^^ hash (b ^^^ delta))))
        ((getLSB b ^^ y) && x) := by
  rw [getLSB_label hodd]
  apply BitVec.eq_of_getLsbD_eq
  intro i hi
  cases x <;> cases y <;> cases getLSB b
  all_goals simp
  all_goals grind

end Gate

/-- The evaluator gets the label of the conjunction. -/
theorem halfgates {delta : Block} (hodd : getLSB delta = true) (hash : Nat → Block → Block)
    (n : Nat)
    (a b : Block) (x y : Bool) :
    let garbled := halfgatesGarble hash n a (a ^^^ delta) b (b ^^^ delta) delta
    hash (2 * n) (label delta a x) ^^^
        (selectMask (getLSB (label delta a x)) &&& garbled.2.1) ^^^
        hash (2 * n + 1) (label delta b y) ^^^
        (selectMask (getLSB (label delta b y)) &&& (garbled.2.2 ^^^ label delta a x)) =
      label delta garbled.1 (x && y) := by
  have hbit : (x && getLSB b ^^ ((getLSB b ^^ y) && x)) = (x && y) := by
    cases x <;> cases y <;> cases getLSB b <;> rfl
  simp only [halfgatesGarble]
  rw [garblerHalf (hash (2 * n)) a hodd, BitVec.xor_assoc,
    evaluatorHalf (hash (2 * n + 1)) a b hodd,
    label_xor, hbit]
  simp only [BitVec.xor_assoc]

/-! ## A whole circuit -/

variable {t : Toolkit} {eva : Evaluator}

/-- Every garbler has the same `delta`, whatever it draws at random. -/
def delta (t : Toolkit) : Block := setBit (t.prg 0#128) 0

@[simp] theorem delta_new (r : Random) : (HalfGateGen.new t r).1.delta = delta t := rfl

theorem getLSB_delta : getLSB (delta t) = true := getLSB_setBit _

/-- The evaluator's constant for `1` is the label of `1`. -/
theorem label_constant1 (r : Random) :
    label (delta t) ((HalfGateGen.new t r).1.constant true) true = r.constant1 := by
  have hconstant : (HalfGateGen.new t r).1.constant true = r.constant1 ^^^ delta t := rfl
  rw [label_true, hconstant, BitVec.xor_assoc, BitVec.xor_self, BitVec.xor_zero]

/-- Every gate keeps the labels in step with the Booleans. -/
theorem keeps (h : Evaluates t eva) (r : Random) :
    Keeps (HalfGateGen.new t r).1.sender
      (eva (fun b => if b then r.constant1 else r.constant0) r.tmp1)
      fun zero held b => held = label (delta t) zero b where
  const b := by
    rw [h.const]
    cases b
    · rfl
    · exact (label_constant1 r).symm
  not := by
    rintro zero held b rfl
    rw [h.not, if_pos rfl, ← label_constant1 (t := t) r, label_xor, Bool.xor_true]
    rfl
  xor := by
    rintro zero held b zero' held' b' rfl rfl
    rw [h.xor]
    exact label_xor ..
  and := by
    rintro zero held b zero' held' b' rfl rfl n rest
    exact ⟨_, h.and .., halfgates getLSB_delta ..⟩

/-- The Boolean of a label is read off its lowest bit and that of the label for `0`. -/
theorem lsb_label (zero : Block) (b : Bool) :
    (getLSB (label (delta t) zero b) ^^ getLSB zero) = b := by
  rw [getLSB_label getLSB_delta]
  cases getLSB zero <;> cases b <;> rfl

/-- An evaluator that begins with the labels of some Booleans ends with the labels of the Booleans
on all wires after the circuit, and has then received all that was sent. -/
theorem evaluate_labels (h : Evaluates t eva) (r : Random) (c : Circuit) {zeros : Nat → Block}
    {labels : Nat → Block} {x : Nat → Bool}
    (hin : ∀ i, labels i = label (delta t) (zeros i) (x i)) :
    ∃ out, evaluate eva c labels (garble t r c zeros).2 = some (out, []) ∧
      ∀ i, out i = label (delta t) ((garble t r c zeros).1 i) (c.values x i) := by
  obtain ⟨out, hrun, hall⟩ := (keeps h r).run c 0 hin []
  rw [List.append_nil] at hrun
  exact ⟨out, hrun, hall⟩

/-- A garbled circuit computes what the circuit does: for any hash and any random blocks, an
evaluator that begins with the labels of some Booleans takes off the channel just what the garbler
sent, and on every wire the lowest bits of the two parties' labels give the circuit's Boolean. -/
theorem evaluate_garble (h : Evaluates t eva) (r : Random) (c : Circuit) (zeros : Nat → Block)
    (x : Nat → Bool) :
    ∃ out, evaluate eva c (fun i => label (delta t) (zeros i) (x i)) (garble t r c zeros).2 =
        some (out, []) ∧
      ∀ i, (getLSB (out i) ^^ getLSB ((garble t r c zeros).1 i)) = c.values x i := by
  obtain ⟨out, hrun, hall⟩ :=
    evaluate_labels h r c fun i => Eq.refl (label (delta t) (zeros i) (x i))
  refine ⟨out, hrun, fun i => ?_⟩
  rw [hall i, lsb_label]

/-- The evaluator of the half-gate scheme. -/
def halfGateEva (t : Toolkit) : Evaluator := fun constant s =>
  { const := constant
    not := fun a => a ^^^ constant true
    xor := fun a b => a ^^^ b
    and := fun n a b inbox =>
      match inbox with
      | table0 :: table1 :: inbox =>
        some (t.mitccrh s (2 * n) a ^^^ (selectMask (getLSB a) &&& table0) ^^^
          t.mitccrh s (2 * n + 1) b ^^^ (selectMask (getLSB b) &&& (table1 ^^^ a)), inbox)
      | _ => none }

theorem evaluates_halfGateEva (t : Toolkit) : Evaluates t (halfGateEva t) where
  const _ _ _ := rfl
  not _ _ _ := rfl
  xor _ _ _ _ := rfl
  and _ _ _ _ _ _ _ _ := rfl

/-- A hash that is good for examples only. -/
def xorToolkit : Toolkit := ⟨fun seed => ~~~seed, fun s n x => s ^^^ x ^^^ BitVec.ofNat 128 n⟩

theorem evaluate_garble_and :
    ∃ out, evaluate (halfGateEva xorToolkit) [.and 0 1 2]
        (fun i => label (delta xorToolkit) (BitVec.ofNat 128 i) true)
        (garble xorToolkit ⟨1#128, 2#128, 3#128, 4#128⟩ [.and 0 1 2] (BitVec.ofNat 128)).2 =
          some (out, []) ∧
      ∀ i, (getLSB (out i) ^^ getLSB ((garble xorToolkit ⟨1#128, 2#128, 3#128, 4#128⟩ [.and 0 1 2]
        (BitVec.ofNat 128)).1 i)) = Circuit.values [.and 0 1 2] (fun _ => true) i :=
  evaluate_garble (evaluates_halfGateEva xorToolkit) ⟨1#128, 2#128, 3#128, 4#128⟩ [.and 0 1 2]
    (BitVec.ofNat 128) fun _ => true

end CoVault.Garbling
