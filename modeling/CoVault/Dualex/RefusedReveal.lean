import CoVault.Dualex.Labels

/-!
# A reveal that is refused

Here `reveal` is a call of one process, with everything it writes: the output of the caller, the
Booleans, and the regions the process owns. Whether the result of the last check has been
collected is only looked at in the end, when all of these have been written.

What the circuit library and the other process hand over in a call is a parameter.
-/

namespace CoVault.Dualex.Refusal

open Circuit Reveal

/-- A pair of regions, of which the process owns one. -/
structure Swappable (α : Type) where
  content : Region → α
  swapped : Bool

namespace Swappable

variable {α : Type} (m : Swappable α)

def owned : Region := if m.swapped then .a else .b

def get : α := m.content m.owned

/-- `*get() = v`. -/
def set (v : α) : Swappable α := { m with content := Function.update m.content m.owned v }

/-- `swap`: the process now owns the other region, which holds what it has been handed over. -/
def swap (handed : α) : Swappable α :=
  let m := { m with swapped := !m.swapped }
  m.set handed

end Swappable

/-- The arrays and regions of a revealer. -/
structure Memory where
  garblerBools : Nat → Bool
  nonGarblerBools : Swappable (Nat → Bool)
  labels : Role → Swappable (Nat → BitVec 128)
  revealedValue : Swappable (Nat → Bool)
  wantsEqCheck : Role → Swappable RevealRequest
  eqCheckResult : Role → Swappable Bool

/-- A revealer in one process. -/
structure Process where
  bits : Nat
  side : Side
  role : Role
  sideChosen : Bool
  readyToRequestEqCheck : Bool
  eqCheckInProgress : Bool
  nonce : Fin 5 → BitVec 64
  memory : Memory

/-- What comes from outside in one call: the wires of the bits to open, encrypted if the reveal is
one-sided, the `delta` of the garbler, the Booleans that are opened, what the other processes
hand over in a swap, and which calls of the library fail. -/
structure Outside where
  label : Nat → BitVec 128
  delta : BitVec 128
  opened : Nat → Bool
  handedValue : Nat → Bool
  handedLabels : Nat → BitVec 128
  handedBools : Nat → Bool
  handedRequest : RevealRequest
  sha3Fails : Bool
  encryptFails : Bool
  decryptFails : Bool

/-- The arguments of `reveal` besides the output; `elem` is the number of bits of a `T`. -/
structure Call where
  integers : List Integer
  elem : Nat
  revealSide : Side
  maxRevealableBits : Nat

namespace Memory

variable (x : Outside) (role : Role) (n : Nat) (m : Memory)

/-- The Booleans of this process. -/
def bools : Nat → Bool :=
  match role with
  | .garbler => m.garblerBools
  | .nonGarbler => m.nonGarblerBools.get

/-- `revealBools`. -/
def revealBools : Memory :=
  match role with
  | .garbler => { m with garblerBools := Config.fill n x.opened m.garblerBools }
  | .nonGarbler =>
    let bools := Config.fill n x.opened m.nonGarblerBools.get
    { m with nonGarblerBools := m.nonGarblerBools.set bools }

/-- What `get_labels` makes of the labels in the region. -/
def newLabels (labels : Nat → BitVec 128) : Nat → BitVec 128 :=
  let wires := (List.range n).map x.label
  match role with
  | .garbler => Labels.getLabelsDelta [wires] labels x.delta
  | .nonGarbler => Labels.getLabels [wires] labels

def getLabels : Memory :=
  let labels := (m.labels role).set (newLabels x role n (m.labels role).get)
  { m with labels := Function.update m.labels role labels }

/-- `from_bool` of the non-garbler. -/
def fromBool : Memory :=
  let value := Config.fill n m.nonGarblerBools.get m.revealedValue.get
  { m with revealedValue := m.revealedValue.set value }

end Memory

namespace Process

variable (c : Crypto) (s : Secrets) (x : Outside) (a : Call) (p : Process)

/-- `revealable_bits`. -/
def revealableBits : Nat :=
  let limit := if a.maxRevealableBits = 0 then p.bits else a.maxRevealableBits
  min (Revealer.totalSize limit 0 a.integers) limit

/-- This machine gets the value. -/
def isOutputSide : Bool := a.revealSide == Side.BOTH || p.side == a.revealSide

/-- `++nonce[3]`. -/
def nextNonce : Process :=
  { p with nonce := fun i => if i.val = 3 then p.nonce i + 1 else p.nonce i }

def iv : BitVec 128 := (c.sha3 ((List.ofFn p.nonce).flatMap bitsOf)).setWidth 128

/-- `memcpy` of whole bytes. -/
def copy (n : Nat) (value output : Nat → Bool) : Nat → Bool :=
  Config.fill (8 * ((n + 7) / 8)) value output

/-- The non-garbler decrypts whole elements in place. -/
def decrypt (n : Nat) (value : Nat → Bool) : Nat → Bool := fun i =>
  if i < n / a.elem * a.elem then value i ^^ c.keystream (s.key a.revealSide) (p.iv c) i
  else value i

/-- The value goes to the output, and by way of the swappable region to the other process: whether
no library call failed, the output, and the memory. -/
def outputValue (n : Nat) (output : Nat → Bool) : Bool × (Nat → Bool) × Memory :=
  match p.role with
  | .garbler =>
    let value := p.memory.revealedValue.swap x.handedValue
    (true, copy n value.get output, { p.memory with revealedValue := value })
  | .nonGarbler =>
    let m := p.memory.fromBool n
    if a.revealSide != Side.BOTH && x.decryptFails then (false, output, m)
    else
      let value := m.revealedValue
      let value := if a.revealSide != Side.BOTH then value.set (p.decrypt c s a n value.get)
        else value
      (true, copy n value.get output, { m with revealedValue := value.swap x.handedValue })

/-- `request_eq_check`. -/
def requestEqCheck (revealableBits : Nat) : Bool × Process :=
  if !p.readyToRequestEqCheck then (false, p)
  else
    let m := p.memory
    let request : RevealRequest :=
      ⟨true, a.revealSide, if revealableBits = 0 then p.bits else revealableBits⟩
    let wants := ((m.wantsEqCheck p.role).set request).swap x.handedRequest
    let m := { m with
      wantsEqCheck := Function.update m.wantsEqCheck p.role wants
      labels := Function.update m.labels p.role ((m.labels p.role).swap x.handedLabels) }
    let m := match p.role with
      | .garbler => m
      | .nonGarbler => { m with nonGarblerBools := m.nonGarblerBools.swap x.handedBools }
    (true, { p with memory := m, readyToRequestEqCheck := false, eqCheckInProgress := true })

/-- The last part of `reveal`. -/
def finish (n : Nat) (output : Nat → Bool) (m : Memory) : Bool × (Nat → Bool) × Process :=
  let (ok, p) := { p with memory := m.getLabels x p.role n }.requestEqCheck x a n
  (ok, output, p)

/-- `reveal` after the encryption. -/
def openBits (n : Nat) (output : Nat → Bool) : Bool × (Nat → Bool) × Process :=
  let p := { p with memory := p.memory.revealBools x p.role n }
  if p.isOutputSide a then
    let (ok, output, m) := p.outputValue c s x a n output
    if !ok then (false, output, { p with memory := m }) else p.finish x a n output m
  else p.finish x a n output p.memory

/-- `reveal`: what it returns, the output, and the revealer. -/
def reveal (output : Nat → Bool) : Bool × (Nat → Bool) × Process :=
  if !p.sideChosen then (false, output, p)
  else
    let n := p.revealableBits a
    let oneSided := a.revealSide != Side.BOTH
    let p := if oneSided then p.nextNonce else p
    if oneSided && (p.side == a.revealSide && x.sha3Fails || x.encryptFails) then (false, output, p)
    else p.openBits c s x a n output

/-! ## When nothing is opened -/

/-- `reveal` returns false and leaves the output, the Booleans and all regions as they were. -/
def Untouched (output : Nat → Bool) : Prop :=
  (p.reveal c s x a output).1 = false ∧ (p.reveal c s x a output).2.1 = output ∧
    (p.reveal c s x a output).2.2.memory = p.memory

/-- The process has not chosen a side, or the encryption fails. -/
def GivesUp : Prop :=
  p.sideChosen = false ∨ a.revealSide ≠ Side.BOTH ∧
    (p.side = a.revealSide ∧ x.sha3Fails = true ∨ x.encryptFails = true)

/-- The Booleans of the process are the ones to be opened. -/
def BoolsOpen : Prop := ∀ i < p.revealableBits a, p.memory.bools p.role i = x.opened i

/-- The region holds the labels of the bits to open. -/
def LabelsThere : Prop := ∀ i < p.revealableBits a,
  (p.memory.labels p.role).get i = match p.role with
    | .garbler => x.label i ^^^ Labels.clearFirst x.delta
    | .nonGarbler => x.label i

/-- The non-garbler of the side that gets the value fails to decrypt it, and the region holds it as
it has been opened. -/
def DecryptionFails : Prop :=
  p.role = .nonGarbler ∧ a.revealSide ≠ Side.BOTH ∧ p.side = a.revealSide ∧
    x.decryptFails = true ∧ ∀ i < p.revealableBits a, p.memory.revealedValue.get i = x.opened i

end Process

/-! ## What the writes change -/

namespace Swappable

variable {α : Type} (m : Swappable α)

@[simp] theorem get_set (v : α) : (m.set v).get = v := Function.update_self ..

theorem set_eq_self_iff (v : α) : m.set v = m ↔ v = m.get := by
  constructor
  · intro h
    have hget := congrArg get h
    rwa [get_set] at hget
  · rintro rfl
    rw [set, get, Function.update_eq_self]

/-- After a swap the process owns another region. -/
theorem swap_ne {m m' : Swappable α} (hswapped : m'.swapped = m.swapped) (handed : α) :
    m'.swap handed ≠ m := fun h => by
  have hflag := congrArg Swappable.swapped h
  simp [swap, set, hswapped] at hflag

end Swappable

theorem fill_eq_self_iff {α : Type} {n : Nat} {new old : Nat → α} :
    Config.fill n new old = old ↔ ∀ i < n, old i = new i := by
  simp only [funext_iff, Config.fill, ite_eq_right_iff]
  exact forall₂_congr fun i _ => eq_comm

theorem overwrite_eq_self_iff {α : Type} {n : Nat} {new old : Nat → α} :
    Labels.overwrite ((List.range n).map new) old = old ↔ ∀ i < n, old i = new i := by
  rw [← fill_eq_self_iff]
  suffices h : Labels.overwrite ((List.range n).map new) old = Config.fill n new old by rw [h]
  funext i
  by_cases hi : i < n <;> simp [Labels.overwrite, Config.fill, hi, List.getD_eq_getElem?_getD]

namespace Memory

variable {x : Outside} {role : Role} {n : Nat} {m : Memory}

theorem revealBools_eq_self_iff :
    m.revealBools x role n = m ↔ ∀ i < n, m.bools role i = x.opened i := by
  obtain ⟨garblerBools, nonGarblerBools, labels, value, wants, result⟩ := m
  cases role <;> simp [revealBools, bools, Swappable.set_eq_self_iff, fill_eq_self_iff]

theorem newLabels_eq_self_iff {labels : Nat → BitVec 128} :
    newLabels x role n labels = labels ↔ ∀ i < n, labels i = match role with
      | .garbler => x.label i ^^^ Labels.clearFirst x.delta
      | .nonGarbler => x.label i := by
  cases role
  · simp only [newLabels, Labels.getLabelsDelta, List.flatten_cons, List.flatten_nil,
      List.append_nil, List.map_map]
    exact overwrite_eq_self_iff
  · simp only [newLabels, Labels.getLabels, List.flatten_cons, List.flatten_nil, List.append_nil]
    exact overwrite_eq_self_iff

theorem getLabels_eq_self_iff {m' : Memory} (h : m.labels = m'.labels) :
    m.getLabels x role n = m' ↔
      m = m' ∧ newLabels x role n (m.labels role).get = (m.labels role).get := by
  obtain ⟨garblerBools, nonGarblerBools, labels, value, wants, result⟩ := m
  obtain ⟨garblerBools', nonGarblerBools', labels', value', wants', result'⟩ := m'
  obtain rfl : labels = labels' := h
  simp only [getLabels, Memory.mk.injEq, Function.update_eq_self_iff, Swappable.set_eq_self_iff]
  tauto

@[simp] theorem labels_revealBools : (m.revealBools x role n).labels = m.labels := by
  cases role <;> rfl

@[simp] theorem revealedValue_revealBools :
    (m.revealBools x role n).revealedValue = m.revealedValue := by
  cases role <;> rfl

end Memory

namespace Process

variable {c : Crypto} {s : Secrets} {x : Outside} {a : Call} {p : Process} {n : Nat}
  (output : Nat → Bool)

/-- The request is refused, and nothing is done any more. -/
theorem finish_of_not_ready (hready : p.readyToRequestEqCheck = false) (m : Memory) :
    p.finish x a n output m = (false, output, { p with memory := m.getLabels x p.role n }) := by
  simp [finish, requestEqCheck, hready]

/-- On the side that gets the value the swappable region changes hands, unless the decryption
fails. -/
theorem outputValue_cases :
    if p.role = .nonGarbler ∧ a.revealSide ≠ Side.BOTH ∧ x.decryptFails = true then
      p.outputValue c s x a n output = (false, output, p.memory.fromBool n)
    else ∃ value handed output' m, p.outputValue c s x a n output = (true, output', m) ∧
      value.swapped = p.memory.revealedValue.swapped ∧
      m.revealedValue = Swappable.swap value handed := by
  unfold outputValue
  cases hrole : p.role with
  | garbler =>
    rw [if_neg (by simp)]
    exact ⟨_, _, _, _, rfl, rfl, rfl⟩
  | nonGarbler =>
    by_cases hfail : a.revealSide ≠ Side.BOTH ∧ x.decryptFails = true
    · rw [if_pos ⟨rfl, hfail⟩]
      simp [hfail]
    · rw [if_neg (fun h => hfail h.2)]
      simp only
      rw [if_neg (by simpa using hfail)]
      refine ⟨_, _, _, _, rfl, ?_, rfl⟩
      split_ifs <;> rfl

/-- The side does not get the value. -/
theorem openBits_other (hready : p.readyToRequestEqCheck = false)
    (hother : p.isOutputSide a = false) : p.openBits c s x a n output =
      (false, output, { p with
        memory := (p.memory.revealBools x p.role n).getLabels x p.role n }) := by
  rw [openBits, if_neg (by simpa [isOutputSide] using hother)]
  exact finish_of_not_ready output hready _

/-- Unless the decryption fails, the side that gets the value gives its region away. -/
theorem openBits_output (hready : p.readyToRequestEqCheck = false)
    (hout : p.isOutputSide a = true) :
    if p.role = .nonGarbler ∧ a.revealSide ≠ Side.BOTH ∧ x.decryptFails = true then
      p.openBits c s x a n output =
        (false, output, { p with memory := (p.memory.revealBools x p.role n).fromBool n })
    else (p.openBits c s x a n output).2.2.memory ≠ p.memory := by
  have hcases := outputValue_cases (c := c) (s := s) (x := x) (a := a) (n := n)
    (p := { p with memory := p.memory.revealBools x p.role n }) output
  have hside : ({ p with memory := p.memory.revealBools x p.role n } : Process).isOutputSide a =
      true := hout
  dsimp only at hcases
  by_cases hfails : p.role = .nonGarbler ∧ a.revealSide ≠ Side.BOTH ∧ x.decryptFails = true
  · rw [if_pos hfails] at hcases ⊢
    rw [openBits, if_pos hside, hcases]
    rfl
  · rw [if_neg hfails] at hcases ⊢
    obtain ⟨value, handed, output', m, heq, hswapped, hvalue⟩ := hcases
    rw [openBits, if_pos hside, heq]
    have hfinish := finish_of_not_ready (x := x) (a := a) (n := n)
      (p := { p with memory := p.memory.revealBools x p.role n }) output' hready m
    intro hmemory
    replace hmemory : (Process.finish x a { p with memory := p.memory.revealBools x p.role n } n
      output' m).2.2.memory = p.memory := hmemory
    rw [hfinish] at hmemory
    -- the labels are another region
    have hsame : m.revealedValue = p.memory.revealedValue := by
      rw [← show m.getLabels x p.role n = p.memory from hmemory]
      rfl
    rw [Memory.revealedValue_revealBools] at hswapped
    exact Swappable.swap_ne hswapped handed (hvalue ▸ hsame)

/-- The failing decryption leaves the Booleans and the value behind. -/
theorem memory_decryptFails (hrole : p.role = .nonGarbler) :
    (p.memory.revealBools x p.role n).fromBool n = p.memory ↔
      (∀ i < n, p.memory.bools p.role i = x.opened i) ∧
        ∀ i < n, p.memory.revealedValue.get i = x.opened i := by
  obtain ⟨bits, side, role, sideChosen, ready, inProgress, nonce, m⟩ := p
  obtain ⟨garblerBools, nonGarblerBools, labels, value, wants, result⟩ := m
  obtain rfl : role = .nonGarbler := hrole
  simp only [Memory.revealBools, Memory.fromBool, Memory.bools, Memory.mk.injEq, Swappable.get_set,
    Swappable.set_eq_self_iff, fill_eq_self_iff, true_and, and_true]
  refine and_congr_right fun _ => forall₂_congr fun i hi => ?_
  rw [Config.fill, if_pos hi]

theorem openBits_untouched_iff (hready : p.readyToRequestEqCheck = false) :
    ((p.openBits c s x a (p.revealableBits a) output).1 = false ∧
      (p.openBits c s x a (p.revealableBits a) output).2.1 = output ∧
      (p.openBits c s x a (p.revealableBits a) output).2.2.memory = p.memory) ↔
      p.BoolsOpen x a ∧ (p.isOutputSide a = false ∧ p.LabelsThere x a ∨ p.DecryptionFails x a) := by
  cases hout : p.isOutputSide a with
  | false =>
    have hnot : ¬ p.DecryptionFails x a := fun h => by
      simp [isOutputSide, h.2.2.1] at hout
    rw [openBits_other output hready hout]
    simp only [true_and, hnot, or_false]
    rw [Memory.getLabels_eq_self_iff Memory.labels_revealBools, Memory.labels_revealBools,
      Memory.revealBools_eq_self_iff, Memory.newLabels_eq_self_iff]
    rfl
  | true =>
    have hside : a.revealSide ≠ Side.BOTH → p.side = a.revealSide := by
      simpa [isOutputSide, or_iff_not_imp_left] using hout
    have hcases := openBits_output (c := c) (s := s) (x := x) (n := p.revealableBits a) output
      hready hout
    by_cases hfails : p.role = .nonGarbler ∧ a.revealSide ≠ Side.BOTH ∧ x.decryptFails = true
    · rw [if_pos hfails] at hcases
      rw [hcases]
      simp only [true_and, memory_decryptFails hfails.1, Bool.true_eq_false, false_and, false_or]
      refine and_congr_right fun _ => ?_
      simp only [DecryptionFails, hfails.1, hfails.2.1, hside hfails.2.1, hfails.2.2, ne_eq,
        not_false_iff, true_and]
    · rw [if_neg hfails] at hcases
      refine iff_of_false (fun h => hcases h.2.2) fun h => ?_
      rcases h.2 with ⟨hfalse, -⟩ | hdecrypt
      · cases hfalse
      · exact hfails ⟨hdecrypt.1, hdecrypt.2.1, hdecrypt.2.2.2.1⟩

/-- The process with the nonce that it has when the bits are opened. -/
theorem reveal_eq_openBits (hgives : ¬ p.GivesUp x a) :
    ∃ nonce, p.reveal c s x a output =
      ({ p with nonce := nonce } : Process).openBits c s x a (p.revealableBits a) output := by
  unfold GivesUp at hgives
  push Not at hgives
  obtain ⟨hchosen, hencrypt⟩ := hgives
  rw [reveal, if_neg (by simpa using hchosen)]
  by_cases hone : a.revealSide = Side.BOTH
  · exact ⟨p.nonce, by simp [hone]⟩
  · have hok := hencrypt hone
    refine ⟨p.nextNonce.nonce, ?_⟩
    have hrun : ¬ (a.revealSide != Side.BOTH &&
        (p.nextNonce.side == a.revealSide && x.sha3Fails || x.encryptFails)) = true := by
      simpa [nextNonce, hone] using hok
    simp only [bne_iff_ne, ne_eq, hone, not_false_iff, if_true]
    rw [if_neg hrun]
    rfl

theorem untouched_of_givesUp (hgives : p.GivesUp x a) : p.Untouched c s x a output := by
  unfold Untouched reveal
  rcases hgives with hchosen | ⟨hone, hfails⟩
  · simp [hchosen]
  · cases hchosen : p.sideChosen
    · simp
    · simp [hone, nextNonce, hfails]

/-- A reveal that is refused opens nothing only if it gives up before, or if all that it writes was
there already and the swappable region is left alone. -/
theorem reveal_untouched_iff (hready : p.readyToRequestEqCheck = false) :
    p.Untouched c s x a output ↔ p.GivesUp x a ∨
      p.BoolsOpen x a ∧ (p.isOutputSide a = false ∧ p.LabelsThere x a ∨ p.DecryptionFails x a) := by
  by_cases hgives : p.GivesUp x a
  · exact iff_of_true (untouched_of_givesUp output hgives) (.inl hgives)
  · obtain ⟨nonce, heq⟩ := reveal_eq_openBits (c := c) (s := s) output hgives
    rw [Untouched, heq, or_iff_right hgives]
    exact openBits_untouched_iff (p := { p with nonce := nonce }) output hready

end Process

/-! ## A refused reveal -/

/-- A garbler whose last check has not been collected; all its memory is zero. -/
def waiting : Process where
  bits := 8
  side := Side.LEFT
  role := .garbler
  sideChosen := true
  readyToRequestEqCheck := false
  eqCheckInProgress := true
  nonce := fun _ => 0
  memory := {
    garblerBools := fun _ => false
    nonGarblerBools := ⟨fun _ _ => false, false⟩
    labels := fun _ => ⟨fun _ _ => 0, false⟩
    revealedValue := ⟨fun _ _ => false, true⟩
    wantsEqCheck := fun _ => ⟨fun _ => ⟨false, Side.BOTH, 0⟩, false⟩
    eqCheckResult := fun _ => ⟨fun _ => false, false⟩ }

/-- A bit that is set is opened to both sides. -/
def openOne : Call := ⟨[[true]], 8, Side.BOTH, 0⟩

def oneOpened : Outside where
  label := fun _ => 5
  delta := 3
  opened := fun _ => true
  handedValue := fun i => i == 0
  handedLabels := fun _ => 0
  handedBools := fun _ => false
  handedRequest := ⟨true, Side.BOTH, 1⟩
  sha3Fails := false
  encryptFails := false
  decryptFails := false

/-- The reveal is refused, and the bit is in the output. -/
theorem waiting_opens : waiting.readyToRequestEqCheck = false ∧
    (waiting.reveal Crypto.constant Secrets.deployed oneOpened openOne fun _ => false).1 = false ∧
    (waiting.reveal Crypto.constant Secrets.deployed oneOpened openOne fun _ => false).2.1 0 = true ∧
    ¬ waiting.Untouched Crypto.constant Secrets.deployed oneOpened openOne fun _ => false := by
  refine ⟨rfl, by decide, by decide, fun h => ?_⟩
  have hbit := congrFun h.2.1 0
  revert hbit
  decide

theorem waiting_untouched_iff :
    waiting.Untouched Crypto.constant Secrets.deployed oneOpened openOne (fun _ => false) ↔
      waiting.GivesUp oneOpened openOne ∨ waiting.BoolsOpen oneOpened openOne ∧
        (waiting.isOutputSide openOne = false ∧ waiting.LabelsThere oneOpened openOne ∨
          waiting.DecryptionFails oneOpened openOne) :=
  Process.reveal_untouched_iff _ rfl

end CoVault.Dualex.Refusal
