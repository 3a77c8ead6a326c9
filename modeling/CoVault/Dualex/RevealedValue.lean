import CoVault.Dualex.RefusedReveal
import CoVault.Dualex.RevealDiscipline

/-!
# The value of a one-sided reveal

The bits are encrypted inside the circuit, whatever their number. Outside, the non-garbler of the
side that gets them decrypts whole elements of the output type and hands the value over to the
garbler of its side. Bits beyond the last whole element reach both outputs as they were opened.
-/

namespace CoVault.Dualex.Refusal

open Circuit Reveal

namespace Process

variable (c : Crypto) (s : Secrets) (x x' : Outside) (a : Call) (p p' : Process)
  (output output' : Nat → Bool)

/-- The number of bits to reveal: what there is, up to the maximum. -/
def revealedBits : Nat :=
  min a.integers.flatten.length (if a.maxRevealableBits = 0 then p.bits else a.maxRevealableBits)

/-- The arrays and regions of a revealer have room for `bits` bits. -/
def StaysInside : Prop := p.revealableBits a ≤ p.bits

/-- The stream that encrypts the opened bits. -/
def stream : Nat → Bool := c.keystream (s.key a.revealSide) (p.nextNonce.iv c)

/-- The processes `p`, the non-garbler, and `p'`, the garbler, of the side that gets the value: the
bits that `p` opens are encrypted, and `p'` is handed the region that `p` gives away. -/
structure OneSided : Prop where
  oneSided : a.revealSide ≠ Side.BOTH
  side : p.side = a.revealSide ∧ p'.side = a.revealSide
  role : p.role = .nonGarbler ∧ p'.role = .garbler
  bits : p'.bits = p.bits
  sideChosen : p.sideChosen = true ∧ p'.sideChosen = true
  hashes : x.sha3Fails = false ∧ x'.sha3Fails = false
  encrypts : x.encryptFails = false ∧ x'.encryptFails = false
  decrypts : x.decryptFails = false
  opened : ∀ i < p.revealableBits a,
    x.opened i = (a.integers.flatten.getD i false ^^ p.stream c s a i)
  handed : x'.handedValue =
    (p.reveal c s x a output).2.2.memory.revealedValue.content p.memory.revealedValue.owned

/-- Both outputs hold the bits to reveal, and nothing is written past an array. -/
def GivesPlaintext : Prop :=
  p.StaysInside a ∧ p'.StaysInside a ∧ ∀ i < p.revealedBits a,
    (p.reveal c s x a output).2.1 i = a.integers.flatten.getD i false ∧
      (p'.reveal c s x' a output').2.1 i = a.integers.flatten.getD i false

end Process

/-! ## What the two outputs hold -/

namespace Swappable

variable {α : Type} (m : Swappable α)

/-- After a swap the process owns what it has been handed over. -/
@[simp] theorem get_swap (handed : α) : (m.swap handed).get = handed := get_set ..

/-- The region that the process gives away keeps its content. -/
theorem content_swap (handed : α) : (m.swap handed).content m.owned = m.get := by
  obtain ⟨content, swapped⟩ := m
  cases swapped <;> rfl

@[simp] theorem owned_set (v : α) : (m.set v).owned = m.owned := rfl

end Swappable

namespace Process

variable {c : Crypto} {s : Secrets} {x x' : Outside} {a : Call} {p p' : Process}
  {output output' : Nat → Bool}

theorem revealableBits_eq : p.revealableBits a = p.revealedBits a := by
  rw [revealableBits, Revealer.min_totalSize, Nat.zero_add, revealedBits]

theorem copy_of_lt {n i : Nat} (h : i < n) (value output : Nat → Bool) :
    copy n value output i = value i :=
  fill_of_lt (by omega) ..

/-- The process when the bits are open. -/
def opened (x : Outside) (n : Nat) (p : Process) : Process :=
  { p with memory := p.memory.revealBools x p.role n }

/-- The request leaves the output alone, and the region of the value. -/
theorem finish_output (n : Nat) (output : Nat → Bool) (m : Memory) :
    (p.finish x a n output m).2.1 = output ∧
      (p.finish x a n output m).2.2.memory.revealedValue = m.revealedValue := by
  unfold finish requestEqCheck
  cases p.readyToRequestEqCheck <;> cases p.role <;> exact ⟨rfl, rfl⟩

theorem openBits_outputValue {n : Nat} {m : Memory} (hout : p.isOutputSide a = true)
    (hvalue : (p.opened x n).outputValue c s x a n output = (true, output', m)) :
    (p.openBits c s x a n output).2.1 = output' ∧
      (p.openBits c s x a n output).2.2.memory.revealedValue = m.revealedValue := by
  have hside : (p.opened x n).isOutputSide a = true := hout
  have hopen : p.openBits c s x a n output = (p.opened x n).finish x a n output' m := by
    unfold opened at hvalue hside ⊢
    rw [openBits, if_pos hside, hvalue]
    rfl
  rw [hopen]
  exact finish_output ..

/-- Up to the bits that are opened nothing happens but that the nonce counts on. -/
theorem reveal_eq_openBits_nextNonce (hone : a.revealSide ≠ Side.BOTH)
    (hchosen : p.sideChosen = true) (hhash : x.sha3Fails = false)
    (hencrypt : x.encryptFails = false) :
    p.reveal c s x a output = p.nextNonce.openBits c s x a (p.revealableBits a) output := by
  simp [reveal, hchosen, hone, hhash, hencrypt]

theorem outputValue_garbler {n : Nat} (output : Nat → Bool) (hrole : p.role = .garbler) :
    ∃ m, p.outputValue c s x a n output = (true, copy n x.handedValue output, m) := by
  rw [outputValue, hrole]
  simp

theorem outputValue_nonGarbler {n : Nat} (output : Nat → Bool) (hrole : p.role = .nonGarbler)
    (hone : a.revealSide ≠ Side.BOTH) (hdecrypt : x.decryptFails = false) {value : Nat → Bool}
    (hvalue : value = p.decrypt c s a n (p.memory.fromBool n).revealedValue.get) :
    ∃ m, p.outputValue c s x a n output = (true, copy n value output, m) ∧
      m.revealedValue = ((p.memory.fromBool n).revealedValue.set value).swap x.handedValue := by
  rw [outputValue, hrole, hvalue]
  simp [hone, hdecrypt]

/-- The value that the non-garbler hands over. -/
def handedOver (c : Crypto) (s : Secrets) (x : Outside) (a : Call) (p : Process) : Nat → Bool :=
  let n := p.revealableBits a
  p.nextNonce.decrypt c s a n (Config.fill n (Config.fill n x.opened p.memory.nonGarblerBools.get)
    p.memory.revealedValue.get)

/-- The non-garbler decrypts what it has opened, keeps a copy and gives its region away. -/
theorem reveal_nonGarbler (output : Nat → Bool) (hone : a.revealSide ≠ Side.BOTH)
    (hside : p.side = a.revealSide)
    (hrole : p.role = .nonGarbler) (hchosen : p.sideChosen = true)
    (hhash : x.sha3Fails = false) (hencrypt : x.encryptFails = false)
    (hdecrypt : x.decryptFails = false) :
    (p.reveal c s x a output).2.1 = copy (p.revealableBits a) (p.handedOver c s x a) output ∧
      (p.reveal c s x a output).2.2.memory.revealedValue.content p.memory.revealedValue.owned =
        p.handedOver c s x a := by
  have hout : p.nextNonce.isOutputSide a = true := by simp [isOutputSide, nextNonce, hside]
  have hregion : p.handedOver c s x a = (p.nextNonce.opened x (p.revealableBits a)).decrypt c s a
      (p.revealableBits a) ((p.nextNonce.opened x (p.revealableBits a)).memory.fromBool
        (p.revealableBits a)).revealedValue.get := by
    simp only [handedOver, opened, nextNonce, hrole, Memory.fromBool, Memory.revealBools,
      Swappable.get_set]
    rfl
  obtain ⟨m, houtput, hvalue⟩ := outputValue_nonGarbler
    (p := p.nextNonce.opened x (p.revealableBits a)) output hrole hone hdecrypt hregion
  obtain ⟨hopen, hgiven⟩ := openBits_outputValue hout houtput
  rw [reveal_eq_openBits_nextNonce hone hchosen hhash hencrypt, hopen, hgiven, hvalue]
  refine ⟨rfl, ?_⟩
  have howned : p.memory.revealedValue.owned =
      (((p.nextNonce.opened x (p.revealableBits a)).memory.fromBool
        (p.revealableBits a)).revealedValue.set (p.handedOver c s x a)).owned := by
    simp [opened, nextNonce, Memory.fromBool, hrole, Memory.revealBools]
  rw [howned, Swappable.content_swap, Swappable.get_set]

/-- The garbler copies what it is handed over. -/
theorem reveal_garbler (output : Nat → Bool) (hone : a.revealSide ≠ Side.BOTH)
    (hside : p.side = a.revealSide)
    (hrole : p.role = .garbler) (hchosen : p.sideChosen = true)
    (hhash : x.sha3Fails = false) (hencrypt : x.encryptFails = false) :
    (p.reveal c s x a output).2.1 = copy (p.revealableBits a) x.handedValue output := by
  have hout : p.nextNonce.isOutputSide a = true := by simp [isOutputSide, nextNonce, hside]
  obtain ⟨m, hvalue⟩ := outputValue_garbler (c := c) (s := s) (a := a)
    (p := p.nextNonce.opened x (p.revealableBits a)) (n := p.revealableBits a) output hrole
  rw [reveal_eq_openBits_nextNonce hone hchosen hhash hencrypt]
  exact (openBits_outputValue hout hvalue).1

/-- What is opened within the last whole element is decrypted, and the rest is still encrypted. -/
theorem handedOver_of_lt {i : Nat} (hi : i < p.revealableBits a)
    (hopened : x.opened i = (a.integers.flatten.getD i false ^^ p.stream c s a i)) :
    p.handedOver c s x a i = (a.integers.flatten.getD i false ^^
      (decide (p.revealableBits a / a.elem * a.elem ≤ i) && p.stream c s a i)) := by
  rw [handedOver, decrypt, fill_of_lt hi, fill_of_lt hi, hopened]
  by_cases hwhole : i < p.revealableBits a / a.elem * a.elem
  · have hstream : c.keystream (s.key a.revealSide) (p.nextNonce.iv c) i = p.stream c s a i := rfl
    rw [if_pos hwhole, hstream, decide_eq_false (Nat.not_le.mpr hwhole)]
    simp
  · rw [if_neg hwhole, decide_eq_true (Nat.not_lt.mp hwhole), Bool.true_and]

theorem OneSided.copies (h : OneSided c s x x' a p p' output) {i : Nat}
    (hi : i < p.revealableBits a) : (p.reveal c s x a output).2.1 i = p.handedOver c s x a i ∧
      (p'.reveal c s x' a output').2.1 i = p.handedOver c s x a i := by
  obtain ⟨hvalue, hregion⟩ := reveal_nonGarbler (c := c) (s := s) output h.oneSided
    h.side.1 h.role.1 h.sideChosen.1 h.hashes.1 h.encrypts.1 h.decrypts
  have hsame : p'.revealableBits a = p.revealableBits a := by rw [revealableBits, h.bits]; rfl
  rw [hvalue,
    reveal_garbler output' h.oneSided h.side.2 h.role.2 h.sideChosen.2 h.hashes.2 h.encrypts.2,
    h.handed, hregion, hsame, copy_of_lt hi, copy_of_lt hi]
  exact ⟨rfl, rfl⟩

/-- The side gets its bits in both processes just if the arrays have room for them and nothing of
the stream falls on bits beyond the last whole element. -/
theorem givesPlaintext_iff (h : OneSided c s x x' a p p' output) :
    GivesPlaintext c s x x' a p p' output output' ↔ p.StaysInside a ∧
      ∀ i < p.revealedBits a, p.revealedBits a / a.elem * a.elem ≤ i →
        p.stream c s a i = false := by
  have hroom : p'.StaysInside a ↔ p.StaysInside a := by
    rw [StaysInside, StaysInside, revealableBits, h.bits]
    rfl
  rw [GivesPlaintext, hroom, and_self_left]
  refine and_congr_right fun _ => forall₂_congr fun i hi => ?_
  rw [← revealableBits_eq] at hi ⊢
  obtain ⟨hvalue, hvalue'⟩ : _ ∧ (p'.reveal c s x' a output').2.1 i = _ := h.copies hi
  rw [hvalue, hvalue', and_self, handedOver_of_lt hi (h.opened i hi)]
  cases a.integers.flatten.getD i false <;> cases p.stream c s a i <;> simp

/-- Whole elements are revealed as they are. -/
theorem givesPlaintext_of_dvd (h : OneSided c s x x' a p p' output) (hroom : p.StaysInside a)
    (hwhole : a.elem ∣ p.revealedBits a) : GivesPlaintext c s x x' a p p' output output' := by
  refine (givesPlaintext_iff h).mpr ⟨hroom, fun i hi hle => ?_⟩
  rw [Nat.div_mul_cancel hwhole] at hle
  exact absurd hi (Nat.not_lt.mpr hle)

end Process

/-! ## Twelve bits in bytes -/

/-- A stream of ones. -/
def ones : Crypto := ⟨fun _ => 0, fun _ _ _ => true⟩

/-- Twelve bits that are set go to the left side, into bytes. -/
def revealTwelve : Call := ⟨[List.replicate 12 true], 8, Side.LEFT, 0⟩

/-- The non-garbler of the left side, and the garbler next to it. -/
def leftNonGarbler : Process :=
  { waiting with bits := 16, role := .nonGarbler, readyToRequestEqCheck := true }

def leftGarbler : Process := { waiting with bits := 16, readyToRequestEqCheck := true }

def twelveOpened : Outside := { oneOpened with opened := fun _ => false }

def twelveHanded : Outside := { twelveOpened with
  handedValue := (leftNonGarbler.reveal ones Secrets.deployed twelveOpened revealTwelve
    fun _ => false).2.2.memory.revealedValue.content leftNonGarbler.memory.revealedValue.owned }

theorem revealTwelve_oneSided : Process.OneSided ones Secrets.deployed twelveOpened twelveHanded
    revealTwelve leftNonGarbler leftGarbler fun _ => false where
  oneSided := by decide
  side := ⟨rfl, rfl⟩
  role := ⟨rfl, rfl⟩
  bits := rfl
  sideChosen := ⟨rfl, rfl⟩
  hashes := ⟨rfl, rfl⟩
  encrypts := ⟨rfl, rfl⟩
  decrypts := rfl
  opened := by decide
  handed := rfl

/-- The last four bits stay encrypted. -/
theorem revealTwelve_encrypted : Process.OneSided ones Secrets.deployed twelveOpened twelveHanded
      revealTwelve leftNonGarbler leftGarbler (fun _ => false) ∧
    ¬ Process.GivesPlaintext ones Secrets.deployed twelveOpened twelveHanded revealTwelve
      leftNonGarbler leftGarbler (fun _ => false) fun _ => false := by
  refine ⟨revealTwelve_oneSided, fun h => ?_⟩
  have hbit := (h.2.2 8 (by decide)).1
  revert hbit
  decide

theorem revealTwelve_iff : Process.GivesPlaintext ones Secrets.deployed twelveOpened twelveHanded
      revealTwelve leftNonGarbler leftGarbler (fun _ => false) (fun _ => false) ↔
    leftNonGarbler.StaysInside revealTwelve ∧ ∀ i < leftNonGarbler.revealedBits revealTwelve,
      leftNonGarbler.revealedBits revealTwelve / revealTwelve.elem * revealTwelve.elem ≤ i →
        leftNonGarbler.stream ones Secrets.deployed revealTwelve i = false :=
  Process.givesPlaintext_iff revealTwelve_oneSided

end CoVault.Dualex.Refusal
