import CoVault.Circuit.Secrets

/-!
# The revealer seen by one party

A party calls `reveal` and collects the result of the equality check before it calls
`reveal` again. Two flags keep that order. The checker process appears here only
through the results it hands over, `outcome` listing them in the order of the checks.
The trace records the calls a party makes; the program keeps no such record.
-/

namespace CoVault.Dualex

open Circuit

inductive Event where
  /-- a call of `reveal` -/
  | reveal
  /-- a call of `get_eq_check_results` with what it returned -/
  | check (result : Bool)
  deriving DecidableEq, Repr

/-- A revealer after `choose_side`. -/
structure Revealer where
  bits : Nat
  eqCheckInProgress : Bool
  readyToRequestEqCheck : Bool
  nonce : Fin 5 → BitVec 64
  outcome : Nat → Bool
  collected : Nat
  trace : List Event

namespace Revealer

/-- `get_eq_check_results`. -/
def getEqCheckResults (r : Revealer) : Bool × Revealer :=
  if !r.eqCheckInProgress then (false, { r with trace := r.trace ++ [Event.check false] })
  else
    (r.outcome r.collected,
      { r with
        eqCheckInProgress := false
        readyToRequestEqCheck := true
        collected := r.collected + 1
        trace := r.trace ++ [Event.check (r.outcome r.collected)] })

/-- The test `eq_check_is_in_progress() && !get_eq_check_results()` that stands before most
reveals. -/
def pendingCheckFails (r : Revealer) : Bool × Revealer :=
  if r.eqCheckInProgress then (!r.getEqCheckResults.1, r.getEqCheckResults.2) else (false, r)

/-- `request_eq_check`, as far as the flags go. -/
def requestEqCheck (r : Revealer) : Bool × Revealer :=
  if !r.readyToRequestEqCheck then (false, r)
  else (true, { r with readyToRequestEqCheck := false, eqCheckInProgress := true })

/-- The first loop of `reveal`: sizes add up until the limit is reached. -/
def totalSize (limit : Nat) : Nat → List Integer → Nat
  | total, [] => total
  | total, x :: xs =>
    if total < limit then totalSize limit (total + x.length) xs else total

/-- The second loop of `reveal`: bits are copied until the limit is reached. -/
def gather (limit : Nat) : Integer → List Integer → Integer
  | acc, [] => acc
  | acc, x :: xs =>
    if acc.length < limit then gather limit (acc ++ x.take (limit - acc.length)) xs else acc

/-- The bits `reveal` opens. -/
def revealable (r : Revealer) (integers : List Integer) (maxRevealableBits : Nat) : Integer :=
  let limit := if maxRevealableBits = 0 then r.bits else maxRevealableBits
  gather (min (totalSize limit 0 integers) limit) [] integers

/-- The initial counter of a one-sided reveal, a hash of the nonce. -/
def iv (c : Crypto) (r : Revealer) : BitVec 128 :=
  (c.sha3 ((List.ofFn r.nonce).flatMap bitsOf)).setWidth 128

/-- `++nonce[3]`. -/
def nextNonce (r : Revealer) : Revealer :=
  { r with nonce := Function.update r.nonce 3 (r.nonce 3 + 1) }

/-- `reveal` into an array of elements of `elem` bits each: whether the request for the check
was accepted, and what is written to the output, if anything. A one-sided reveal opens the
bits under the cipher of that side, which then decrypts whole elements. -/
def reveal (c : Crypto) (s : Secrets) (r : Revealer) (side : Side) (integers : List Integer)
    (elem : Nat) (revealSide : Side) (maxRevealableBits : Nat) :
    Bool × Option Integer × Revealer :=
  let encryptMe := r.revealable integers maxRevealableBits
  let r := { r with trace := r.trace ++ [Event.reveal] }
  if revealSide = Side.BOTH then
    let (ok, r) := r.requestEqCheck
    (ok, some encryptMe, r)
  else
    let r := r.nextNonce
    let key := s.key revealSide
    let opened := c.aes128Ctr key (iv c r) encryptMe
    let whole := encryptMe.length / elem * elem
    let value := c.aes128Ctr key (iv c r) (opened.take whole) ++ opened.drop whole
    let (ok, r) := r.requestEqCheck
    (ok, if side = revealSide then some value else none, r)

/-! ## What is opened -/

theorem min_totalSize (limit total : Nat) (integers : List Integer) :
    min (totalSize limit total integers) limit = min (total + integers.flatten.length) limit := by
  induction integers generalizing total with
  | nil => simp [totalSize]
  | cons x xs ih =>
    rw [totalSize, List.flatten_cons, List.length_append]
    split_ifs with h
    · rw [ih, Nat.add_assoc]
    · omega

theorem gather_eq_take {limit : Nat} {acc : Integer} (h : acc.length ≤ limit)
    (integers : List Integer) :
    gather limit acc integers = (acc ++ integers.flatten).take limit := by
  induction integers generalizing acc with
  | nil => simp [gather, List.take_of_length_le h]
  | cons x xs ih =>
    rw [gather, List.flatten_cons]
    split_ifs with hlt
    · have hfit : (acc ++ x.take (limit - acc.length)).length ≤ limit := by simp; omega
      rw [ih hfit]
      by_cases hx : x.length ≤ limit - acc.length
      · rw [List.take_of_length_le hx, List.append_assoc]
      · have hfull : (acc ++ x.take (limit - acc.length)).length = limit := by
          rw [List.length_append, List.length_take]
          omega
        rw [List.take_left' hfull, List.take_append, List.take_of_length_le h,
          List.take_append_of_le_length (by omega)]
    · obtain hacc : acc.length = limit := by omega
      rw [← hacc, List.take_left]

/-- The bits opened are the first ones of all integers in a row. -/
theorem revealable_eq_take (r : Revealer) (integers : List Integer) (maxRevealableBits : Nat) :
    r.revealable integers maxRevealableBits =
      integers.flatten.take (if maxRevealableBits = 0 then r.bits else maxRevealableBits) := by
  rw [revealable, min_totalSize, gather_eq_take (by simp)]
  simp [List.take_eq_take_iff, Nat.min_comm]

/-- A side gets what was revealed to it, provided the bits fill whole elements. -/
theorem reveal_value (c : Crypto) (s : Secrets) (r : Revealer) (side : Side)
    (integers : List Integer) {elem : Nat} (revealSide : Side) {maxRevealableBits : Nat}
    (helem : elem ∣ (r.revealable integers maxRevealableBits).length) :
    (r.reveal c s side integers elem revealSide maxRevealableBits).2.1 =
      if revealSide = Side.BOTH ∨ side = revealSide then
        some (r.revealable integers maxRevealableBits)
      else none := by
  have hwhole := Nat.div_mul_cancel helem
  unfold reveal
  by_cases hboth : revealSide = Side.BOTH
  · simp [hboth, revealable]
  · simp only [hboth, if_false, false_or]
    change (if side = revealSide then some (c.aes128Ctr _ _ (List.take
      ((r.revealable integers maxRevealableBits).length / elem * elem) (c.aes128Ctr _ _
        (r.revealable integers maxRevealableBits))) ++ List.drop
      ((r.revealable integers maxRevealableBits).length / elem * elem) (c.aes128Ctr _ _
        (r.revealable integers maxRevealableBits))) else none) = _
    rw [hwhole, List.take_of_length_le (by simp), List.drop_of_length_le (by simp)]
    simp

/-- No call of `reveal` comes after a check that did not turn out true. -/
def AbortDiscipline (trace : List Event) : Prop :=
  trace.Pairwise fun (a b : Event) => a = .check false → b ≠ .reveal

instance : DecidablePred AbortDiscipline := fun trace =>
  inferInstanceAs (Decidable (trace.Pairwise fun a b => a = .check false → b ≠ .reveal))

end Revealer

end CoVault.Dualex
