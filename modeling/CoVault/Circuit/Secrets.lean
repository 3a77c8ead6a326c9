import Mathlib
import CoVault.Circuit.Cipher

/-!
# Sides and their secrets

A side is a byte, and the functions below take any byte: whatever is not `LEFT` gets
the secret of `RIGHT`. Parties of the circuit library are small integers, which C++
converts to sides without complaint.
-/

namespace CoVault.Circuit

abbrev Side := UInt8

namespace Side

def BOTH : Side := 10
def LEFT : Side := 11
def RIGHT : Side := 12

/-- The side that is not the given one. -/
def other (s : Side) : Side := if s = LEFT then RIGHT else LEFT

theorem LEFT_ne_RIGHT : LEFT ≠ RIGHT := by decide

end Side

/-- The parties of the circuit library. -/
def PUBLIC : UInt8 := 0
def ALICE : UInt8 := 1
def BOB : UInt8 := 2

/-- The secrets of the two machines. -/
structure Secrets where
  left : BitVec 256
  right : BitVec 256

namespace Secrets

/-- `LEFT_SECRET` and `RIGHT_SECRET` as compiled in, lowest byte first. -/
def deployed : Secrets where
  left := BitVec.ofNat 256 (Nat.ofDigits 256 [
      0x83, 0xb7, 0x6d, 0x01, 0x9d, 0x9f, 0x55, 0x5b, 0x96, 0x8c, 0xf9, 0xb2,
      0xe6, 0x8f, 0x87, 0x57, 0x40, 0x53, 0xf9, 0x0e, 0xb9, 0x36, 0xdc, 0xed,
      0xfd, 0xed, 0x22, 0x3d, 0x30, 0x54, 0x9a, 0x65])
  right := BitVec.ofNat 256 (Nat.ofDigits 256 [
      0x3f, 0x04, 0x44, 0xe7, 0x19, 0xe3, 0xfb, 0x3c, 0x44, 0xec, 0xa2, 0xfa,
      0xf7, 0x67, 0x6c, 0x01, 0xfa, 0x26, 0x2f, 0x33, 0x3d, 0x66, 0x7f, 0xae,
      0xb9, 0xc7, 0x92, 0x26, 0x73, 0xc7, 0xf1, 0x33])

variable (s : Secrets)

def leftXorRight : BitVec 256 := s.left ^^^ s.right

theorem deployed_left_ne_right : deployed.left ≠ deployed.right := by decide

/-- `secret`, in plaintext. -/
def secret (side : Side) : BitVec 256 := if side = Side.LEFT then s.left else s.right

@[simp] theorem secret_LEFT : s.secret Side.LEFT = s.left := rfl

theorem secret_of_ne_LEFT {side : Side} (h : side ≠ Side.LEFT) : s.secret side = s.right :=
  if_neg h

/-- `secret_circuit`: the same choice over the in-circuit copies. -/
def secretCircuit (side : Side) : Integer :=
  bitsOf (if side = Side.LEFT then s.left else s.right)

/-- The first 16 bytes of a secret, the only part the cipher takes as its key. -/
def key (side : Side) : BitVec 128 := (s.secret side).setWidth 128

theorem key_of_ne_LEFT {side : Side} (h : side ≠ Side.LEFT) :
    s.key side = s.right.setWidth 128 := by
  rw [key, secret_of_ne_LEFT s h]

/-- `mac`: a hash keyed with the XOR of both secrets. -/
def mac (c : Crypto) (input : Integer) : Integer :=
  bitsOf (c.sha3 (bitsOf s.leftXorRight ++ input))

@[simp] theorem length_mac (c : Crypto) (input : Integer) : (s.mac c input).length = 256 := by
  simp [mac]

end Secrets

end CoVault.Circuit
