import CoVault.Circuit.Bits

/-!
# Hash and cipher

SHA3 and AES are arbitrary functions here, the same inside the circuit and outside.
Counter mode XORs its input with a keystream that key and initial counter determine,
so it undoes itself.
-/

namespace CoVault.Circuit

structure Crypto where
  sha3 : Integer → BitVec 256
  keystream : BitVec 128 → BitVec 128 → Nat → Bool

namespace Crypto

variable (c : Crypto) (key iv : BitVec 128)

/-- `aes_128_ctr` over the given bits. -/
def aes128Ctr (xs : Integer) : Integer := xs.mapIdx fun i b => b ^^ c.keystream key iv i

@[simp] theorem length_aes128Ctr (xs : Integer) : (c.aes128Ctr key iv xs).length = xs.length := by
  simp [aes128Ctr]

@[simp] theorem aes128Ctr_aes128Ctr (xs : Integer) :
    c.aes128Ctr key iv (c.aes128Ctr key iv xs) = xs := by
  apply List.ext_getElem (by simp)
  intro i h h'
  simp [aes128Ctr]

/-- The simplest choice of both functions. -/
def constant : Crypto := ⟨fun _ => 0, fun _ _ _ => false⟩

theorem aes128Ctr_constant (xs : Integer) : constant.aes128Ctr key iv xs = xs := by
  apply List.ext_getElem (by simp)
  intro i h h'
  simp [aes128Ctr, constant]

/-- A hash that adds the first two words of its input. -/
def additive : Crypto := ⟨fun m => ofBits 256 m + ofBits 256 (m.drop 256), fun _ _ _ => false⟩

theorem additive_sha3 (x y : BitVec 256) (rest : Integer) :
    additive.sha3 (bitsOf x ++ (bitsOf y ++ rest)) = x + y := by
  simp [additive, ofBits_append]

end Crypto

end CoVault.Circuit
