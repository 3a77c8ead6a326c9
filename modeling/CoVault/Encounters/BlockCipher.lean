import Mathlib
import CoVault.Circuit.Bits

/-!
# The cipher on a list of integers, block by block

The bits of all integers are gathered in one chunk, which is encrypted whenever it is full. The
last chunk, if it is not full, is encrypted as it is and stored where a full chunk that ends at the
last bit would be: over the end of the block before it, or in front of the output.
-/

namespace CoVault.Encounters

open Circuit

/-- The bits of a block. -/
abbrev Chunk := Fin 128 → Bool

/-- What `aes128Integers` works on; `inside` says whether all it wrote was inside the output. -/
structure Encryption where
  index : Nat
  nextChunk : Chunk
  output : Nat → Bool
  inside : Bool

namespace Encryption

variable (totalSize : Nat) (aes : Chunk → Chunk) (s : Encryption)

/-- `(*output)[i] = b`; an unsigned `i` below zero is far behind the output. -/
def write (i : Int) (b : Bool) : Encryption :=
  if 0 ≤ i ∧ i < totalSize then { s with output := Function.update s.output i.toNat b }
  else { s with inside := false }

/-- `(*output)[index - 128 + k] = nextEncrypt[k]`. -/
def writeBit (nextEncrypt : Chunk) (s : Encryption) (k : Fin 128) : Encryption :=
  s.write totalSize (s.index - 128 + k.val) (nextEncrypt k)

def store (nextEncrypt : Chunk) : Encryption :=
  (List.finRange 128).foldl (writeBit totalSize nextEncrypt) s

/-- The next bit of the integers. -/
def gather (b : Bool) : Encryption :=
  let s := { s with
    nextChunk := Function.update s.nextChunk (Fin.ofNat 128 s.index) b
    index := s.index + 1 }
  if s.index % 128 = 0 then s.store totalSize (aes s.nextChunk) else s

/-- `output` and `nextChunk` are initialised with zero bits. -/
def start : Encryption := ⟨0, fun _ => false, fun _ => false, true⟩

end Encryption

/-- The number of bits of `output`. -/
def totalSize (integers : List Integer) : Nat :=
  128 * (((integers.map List.length).sum + 127) / 128)

/-- `aes128Integers`. -/
def aes128Integers (aes : Integer → Chunk → Chunk) (key : Integer) (integers : List Integer) :
    Encryption :=
  let size := totalSize integers
  let s := integers.foldl (fun s x => x.foldl (fun s b => s.gather size (aes key) b) s)
    Encryption.start
  if s.index % 128 ≠ 0 then s.store size (aes key s.nextChunk) else s

/-- Block `m` of the bits, padded with zero bits. -/
def block (bits : Integer) (m : Nat) : Chunk := fun k => bits.getD (128 * m + k) false

/-- All that is written is inside the output, which holds the blocks encrypted one by one. -/
def EncryptsBlocks (aes : Integer → Chunk → Chunk) (key : Integer) (integers : List Integer) :
    Prop :=
  (aes128Integers aes key integers).inside = true ∧
    ∀ m < totalSize integers / 128, ∀ k : Fin 128,
      (aes128Integers aes key integers).output (128 * m + k) =
        aes key (block integers.flatten m) k

/-! ## One block is stored -/

namespace Encryption

variable {totalSize : Nat} {aes : Chunk → Chunk} {s : Encryption} {i : Int} {b : Bool}

theorem write_frame : (s.write totalSize i b).index = s.index ∧
    (s.write totalSize i b).nextChunk = s.nextChunk ∧
      ∀ j : Nat, i ≠ j → (s.write totalSize i b).output j = s.output j := by
  unfold write
  split_ifs with hin
  · exact ⟨rfl, rfl, fun j hj => Function.update_of_ne (by omega) ..⟩
  · exact ⟨rfl, rfl, fun _ _ => rfl⟩

theorem write_inside {j : Nat} (hi : i = j) (hj : j < totalSize) :
    (s.write totalSize i b).output j = b ∧ (s.write totalSize i b).inside = s.inside := by
  subst hi
  rw [write, if_pos (by omega)]
  exact ⟨by simp, rfl⟩

variable (e : Chunk)

/-- What a loop over some of the bits leaves alone. -/
theorem foldl_writeBit_frame (ks : List (Fin 128)) (s : Encryption) :
    (ks.foldl (writeBit totalSize e) s).index = s.index ∧
      (ks.foldl (writeBit totalSize e) s).nextChunk = s.nextChunk ∧
      ∀ j : Nat, (∀ k ∈ ks, (s.index : Int) - 128 + k.val ≠ j) →
        (ks.foldl (writeBit totalSize e) s).output j = s.output j := by
  induction ks generalizing s with
  | nil => exact ⟨rfl, rfl, fun _ _ => rfl⟩
  | cons k ks ih =>
    obtain ⟨hindex, hchunk, houtput⟩ := ih (writeBit totalSize e s k)
    obtain ⟨hindex', hchunk', houtput'⟩ :=
      @write_frame totalSize s (s.index - 128 + k.val) (e k)
    rw [List.foldl_cons]
    refine ⟨hindex.trans hindex', hchunk.trans hchunk', fun j hj => ?_⟩
    rw [houtput j fun k' hk' => ?_, writeBit, houtput' j (hj k List.mem_cons_self)]
    rw [writeBit, hindex']
    exact hj k' (List.mem_cons_of_mem _ hk')

theorem foldl_writeBit {ks : List (Fin 128)} (hks : ks.Nodup) {s : Encryption}
    (h : 128 ≤ s.index) (hsize : s.index ≤ totalSize) :
    (ks.foldl (writeBit totalSize e) s).inside = s.inside ∧
      ∀ k ∈ ks, (ks.foldl (writeBit totalSize e) s).output (s.index - 128 + k) = e k := by
  induction ks generalizing s with
  | nil => exact ⟨rfl, nofun⟩
  | cons k ks ih =>
    rw [List.nodup_cons] at hks
    have hindex : (writeBit totalSize e s k).index = s.index := write_frame.1
    obtain ⟨houtput, hinside⟩ := @write_inside totalSize s (s.index - 128 + k.val) (e k)
      (s.index - 128 + k) (by omega) (by omega)
    obtain ⟨hinside', houtput'⟩ := ih hks.2 (s := writeBit totalSize e s k)
      (by rwa [hindex]) (by rwa [hindex])
    rw [hindex] at houtput'
    refine ⟨hinside'.trans hinside, fun k' hk' => ?_⟩
    rw [List.foldl_cons]
    rcases List.mem_cons.mp hk' with rfl | hmem
    · -- the later bits go elsewhere
      have hframe := (@foldl_writeBit_frame totalSize e ks
        (writeBit totalSize e s k')).2.2 (s.index - 128 + k') fun k hk hsame => by
          have hkk : k = k' := Fin.ext (by omega)
          exact hks.1 (hkk ▸ hk)
      exact hframe.trans houtput
    · exact houtput' k' hmem

theorem store_frame : (s.store totalSize e).index = s.index ∧
    (s.store totalSize e).nextChunk = s.nextChunk ∧
      ∀ j : Nat, s.index ≤ j ∨ j + 128 < s.index →
        (s.store totalSize e).output j = s.output j := by
  obtain ⟨hindex, hchunk, houtput⟩ := @foldl_writeBit_frame totalSize e
    (List.finRange 128) s
  unfold store
  exact ⟨hindex, hchunk, fun j hj => houtput j fun k _ => by omega⟩

theorem store_output (h : 128 ≤ s.index) (hsize : s.index ≤ totalSize) :
    (s.store totalSize e).inside = s.inside ∧
      ∀ k : Fin 128, (s.store totalSize e).output (s.index - 128 + k) = e k := by
  obtain ⟨hinside, houtput⟩ := foldl_writeBit e (List.nodup_finRange 128) h hsize
  unfold store
  exact ⟨hinside, fun k => houtput k (List.mem_finRange k)⟩

theorem foldl_writeBit_outside (ks : List (Fin 128)) (s : Encryption)
    (h : s.inside = false ∨ ∃ k ∈ ks, s.index + k.val < 128) :
    (ks.foldl (writeBit totalSize e) s).inside = false := by
  induction ks generalizing s with
  | nil => simpa using h
  | cons k ks ih =>
    have hindex : (writeBit totalSize e s k).index = s.index := write_frame.1
    refine ih _ ?_
    by_cases hout : s.inside = false ∨ s.index + k.val < 128
    · left
      unfold writeBit write
      split_ifs with hin
      · exact hout.resolve_right (by omega)
      · rfl
    · rw [not_or] at hout
      obtain ⟨k', hk', hlt⟩ := h.resolve_left hout.1
      rcases List.mem_cons.mp hk' with rfl | hmem
      · exact absurd hlt hout.2
      · exact .inr ⟨k', hmem, by rwa [hindex]⟩

theorem store_outside (h : s.index < 128) : (s.store totalSize e).inside = false :=
  foldl_writeBit_outside e _ s (.inr ⟨0, List.mem_finRange 0, by simpa using h⟩)

/-! ## All bits are gathered -/

/-- What has come of the bits so far: full blocks are in the output, the others in the chunk. -/
structure Gathered (totalSize : Nat) (aes : Chunk → Chunk) (bits : Integer) (s : Encryption) :
    Prop where
  index : s.index = bits.length
  chunk : ∀ k : Fin 128, k < bits.length % 128 → s.nextChunk k = block bits (bits.length / 128) k
  inside : s.inside = true
  output : ∀ m < bits.length / 128, ∀ k : Fin 128, s.output (128 * m + k) = aes (block bits m) k
  rest : ∀ j, bits.length ≤ j → s.output j = false

theorem gathered_start : Gathered totalSize aes [] start where
  index := rfl
  chunk := by simp
  inside := rfl
  output := by simp
  rest := fun _ _ => rfl

/-- A full block does not change any more. -/
theorem block_append {bits more : Integer} {m : Nat} (h : m < bits.length / 128) :
    block (bits ++ more) m = block bits m := by
  funext k
  have hk : 128 * m + k < bits.length := by omega
  simp [block, List.getD_eq_getElem?_getD, List.getElem?_append_left hk]

/-- The chunk with one bit more. -/
theorem Gathered.chunk_update {bits : Integer} (h : Gathered totalSize aes bits s) (b : Bool)
    (k : Fin 128) (hk : k < bits.length % 128 + 1) :
    Function.update s.nextChunk (Fin.ofNat 128 s.index) b k =
      block (bits ++ [b]) (bits.length / 128) k := by
  rcases Nat.lt_succ_iff_lt_or_eq.mp hk with hlt | heq
  · have hne : k ≠ Fin.ofNat 128 s.index := fun hk' => by
      rw [hk', h.index] at hlt
      simp at hlt
    have hin : 128 * (bits.length / 128) + k < bits.length := by omega
    rw [Function.update_of_ne hne, h.chunk k hlt]
    simp [block, List.getD_eq_getElem?_getD, List.getElem?_append_left hin]
  · have hk' : k = Fin.ofNat 128 s.index := Fin.ext (by rw [heq, h.index]; rfl)
    have hend : 128 * (bits.length / 128) + k = bits.length := by omega
    rw [← hk', Function.update_self, block, hend]
    simp [List.getD_eq_getElem?_getD]

/-- The bit that fills the chunk puts its block into the output. -/
theorem Gathered.store {bits : Integer} (h : Gathered totalSize aes bits s) {b : Bool}
    {chunk : Chunk} (hfull : (bits.length + 1) % 128 = 0) (hsize : bits.length + 1 ≤ totalSize)
    (hchunk : chunk = block (bits ++ [b]) (bits.length / 128)) :
    Gathered totalSize aes (bits ++ [b])
      (Encryption.store totalSize ⟨s.index + 1, chunk, s.output, s.inside⟩ (aes chunk)) := by
  have hindex := h.index
  have hlen : (bits ++ [b]).length = bits.length + 1 := by simp
  have hdiv : (bits.length + 1) / 128 = bits.length / 128 + 1 := by omega
  obtain ⟨hinside, hblock⟩ := @store_output totalSize
    ⟨s.index + 1, chunk, s.output, s.inside⟩ (aes chunk) (by dsimp only; omega)
    (by dsimp only; omega)
  obtain ⟨hindex', -, hframe⟩ := @store_frame totalSize
    ⟨s.index + 1, chunk, s.output, s.inside⟩ (aes chunk)
  dsimp only at hinside hblock hindex' hframe
  refine ⟨by rw [hindex', hlen, hindex], fun k hk => ?_, hinside.trans h.inside,
    fun m hm k => ?_, fun j hj => ?_⟩
  · rw [hlen] at hk
    omega
  · rw [hlen, hdiv] at hm
    rcases Nat.lt_succ_iff_lt_or_eq.mp hm with hlt | rfl
    · rw [hframe _ (by omega), h.output m hlt, block_append hlt]
    · have hplace : 128 * (bits.length / 128) + k = s.index + 1 - 128 + k := by omega
      rw [hplace, hblock, hchunk]
  · rw [hlen] at hj
    rw [hframe j (by omega), h.rest j (by omega)]

theorem Gathered.gather {bits : Integer} (h : Gathered totalSize aes bits s) (b : Bool)
    (hsize : bits.length + 1 ≤ totalSize) :
    Gathered totalSize aes (bits ++ [b]) (s.gather totalSize aes b) := by
  have hchunk := h.chunk_update b
  have hindex := h.index
  have hlen : (bits ++ [b]).length = bits.length + 1 := by simp
  unfold Encryption.gather
  dsimp only
  generalize Function.update s.nextChunk (Fin.ofNat 128 s.index) b = chunk at hchunk ⊢
  split_ifs with hfull
  · rw [hindex] at hfull
    exact h.store hfull hsize (funext fun k => hchunk k (by omega))
  · have hdiv : (bits.length + 1) / 128 = bits.length / 128 := by omega
    refine ⟨by rw [hlen, hindex], fun k hk => ?_, h.inside, fun m hm k => ?_, fun j hj => ?_⟩
    · rw [hlen] at hk ⊢
      rw [hdiv]
      exact hchunk k (by omega)
    · rw [hlen, hdiv] at hm
      rw [h.output m hm, block_append hm]
    · rw [hlen] at hj
      exact h.rest j (by omega)

theorem Gathered.foldl {bits more : Integer} (h : Gathered totalSize aes bits s)
    (hsize : (bits ++ more).length ≤ totalSize) : Gathered totalSize aes (bits ++ more)
      (more.foldl (fun s b => s.gather totalSize aes b) s) := by
  induction more generalizing bits s with
  | nil => simpa using h
  | cons b more ih =>
    have hlater := ih (h.gather b (by simp at hsize; omega)) (by simpa using hsize)
    rwa [List.append_assoc, List.singleton_append] at hlater

end Encryption

section

variable (aes : Integer → Chunk → Chunk) (key : Integer) (integers : List Integer)

theorem totalSize_eq : totalSize integers = 128 * ((integers.flatten.length + 127) / 128) := by
  rw [totalSize, List.length_flatten]

/-- All bits are gathered, and the last chunk is stored if it is not full. -/
theorem aes128Integers_eq : ∃ s, Encryption.Gathered (totalSize integers) (aes key)
    integers.flatten s ∧ aes128Integers aes key integers =
      if integers.flatten.length % 128 = 0 then s
      else s.store (totalSize integers) (aes key s.nextChunk) := by
  have hgathered : Encryption.Gathered (totalSize integers) (aes key) ([] ++ integers.flatten) _ :=
    Encryption.gathered_start.foldl (by rw [totalSize_eq, List.nil_append]; omega)
  rw [List.nil_append, List.foldl_flatten] at hgathered
  refine ⟨_, hgathered, ?_⟩
  rw [aes128Integers, ← hgathered.index]
  simp only [ne_eq, ite_not]

/-- An encryption of ones does not reach the last bit of a block that is not full. -/
theorem not_encryptsBlocks_ones (h : ¬ 128 ∣ integers.flatten.length) :
    ¬ EncryptsBlocks (fun _ _ _ => true) key integers := by
  intro hblocks
  obtain ⟨s, hs, heq⟩ := aes128Integers_eq (fun _ _ _ => true) key integers
  have hlast := hblocks.2 (integers.flatten.length / 128) (by rw [totalSize_eq]; omega) 127
  rw [heq, if_neg (by omega), (Encryption.store_frame _).2.2 _ (by simp [hs.index]; omega),
    hs.rest _ (by simp; omega)] at hlast
  cases hlast

/-- Every block is encrypted, whatever the cipher, just if the integers fill whole blocks. -/
theorem encryptsBlocks_iff :
    (∀ aes : Integer → Chunk → Chunk, EncryptsBlocks aes key integers) ↔
      128 ∣ (integers.map List.length).sum := by
  rw [← List.length_flatten]
  constructor
  · intro h
    by_contra hdvd
    exact not_encryptsBlocks_ones key integers hdvd (h _)
  · intro hdvd aes
    obtain ⟨s, hs, heq⟩ := aes128Integers_eq aes key integers
    rw [EncryptsBlocks, heq, if_pos (Nat.mod_eq_zero_of_dvd hdvd)]
    refine ⟨hs.inside, fun m hm k => hs.output m ?_ k⟩
    rw [totalSize_eq] at hm
    omega

/-- With less than a block, there are writes before the output. -/
theorem outside_of_lt (hpos : 0 < integers.flatten.length) (hlt : integers.flatten.length < 128) :
    (aes128Integers aes key integers).inside = false := by
  obtain ⟨s, hs, heq⟩ := aes128Integers_eq aes key integers
  rw [heq, if_neg (by omega)]
  exact Encryption.store_outside _ (by rw [hs.index]; exact hlt)

/-- The last bits of a chunk of eight bits stay as they were initialised, and others are written
before the output. -/
theorem eightBits_notEncrypted :
    (¬ ∀ aes : Integer → Chunk → Chunk,
      EncryptsBlocks aes (List.replicate 128 false) [List.replicate 8 true]) ∧
    ∀ aes : Integer → Chunk → Chunk,
      (aes128Integers aes (List.replicate 128 false) [List.replicate 8 true]).inside = false :=
  ⟨fun h => not_encryptsBlocks_ones _ [List.replicate 8 true] (by decide) (h _),
    fun aes => outside_of_lt aes _ _ (by decide) (by decide)⟩

end

end CoVault.Encounters
