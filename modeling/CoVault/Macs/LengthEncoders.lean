import CoVault.Library.Codes
import CoVault.Macs.Kmac

/-!
# Reading the length encoders back

The count of bytes is the least that a number has room in, so it fits into one byte itself,
and the bytes after it, or before it, give the number back. The codes of numbers are
therefore prefix-free or suffix-free, and the codes of strings follow from them.
-/

namespace CoVault.Macs

open Library.Codes

/-! ## The count of bytes -/

theorem toNat_shiftRight_byte (x : BitVec 64) : (x >>> 8).toNat = x.toNat / 256 := by
  rw [BitVec.toNat_ushiftRight, Nat.shiftRight_eq_div_pow]

theorem shiftRight_byte_pos (x : BitVec 64) : 0 < x >>> 8 ↔ 256 ≤ x.toNat := by
  rw [BitVec.lt_def, toNat_shiftRight_byte, BitVec.natCast_eq_ofNat, BitVec.toNat_ofNat]
  omega

theorem byteCount_pos (x : BitVec 64) : 0 < byteCount x := by
  rw [byteCount]
  split <;> omega

/-- The count is the least number of bytes that a number has room in. -/
theorem byteCount_le_iff (x : BitVec 64) {n : Nat} (hn : 0 < n) :
    byteCount x ≤ n ↔ x.toNat < 256 ^ n := by
  fun_induction byteCount x generalizing n with
  | case1 x more ih =>
    obtain ⟨m, rfl⟩ : ∃ m, n = m + 1 := ⟨n - 1, by omega⟩
    have hlarge := (shiftRight_byte_pos x).mp more
    rw [Nat.add_le_add_iff_right]
    rcases Nat.eq_zero_or_pos m with rfl | hm
    · have hcount := byteCount_pos (x >>> 8)
      omega
    · rw [ih hm, toNat_shiftRight_byte, Nat.div_lt_iff_lt_mul (by decide), pow_succ]
  | case2 x done =>
    have hsmall : x.toNat < 256 := not_le.mp ((shiftRight_byte_pos x).not.mp done)
    exact iff_of_true hn (hsmall.trans_le (Nat.le_pow hn))

theorem toNat_lt_byteCount (x : BitVec 64) : x.toNat < 256 ^ byteCount x :=
  (byteCount_le_iff x (byteCount_pos x)).mp le_rfl

theorem byteCount_le (x : BitVec 64) : byteCount x ≤ 8 :=
  (byteCount_le_iff x (by decide)).mpr x.isLt

/-- The count survives as a byte. -/
theorem byteCount_inj {x y : BitVec 64}
    (h : BitVec.ofNat 8 (byteCount x) = BitVec.ofNat 8 (byteCount y)) :
    byteCount x = byteCount y := by
  have hx := byteCount_le x
  have hy := byteCount_le y
  have hnat := congrArg BitVec.toNat h
  rwa [BitVec.toNat_ofNat, BitVec.toNat_ofNat, Nat.mod_eq_of_lt (by omega),
    Nat.mod_eq_of_lt (by omega)] at hnat

/-! ## Numbers -/

@[simp] theorem length_littleEndian (n : Nat) (x : BitVec 64) : (littleEndian n x).length = n := by
  induction n generalizing x with
  | zero => rfl
  | succ n ih => rw [littleEndian, List.length_cons, ih]

/-- The bytes are the lowest digits in base 256. -/
theorem ofDigits_littleEndian (n : Nat) (x : BitVec 64) :
    Nat.ofDigits 256 ((littleEndian n x).map BitVec.toNat) = x.toNat % 256 ^ n := by
  induction n generalizing x with
  | zero => simp [littleEndian, Nat.mod_one]
  | succ n ih =>
    calc Nat.ofDigits 256 ((littleEndian (n + 1) x).map BitVec.toNat)
        = x.toNat % 256 + 256 * Nat.ofDigits 256 ((littleEndian n (x >>> 8)).map BitVec.toNat) := by
          rw [littleEndian, List.map_cons, Nat.ofDigits_cons, BitVec.toNat_setWidth]
      _ = x.toNat % 256 + 256 * (x.toNat / 256 % 256 ^ n) := by rw [ih, toNat_shiftRight_byte]
      _ = x.toNat % 256 ^ (n + 1) := by rw [pow_succ', Nat.mod_mul]

/-- As many bytes as the count says give the number back. -/
theorem littleEndian_byteCount_inj {x y : BitVec 64}
    (h : littleEndian (byteCount x) x = littleEndian (byteCount y) y) : x = y := by
  have hdigits := congrArg (fun bytes => Nat.ofDigits 256 (bytes.map BitVec.toNat)) h
  rw [ofDigits_littleEndian, ofDigits_littleEndian, Nat.mod_eq_of_lt (toNat_lt_byteCount x),
    Nat.mod_eq_of_lt (toNat_lt_byteCount y)] at hdigits
  exact BitVec.eq_of_toNat_eq hdigits

theorem leftEncode_prefixFree : PrefixFreeOn Set.univ leftEncode := by
  refine prefixFreeOn_cons (fun x _ y _ hcount => ?_) fun _ _ _ _ _ hbytes =>
    littleEndian_byteCount_inj hbytes
  rw [length_littleEndian, length_littleEndian, byteCount_inj hcount]

theorem rightEncode_suffixFree : SuffixFreeOn Set.univ rightEncode := by
  apply suffixFreeOn_of_reverse
  have hreverse : (fun x => (rightEncode x).reverse) = fun x =>
      BitVec.ofNat 8 (byteCount x) :: (littleEndian (byteCount x) x).reverse := by
    funext x
    rw [rightEncode, List.reverse_append, List.reverse_singleton, List.singleton_append]
  rw [hreverse]
  refine prefixFreeOn_cons (fun x _ y _ hcount => ?_) fun _ _ _ _ _ hbytes =>
    littleEndian_byteCount_inj (List.reverse_injective hbytes)
  rw [List.length_reverse, List.length_reverse, length_littleEndian, length_littleEndian,
    byteCount_inj hcount]

/-! ## Strings -/

theorem ofNat_injOn : Set.InjOn (BitVec.ofNat 64) {n | n < 2 ^ 64} := by
  intro m hm n hn h
  have hnat := congrArg BitVec.toNat h
  rwa [BitVec.toNat_ofNat, BitVec.toNat_ofNat, Nat.mod_eq_of_lt hm, Nat.mod_eq_of_lt hn] at hnat

/-- The length of a vector is a `size_t`. -/
theorem encodeString_prefixFree : PrefixFreeOn {s | s.length < 2 ^ 64} encodeString :=
  leftEncode_prefixFree.lengthPrefixed (fun _ _ => Set.mem_univ _) ofNat_injOn

/-- The padding ends at the next multiple of `w`, and there is none behind a multiple. -/
theorem dvd_add_paddingSize {w : Nat} (hw : 0 < w) (size : Nat) :
    w ∣ size + paddingSize w size := by
  have hlt := Nat.mod_lt size hw
  have hsplit := Nat.div_add_mod size w
  rw [paddingSize]
  split_ifs with hfull
  · have hmultiple : size % w = 0 := by omega
    exact Nat.dvd_of_mod_eq_zero hmultiple
  · refine ⟨size / w + 1, ?_⟩
    rw [Nat.mul_succ]
    omega

theorem dvd_length_bytepad (x : List Byte) {w : Nat} (hw : 0 < w) : w ∣ (bytepad x w).length := by
  rw [bytepad, List.length_append, List.length_replicate]
  exact dvd_add_paddingSize hw _

/-- The zeros behind the string play the part of what may follow. -/
theorem bytepad_encodeString_inj {s t : List Byte} {w w' : Nat} (hs : s.length < 2 ^ 64)
    (ht : t.length < 2 ^ 64) (hw : w < 2 ^ 64) (hw' : w' < 2 ^ 64)
    (h : bytepad (encodeString s) w = bytepad (encodeString t) w') : s = t ∧ w = w' := by
  obtain ⟨hpair, -⟩ := (leftEncode_prefixFree.append encodeString_prefixFree)
    (x := (BitVec.ofNat 64 w, s)) ⟨Set.mem_univ _, hs⟩
    (y := (BitVec.ofNat 64 w', t)) ⟨Set.mem_univ _, ht⟩ h
  obtain ⟨hwidth, hstring⟩ := Prod.mk.inj hpair
  exact ⟨hstring, ofNat_injOn hw hw' hwidth⟩

/-! ## All four -/

/-- Numbers and strings are read back wherever they stand, and a padded string, of a length
that is a multiple of `w`, gives the string and `w`. -/
theorem encoders_decodable :
    PrefixFreeOn Set.univ leftEncode ∧ SuffixFreeOn Set.univ rightEncode ∧
    PrefixFreeOn {s | s.length < 2 ^ 64} encodeString ∧
    ∀ s t : List Byte, s.length < 2 ^ 64 → t.length < 2 ^ 64 →
      ∀ w w', 0 < w → w < 2 ^ 31 → 0 < w' → w' < 2 ^ 31 →
        w ∣ (bytepad (encodeString s) w).length ∧
        (bytepad (encodeString s) w = bytepad (encodeString t) w' → s = t ∧ w = w') :=
  ⟨leftEncode_prefixFree, rightEncode_suffixFree, encodeString_prefixFree,
    fun _ _ hs ht _ _ hpos hw _ hw' => ⟨dvd_length_bytepad _ hpos,
      bytepad_encodeString_inj hs ht (by omega) (by omega)⟩⟩

/-- A zero at the end of a string is not taken for padding. -/
theorem bytepad_trailing_zero : 8 ∣ (bytepad (encodeString [1]) 8).length ∧
    bytepad (encodeString [1]) 8 ≠ bytepad (encodeString [1, 0]) 8 := by
  obtain ⟨hdvd, hstring⟩ := encoders_decodable.2.2.2 [1] [1, 0] (by decide) (by decide) 8 8
    (by decide) (by decide) (by decide) (by decide)
  exact ⟨hdvd, fun heq => absurd (hstring heq).1 (by decide)⟩

end CoVault.Macs
