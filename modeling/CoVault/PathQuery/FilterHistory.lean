import CoVault.PathQuery.BloomFilter

/-!
# What a Bloom filter answers after a history

Both calls that change a filter set the positions of a value, so a history is the list of its
values. The hits are counted in three bits: the filter cannot tell a value all of whose
positions are set from one that misses a multiple of eight of them.
-/

namespace CoVault.PathQuery.BloomFilter

/-- A call that changes the filter. -/
inductive Op where
  | insert (value : BitVec 256)
  | containsAndInsert (value : BitVec 256)
  deriving DecidableEq

def Op.value : Op → BitVec 256
  | insert value | containsAndInsert value => value

def Op.apply (f : BloomFilter) : Op → BloomFilter
  | insert value => f.insert value
  | containsAndInsert value => (f.containsAndInsert value).2

/-- The calls one after the other. -/
def run (f : BloomFilter) (ops : List Op) : BloomFilter := ops.foldl Op.apply f

/-- One of the calls has set the position of hash `i` of the value. -/
def SetBy (f : BloomFilter) (ops : List Op) (v : BitVec 256) (i : Nat) : Prop :=
  ∃ op ∈ ops, ∃ k < f.nHashes, f.hashPos op.value k = f.hashPos v i

instance (f : BloomFilter) (ops : List Op) (v : BitVec 256) (i : Nat) :
    Decidable (f.SetBy ops v i) := inferInstanceAs (Decidable (∃ _ ∈ _, ∃ _ < _, _ = _))

/-- All positions of the value have been set. -/
def Covered (f : BloomFilter) (ops : List Op) (v : BitVec 256) : Prop :=
  ∀ i < f.nHashes, f.SetBy ops v i

/-- How many hashes of the value have a position that has not been set. -/
def missing (f : BloomFilter) (ops : List Op) (v : BitVec 256) : Nat :=
  (List.range f.nHashes).countP fun i => !decide (f.SetBy ops v i)

/-- The filter reports a value if and only if all its positions have been set; so it reports every
value inserted, and none whose positions are all unset. -/
structure Answers (f : BloomFilter) (ops : List Op) (v : BitVec 256) : Prop where
  covered : (f.run ops).contains v = true ↔ f.Covered ops v
  inserted : v ∈ ops.map Op.value → (f.run ops).contains v = true
  unset : (∀ i < f.nHashes, ¬f.SetBy ops v i) → (f.run ops).contains v = false

/-- There are cells, and their positions are positive numbers in the circuit. -/
structure Roomy (f : BloomFilter) : Prop where
  nonempty : 0 < f.filterSize
  positions : 2 * f.filterSize < 2 ^ f.elementSize

variable {f : BloomFilter} {v : BitVec 256} {ops : List Op}

theorem Roomy.le_two_pow (hf : f.Roomy) : f.filterSize ≤ 2 ^ f.elementSize := by
  have := hf.positions
  omega

/-! ## Asking and inserting at once -/

/-- Whatever the filter holds, `contains_and_insert` answers what `contains` would have answered
before, and leaves what `insert` would have left, also where hashes of the value coincide. -/
theorem containsAndInsert_eq (f : BloomFilter) (hseven : f.nHashes ≤ 7)
    (hpositions : f.filterSize ≤ 2 ^ f.elementSize) (v : BitVec 256) :
    (f.containsAndInsert v).1 = f.contains v ∧ (f.containsAndInsert v).2 = f.insert v := by
  have hsized : f.Sized := ⟨hseven.trans_lt (by decide), hpositions⟩
  have hspec := containsAndInsert_spec hsized v
  exact ⟨congrArg Prod.fst hspec, congrArg Prod.snd hspec⟩

/-- A filter with seven hashes, of which a value of zeros needs only one cell. -/
def sevenHashes : BloomFilter := ⟨100, 7, 3, fun j => decide (j = 1)⟩

theorem containsAndInsert_eq_seven :
    (sevenHashes.containsAndInsert 0).1 = sevenHashes.contains 0 ∧
      (sevenHashes.containsAndInsert 0).2 = sevenHashes.insert 0 :=
  containsAndInsert_eq sevenHashes (by decide) (by decide) 0

/-! ## Positions -/

/-- The bits of a hash, as many as the greatest position has. -/
theorem and_mask_lt {w k : Nat} (hk : k < w) (x : BitVec w) :
    (((1#w <<< k) - 1#w) &&& x).toNat < 2 ^ k := by
  have hpow : 2 ^ k < 2 ^ w := Nat.pow_lt_pow_right (by omega) hk
  have hpos := Nat.two_pow_pos k
  have hone : 1 % 2 ^ w = 1 := Nat.mod_eq_of_lt (by omega)
  have hmask : ((1#w <<< k) - 1#w).toNat = 2 ^ k - 1 := by
    rw [BitVec.toNat_sub, BitVec.toNat_shiftLeft, BitVec.toNat_ofNat, hone, Nat.one_shiftLeft,
      Nat.mod_eq_of_lt hpow, show 2 ^ w - 1 + 2 ^ k = 2 ^ k - 1 + 2 ^ w by omega,
      Nat.add_mod_right, Nat.mod_eq_of_lt (by omega)]
  rw [BitVec.toNat_and, hmask]
  exact (Nat.and_le_left).trans_lt (by omega)

/-- A hash is the position of a cell. -/
theorem hashPos_lt (hf : f.Roomy) (i : Nat) : (f.hashPos v i).toNat < f.filterSize := by
  obtain ⟨hpos, hsize⟩ := hf
  obtain ⟨w, hw⟩ : ∃ w, f.elementSize = w + 1 := ⟨f.elementSize - 1, by
    have : f.elementSize ≠ 0 := fun h => by rw [h] at hsize; omega
    omega⟩
  have hpow : 2 ^ f.elementSize = 2 * 2 ^ w := by rw [hw, pow_succ']
  have hk : f.nHashbits ≤ w := Nat.clog_le_of_le_pow (by omega)
  have hle : 2 ^ f.nHashbits ≤ 2 ^ w := Nat.pow_le_pow_right (by omega) hk
  unfold hashPos
  extract_lets shiftPos mask
  have hbits : (mask &&& (v >>> shiftPos).setWidth f.elementSize).toNat < 2 ^ f.nHashbits :=
    and_mask_lt (by omega) _
  have hdivisor : (BitVec.ofNat f.elementSize f.filterSize).toNat = f.filterSize := by
    rw [BitVec.toNat_ofNat, Nat.mod_eq_of_lt (by omega)]
  -- neither number has its sign bit set, so the division is the one of natural numbers
  have hsign : (mask &&& (v >>> shiftPos).setWidth f.elementSize).msb = false := by
    rw [BitVec.msb_eq_false_iff_two_mul_lt]
    omega
  have hsign' : (BitVec.ofNat f.elementSize f.filterSize).msb = false := by
    rw [BitVec.msb_eq_false_iff_two_mul_lt]
    omega
  rw [BitVec.srem_eq, hsign, hsign']
  simp only [BitVec.toNat_umod, hdivisor]
  exact Nat.mod_lt _ hpos

/-! ## Histories -/

theorem run_eq_insertAll (f : BloomFilter) (ops : List Op) :
    f.run ops = f.insertAll (ops.map Op.value) := by
  have happly : ∀ (g : BloomFilter) (op : Op), op.apply g = g.insert op.value := by
    rintro g (value | value)
    · rfl
    · exact containsAndInsert_snd g value
  induction ops generalizing f with
  | nil => rfl
  | cons op ops ih =>
    rw [run, List.foldl_cons, ← run, ih, happly]
    rfl

/-- In a filter that was empty, a hash hits if and only if a call has set its position. -/
theorem hit_run_iff (hf : f.Roomy) (hempty : ∀ j, f.filter j = false) (i : Nat) :
    (f.run ops).Hit v i ↔ f.SetBy ops v i := by
  rw [run_eq_insertAll, insertAll_eq]
  have hat : ∀ u k j, f.isAt u k j = true ↔ BitVec.ofNat f.elementSize j = f.hashPos u k :=
    fun u k j => beq_iff_eq
  constructor
  · rintro ⟨j, -, hj, hset⟩
    simp only [hempty, Bool.false_or, List.any_eq_true, List.mem_map, Bool.and_eq_true,
      List.mem_range] at hset
    obtain ⟨_, ⟨op, hop, rfl⟩, -, k, hk, hset⟩ := hset
    exact ⟨op, hop, k, hk, ((hat ..).mp hset).symm.trans ((hat v i j).mp hj)⟩
  · rintro ⟨op, hop, k, hk, heq⟩
    have hj : BitVec.ofNat f.elementSize (f.hashPos v i).toNat = f.hashPos v i := by simp
    refine ⟨(f.hashPos v i).toNat, hashPos_lt hf i, (hat ..).mpr hj, ?_⟩
    simp only [hempty, Bool.false_or, List.any_eq_true, List.mem_map, Bool.and_eq_true,
      List.mem_range, decide_eq_true_eq]
    exact ⟨op.value, ⟨op, hop, rfl⟩, hashPos_lt hf i, k, hk, (hat ..).mpr (hj.trans heq.symm)⟩

/-- The hits of a value and the hashes that miss add up to all hashes. -/
theorem sum_hits_add (hf : f.filterSize ≤ 2 ^ f.elementSize) {p : Nat → Prop} [DecidablePred p]
    (hp : ∀ i, f.Hit v i ↔ p i) (n : Nat) :
    ((List.range n).map (f.hits v)).sum + (List.range n).countP (fun i => !decide (p i)) = n := by
  induction n with
  | zero => rfl
  | succ n ih =>
    have hone := hits_eq_one_iff (v := v) hf (i := n)
    have hle := hits_le_one hf v n
    rw [List.range_succ, List.map_append, List.sum_append, List.countP_append,
      List.map_singleton, List.sum_singleton, List.countP_singleton]
    by_cases h : p n
    · have := hone.mpr ((hp n).mpr h)
      simp [h]
      omega
    · have : f.hits v n ≠ 1 := fun heq => h ((hp n).mp (hone.mp heq))
      simp [h]
      omega

/-- The counter reaches the number of hashes if and only if a multiple of eight of them miss. -/
theorem contains_iff_dvd (hf : f.filterSize ≤ 2 ^ f.elementSize) {p : Nat → Prop}
    [DecidablePred p] (hp : ∀ i, f.Hit v i ↔ p i) :
    f.contains v = true ↔
      2 ^ counterSize ∣ (List.range f.nHashes).countP fun i => !decide (p i) := by
  have hsum := sum_hits_add hf hp f.nHashes
  rw [contains, foldl_counter, beq_iff_eq, ← BitVec.toNat_inj, BitVec.toNat_ofNat,
    BitVec.toNat_ofNat]
  generalize ((List.range f.nHashes).map (f.hits v)).sum = hits at hsum ⊢
  generalize (List.range f.nHashes).countP _ = miss at hsum ⊢
  rw [← hsum, counterSize]
  omega

theorem covered_iff_missing : f.Covered ops v ↔ f.missing ops v = 0 := by
  simp [Covered, missing, List.countP_eq_zero]

/-- The answer of a filter after a history. -/
theorem contains_run (hf : f.Roomy) (hempty : ∀ j, f.filter j = false) (ops : List Op)
    (v : BitVec 256) :
    (f.run ops).contains v = true ↔ 2 ^ counterSize ∣ f.missing ops v := by
  have hrun : (f.run ops).nHashes = f.nHashes ∧ (f.run ops).filterSize = f.filterSize ∧
      (f.run ops).elementSize = f.elementSize := by
    rw [run_eq_insertAll, insertAll_eq]
    exact ⟨rfl, rfl, rfl⟩
  obtain ⟨hhashes, hsize, helement⟩ := hrun
  rw [contains_iff_dvd (by rw [hsize, helement]; exact hf.le_two_pow) (hit_run_iff hf hempty),
    hhashes, missing]

theorem covered_of_mem (h : v ∈ ops.map Op.value) : f.Covered ops v := by
  intro i hi
  obtain ⟨op, hop, rfl⟩ := List.mem_map.mp h
  exact ⟨op, hop, i, hi, rfl⟩

/-- A history and a value get the right answer if and only if no eight, sixteen, ... hashes of the
value miss; with fewer than eight hashes every answer is right. -/
theorem answers_iff (hf : f.Roomy) (hempty : ∀ j, f.filter j = false) (hhashes : 1 ≤ f.nHashes) :
    (∀ ops v, f.Answers ops v ↔ (2 ^ counterSize ∣ f.missing ops v → f.missing ops v = 0)) ∧
      (f.nHashes < 2 ^ counterSize → ∀ ops v, f.Answers ops v) := by
  have hiff : ∀ ops v, f.Answers ops v ↔
      (2 ^ counterSize ∣ f.missing ops v → f.missing ops v = 0) := by
    intro ops v
    have hcontains := contains_run hf hempty ops v
    constructor
    · intro h hdvd
      exact covered_iff_missing.mp (h.covered.mp (hcontains.mpr hdvd))
    · intro h
      refine ⟨hcontains.trans ⟨fun hdvd => covered_iff_missing.mpr (h hdvd), fun hcovered => ?_⟩,
        fun hmem => ?_, fun hunset => ?_⟩
      · rw [covered_iff_missing.mp hcovered]
        exact dvd_zero _
      · rw [hcontains, covered_iff_missing.mp (covered_of_mem hmem)]
        exact dvd_zero _
      · by_contra hreported
        have hcovered : f.Covered ops v :=
          covered_iff_missing.mpr (h (hcontains.mp (by simpa using hreported)))
        exact hunset 0 hhashes (hcovered 0 hhashes)
  refine ⟨hiff, fun hfew ops v => (hiff ops v).mpr fun hdvd => ?_⟩
  have hle : f.missing ops v ≤ f.nHashes := by
    simpa [missing] using List.countP_le_length (l := List.range f.nHashes)
      (p := fun i => !decide (f.SetBy ops v i))
  exact Nat.eq_zero_of_dvd_of_lt hdvd (by omega)

/-- A filter with three hashes for one element. -/
def threeHashes : BloomFilter := ⟨100, 3, 13, fun _ => false⟩

theorem answers_iff_threeHashes :
    threeHashes.Answers [.insert 5, .containsAndInsert 9] 5 ∧
      threeHashes.Answers [.insert 5, .containsAndInsert 9] 77 := by
  have h := (answers_iff (f := threeHashes) ⟨by decide, by decide⟩ (fun _ => rfl) (by decide)).2
    (by decide)
  exact ⟨h _ _, h _ _⟩

/-- A filter with eight hashes for one element. -/
def eightHashes : BloomFilter := ⟨100, 8, 10, fun _ => false⟩

/-- While it is empty, it reports every value. -/
theorem eightHashes_reports : (eightHashes.run []).contains 5 = true ∧
    ¬eightHashes.Answers [] 5 := by
  have hcontains : (eightHashes.run []).contains 5 = true :=
    (contains_run ⟨by decide, by decide⟩ (fun _ => rfl) [] 5).mpr (by decide)
  refine ⟨hcontains, fun h => ?_⟩
  obtain ⟨_, hop, -⟩ := h.covered.mp hcontains 0 (by decide)
  cases hop

end CoVault.PathQuery.BloomFilter
