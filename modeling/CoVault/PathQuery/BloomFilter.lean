import Mathlib
import CoVault.Circuit.Bits

/-!
# The in-circuit Bloom filter

Every hash function takes the next few bits of the value. Positions are integers of
`elementSize` bits, and a scan over the whole filter finds the cell with the wanted
position. The counter of hits has three bits. The size of the filter comes out of
floating-point arithmetic over the expected number of elements; it is a parameter here.
-/

namespace CoVault.PathQuery

open Circuit

/-- `Counter<3>` and `n_hashes_count` have three bits. -/
def counterSize : Nat := 3

structure BloomFilter where
  elementSize : Nat
  nHashes : Nat
  filterSize : Nat
  filter : Nat → Bool

/-- The template arguments, and the size a filter gets for a number of elements. -/
structure FilterType where
  elementSize : Nat
  nHashes : Nat
  filterSize : Nat → Nat

/-- The constructor. -/
def FilterType.new (F : FilterType) (nElements : Nat) : BloomFilter :=
  ⟨F.elementSize, F.nHashes, F.filterSize nElements, fun _ => false⟩

namespace BloomFilter

variable (f : BloomFilter)

/-- `ceil(log2(filter_size))`. -/
def nHashbits : Nat := Nat.clog 2 f.filterSize

/-- After `initialize`, and already after construction. -/
def initializeFilter : BloomFilter := { f with filter := fun _ => false }

/-- Hash `i` of a value. The shift is an in-circuit integer and only its lowest eight bits
count; division in the circuit is signed. -/
def hashPos (value : BitVec 256) (i : Nat) : BitVec f.elementSize :=
  let shiftPos := i * f.nHashbits % 2 ^ f.elementSize % 256
  let mask := (1#f.elementSize <<< f.nHashbits) - 1#f.elementSize
  (mask &&& (value >>> shiftPos).setWidth f.elementSize).srem (.ofNat _ f.filterSize)

/-- Cell `j` has the position of hash `i`. -/
def isAt (value : BitVec 256) (i j : Nat) : Bool := BitVec.ofNat f.elementSize j == f.hashPos value i

def insert (value : BitVec 256) : BloomFilter :=
  { f with filter := fun j =>
      f.filter j || (decide (j < f.filterSize) && (List.range f.nHashes).any fun i => f.isAt value i j) }

/-- How often the scan for hash `i` adds one to the counter. -/
def hits (value : BitVec 256) (i : Nat) : Nat :=
  (List.range f.filterSize).countP fun j => f.isAt value i j && f.filter j

def contains (value : BitVec 256) : Bool :=
  (List.range f.nHashes).foldl (fun counter i => counter + BitVec.ofNat counterSize (f.hits value i)) 0 ==
    BitVec.ofNat counterSize f.nHashes

/-- The scan for hash `i` of `contains_and_insert`, which sets the cell it looks at. -/
def scanAndSet (value : BitVec 256) (s : BitVec counterSize × BloomFilter) (i : Nat) :
    BitVec counterSize × BloomFilter :=
  (s.1 + BitVec.ofNat counterSize (s.2.hits value i),
    { s.2 with filter := fun j => s.2.filter j || (decide (j < f.filterSize) && f.isAt value i j) })

/-- Whether the value was in the filter, and the filter with the value. -/
def containsAndInsert (value : BitVec 256) : Bool × BloomFilter :=
  let (counter, g) := (List.range f.nHashes).foldl (f.scanAndSet value) (0, f)
  (counter == BitVec.ofNat counterSize f.nHashes, g)

/-- One `insert` after the other. -/
def insertAll (values : List (BitVec 256)) : BloomFilter := values.foldl insert f

/-! ## What the filter answers -/

variable {f} {v : BitVec 256}

/-- Few enough hash functions for the counter, and a position of its own for every cell. -/
structure Sized (f : BloomFilter) : Prop where
  nHashes : f.nHashes < 2 ^ counterSize
  filterSize : f.filterSize ≤ 2 ^ f.elementSize

theorem hits_le_one (hf : f.filterSize ≤ 2 ^ f.elementSize) (v : BitVec 256) (i : Nat) :
    f.hits v i ≤ 1 := by
  unfold hits
  rw [List.countP_eq_length_filter]
  have hnodup := (List.nodup_range (n := f.filterSize)).filter fun j => f.isAt v i j && f.filter j
  by_contra htwo
  obtain ⟨x, y, hx, hy, hne⟩ : ∃ x y, x ∈ (List.range f.filterSize).filter
      (fun j => f.isAt v i j && f.filter j) ∧ y ∈ (List.range f.filterSize).filter
      (fun j => f.isAt v i j && f.filter j) ∧ x ≠ y := by
    match hl : (List.range f.filterSize).filter fun j => f.isAt v i j && f.filter j with
    | [] => simp [hl] at htwo
    | [x] => simp [hl] at htwo
    | x :: y :: l =>
      rw [hl] at hnodup
      exact ⟨x, y, by simp, by simp, fun h => by simp [h] at hnodup⟩
  simp only [List.mem_filter, List.mem_range, Bool.and_eq_true, isAt, beq_iff_eq] at hx hy
  refine hne ?_
  have heq := congrArg BitVec.toNat (hx.2.1.trans hy.2.1.symm)
  rwa [BitVec.toNat_ofNat, BitVec.toNat_ofNat, Nat.mod_eq_of_lt (by omega),
    Nat.mod_eq_of_lt (by omega)] at heq

/-- Hash `i` of the value hits a cell that is set. -/
def Hit (f : BloomFilter) (v : BitVec 256) (i : Nat) : Prop :=
  ∃ j < f.filterSize, f.isAt v i j = true ∧ f.filter j = true

theorem hits_eq_one_iff (hf : f.filterSize ≤ 2 ^ f.elementSize) {i : Nat} :
    f.hits v i = 1 ↔ f.Hit v i := by
  have hpos : 0 < f.hits v i ↔ f.Hit v i := by simp [hits, Hit, List.countP_pos_iff]
  have hle := hits_le_one hf v i
  rw [← hpos]
  omega

/-- Adding up at most one for each hash function reaches their number only with every one. -/
theorem sum_eq_length_iff {h : Nat → Nat} (hle : ∀ i, h i ≤ 1) (n : Nat) :
    ((List.range n).map h).sum ≤ n ∧
      (((List.range n).map h).sum = n ↔ ∀ i < n, h i = 1) := by
  induction n with
  | zero => simp
  | succ n ih =>
    have := hle n
    rw [List.range_succ, List.map_append, List.sum_append, List.map_singleton,
      List.sum_singleton]
    refine ⟨by omega, ?_⟩
    constructor
    · intro hsum i hi
      rcases Nat.lt_succ_iff_lt_or_eq.mp hi with hlt | rfl
      · exact ih.2.mp (by omega) i hlt
      · omega
    · intro hall
      rw [ih.2.mpr fun i hi => hall i (by omega), hall n (by omega)]

theorem counter_beq_iff {n : Nat} (hn : n < 2 ^ counterSize) {h : Nat → Nat}
    (hle : ∀ i, h i ≤ 1) :
    (BitVec.ofNat counterSize ((List.range n).map h).sum == BitVec.ofNat counterSize n) = true ↔
      ∀ i < n, h i = 1 := by
  obtain ⟨hsum, hiff⟩ := sum_eq_length_iff hle n
  rw [← hiff, beq_iff_eq, ← BitVec.toNat_inj, BitVec.toNat_ofNat, BitVec.toNat_ofNat,
    Nat.mod_eq_of_lt (by omega), Nat.mod_eq_of_lt hn]

theorem foldl_counter (h : Nat → Nat) (n : Nat) :
    (List.range n).foldl (fun counter i => counter + BitVec.ofNat counterSize (h i)) 0 =
      BitVec.ofNat counterSize ((List.range n).map h).sum := by
  induction n with
  | zero => rfl
  | succ n ih =>
    rw [List.range_succ, List.foldl_concat, ih]
    simp [BitVec.ofNat_add]

/-- A value is reported if and only if all its hashes hit. -/
theorem contains_iff (hf : Sized f) : f.contains v = true ↔ ∀ i < f.nHashes, f.Hit v i := by
  rw [contains, foldl_counter, counter_beq_iff hf.nHashes (hits_le_one hf.filterSize v)]
  simp only [hits_eq_one_iff hf.filterSize]

/-- The filter after the scans for the first `n` hashes. -/
def marked (f : BloomFilter) (v : BitVec 256) (n : Nat) : BloomFilter :=
  { f with filter := fun j =>
      f.filter j || (decide (j < f.filterSize) && (List.range n).any fun i => f.isAt v i j) }

theorem marked_isAt (n i j : Nat) : (f.marked v n).isAt v i j = f.isAt v i j := rfl

theorem foldl_scanAndSet (n : Nat) : (List.range n).foldl (f.scanAndSet v) (0, f) =
    (BitVec.ofNat counterSize ((List.range n).map fun i => (f.marked v i).hits v i).sum,
      f.marked v n) := by
  induction n with
  | zero => simp [marked]
  | succ n ih =>
    rw [List.range_succ, List.foldl_append, ih, List.map_append, List.sum_append, BitVec.ofNat_add]
    simp only [List.foldl_cons, List.foldl_nil, scanAndSet, List.map_cons, List.map_nil,
      List.sum_singleton, Prod.mk.injEq, true_and]
    simp [marked, List.range_succ, Bool.and_or_distrib_left, Bool.or_assoc]

/-- Setting cells on the way does not change whether all hashes hit: the first one that misses
in the filter as it was finds no cell that an earlier one, which hit, could have set. -/
theorem forall_hit_marked_iff (hf : f.filterSize ≤ 2 ^ f.elementSize) (n : Nat) :
    (∀ i < n, (f.marked v i).Hit v i) ↔ ∀ i < n, f.Hit v i := by
  constructor
  · intro h i
    induction i using Nat.strongRecOn with
    | ind i ih =>
      intro hi
      obtain ⟨j, hj, hat, hset⟩ := h i hi
      rw [marked_isAt] at hat
      simp only [marked, Bool.or_eq_true, Bool.and_eq_true, decide_eq_true_eq,
        List.any_eq_true, List.mem_range] at hset
      rcases hset with hset | ⟨_, i', hi', hat'⟩
      · exact ⟨j, hj, hat, hset⟩
      · obtain ⟨j', hj', hat'', hset'⟩ := ih i' hi' (by omega)
        have hsame : j' = j := by
          have heq := congrArg BitVec.toNat
            ((beq_iff_eq.mp hat'').trans (beq_iff_eq.mp hat').symm)
          change j' < f.filterSize at hj'
          change j < f.filterSize at hj
          rwa [BitVec.toNat_ofNat, BitVec.toNat_ofNat, Nat.mod_eq_of_lt (by omega),
            Nat.mod_eq_of_lt (by omega)] at heq
        exact ⟨j, hj, hat, hsame ▸ hset'⟩
  · intro h i hi
    obtain ⟨j, hj, hat, hset⟩ := h i hi
    exact ⟨j, hj, hat, by simp [marked, hset]⟩

/-- `contains_and_insert` is `contains` and then `insert`. -/
theorem containsAndInsert_spec (hf : Sized f) (v : BitVec 256) :
    f.containsAndInsert v = (f.contains v, f.insert v) := by
  rw [containsAndInsert, foldl_scanAndSet]
  refine Prod.ext ?_ rfl
  rw [Bool.eq_iff_iff, contains_iff hf,
    counter_beq_iff hf.nHashes fun i => hits_le_one (f := f.marked v i) hf.filterSize v i,
    ← forall_hit_marked_iff hf.filterSize]
  exact forall_congr' fun i => forall_congr' fun _ =>
    hits_eq_one_iff (f := f.marked v i) hf.filterSize

theorem insertAll_eq (values : List (BitVec 256)) :
    f.insertAll values = { f with filter := fun j => (f.filter j ||
      values.any fun u => decide (j < f.filterSize) &&
        (List.range f.nHashes).any fun i => f.isAt u i j) } := by
  induction values generalizing f with
  | nil => simp [insertAll]
  | cons u values ih =>
    rw [insertAll, List.foldl_cons, ← insertAll, ih]
    simp only [List.any_cons, ← Bool.or_assoc]
    rfl

/-- Whatever the counter says, `contains_and_insert` inserts. -/
theorem containsAndInsert_snd (f : BloomFilter) (v : BitVec 256) :
    (f.containsAndInsert v).2 = f.insert v := by
  rw [containsAndInsert, foldl_scanAndSet]
  rfl

end BloomFilter

end CoVault.PathQuery
