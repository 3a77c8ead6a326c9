import Mathlib
import CoVault.MapReduce.Query

/-!
# The counting query

Every process counts the matches of its tiles one tile at a time and then adds what the
processes below it in the reduce tree send. The width of a counter is the width of the
size of one tile. The map loop keeps two counters, of the current tile and of all tiles so
far, and the reduce layers go on with the first.
-/

namespace CoVault.MapReduce

open Circuit

/-- `floor(log2(tile_size)) + 1`. -/
def counterBits (tileSize : Nat) : Nat := Nat.log 2 tileSize + 1

variable (tileSize : Nat) (sick : BitVec didbits)

def runQueryCountEncounters (redisValue : Tile) : BitVec (counterBits tileSize) :=
  (List.range tileSize).foldl
    (fun count j => count + if redisValue.isMatch j sick then 1 else 0) 0

/-- The map loop: `count` and `sum` in the end. -/
def mapLoop (tiles : List Tile) : BitVec (counterBits tileSize) × BitVec (counterBits tileSize) :=
  tiles.foldl (fun (_, sum) redisValue =>
    let count := runQueryCountEncounters tileSize sick redisValue
    (count, sum + count)) (0, 0)

/-- A process with the part of the reduce tree whose counters have reached it. -/
inductive Process where
  /-- after the map loop over its tiles -/
  | mapper (tiles : List Tile)
  /-- after one more layer in which it has received the counter of another process -/
  | reducer (channel : Channel) (self other : Process)

/-- The first `w` bits of a word as an adder reads them; `beyond` is what lies behind it. -/
def readBits (w : Nat) (beyond : Nat → Bool) (xs : Integer) : BitVec w :=
  ofBits w ((List.range w).map fun j => xs.getD j (beyond j))

namespace Process

/-- What a process holds in `count`. Bits read past the end of a counter come from `junk`, which
may differ from transfer to transfer; the list says where in the tree the transfer is. -/
def count (junk : List Bool → Nat → Bool) : Process → BitVec (counterBits tileSize)
  | mapper tiles => (mapLoop tileSize sick tiles).1
  | reducer channel self other =>
    let sent := other.count fun path => junk (true :: path)
    let counterToSum := (channel.transport (junk []) [bitsOf sent]).headD []
    self.count (fun path => junk (false :: path)) + readBits _ (junk []) counterToSum

/-- Every match of every tile of every process of the tree. -/
def total : Process → Nat
  | mapper tiles => (tiles.map fun v => v.matchCount tileSize sick).sum
  | reducer _ self other => self.total + other.total

/-- No process finds a match in a tile that is not its last. -/
def LastOnly : Process → Prop
  | mapper tiles => ∀ v ∈ tiles.dropLast, v.matchCount tileSize sick = 0
  | reducer _ self other => self.LastOnly ∧ other.LastOnly

def isMapper : Process → Bool
  | mapper _ => true
  | reducer .. => false

/-- The matches in the last tiles. -/
def lastTotal : Process → Nat
  | mapper tiles => (tiles.getLast?.map fun v => v.matchCount tileSize sick).getD 0
  | reducer _ self other => self.lastTotal + other.lastTotal

end Process

/-! ## What the code counts -/

theorem foldl_add_ite {w : Nat} (p : Nat → Bool) (l : List Nat) (c : BitVec w) :
    l.foldl (fun count j => count + if p j then 1 else 0) c = c + BitVec.ofNat w (l.countP p) := by
  induction l generalizing c with
  | nil => simp
  | cons j l ih =>
    rw [List.foldl_cons, ih, List.countP_cons, BitVec.add_assoc]
    congr 1
    by_cases hp : p j = true
    · simp [hp, BitVec.ofNat_add, BitVec.add_comm]
    · simp [hp]

theorem runQueryCountEncounters_eq (redisValue : Tile) :
    runQueryCountEncounters tileSize sick redisValue =
      BitVec.ofNat _ (redisValue.matchCount tileSize sick) := by
  rw [runQueryCountEncounters, foldl_add_ite]
  exact BitVec.zero_add _

/-- After the map loop `count` belongs to the last tile alone. -/
theorem mapLoop_count (tiles : List Tile) :
    (mapLoop tileSize sick tiles).1 =
      BitVec.ofNat _ ((tiles.getLast?.map fun v => v.matchCount tileSize sick).getD 0) := by
  rcases List.eq_nil_or_concat tiles with rfl | ⟨front, v, rfl⟩
  · rfl
  · simp [mapLoop, runQueryCountEncounters_eq]

/-- While `sum` belongs to all of them. -/
theorem mapLoop_sum (tiles : List Tile) :
    (mapLoop tileSize sick tiles).2 =
      BitVec.ofNat _ (tiles.map fun v => v.matchCount tileSize sick).sum := by
  induction tiles using List.reverseRecOn with
  | nil => rfl
  | append_singleton front v ih =>
    rw [mapLoop, List.foldl_concat, ← mapLoop]
    simp [ih, runQueryCountEncounters_eq, BitVec.ofNat_add]

namespace Process

variable {tileSize sick}

theorem getLsbD_readBits {w j : Nat} (hj : j < w) (beyond : Nat → Bool) (xs : Integer) :
    (readBits w beyond xs).getLsbD j = xs.getD j (beyond j) := by
  rw [readBits, getLsbD_ofBits]
  simp [hj, List.getD_eq_getElem?_getD]

theorem headD_transport (channel : Channel) (beyond : Nat → Bool) (x : Integer) :
    (channel.transport beyond [x]).headD [] = sentWord beyond x := by
  rw [channel.transport_eq]
  rfl

/-- A counter no wider than a transported word arrives as it was. -/
theorem readBits_sentWord {w : Nat} (hw : w ≤ hashbits) (beyond : Nat → Bool) (x : BitVec w) :
    readBits w beyond (sentWord beyond (bitsOf x)) = x := by
  apply BitVec.eq_of_getLsbD_eq
  intro j hj
  rw [getLsbD_readBits hj, getD_sentWord beyond _ (by omega), ← getD_bitsOf,
    List.getD_eq_getElem?_getD, List.getD_eq_getElem?_getD,
    List.getElem?_eq_getElem (by simpa using hj)]
  rfl

/-- Of a wider counter, bit `hashbits` is whatever lies behind the received word. -/
theorem getLsbD_readBits_sentWord {w : Nat} (hw : hashbits < w) (beyond : Nat → Bool)
    (x : BitVec w) :
    (readBits w beyond (sentWord beyond (bitsOf x))).getLsbD hashbits = beyond hashbits := by
  rw [getLsbD_readBits hw, List.getD_eq_getElem?_getD, List.getElem?_eq_none (by simp)]
  rfl

theorem count_eq_lastTotal (p : Process) (hw : counterBits tileSize ≤ hashbits ∨ p.isMapper)
    (junk : List Bool → Nat → Bool) :
    p.count tileSize sick junk = BitVec.ofNat _ (p.lastTotal tileSize sick) := by
  induction p generalizing junk with
  | mapper tiles => exact mapLoop_count tileSize sick tiles
  | reducer channel self other ihself ihother =>
    have hw : counterBits tileSize ≤ hashbits := by simpa [isMapper] using hw
    rw [count, headD_transport, readBits_sentWord hw, ihself (.inl hw), ihother (.inl hw), lastTotal,
      BitVec.ofNat_add]

theorem lastTotal_le_total (p : Process) (tileSize : Nat) (sick : BitVec didbits) :
    p.lastTotal tileSize sick ≤ p.total tileSize sick ∧
    (p.lastTotal tileSize sick = p.total tileSize sick ↔ p.LastOnly tileSize sick) := by
  induction p with
  | mapper tiles =>
    rcases List.eq_nil_or_concat tiles with rfl | ⟨front, v, rfl⟩
    · simp [lastTotal, total, LastOnly]
    · have hsum : (front.map fun v => v.matchCount tileSize sick).sum = 0 ↔
          ∀ v ∈ front, v.matchCount tileSize sick = 0 := by
        rw [List.sum_eq_zero_iff_forall_eq_nat]
        simp
      simp only [LastOnly, List.concat_eq_append, List.dropLast_concat, ← hsum]
      simp [lastTotal, total]
  | reducer channel self other ihself ihother =>
    obtain ⟨h1, h2⟩ := ihself
    obtain ⟨h3, h4⟩ := ihother
    rw [LastOnly, ← h2, ← h4]
    simp only [lastTotal, total]
    omega

/-- A transported counter that does not fit takes on any value. -/
theorem exists_junk_ne (channel : Channel) (self other : Process)
    (hw : hashbits < counterBits tileSize) (n : Nat) :
    ∃ junk, ((reducer channel self other).count tileSize sick junk).toNat ≠ n := by
  by_contra hall
  push Not at hall
  have hsame := (hall fun _ _ => false).trans
    (hall fun path j => path.isEmpty && j == hashbits).symm
  rw [← BitVec.toNat_eq, count, count, headD_transport, headD_transport] at hsame
  simp only [List.isEmpty_cons, Bool.false_and] at hsame
  have hbit := congrArg (·.getLsbD hashbits) (BitVec.add_right_inj _ |>.mp hsame)
  simp only [getLsbD_readBits_sentWord hw] at hbit
  simp at hbit

/-- The counter of the root is the total of the tree, whatever lies behind the transported words,
if and only if only last tiles have matches, the total fits into a counter, and a counter fits
into a transported word. -/
theorem count_eq_total_iff (p : Process) :
    (∀ junk, (p.count tileSize sick junk).toNat = p.total tileSize sick) ↔
      p.LastOnly tileSize sick ∧ p.total tileSize sick < 2 ^ counterBits tileSize ∧
        (counterBits tileSize ≤ hashbits ∨ p.isMapper) := by
  obtain ⟨hle, hlast⟩ := p.lastTotal_le_total tileSize sick
  by_cases hw : counterBits tileSize ≤ hashbits ∨ p.isMapper
  · simp only [p.count_eq_lastTotal hw, BitVec.toNat_ofNat, forall_const, ← hlast, hw, and_true]
    have hmod := Nat.mod_le (p.lastTotal tileSize sick) (2 ^ counterBits tileSize)
    constructor
    · intro h
      have hlt := Nat.mod_lt (p.lastTotal tileSize sick) (Nat.two_pow_pos (counterBits tileSize))
      omega
    · rintro ⟨heq, hlt⟩
      rw [heq, Nat.mod_eq_of_lt hlt]
  · refine iff_of_false (fun hall => ?_) (fun h => hw h.2.2)
    rw [not_or] at hw
    cases p with
    | mapper tiles => exact hw.2 rfl
    | reducer channel self other =>
      obtain ⟨junk, hne⟩ := exists_junk_ne channel self other (Nat.lt_of_not_le hw.1)
        ((reducer channel self other).total tileSize sick)
      exact hne (hall junk)

/-- A process with two tiles of one encounter each, the first one a match. -/
def twoTiles : Process := mapper [.ofEncounters [(1, 2, true)], .ofEncounters [(3, 2, true)]]

theorem twoTiles_drops_match : ¬ ∀ junk, (twoTiles.count 1 1 junk).toNat = twoTiles.total 1 1 := by
  intro h
  have hcount : (twoTiles.count 1 1 fun _ _ => false).toNat = 0 := by decide +kernel
  have htotal : twoTiles.total 1 1 = 1 := by decide +kernel
  have := h fun _ _ => false
  omega

end Process

end CoVault.MapReduce
