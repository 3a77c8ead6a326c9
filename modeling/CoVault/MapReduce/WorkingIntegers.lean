import CoVault.MapReduce.UniqueDevices

/-!
# The working integers of the unique-device mapper

`did_1`, `did_2` and `conf` are made once and filled anew in every row. The expression that
takes the fingerprint of a row cuts `did_2` to `hashbits` bits in place, and the next row
fills it as if it still had `didbits`. Here every use of a bit is recorded with the width
that the integer has at that time.
-/

namespace CoVault.MapReduce

open Circuit Library.Slices

inductive WorkingInteger where
  | did1
  | did2
  | conf
  deriving DecidableEq, Repr

/-- A use of one bit of a working integer. -/
structure BitAccess where
  integer : WorkingInteger
  index : Nat
  /-- of the integer, at the time of the use -/
  width : Nat
  deriving DecidableEq, Repr

/-- The index is inside the integer. -/
def BitAccess.Inside (a : BitAccess) : Prop := a.index < a.width

instance (a : BitAccess) : Decidable a.Inside := inferInstanceAs (Decidable (a.index < a.width))

structure MapperState where
  working : WorkingInteger → Integer
  accesses : List BitAccess
  tile : List Integer
  startIdx : Nat

namespace MapperState

def access (s : MapperState) (v : WorkingInteger) (i : Nat) : MapperState :=
  { s with accesses := s.accesses ++ [⟨v, i, (s.working v).length⟩] }

/-- What is written behind the last bit is not part of the integer. -/
def writeBit (s : MapperState) (v : WorkingInteger) (i : Nat) (bit : Bool) : MapperState :=
  { s.access v i with working := Function.update s.working v ((s.working v).set i bit) }

/-- The `n` bits of a field of the row, bit `i` to place `place i`. -/
def fill (s : MapperState) (v : WorkingInteger) (n : Nat) (place : Nat → Nat)
    (bits : Nat → Bool) : MapperState :=
  (List.range n).foldl (fun s i => s.writeBit v (place i) (bits i)) s

/-- `Integer::resize`, in place. -/
def resize (s : MapperState) (v : WorkingInteger) (width : Nat) : MapperState :=
  let bits := s.working v
  let resized := bits.take width ++ List.replicate (width - bits.length) (bits.getLastD false)
  { s with working := Function.update s.working v resized }

variable (redisValue : Tile) (sick : BitVec didbits) (inPlace : Bool)

/-- The three loops that copy the bits of encounter `j`. -/
def load (s : MapperState) (j : Nat) : MapperState :=
  let skip := tilebits - 8
  let s := s.fill .did1 didbits id fun i => redisValue (j * tilebits + i)
  let s := s.fill .did2 didbits id fun i => redisValue (j * tilebits + didbits + i)
  s.fill .conf 8 (7 - ·) fun i => redisValue (j * tilebits + skip + i)

/-- One encounter of the tile. -/
def row (s : MapperState) (j : Nat) : MapperState :=
  let s := (load redisValue s j).access .conf 0
  -- both operands of the `emp::If` are computed
  let s := s.resize .did2 hashbits
  let word := if s.working .did1 == bitsOf sick && (s.working .conf).getD 0 false == true then
    s.working .did2 else bitsOf noneWord
  if inPlace then { s with tile := s.tile.set s.startIdx word, startIdx := s.startIdx + 1 }
  else { s with tile := s.tile ++ [word] }

/-- The integers before the first row. -/
def start (tile : List Integer) (startIdx : Nat) : MapperState where
  working
    | .did1 => List.replicate didbits false
    | .did2 => List.replicate didbits false
    | .conf => List.replicate 8 false
  accesses := []
  tile := tile
  startIdx := startIdx

/-- `run_query_unique_devices` on the value of the key. -/
def runQueryUniqueDevices (tile : List Integer) (tileSize startIdx : Nat) : MapperState :=
  (List.range tileSize).foldl (row redisValue sick inPlace) (start tile startIdx)

/-! ## One row -/

def widths (s : MapperState) (v : WorkingInteger) : Nat := (s.working v).length

theorem fill_eq (s : MapperState) (v : WorkingInteger) (n : Nat) (place : Nat → Nat)
    (bits : Nat → Bool) : s.fill v n place bits =
      { s with
        working := Function.update s.working v (filled n place bits (s.working v))
        accesses := s.accesses ++ (List.range n).map fun i => ⟨v, place i, s.widths v⟩ } := by
  induction n with
  | zero => simp [fill, filled]
  | succ n ih =>
    have hlast : s.fill v (n + 1) place bits =
        (s.fill v n place bits).writeBit v (place n) (bits n) := by
      rw [fill, List.range_succ, List.foldl_append]
      rfl
    rw [hlast, ih, filled_succ]
    simp [writeBit, access, widths, List.range_succ]

/-- The bits that a row uses. -/
def rowAccesses (widths : WorkingInteger → Nat) : List BitAccess :=
  ((List.range didbits).map fun i => ⟨.did1, i, widths .did1⟩) ++
    ((List.range didbits).map fun i => ⟨.did2, i, widths .did2⟩) ++
    ((List.range 8).map fun i => ⟨.conf, 7 - i, widths .conf⟩) ++ [⟨.conf, 0, widths .conf⟩]

theorem accesses_row (s : MapperState) (j : Nat) :
    (row redisValue sick inPlace s j).accesses = s.accesses ++ rowAccesses s.widths := by
  cases inPlace <;> simp [row, load, fill_eq, access, resize, widths, rowAccesses]

/-- A row leaves `did_2` cut, and the other integers as wide as they were. -/
theorem widths_row (s : MapperState) (j : Nat) :
    (row redisValue sick inPlace s j).widths = Function.update s.widths .did2 hashbits := by
  funext v
  cases v with
  | did1 => cases inPlace <;> simp [row, load, fill_eq, access, resize, widths]
  | did2 =>
    have hcut : ∀ n, min hashbits n + (hashbits - n) = hashbits := by omega
    cases inPlace <;> simp [row, load, fill_eq, access, resize, widths, hcut]
  | conf => cases inPlace <;> simp [row, load, fill_eq, access, resize, widths]

/-- Whether a row stays inside depends on the widths that the row before it has left. -/
theorem rowAccesses_inside_iff (widths : WorkingInteger → Nat) :
    (∀ a ∈ rowAccesses widths, a.Inside) ↔
      didbits ≤ widths .did1 ∧ didbits ≤ widths .did2 ∧ 8 ≤ widths .conf := by
  simp only [rowAccesses, List.forall_mem_append, List.forall_mem_map, List.mem_range,
    List.forall_mem_singleton, BitAccess.Inside]
  constructor
  · rintro ⟨⟨⟨hdid1, hdid2⟩, hconf⟩, -⟩
    exact ⟨forall_lt_iff_le.mp hdid1, forall_lt_iff_le.mp hdid2, hconf 0 (by decide)⟩
  · rintro ⟨hdid1, hdid2, hconf⟩
    refine ⟨⟨⟨fun i hi => ?_, fun i hi => ?_⟩, fun i hi => ?_⟩, ?_⟩
    · exact hi.trans_le hdid1
    · exact hi.trans_le hdid2
    · omega
    · omega

/-! ## All rows -/

def rows (s : MapperState) (n : Nat) : MapperState :=
  (List.range n).foldl (row redisValue sick inPlace) s

theorem rows_succ (s : MapperState) (n : Nat) : rows redisValue sick inPlace s (n + 1) =
    row redisValue sick inPlace (rows redisValue sick inPlace s n) n := by
  rw [rows, rows, List.range_succ, List.foldl_append, List.foldl_cons, List.foldl_nil]

theorem accesses_rows (s : MapperState) (n : Nat) :
    (rows redisValue sick inPlace s n).accesses = s.accesses ++
      (List.range n).flatMap fun j => rowAccesses (rows redisValue sick inPlace s j).widths := by
  induction n with
  | zero => simp [rows]
  | succ n ih => simp [rows_succ, accesses_row, ih, List.range_succ]

/-- After any row the widths are those after the first. -/
theorem widths_rows_succ (s : MapperState) (n : Nat) :
    (rows redisValue sick inPlace s (n + 1)).widths = Function.update s.widths .did2 hashbits := by
  induction n with
  | zero => rw [rows_succ, widths_row]; rfl
  | succ n ih => rw [rows_succ, widths_row, ih, Function.update_idem]

theorem widths_start (tile : List Integer) (startIdx : Nat) (v : WorkingInteger) :
    (start tile startIdx).widths v = match v with
      | .did1 => didbits
      | .did2 => didbits
      | .conf => 8 := by
  cases v <;> simp [widths, start]

variable (tile : List Integer) (tileSize startIdx : Nat)

theorem mem_accesses_iff (a : BitAccess) :
    a ∈ (runQueryUniqueDevices redisValue sick inPlace tile tileSize startIdx).accesses ↔
      ∃ j < tileSize,
        a ∈ rowAccesses (rows redisValue sick inPlace (start tile startIdx) j).widths := by
  have hrun : runQueryUniqueDevices redisValue sick inPlace tile tileSize startIdx =
    rows redisValue sick inPlace (start tile startIdx) tileSize := rfl
  rw [hrun, accesses_rows]
  simp [start]

/-- Every index is inside its integer if and only if no row comes after another. -/
theorem runQueryUniqueDevices_inside_iff :
    (∀ a ∈ (runQueryUniqueDevices redisValue sick inPlace tile tileSize startIdx).accesses,
      a.Inside) ↔ tileSize ≤ 1 := by
  simp only [mem_accesses_iff]
  constructor
  · intro hinside
    by_contra hmany
    have hsecond := (rowAccesses_inside_iff _).mp fun a ha => hinside a ⟨1, by omega, ha⟩
    rw [widths_rows_succ, Function.update_self] at hsecond
    exact absurd hsecond.2.1 (by decide)
  · rintro hone a ⟨j, hj, ha⟩
    obtain rfl : j = 0 := by omega
    refine (rowAccesses_inside_iff _).mpr ?_ a ha
    simp only [rows, List.range_zero, List.foldl_nil, widths_start]
    decide

/-- Two rows: the second fills 256 bits of an integer of 32. -/
theorem secondRow_outside :
    ¬ ∀ a ∈ (runQueryUniqueDevices (fun _ => false) 0 false [] 2 0).accesses, a.Inside := by
  intro hinside
  have hlast : (⟨.did2, 255, 32⟩ : BitAccess) ∈
      (runQueryUniqueDevices (fun _ => false) 0 false [] 2 0).accesses := by
    refine (mem_accesses_iff ..).mpr ⟨1, by decide, ?_⟩
    rw [widths_rows_succ]
    simp [rowAccesses, didbits, hashbits]
  exact absurd (hinside _ hlast) (by decide)

/-! ## What is appended -/

/-- Wide enough for the fingerprint, which is all that is taken of `did_2`. -/
structure Usable (s : MapperState) : Prop where
  did1 : s.widths .did1 = didbits
  did2 : hashbits ≤ s.widths .did2 ∧ s.widths .did2 ≤ didbits
  conf : s.widths .conf = 8

variable {redisValue sick inPlace} {s : MapperState}

theorem Usable.load_did1 (h : s.Usable) (j : Nat) :
    (load redisValue s j).working .did1 = bitsOf (redisValue.did1 j) := by
  have hwidth : (s.working .did1).length = didbits := h.did1
  have hfilled := filled_eq (n := didbits) (fun i => redisValue (j * tilebits + i))
    (s.working .did1) Function.injective_id.injOn id fun k hk => ⟨hwidth ▸ hk, rfl⟩
  rw [Tile.did1, bitsOf_ofBits (by simp)]
  simpa [load, fill_eq, hwidth] using hfilled

theorem Usable.load_did2 (h : s.Usable) (j : Nat) :
    ((load redisValue s j).working .did2).take hashbits =
      bitsOf ((redisValue.did2 j).setWidth hashbits) := by
  have hle : hashbits ≤ didbits := by decide
  have hwidth : (s.working .did2).length ≤ didbits := h.did2.2
  have hfilled := filled_eq (n := didbits) (fun i => redisValue (j * tilebits + didbits + i))
    (s.working .did2) Function.injective_id.injOn id fun k hk => ⟨hk.trans_le hwidth, rfl⟩
  have hload : (load redisValue s j).working .did2 = (List.range (s.widths .did2)).map fun i =>
      redisValue (j * tilebits + didbits + i) := by
    simpa [load, fill_eq, widths] using hfilled
  rw [hload, ← ofBits_bitsOf_setWidth, Tile.did2,
    bitsOf_ofBits (w := didbits) (by simp), bitsOf_ofBits_of_le (by simpa using hle),
    ← List.map_take, ← List.map_take, List.take_range, List.take_range,
    Nat.min_eq_left h.did2.1, Nat.min_eq_left hle]

theorem Usable.load_conf (h : s.Usable) (j : Nat) :
    (load redisValue s j).working .conf = redisValue.conf j := by
  have hwidth : (s.working .conf).length = 8 := h.conf
  have hplace : Set.InjOn (7 - ·) {i | i < 8} :=
    fun i (hi : i < 8) k (hk : k < 8) (heq : 7 - i = 7 - k) => by omega
  have hfilled := filled_eq (fun i => redisValue (j * tilebits + (tilebits - 8) + i))
    (s.working .conf) hplace (7 - ·) fun k hk => by omega
  simpa [load, fill_eq, hwidth, Tile.conf] using hfilled

theorem Usable.step (h : s.Usable) (j : Nat) : (row redisValue sick inPlace s j).Usable := by
  have hwidths := widths_row redisValue sick inPlace s j
  have hle : hashbits ≤ didbits := by decide
  refine ⟨?_, ?_, ?_⟩
  · rw [hwidths, Function.update_of_ne (by decide), h.did1]
  · rw [hwidths, Function.update_self]
    exact ⟨le_rfl, hle⟩
  · rw [hwidths, Function.update_of_ne (by decide), h.conf]

/-- The word that goes into the tile is the fingerprint, whatever the width of `did_2`. -/
theorem Usable.tile_row (h : s.Usable) (j : Nat) :
    (row redisValue sick inPlace s j).tile =
      if inPlace then s.tile.set s.startIdx (bitsOf (redisValue.fingerprint sick j))
      else s.tile ++ [bitsOf (redisValue.fingerprint sick j)] := by
  have hwidth : ((load redisValue s j).working .did2).length = s.widths .did2 := by
    simp [load, fill_eq, widths]
  have htile : (load redisValue s j).tile = s.tile ∧
      (load redisValue s j).startIdx = s.startIdx := by
    simp [load, fill_eq]
  have hnothing : hashbits - s.widths .did2 = 0 := Nat.sub_eq_zero_of_le h.did2.1
  have hdid1 : (bitsOf (redisValue.did1 j) == bitsOf sick) = (redisValue.did1 j == sick) :=
    Bool.eq_iff_iff.mpr (by simp [bitsOf_injective.eq_iff])
  have hword : (if (load redisValue s j).working .did1 == bitsOf sick &&
      ((load redisValue s j).working .conf).getD 0 false == true then
      ((load redisValue s j).working .did2).take hashbits else bitsOf noneWord) =
      bitsOf (redisValue.fingerprint sick j) := by
    rw [h.load_did1, h.load_did2, h.load_conf, hdid1, Tile.fingerprint, Tile.isMatch]
    split_ifs <;> rfl
  rw [← hword]
  cases inPlace <;> simp [row, access, resize, hwidth, hnothing, htile]

theorem Usable.run (h : s.Usable) (n : Nat) : (rows redisValue sick inPlace s n).Usable := by
  induction n with
  | zero => exact h
  | succ n ih =>
    rw [rows_succ]
    exact ih.step n

theorem start_usable (tile : List Integer) (startIdx : Nat) : (start tile startIdx).Usable where
  did1 := widths_start tile startIdx .did1
  did2 := by
    rw [widths_start]
    decide
  conf := widths_start tile startIdx .conf

/-- Bits that are written outside are never read: the words are appended as if `did_2` were
as wide in every row. -/
theorem tile_emplaceBack (tile : List Integer) (tileSize startIdx : Nat) :
    (runQueryUniqueDevices redisValue sick false tile tileSize startIdx).tile =
      tile ++ (MapReduce.runQueryUniqueDevices tileSize sick redisValue).map bitsOf := by
  suffices h : ∀ n, (rows redisValue sick false (start tile startIdx) n).tile =
      tile ++ (MapReduce.runQueryUniqueDevices n sick redisValue).map bitsOf from h tileSize
  intro n
  induction n with
  | zero => exact (List.append_nil tile).symm
  | succ n ih =>
    rw [rows_succ, ((start_usable tile startIdx).run n).tile_row, if_neg Bool.false_ne_true, ih,
      MapReduce.runQueryUniqueDevices, MapReduce.runQueryUniqueDevices, List.range_succ,
      List.map_append, List.map_append, List.append_assoc]
    rfl

theorem tile_startIdx_rows (tile : List Integer) (startIdx n : Nat) :
    ((rows redisValue sick true (start tile startIdx) n).tile,
      (rows redisValue sick true (start tile startIdx) n).startIdx) =
      ((MapReduce.runQueryUniqueDevices n sick redisValue).map bitsOf).foldl
        (fun s word => (s.1.set s.2 word, s.2 + 1)) (tile, startIdx) := by
  induction n with
  | zero => rfl
  | succ n ih =>
    have hstartIdx : ∀ s : MapperState,
        (row redisValue sick true s n).startIdx = s.startIdx + 1 := by
      intro s
      simp [row, load, fill_eq, access, resize]
    rw [rows_succ, ((start_usable tile startIdx).run n).tile_row, if_pos rfl, hstartIdx,
      MapReduce.runQueryUniqueDevices, List.range_succ, List.map_append, List.map_append,
      List.foldl_append, ← MapReduce.runQueryUniqueDevices, ← ih]
    rfl

/-- Where there is room, the words replace those from `startIdx` on. -/
theorem tile_inPlace {tile : List Integer} {tileSize startIdx : Nat}
    (hroom : startIdx + tileSize ≤ tile.length) :
    (runQueryUniqueDevices redisValue sick true tile tileSize startIdx).tile = overwrite tile
      startIdx ((MapReduce.runQueryUniqueDevices tileSize sick redisValue).map bitsOf) := by
  have hlength : ((MapReduce.runQueryUniqueDevices tileSize sick redisValue).map bitsOf).length =
      tileSize := by
    rw [List.length_map, length_runQueryUniqueDevices]
  have hrows := @tile_startIdx_rows redisValue sick tile startIdx tileSize
  rw [foldl_set_eq_overwrite _ _ (by rwa [hlength])] at hrows
  exact congrArg Prod.fst hrows

end MapperState

end CoVault.MapReduce
