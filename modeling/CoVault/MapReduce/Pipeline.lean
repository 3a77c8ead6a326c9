import CoVault.Ingress.Reciprocation
import CoVault.Library.Codes
import CoVault.MapReduce.FirstStage
import CoVault.MapReduce.StoredTile

/-!
# From the ingress to the first reducer

All tiles of one size have the same keys, so that the ingress overwrites the tile before, and a
mapper sends the first reducer one and the same tile as often as it is told to. It asks for the
device that comes first in the tile. However many copies there are, the last one brings all
fingerprints.
-/

namespace CoVault.MapReduce

open Circuit Encounters Ingress Library.Cells Library.Codes Library.Slices

section Model

/-- One tile for the ingress: its size, the generator, what lies in the buffer, and how often the
generator may draw. -/
structure Upload where
  tileSize : Nat
  generator : Generator
  buffer : Nat → Bool
  fuel : Nat

variable (sort : List (Integer × Integer) → List (Integer × Integer))

/-- The keys after the sort, in the order of the tile. -/
def sortedKeys (u : Upload) : Option (Nat → Integer) := do
  let (_, shareA, shareB) ← u.generator.fillShareEncounters u.fuel u.tileSize 0
  let sortKey := recombine (fillIntegers u.buffer shareA false [.id])
    (fillIntegers u.buffer shareB false [.id])
  let tile := recombine (fillIntegers u.buffer shareA false dataFields)
    (fillIntegers u.buffer shareB false dataFields)
  some (ofList ((sort (sortKey.zip tile)).map Prod.fst) [])

/-- The rows that `store_garbled_data` is called with. -/
def storedRows (tileSize : Nat) (sortKey tile : Nat → Integer) : List StoredRow :=
  (List.range tileSize).map fun j => ⟨ofBits didbits (sortKey j), ofBits tilebits (tile j), 0, 0⟩

/-- `main` of the ingress for one tile. The values in the store are those under the keys that end in
the tile size; they are empty if there are none. -/
def ingressGv (kvs : Nat → Store) (u : Upload) : Option (Nat → Store) := do
  let sortKey ← sortedKeys sort u
  let (_, tile) ← ingress u.generator u.buffer sort u.fuel u.tileSize 0
  some (Function.update kvs u.tileSize
    (storeGarbledData (storedRows u.tileSize sortKey tile)))

/-- `main` of the mapper: what it sends to its reducer. -/
def mapperGv (beyond : Nat → Bool) (nTiles tileSize : Nat) (kvs : Nat → Store) :
    Option (List Bool) :=
  if (kvs tileSize).sick.isEmpty then none
  else
    let sick := getSickDid ((kvs tileSize).sick.memory beyond)
    (List.range nTiles).foldlM (fun sent _ => do
      let tile ← queryUniqueDevices (kvs tileSize).tile beyond [] tileSize sick false 0
      some (sent ++ tile.flatMap bitsOf)) []

/-- The blocks of one word; without them the reducer waits for ever. -/
def recvWord (blocks : List Bool) : Option (Word × List Bool) :=
  if blocks.length < hashbits then none
  else some (ofBits hashbits (blocks.take hashbits), blocks.drop hashbits)

/-- `main` of the first reducer, up to the compacted list. -/
def l1Reducer (rank : Word → Nat) (fresh : Nat → Word) (nTiles tileSize : Nat)
    (blocks : List Bool) : Option (Nat → Word) := do
  let (tiles, _) ← readMany (readMany recvWord tileSize) nTiles blocks
  firstStage rank tileSize fresh tiles

/-- The ingress, tile by tile, and then a mapper that sends some tiles of one size to a reducer that
waits for some. -/
def uniqueDevicesQuery (rank : Word → Nat) (fresh : Nat → Word) (beyond : Nat → Bool)
    (kvs : Nat → Store) (uploads : List Upload) (sent expected tileSize : Nat) :
    Option (Nat → Word) := do
  let kvs ← uploads.foldlM (ingressGv sort) kvs
  let blocks ← mapperGv beyond sent tileSize kvs
  l1Reducer rank fresh expected tileSize blocks

end Model

/-! ## What the query is for -/

/-- The device of the first row of a tile. -/
def firstDevice (tile : Value) : BitVec didbits := ofBits didbits (slice tile 0 didbits)

/-- A device has met another one with this fingerprint, and both have reported it. -/
def Met (es : List Encounter) (sick : BitVec didbits) (w : Word) : Prop :=
  ∃ i e e', es[i]? = some e ∧ e.device = sick ∧ e.reciprocated = true ∧
    es[partner i]? = some e' ∧ w = e'.device.setWidth hashbits

/-! ## The socket -/

section Socket

theorem recvWord_bitsOf (w : Word) (rest : List Bool) :
    recvWord (bitsOf w ++ rest) = some (w, rest) := by
  have hlength : (bitsOf w).length = hashbits := length_bitsOf w
  rw [recvWord, if_neg (by rw [List.length_append]; omega), List.take_left' hlength,
    List.drop_left' hlength, ofBits_bitsOf]

theorem length_recvWord (s : List Bool) (w : Word) (rest : List Bool)
    (h : recvWord s = some (w, rest)) : s.length = hashbits + rest.length := by
  rw [recvWord] at h
  split_ifs at h with hshort
  obtain ⟨-, rfl⟩ := Prod.mk.inj (Option.some.inj h)
  rw [List.length_drop]
  omega

/-- The tiles that have been sent arrive. -/
theorem readMany_tiles {tileSize : Nat} {tiles : List (List Word)}
    (hlength : ∀ tile ∈ tiles, tile.length = tileSize) (rest : List Bool) :
    readMany (readMany recvWord tileSize) tiles.length
      (tiles.flatMap (fun tile => tile.flatMap bitsOf) ++ rest) = some (tiles, rest) := by
  refine readMany_flatMap (fun tile htile rest => ?_) rest
  rw [← hlength tile htile]
  exact readMany_flatMap (fun w _ rest => recvWord_bitsOf w rest) rest

/-- Tiles that have not been sent are waited for. -/
theorem readMany_missing {tileSize nTiles : Nat} {blocks : List Bool}
    (h : blocks.length < nTiles * (tileSize * hashbits)) :
    readMany (readMany recvWord tileSize) nTiles blocks = none := by
  by_contra hsome
  obtain ⟨⟨tiles, rest⟩, hread⟩ := Option.ne_none_iff_exists'.mp hsome
  have hlength := length_readMany (fun _ _ _ => length_readMany length_recvWord) hread
  omega

end Socket

/-! ## The tile -/

/-- The tile tells of all encounters, in some order. -/
structure Reports (es : List Encounter) (tileSize : Nat) (order : List Nat)
    (tile : Nat → Integer) : Prop where
  perm : order.Perm (List.range tileSize)
  wide : ∀ k < tileSize, (tile k).length = tilebits
  tells : ∀ k i, order[k]? = some i → ∃ e, es[i]? = some e ∧ Tells es i e (tile k)

section Tile

variable {g : Generator} {buffer : Nat → Bool}
  {sort : List (Integer × Integer) → List (Integer × Integer)} {fuel count : Nat}
  {startIndex : BitVec 64} {es : List Encounter}

/-- A row that has been confirmed tells of its encounter. -/
theorem tells_confirmed {i : Nat} {e e' : Encounter}
    (h : e.reciprocated = true → es[partner i]? = some e') :
    Tells es i e (confirmed 567 e.reciprocated (dataRow e) (dataRow e')) where
  confirmed := getLast?_confirmed
  encountered hreciprocated := ⟨e', h hreciprocated, slice_confirmed_met⟩
  device := (slice_confirmed (by decide)).trans (slice_device e)
  time := (slice_confirmed (by decide)).trans (slice_time e)
  duration := (slice_confirmed (by decide)).trans (slice_duration e)

theorem ingress_reports (hpos : 0 < count) (heven : startIndex.toNat % 2 = 0)
    (hcount : count % 2 = 0) (hsize : count < 2 ^ 64)
    (hgen : g.fillEncounters fuel count startIndex = some es)
    (hfree : Set.InjOn g.sha256 (g.idInputs count startIndex)) (hsort : SortsTogether sort)
    (buffer : Nat → Bool) :
    ∃ order tile, ingress g buffer sort fuel count startIndex = some (es, tile) ∧
      Reports es count order tile := by
  have hpaired := fillEncounters_paired heven hsize hgen hfree
  obtain ⟨hlength, -⟩ := Generator.fillEncounters_getElem hgen
  obtain ⟨order, hordered⟩ := hsort.ordered hlength
  have hgrouped := hsort.grouped (es.map fun e => (bitsOf e.id, dataRow e))
  have hingress := ingress_eq buffer sort hgen
  rw [List.length_map, hlength] at hgrouped
  generalize sort (es.map fun e => (bitsOf e.id, dataRow e)) = sorted at *
  let keys := ofList (sorted.map Prod.fst) []
  let rows := ofList (sorted.map Prod.snd) []
  have htwo : 2 ≤ count := by omega
  have hrows : ∀ k < count, ∃ i e, order[k]? = some i ∧ es[i]? = some e ∧ rows k = dataRow e :=
    fun k hk => by
      obtain ⟨i, hi⟩ := hordered.exists_number hk
      obtain ⟨e, he, -, hrow⟩ := hordered.rows k i hi
      exact ⟨i, e, hi, he, hrow⟩
  have hwide : (rows 0).length = 568 := by
    obtain ⟨-, e, -, -, hrow⟩ := hrows 0 hpos
    rw [hrow, length_dataRow]
  have hmet : deviceIdBits + deviceIdBits < (rows 0).length := by
    rw [hwide]
    decide
  obtain ⟨tile, hconfirm, htile⟩ := confirmEncounters_eq keys htwo hmet
  have hcell : ∀ k < count, ∃ i e e', order[k]? = some i ∧ es[i]? = some e ∧
      (e.reciprocated = true → es[partner i]? = some e') ∧
      tile k = confirmed 567 e.reciprocated (dataRow e) (dataRow e') := fun k hk => by
    obtain ⟨i, e, hi, he, hrow⟩ := hrows k hk
    obtain ⟨j, e', hj, he', hrow'⟩ := hrows _ (neighbour_lt keys hk htwo)
    have hmatched := hordered.matched_eq hpaired hgrouped hcount hi he
      (hlength ▸ (List.getElem?_eq_some_iff.mp he).1) hk
    refine ⟨i, e, e', hi, he, fun hreciprocated => ?_, ?_⟩
    · have hnext := hordered.order_neighbour hpaired htwo hi he hk (hmatched.trans hreciprocated)
      rwa [← Option.some.inj (hj.symm.trans hnext)]
    · rw [htile k hk, confirmedRow, hwide, hmatched, hrow, hrow']
  refine ⟨order, tile, by rw [hingress, hconfirm]; rfl, hordered.perm, fun k hk => ?_,
    fun k i hk => ?_⟩
  · obtain ⟨-, e, e', -, -, -, hrow⟩ := hcell k hk
    rw [hrow, length_confirmed, length_dataRow]
    rfl
  · obtain ⟨j, e, e', hj, he, hpartner, hrow⟩ := hcell k
      (hordered.length_eq ▸ (List.getElem?_eq_some_iff.mp hk).1)
    obtain rfl := Option.some.inj (hj.symm.trans hk)
    exact ⟨e, he, hrow ▸ tells_confirmed hpartner⟩

end Tile

/-! ## The rows in the store -/

/-- A row with its key, field by field. -/
def TileRow.ofRow (sortKey row : Integer) : TileRow where
  sortKey := ofBits didbits sortKey
  device := ofBits didbits (slice row 0 256)
  encountered := ofBits didbits (slice row 256 256)
  time := ofBits 32 (slice row 512 32)
  duration := ofBits 16 (slice row 544 16)
  confirmed := ofBits 8 (slice row 560 8)

section Rows

variable {es : List Encounter} {sortKey row : Integer} {i : Nat} {e : Encounter}
  {sick : BitVec didbits}

theorem bits_ofRow (hwide : row.length = tilebits) : (TileRow.ofRow sortKey row).bits = row := by
  have hslice : ∀ off n, off + n ≤ 568 → (slice row off n).length = n := fun off n h => by
    rw [length_slice, hwide, tilebits]
    omega
  have hjoin : ∀ off n m, slice row off n ++ slice row (off + n) m = slice row off (n + m) :=
    fun off n m => by rw [slice, slice, slice, List.take_add, List.drop_drop]
  simp only [TileRow.bits, TileRow.ofRow, didbits]
  rw [bitsOf_ofBits (hslice 0 256 (by decide)), bitsOf_ofBits (hslice 256 256 (by decide)),
    bitsOf_ofBits (hslice 512 32 (by decide)), bitsOf_ofBits (hslice 544 16 (by decide)),
    bitsOf_ofBits (hslice 560 8 (by decide)), hjoin 0 256 256, hjoin 0 512 32, hjoin 0 544 16,
    hjoin 0 560 8]
  exact List.take_of_length_le hwide.le

theorem device_ofRow (htells : Tells es i e row) :
    (TileRow.ofRow sortKey row).device = e.device := by
  rw [TileRow.ofRow, htells.device]
  exact ofBits_bitsOf _

theorem isOf_ofRow (hwide : row.length = tilebits) (htells : Tells es i e row) :
    (TileRow.ofRow sortKey row).isOf sick = true ↔ e.device = sick ∧ e.reciprocated = true := by
  rw [TileRow.isOf, bits_ofRow hwide, device_ofRow htells, List.getLastD_eq_getLast?, htells.confirmed,
    Option.getD_some, Bool.and_eq_true]
  exact and_congr_left fun _ => beq_iff_eq

/-- What a query takes from a row. -/
theorem word_ofRow_iff (hwide : row.length = tilebits) (htells : Tells es i e row) {w : Word}
    (hw : w ≠ noneWord) : (TileRow.ofRow sortKey row).word sick = w ↔
      e.device = sick ∧ e.reciprocated = true ∧
        ∃ e', es[partner i]? = some e' ∧ w = e'.device.setWidth hashbits := by
  have hisOf : (TileRow.ofRow sortKey row).isOf sick = true ↔
      e.device = sick ∧ e.reciprocated = true := isOf_ofRow hwide htells
  rw [TileRow.word]
  by_cases h : e.device = sick ∧ e.reciprocated = true
  · obtain ⟨e', he', hmet⟩ := htells.encountered h.2
    have hword : (TileRow.ofRow sortKey row).encountered = e'.device := by
      rw [TileRow.ofRow, hmet]
      exact ofBits_bitsOf _
    rw [if_pos (hisOf.mpr h), hword]
    refine ⟨fun heq => ⟨h.1, h.2, e', he', heq.symm⟩, ?_⟩
    rintro ⟨-, -, d, hd, heq⟩
    obtain rfl := Option.some.inj (hd.symm.trans he')
    exact heq.symm
  · rw [if_neg (mt hisOf.mp h)]
    exact ⟨fun heq => absurd heq.symm hw, fun hmet => absurd ⟨hmet.1, hmet.2.1⟩ h⟩

end Rows

/-! ## The query -/

section Query

variable {sort : List (Integer × Integer) → List (Integer × Integer)} {es : List Encounter}
  {order : List Nat} {tileSize : Nat} {sortKey tile : Nat → Integer} {sick : BitVec didbits}

theorem Reports.length_eq (h : Reports es tileSize order tile) : order.length = tileSize := by
  simpa using h.perm.length_eq

theorem Reports.exists_row (h : Reports es tileSize order tile) {k : Nat} (hk : k < tileSize) :
    ∃ i e, order[k]? = some i ∧ es[i]? = some e ∧ Tells es i e (tile k) := by
  have hi := List.getElem?_eq_getElem (h.length_eq.symm ▸ hk : k < order.length)
  obtain ⟨e, he, htells⟩ := h.tells k _ hi
  exact ⟨_, e, hi, he, htells⟩

/-- The words that a query takes from the tile, none aside. -/
theorem Reports.mem_words_iff (h : Reports es tileSize order tile) (hlength : es.length = tileSize)
    {w : Word} (hw : w ≠ noneWord) :
    w ∈ (List.range tileSize).map (fun k => (TileRow.ofRow (sortKey k) (tile k)).word sick) ↔
      Met es sick w := by
  rw [List.mem_map]
  constructor
  · rintro ⟨k, hk, hword⟩
    obtain ⟨i, e, -, he, htells⟩ := h.exists_row (List.mem_range.mp hk)
    obtain ⟨hdevice, hreciprocated, e', he', heq⟩ :=
      (word_ofRow_iff (h.wide k (List.mem_range.mp hk)) htells hw).mp hword
    exact ⟨i, e, e', he, hdevice, hreciprocated, he', heq⟩
  · rintro ⟨i, e, e', he, hdevice, hreciprocated, he', heq⟩
    have hi : i ∈ List.range tileSize :=
      List.mem_range.mpr (hlength ▸ (List.getElem?_eq_some_iff.mp he).1)
    obtain ⟨k, hk⟩ := List.mem_iff_getElem?.mp (h.perm.mem_iff.mpr hi)
    have hlt : k < tileSize := h.length_eq ▸ (List.getElem?_eq_some_iff.mp hk).1
    obtain ⟨d, hd, htells⟩ := h.tells k i hk
    obtain rfl := Option.some.inj (hd.symm.trans he)
    exact ⟨k, List.mem_range.mpr hlt,
      (word_ofRow_iff (h.wide k hlt) htells hw).mpr ⟨hdevice, hreciprocated, e', he', heq⟩⟩

theorem storedRows_eq (sortKey : Nat → Integer) (h : ∀ k < tileSize, (tile k).length = tilebits) :
    storedRows tileSize sortKey tile =
      ((List.range tileSize).map fun k => TileRow.ofRow (sortKey k) (tile k)).map
        TileRow.stored := by
  rw [storedRows, List.map_map]
  refine List.map_congr_left fun k hk => ?_
  rw [Function.comp_apply, TileRow.stored, bits_ofRow (h k (List.mem_range.mp hk))]
  rfl

/-- The device that is asked for is that of the first row. -/
theorem setWidth_stored (row : TileRow) : row.stored.data.setWidth didbits = row.device := by
  rw [← ofBits_bitsOf_setWidth, TileRow.bitsOf_data, TileRow.bits]
  simp only [List.append_assoc]
  exact ofBits_append ..

theorem firstDevice_storeGarbledData (row : TileRow) (rows : List TileRow) :
    firstDevice (storeGarbledData ((row :: rows).map TileRow.stored)).tile = row.device := by
  rw [firstDevice, tile_storeGarbledData, List.flatMap_cons, TileRow.bits, slice]
  simp only [List.append_assoc, List.drop_zero]
  rw [List.take_left' (length_bitsOf _), ofBits_bitsOf]

theorem getSickDid_storeGarbledData (row : TileRow) (rows : List TileRow) (beyond : Nat → Bool) :
    getSickDid ((storeGarbledData ((row :: rows).map TileRow.stored)).sick.memory beyond) =
      row.device :=
  (sick_garbledAnswer row.stored (rows.map TileRow.stored) beyond).trans (setWidth_stored row)

/-- A mapper sends the words of the tile that is stored, as often as it is told to. -/
theorem mapperGv_eq {kvs : Nat → Store} {row : TileRow} {rows : List TileRow}
    (hlength : (row :: rows).length = tileSize)
    (hvalue : kvs tileSize = storeGarbledData ((row :: rows).map TileRow.stored))
    (beyond : Nat → Bool) (nTiles : Nat) : mapperGv beyond nTiles tileSize kvs =
      some ((List.replicate nTiles ((row :: rows).map (TileRow.word row.device))).flatMap
        fun tile => tile.flatMap bitsOf) := by
  have htile : (kvs tileSize).tile = row.bits ++ rows.flatMap TileRow.bits := by
    rw [hvalue, tile_storeGarbledData, List.flatMap_cons]
  have hstored : (kvs tileSize).tile.isEmpty = false := by
    rw [htile, List.isEmpty_eq_false_iff, ← List.length_pos_iff_ne_nil, List.length_append,
      row.length_bits]
    exact Nat.lt_of_lt_of_le (by decide) (Nat.le_add_right ..)
  have hasked : (kvs tileSize).sick.isEmpty = false := by
    have hsick : (kvs tileSize).sick = (kvs tileSize).tile.take didbits := by
      rw [hvalue, storeGarbledData]
    have hwide : didbits ≠ 0 := by decide
    rw [List.isEmpty_eq_false_iff] at hstored ⊢
    rw [hsick, Ne, List.take_eq_nil_iff]
    exact fun h => h.elim hwide hstored
  have hsick : getSickDid ((kvs tileSize).sick.memory beyond) = row.device := by
    rw [hvalue, getSickDid_storeGarbledData]
  have hquery : queryUniqueDevices (kvs tileSize).tile beyond [] tileSize row.device false 0 =
      some ((row :: rows).map (TileRow.word row.device)) := by
    rw [queryUniqueDevices, hstored, if_neg Bool.false_ne_true, foldl_insertWord_append,
      List.nil_append, ← runQueryUniqueDevices_tileOfRows _ _ beyond, hlength, hvalue]
    rfl
  rw [mapperGv, hasked, if_neg Bool.false_ne_true, hsick]
  simp only [hquery]
  induction nTiles with
  | zero => rfl
  | succ n ih =>
    rw [List.range_succ, List.foldlM_append, ih, List.replicate_succ', List.flatMap_append,
      List.flatMap_singleton]
    simp only [List.foldlM_cons, List.foldlM_nil, Option.bind_eq_bind, Option.bind_some,
      Option.pure_def]

/-- What the ingress leaves in the store. -/
theorem ingressGv_eq (hsort : SortsTogether sort) (kvs : Nat → Store) {u : Upload}
    (hpos : 0 < u.tileSize) (heven : u.tileSize % 2 = 0) (hsize : u.tileSize < 2 ^ 64)
    (hgen : u.generator.fillEncounters u.fuel u.tileSize 0 = some es)
    (hfree : Set.InjOn u.generator.sha256 (u.generator.idInputs u.tileSize 0)) :
    ∃ order sortKey tile, Reports es u.tileSize order tile ∧ ingressGv sort kvs u =
      some (Function.update kvs u.tileSize
        (storeGarbledData (storedRows u.tileSize sortKey tile))) := by
  obtain ⟨order, tile, hingress, hreports⟩ :=
    ingress_reports hpos rfl heven hsize hgen hfree hsort u.buffer
  have hkeys : (sortedKeys sort u).isSome := by
    rw [sortedKeys, Generator.fillShareEncounters, hgen]
    rfl
  obtain ⟨sortKey, hkeys⟩ := Option.isSome_iff_exists.mp hkeys
  exact ⟨order, sortKey, tile, hreports, by rw [ingressGv, hkeys, hingress]; rfl⟩

/-- An ingress that ends has generated encounters. -/
theorem exists_encounters {kvs kvs' : Nat → Store} {u : Upload}
    (h : ingressGv sort kvs u = some kvs') :
    ∃ es, u.generator.fillEncounters u.fuel u.tileSize 0 = some es := by
  obtain ⟨sortKey, hkeys, -⟩ := Option.bind_eq_some_iff.mp h
  obtain ⟨shares, hshares, -⟩ := Option.bind_eq_some_iff.mp hkeys
  obtain ⟨es, hgen, -⟩ := Option.bind_eq_some_iff.mp hshares
  exact ⟨es, hgen⟩

/-- Tiles of other sizes do not touch it. -/
theorem foldlM_ingressGv_of_ne {uploads : List Upload} (h : ∀ u ∈ uploads, u.tileSize ≠ tileSize) :
    ∀ {kvs kvs'}, uploads.foldlM (ingressGv sort) kvs = some kvs' →
      kvs' tileSize = kvs tileSize := by
  induction uploads with
  | nil =>
    rintro kvs kvs' ⟨⟩
    rfl
  | cons u uploads ih =>
    intro kvs kvs' hrun
    rw [List.foldlM_cons] at hrun
    obtain ⟨kvs₁, hfirst, hrest⟩ := Option.bind_eq_some_iff.mp hrun
    obtain ⟨sortKey, -, hfirst⟩ := Option.bind_eq_some_iff.mp hfirst
    obtain ⟨⟨es, tile⟩, -, hfirst⟩ := Option.bind_eq_some_iff.mp hfirst
    rw [ih (fun v hv => h v (List.mem_cons_of_mem _ hv)) hrest, ← Option.some.inj hfirst]
    exact Function.update_of_ne (h u (List.mem_cons_self ..)).symm ..

/-- The first reducer, if it is sent copies of one tile. -/
theorem l1Reducer_copies {rank : Word → Nat} (hrank : WordOrder rank) (hpos : 0 < tileSize)
    {words : List Word} (hlength : words.length = tileSize) (fresh : Nat → Word)
    {sent expected : Nat} (htwo : 2 ≤ expected) (hsent : expected ≤ sent) :
    ∃ cells found, l1Reducer rank fresh expected tileSize
        ((List.replicate sent words).flatMap fun tile => tile.flatMap bitsOf) = some cells ∧
      HoldsDescending rank cells (2 * tileSize) found ∧
      ∀ w, w ∈ found ↔ w ≠ noneWord ∧ w ∈ words := by
  have hcopies : List.replicate expected words =
      words :: (List.replicate (expected - 2) words ++ [words]) := by
    rw [← List.replicate_succ', ← List.replicate_succ]
    congr 1
    omega
  have hall : ∀ tile ∈ List.replicate expected words, tile = words := fun tile =>
    List.eq_of_mem_replicate
  have hread := readMany_tiles (fun tile htile => (hall tile htile).symm ▸ hlength)
    ((List.replicate (sent - expected) words).flatMap fun tile => tile.flatMap bitsOf)
  rw [List.length_replicate, ← List.flatMap_append, List.replicate_append_replicate,
    Nat.add_sub_cancel' hsent] at hread
  have hstage :=
    firstStage_concat hrank hpos fresh words words (List.replicate (expected - 2) words)
  rw [← hcopies] at hstage
  obtain ⟨cells, found, hcells, hholds, honly, hlast⟩ :=
    hstage fun tile htile => (hall tile htile).symm ▸ hlength
  refine ⟨cells, found, by rw [l1Reducer, hread]; exact hcells, hholds, fun w => ⟨fun hw => ?_,
    fun hw => hlast w hw.2 hw.1⟩⟩
  obtain ⟨tile, htile, hwtile⟩ := List.mem_flatten.mp (honly w hw)
  exact ⟨fun heq => hholds.real (heq ▸ hw), hall tile htile ▸ hwtile⟩

theorem l1Reducer_missing {rank : Word → Nat} (hpos : 0 < tileSize) {words : List Word}
    (hlength : words.length = tileSize) (fresh : Nat → Word) {sent expected : Nat}
    (h : sent < expected) : l1Reducer rank fresh expected tileSize
      ((List.replicate sent words).flatMap fun tile => tile.flatMap bitsOf) = none := by
  rw [l1Reducer, readMany_missing]
  · rfl
  · have hblocks : ((List.replicate sent words).flatMap fun tile => tile.flatMap bitsOf).length =
        sent * (tileSize * hashbits) := by
      simp [List.length_flatMap, hlength]
    rw [hblocks]
    exact Nat.mul_lt_mul_of_pos_right h (Nat.mul_pos hpos (by decide))

/-- Of all uploads the last one with this tile size counts. The device asked for is that of the
first row in the store, and the first reducer ends with the fingerprints that it has met, each once,
from two tiles on. If it waits for more tiles than are sent, it does not end. -/
theorem uniqueDevicesQuery_answers {rank : Word → Nat} (hrank : WordOrder rank)
    (hsort : SortsTogether sort) {kvs : Nat → Store} {before after : List Upload} {u : Upload}
    (hlast : ∀ v ∈ after, v.tileSize ≠ u.tileSize)
    (hrun : ((before ++ u :: after).foldlM (ingressGv sort) kvs).isSome) (hpos : 0 < u.tileSize)
    (heven : u.tileSize % 2 = 0) (hsize : u.tileSize < 2 ^ 64)
    (hfree : Set.InjOn u.generator.sha256 (u.generator.idInputs u.tileSize 0)) :
    ∃ es kvs', u.generator.fillEncounters u.fuel u.tileSize 0 = some es ∧
      (before ++ u :: after).foldlM (ingressGv sort) kvs = some kvs' ∧
      (∃ e ∈ es, e.device = firstDevice (kvs' u.tileSize).tile) ∧
      ∀ fresh beyond sent expected,
        getSickDid ((kvs' u.tileSize).sick.memory beyond) = firstDevice (kvs' u.tileSize).tile ∧
        (sent < expected → uniqueDevicesQuery sort rank fresh beyond kvs (before ++ u :: after) sent
          expected u.tileSize = none) ∧
        (2 ≤ expected → expected ≤ sent → ∃ cells words,
          uniqueDevicesQuery sort rank fresh beyond kvs (before ++ u :: after) sent expected
            u.tileSize = some cells ∧
          HoldsDescending rank cells (2 * u.tileSize) words ∧
          ∀ w, w ∈ words ↔ w ≠ noneWord ∧ Met es (firstDevice (kvs' u.tileSize).tile) w) := by
  obtain ⟨kvs', hkvs'⟩ := Option.isSome_iff_exists.mp hrun
  have hstored := hkvs'
  rw [List.foldlM_append] at hstored
  obtain ⟨kvs₁, -, hstored⟩ := Option.bind_eq_some_iff.mp hstored
  rw [List.foldlM_cons] at hstored
  obtain ⟨kvs₂, hfirst, hrest⟩ := Option.bind_eq_some_iff.mp hstored
  obtain ⟨es, hgen⟩ := exists_encounters hfirst
  obtain ⟨order, sortKey, tile, hreports, hstored⟩ :=
    ingressGv_eq hsort kvs₁ hpos heven hsize hgen hfree
  have hvalue : kvs₂ u.tileSize = storeGarbledData (storedRows u.tileSize sortKey tile) := by
    rw [← Option.some.inj (hstored.symm.trans hfirst), Function.update_self]
  obtain ⟨hlength, -⟩ := Generator.fillEncounters_getElem hgen
  obtain ⟨i, e, -, he, htells⟩ := hreports.exists_row hpos
  obtain ⟨row, rows, hrows, hrow⟩ : ∃ row rows, ((List.range u.tileSize).map fun k =>
      TileRow.ofRow (sortKey k) (tile k)) = row :: rows ∧ row.device = e.device := by
    obtain ⟨n, hn⟩ := Nat.exists_eq_succ_of_ne_zero hpos.ne'
    exact ⟨_, _, by rw [hn, List.range_succ_eq_map, List.map_cons], device_ofRow htells⟩
  have hwords : (row :: rows).map (TileRow.word row.device) = (List.range u.tileSize).map
      fun k => (TileRow.ofRow (sortKey k) (tile k)).word e.device := by
    rw [← hrows, List.map_map, hrow]
    rfl
  have hcells : ((row :: rows).map (TileRow.word row.device)).length = u.tileSize := by
    rw [hwords, List.length_map, List.length_range]
  have hkept : kvs' u.tileSize = storeGarbledData ((row :: rows).map TileRow.stored) := by
    rw [foldlM_ingressGv_of_ne hlast hrest, hvalue, storedRows_eq sortKey hreports.wide, hrows]
  have hquery : ∀ fresh beyond sent expected, uniqueDevicesQuery sort rank fresh beyond kvs
      (before ++ u :: after) sent expected u.tileSize = l1Reducer rank fresh expected u.tileSize
        ((List.replicate sent ((row :: rows).map (TileRow.word row.device))).flatMap
          fun tile => tile.flatMap bitsOf) := by
    intro fresh beyond sent expected
    have hmapper := mapperGv_eq (by simpa using hcells) hkept beyond sent
    rw [uniqueDevicesQuery, hkvs']
    simp only [Option.bind_eq_bind, Option.bind_some, hmapper]
  have hdevice : firstDevice (kvs' u.tileSize).tile = e.device := by
    rw [hkept, firstDevice_storeGarbledData, hrow]
  have hasked : ∀ beyond, getSickDid ((kvs' u.tileSize).sick.memory beyond) = e.device := by
    intro beyond
    rw [hkept, getSickDid_storeGarbledData, hrow]
  refine ⟨es, kvs', hgen, hkvs', ⟨e, List.mem_of_getElem? he, hdevice.symm⟩,
    fun fresh beyond sent expected => ⟨(hasked beyond).trans hdevice.symm,
      fun h => (hquery ..).trans (l1Reducer_missing hpos hcells fresh h), fun htwo hsent => ?_⟩⟩
  obtain ⟨cells, words, hrun, hholds, hmem⟩ :=
    l1Reducer_copies hrank hpos hcells fresh htwo hsent
  refine ⟨cells, words, (hquery ..).trans hrun, hholds, fun w => ?_⟩
  rw [hmem, hwords, hdevice]
  exact and_congr_right fun hw => hreports.mem_words_iff hlength hw

end Query

/-- Four encounters, the first two of them reciprocated. -/
def fourEncounters : Upload := ⟨4, rotating, fun _ => false, 1⟩

theorem fourEncounters_answered :
    ∃ es kvs', rotating.fillEncounters 1 4 0 = some es ∧
      [fourEncounters].foldlM (ingressGv sortByKey) (fun _ => ⟨[], [], []⟩) = some kvs' ∧
      (∃ e ∈ es, e.device = firstDevice (kvs' 4).tile) ∧ ∀ fresh beyond sent expected,
      getSickDid ((kvs' 4).sick.memory beyond) = firstDevice (kvs' 4).tile ∧
      (sent < expected → uniqueDevicesQuery sortByKey exampleRank fresh beyond
        (fun _ => ⟨[], [], []⟩) [fourEncounters] sent expected 4 = none) ∧
      (2 ≤ expected → expected ≤ sent → ∃ cells words,
        uniqueDevicesQuery sortByKey exampleRank fresh beyond (fun _ => ⟨[], [], []⟩)
          [fourEncounters] sent expected 4 = some cells ∧
        HoldsDescending exampleRank cells (2 * 4) words ∧
        ∀ w, w ∈ words ↔ w ≠ noneWord ∧ Met es (firstDevice (kvs' 4).tile) w) := by
  have heven : fourEncounters.tileSize % 2 = 0 := rfl
  have hsize : fourEncounters.tileSize < 2 ^ 64 := by decide
  have hsome : (rotating.fillEncounters 1 4 0).isSome = true := by decide +kernel
  obtain ⟨es, hgen⟩ := Option.isSome_iff_exists.mp hsome
  have hfree : Set.InjOn rotating.sha256 (rotating.idInputs 4 0) := by
    have hids : ∀ i < 4, ∀ j < 4,
        rotating.sha256 [FieldName.id.code, rotating.own (0 + BitVec.ofNat 64 i), rotating.nonce] =
          rotating.sha256 [FieldName.id.code, rotating.own (0 + BitVec.ofNat 64 j), rotating.nonce] →
        rotating.own (0 + BitVec.ofNat 64 i) = rotating.own (0 + BitVec.ofNat 64 j) := by
      decide +kernel
    rintro _ ⟨i, hi, rfl⟩ _ ⟨j, hj, rfl⟩ heq
    rw [hids i hi j hj heq]
  have hrun : (([] ++ fourEncounters :: []).foldlM (ingressGv sortByKey)
      fun _ => ⟨[], [], []⟩).isSome := by
    obtain ⟨order, sortKey, tile, -, hstored⟩ :=
      ingressGv_eq (u := fourEncounters) sortByKey_sortsTogether (fun _ => ⟨[], [], []⟩)
        (by decide) heven hsize hgen hfree
    simp only [List.nil_append, List.foldlM_cons, hstored, Option.bind_eq_bind, Option.bind_some,
      List.foldlM_nil, Option.pure_def, Option.isSome_some]
  exact uniqueDevicesQuery_answers exampleRank_wordOrder sortByKey_sortsTogether
    (List.forall_mem_nil _) hrun (by decide) heven hsize hfree

end CoVault.MapReduce
