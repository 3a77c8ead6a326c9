import Mathlib
import CoVault.MapReduce.ReduceLayer

/-!
# The map loop of the unique-device query

The first two tiles are sorted in descending order, every further tile in ascending order behind
what has been found so far, and both are merged. A merge needs a tile without matches, or what has
been found in descending order and without none behind it; all other contents depend on luck.
-/

namespace CoVault.MapReduce

open Circuit Library Library.Cells Library.SortNetwork

section Model

variable (rank : Word → Nat) (outputSize tileSize : Nat) (sick : BitVec didbits)

/-- What the query takes from encounter `j` of a tile. -/
def Tile.fingerprint (redisValue : Tile) (sick : BitVec didbits) (j : Nat) : Word :=
  if redisValue.isMatch j sick then (redisValue.did2 j).setWidth hashbits else noneWord

def runQueryUniqueDevices (redisValue : Tile) : List Word :=
  (List.range tileSize).map (redisValue.fingerprint sick)

def processFirstPair (first second : Tile) : Option (Nat → Word) :=
  let lists := place 0 (runQueryUniqueDevices tileSize sick first ++
    runQueryUniqueDevices tileSize sick second) fun _ => 0
  markAndCompact (2 * tileSize) (sort (cmpSwap rank) 0 (2 * tileSize) false lists)

/-- One more tile, loaded behind the first `output_size` cells. -/
def processTile (lists : Nat → Word) (tile : Tile) : Option (Nat → Word) :=
  let lists := place outputSize (runQueryUniqueDevices tileSize sick tile) lists
  let lists := sort (cmpSwap rank) outputSize tileSize true lists
  markAndCompact (outputSize + tileSize)
    (merge (cmpSwap rank true) 0 (outputSize + tileSize) lists)

/-- The loop over all tiles. The cells that `resize` may append have no contents of their own. -/
def uniqueDevices (fresh : Nat → Word) : List Tile → Option (Nat → Word)
  | first :: second :: tiles => do
    let lists ← processFirstPair rank tileSize sick first second
    let lists := fun i => if i < 2 * tileSize then lists i else fresh i
    tiles.foldlM (processTile rank outputSize tileSize sick) lists
  | _ => none

end Model

/-! ## What the loop is for -/

/-- The fingerprints that match in some tile. -/
def matched (tileSize : Nat) (sick : BitVec didbits) (tiles : List Tile) : Finset Word :=
  (tiles.flatMap fun v => ((List.range tileSize).filter fun j => v.isMatch j sick).map fun j =>
    (v.did2 j).setWidth hashbits).toFinset

/-- The first cells hold each of these words once, and none otherwise. -/
def HoldsOnce (cells : Nat → Word) (outputSize : Nat) (words : Finset Word) : Prop :=
  ∀ w, w ≠ noneWord → (window cells 0 outputSize).count w = if w ∈ words then 1 else 0

/-- The loop finds every fingerprint of these tiles once. -/
def Finds (rank : Word → Nat) (outputSize tileSize : Nat) (fresh : Nat → Word)
    (sick : BitVec didbits) (tiles : List Tile) : Prop :=
  ∃ lists, uniqueDevices rank outputSize tileSize sick fresh tiles = some lists ∧
    HoldsOnce lists outputSize (matched tileSize sick tiles)

/-- The loop finds every fingerprint once, whatever the tiles hold. -/
def FindsAll (rank : Word → Nat) (outputSize tileSize n : Nat) : Prop :=
  ∀ fresh sick (tiles : List Tile), tiles.length = n → noneWord ∉ matched tileSize sick tiles →
    (matched tileSize sick tiles).card ≤ outputSize →
    Finds rank outputSize tileSize fresh sick tiles

/-- Every tile after the first pair is without matches, or comes before any match, or is the third
one and comes when the first two have filled the cells; with one cell there is nothing to ask. -/
def Mergeable (outputSize tileSize : Nat) (sick : BitVec didbits) (tiles : List Tile) : Prop :=
  outputSize ≤ 1 ∨ ∀ i ≥ 2, ∀ tile, tiles[i]? = some tile →
    matched tileSize sick [tile] = ∅ ∨ matched tileSize sick (tiles.take i) = ∅ ∨
      i = 2 ∧ (matched tileSize sick (tiles.take i)).card = outputSize

/-! ## Tiles -/

section Tiles

variable {tileSize : Nat} {sick : BitVec didbits}

theorem length_runQueryUniqueDevices (tileSize : Nat) (sick : BitVec didbits) (v : Tile) :
    (runQueryUniqueDevices tileSize sick v).length = tileSize := by
  simp [runQueryUniqueDevices]

theorem matched_append (tiles tiles' : List Tile) :
    matched tileSize sick (tiles ++ tiles') =
      matched tileSize sick tiles ∪ matched tileSize sick tiles' := by
  rw [matched, List.flatMap_append, List.toFinset_append]
  rfl

theorem matched_pair (first second : Tile) : matched tileSize sick [first, second] =
    matched tileSize sick [first] ∪ matched tileSize sick [second] :=
  matched_append [first] [second]

/-- The words of a tile are the fingerprints that match, and none. -/
theorem mem_runQueryUniqueDevices {v : Tile} {w : Word} (hw : w ≠ noneWord) :
    w ∈ runQueryUniqueDevices tileSize sick v ↔ w ∈ matched tileSize sick [v] := by
  simp only [runQueryUniqueDevices, matched, List.flatMap_cons, List.flatMap_nil, List.append_nil,
    List.mem_toFinset, List.mem_map, List.mem_filter, List.mem_range, Tile.fingerprint]
  constructor
  · rintro ⟨j, hj, heq⟩
    split_ifs at heq with hmatch
    · exact ⟨j, ⟨hj, hmatch⟩, heq⟩
    · exact absurd heq.symm hw
  · rintro ⟨j, ⟨hj, hmatch⟩, heq⟩
    exact ⟨j, hj, by rw [if_pos hmatch, heq]⟩

/-- A tile in which a device meets the given ones, confirmed. -/
def tileOf (sick : BitVec didbits) (words : List Word) : Tile :=
  Tile.ofEncounters (words.map fun w => (sick, w.setWidth didbits, true))

theorem tileOf_bit (sick : BitVec didbits) (words : List Word) (j : Nat) {i : Nat} (hi : i < tilebits) :
    tileOf sick words (j * tilebits + i) = match words[j]? with
      | none => false
      | some w =>
        if i < didbits then sick.getLsbD i
        else if i < 2 * didbits then (w.setWidth didbits).getLsbD (i - didbits)
        else i == tilebits - 1 := by
  have hdiv : (j * tilebits + i) / tilebits = j := by
    rw [Nat.mul_comm, Nat.mul_add_div (by decide), Nat.div_eq_of_lt hi, Nat.add_zero]
  have hmod : (j * tilebits + i) % tilebits = i := by
    rw [Nat.mul_comm, Nat.mul_add_mod, Nat.mod_eq_of_lt hi]
  rw [tileOf, Tile.ofEncounters, hdiv, hmod, List.getElem?_map]
  cases words[j]? <;> simp

theorem conf_tileOf (words : List Word) (j : Nat) :
    ((tileOf sick words).conf j).getD 0 false = decide (j < words.length) := by
  have hbit := tileOf_bit sick words j (i := tilebits - 8 + 7) (by decide)
  rw [← Nat.add_assoc] at hbit
  have hconf : ((tileOf sick words).conf j).getD 0 false =
      tileOf sick words (j * tilebits + (tilebits - 8) + 7) := rfl
  rw [hconf, hbit]
  by_cases hj : j < words.length
  · rw [List.getElem?_eq_getElem hj, decide_eq_true hj]
    rfl
  · rw [List.getElem?_eq_none (by omega), decide_eq_false hj]

theorem did1_tileOf {words : List Word} {j : Nat} (hj : j < words.length) :
    (tileOf sick words).did1 j = sick := by
  refine BitVec.eq_of_getLsbD_eq fun i hi => ?_
  have hbit := tileOf_bit sick words j (hi.trans (by decide))
  rw [List.getElem?_eq_getElem hj] at hbit
  rw [Tile.did1, getLsbD_ofBits, List.getD_eq_getElem?_getD, List.getElem?_map,
    List.getElem?_range hi, Option.map_some, Option.getD_some, hbit]
  simp [hi]

theorem isMatch_tileOf (words : List Word) (j : Nat) :
    (tileOf sick words).isMatch j sick = decide (j < words.length) := by
  rw [Tile.isMatch, conf_tileOf]
  by_cases hj : j < words.length
  · simp [hj, did1_tileOf hj]
  · simp [hj]

theorem did2_tileOf {words : List Word} {j : Nat} {w : Word} (hw : words[j]? = some w) :
    ((tileOf sick words).did2 j).setWidth hashbits = w := by
  have hdid : (tileOf sick words).did2 j = w.setWidth didbits := by
    refine BitVec.eq_of_getLsbD_eq fun i hi => ?_
    have hbit := tileOf_bit sick words j (i := didbits + i) (by
      have : didbits + didbits ≤ tilebits := by decide
      omega)
    rw [hw, ← Nat.add_assoc] at hbit
    rw [Tile.did2, getLsbD_ofBits, List.getD_eq_getElem?_getD, List.getElem?_map,
      List.getElem?_range hi, Option.map_some, Option.getD_some, hbit]
    simp only [hi, decide_true, Bool.true_and]
    rw [if_neg (by omega), if_pos (by omega), Nat.add_sub_cancel_left]
  rw [hdid]
  exact BitVec.setWidth_setWidth_of_le w (by decide) |>.trans (BitVec.setWidth_eq w)

/-- Such a tile is loaded as the given words and none. -/
theorem runQueryUniqueDevices_tileOf {words : List Word} (hlength : words.length ≤ tileSize) :
    runQueryUniqueDevices tileSize sick (tileOf sick words) =
      words ++ List.replicate (tileSize - words.length) noneWord := by
  refine List.ext_getElem (by simp [runQueryUniqueDevices]; omega) fun j hj hj' => ?_
  simp only [runQueryUniqueDevices, List.getElem_map, List.getElem_range, Tile.fingerprint,
    isMatch_tileOf]
  by_cases hlt : j < words.length
  · rw [if_pos (by simpa using hlt), List.getElem_append_left hlt,
      did2_tileOf (List.getElem?_eq_getElem hlt)]
  · rw [if_neg (by simpa using hlt), List.getElem_append_right (by omega), List.getElem_replicate]

theorem matched_tileOf {words : List Word} (hlength : words.length ≤ tileSize) :
    matched tileSize sick [tileOf sick words] = words.toFinset := by
  ext w
  simp only [matched, List.flatMap_cons, List.flatMap_nil, List.append_nil, List.mem_toFinset,
    List.mem_map, List.mem_filter, List.mem_range, isMatch_tileOf, decide_eq_true_eq]
  constructor
  · rintro ⟨j, ⟨-, hj⟩, rfl⟩
    rw [did2_tileOf (List.getElem?_eq_getElem hj)]
    exact List.getElem_mem hj
  · intro hw
    obtain ⟨j, hj, rfl⟩ := List.getElem_of_mem hw
    exact ⟨j, ⟨hj.trans_le hlength, hj⟩, did2_tileOf (List.getElem?_eq_getElem hj)⟩

end Tiles

/-! ## When it finds all -/

section Spec

variable {rank : Word → Nat} {outputSize tileSize : Nat} {sick : BitVec didbits}

/-- The first cells hold these words, in some order, and none behind them. -/
def Front (cells : Nat → Word) (outputSize : Nat) (found : Finset Word) : Prop :=
  ∃ words : List Word, words.Nodup ∧ noneWord ∉ words ∧ words.toFinset = found ∧
    window cells 0 outputSize = words ++ List.replicate (outputSize - words.length) noneWord

theorem Front.holdsOnce {cells : Nat → Word} {found : Finset Word}
    (h : Front cells outputSize found) : HoldsOnce cells outputSize found := by
  obtain ⟨words, hnodup, -, rfl, hwindow⟩ := h
  intro w hw
  rw [hwindow, List.count_append, List.count_replicate, if_neg (by simpa using hw.symm),
    Nat.add_zero, hnodup.count]
  simp

theorem front_of_window {cells : Nat → Word} {size : Nat} {words : List Word} {found : Finset Word}
    (hnodup : words.Nodup) (hreal : noneWord ∉ words) (hfound : words.toFinset = found)
    (hwindow : window cells 0 size = words ++ List.replicate (size - words.length) noneWord)
    (hcard : found.card ≤ outputSize) (hsize : outputSize ≤ size) :
    Front cells outputSize found := by
  rw [← hfound, List.toFinset_card_of_nodup hnodup] at hcard
  exact ⟨words, hnodup, hreal, hfound, window_first hwindow hcard hsize⟩

/-- What the loop keeps from one tile to the next: the words in front descend, as the first pair
leaves them, or ascend, as a merge does. -/
structure Kept (rank : Word → Nat) (cells : Nat → Word) (outputSize : Nat) (found : Finset Word) :
    Prop where
  front : Front cells outputSize found
  valley : Valley (keys rank cells 0) outputSize

theorem Kept.congr {cells cells' : Nat → Word} {found : Finset Word}
    (h : Kept rank cells outputSize found) (heq : ∀ i < outputSize, cells' i = cells i) :
    Kept rank cells' outputSize found := by
  have hwindow : window cells' 0 outputSize = window cells 0 outputSize :=
    window_congr fun i hi => by rw [Nat.zero_add, heq i hi]
  refine ⟨by simpa only [Front, hwindow] using h.front, h.valley.congr fun i hi => ?_⟩
  rw [keys, keys, Nat.zero_add, heq i hi]

/-- Descending words and none behind them. -/
theorem valley_of_words {cells : Nat → Word} {size : Nat}
    {words : List Word} (hwords : words.Pairwise fun a b => rank b < rank a)
    (hwindow : window cells 0 size = words ++ List.replicate (size - words.length) noneWord) :
    Valley (keys rank cells 0) size := by
  have hlength : words.length ≤ size := by
    have := congrArg List.length hwindow
    rw [length_window, List.length_append] at this
    omega
  have hsplit := hwindow
  rw [← Nat.add_sub_cancel' hlength, window_append, Nat.zero_add, Nat.add_sub_cancel_left]
    at hsplit
  obtain ⟨hfirst, hsecond⟩ := List.append_inj hsplit (length_window ..)
  refine valley_of_descending_ascending (m := words.length) ?_ ?_
  · rw [descending_iff, hfirst]
    exact hwords.imp le_of_lt
  · have hrest : Ascending (keys rank cells words.length) (size - words.length) := by
      rw [ascending_iff, hsecond]
      exact List.pairwise_replicate.mpr (.inr le_rfl)
    intro i j hij hj
    simpa [keys] using hrest i j hij hj

theorem Front.descending_of_empty {cells : Nat → Word} (h : Front cells outputSize ∅) :
    Descending (keys rank cells 0) outputSize := by
  obtain ⟨words, -, -, hwords, hwindow⟩ := h
  obtain rfl := List.toFinset_eq_empty_iff _ |>.mp hwords
  rw [descending_iff, hwindow]
  exact List.pairwise_replicate.mpr (.inr le_rfl)

/-- The two lists that the first pair of tiles gives. -/
def firstPair (tileSize : Nat) (sick : BitVec didbits) (first second : Tile) : Nat → Word :=
  place 0 (runQueryUniqueDevices tileSize sick first ++
    runQueryUniqueDevices tileSize sick second) fun _ => 0

theorem window_firstPair (tileSize : Nat) (sick : BitVec didbits) (first second : Tile) :
    window (firstPair tileSize sick first second) 0 (2 * tileSize) =
      runQueryUniqueDevices tileSize sick first ++ runQueryUniqueDevices tileSize sick second := by
  have hwindow := window_place 0 (runQueryUniqueDevices tileSize sick first ++
    runQueryUniqueDevices tileSize sick second) fun _ => 0
  rwa [List.length_append, length_runQueryUniqueDevices, length_runQueryUniqueDevices,
    ← Nat.two_mul] at hwindow

/-- However the first pair has been moved, its words are the fingerprints that match. -/
theorem toFinset_firstPair {first second : Tile}
    (hreal : noneWord ∉ matched tileSize sick [first, second]) {list : Nat → Word}
    (hperm : Rearranged 0 (2 * tileSize) (firstPair tileSize sick first second) list)
    {words : List Word}
    (hmem : ∀ w, w ∈ words ↔ w ≠ noneWord ∧ w ∈ window list 0 (2 * tileSize)) :
    words.toFinset = matched tileSize sick [first, second] := by
  ext w
  rw [List.mem_toFinset, hmem, hperm.perm.mem_iff, window_firstPair, List.mem_append]
  by_cases hw : w = noneWord
  · simpa [hw] using hreal
  · rw [matched_pair, Finset.mem_union, mem_runQueryUniqueDevices hw, mem_runQueryUniqueDevices hw]
    exact and_iff_right hw

/-- It is enough that equal words are adjacent. -/
theorem front_of_adjacent (hpos : 0 < tileSize) (hsize : outputSize ≤ 2 * tileSize)
    {first second : Tile} (hreal : noneWord ∉ matched tileSize sick [first, second])
    (hcard : (matched tileSize sick [first, second]).card ≤ outputSize) {list : Nat → Word}
    (hperm : Rearranged 0 (2 * tileSize) (firstPair tileSize sick first second) list)
    (hadjacent : ∀ w, w ≠ noneWord → Duplicates.Adjacent list (2 * tileSize) w) :
    ∃ lists, markAndCompact (2 * tileSize) list = some lists ∧
      Front lists outputSize (matched tileSize sick [first, second]) := by
  obtain ⟨cells, hcells, hwindow⟩ := markAndCompact_spec (by omega : 2 ≤ 2 * tileSize) list
  exact ⟨cells, hcells, front_of_window (Duplicates.nodup_unmarked hadjacent)
    (fun hmem => (Duplicates.mem_unmarked.mp hmem).1 rfl)
    (toFinset_firstPair hreal hperm fun w => Duplicates.mem_unmarked) hwindow hcard hsize⟩

/-- In a sorted list equal words are adjacent. -/
theorem adjacent_of_descending (hinj : Function.Injective rank) {list : Nat → Word} {size : Nat}
    (h : Descending (keys rank list 0) size) (w : Word) : Duplicates.Adjacent list size w := by
  intro i j k hij hjk hk hi hk'
  have hji := h i j hij (by omega)
  have hkj := h j k hjk hk
  simp only [keys, Nat.zero_add, hi, hk'] at hji hkj
  exact hinj (le_antisymm hji hkj)

/-- The first two tiles, in descending order. -/
theorem processFirstPair_kept (hrank : WordOrder rank) (hpos : 0 < tileSize)
    (hsize : outputSize ≤ 2 * tileSize) {first second : Tile}
    (hreal : noneWord ∉ matched tileSize sick [first, second])
    (hcard : (matched tileSize sick [first, second]).card ≤ outputSize) :
    ∃ lists, processFirstPair rank tileSize sick first second = some lists ∧
      Kept rank lists outputSize (matched tileSize sick [first, second]) ∧
      ((matched tileSize sick [first, second]).card = outputSize →
        Descending (keys rank lists 0) outputSize) := by
  have hc := cmpSwap_twoWay rank
  have hsorted : Descending _ _ :=
    sort_sortedIn hc 0 (2 * tileSize) false (firstPair tileSize sick first second)
  have hperm := sort_rearranged hc.exchanging 0 (2 * tileSize) false
    (firstPair tileSize sick first second)
  obtain ⟨lists, words, hlists, hdescending, hnone, hwindow, hmem⟩ :=
    markAndCompact_pairwise (by omega : 2 ≤ 2 * tileSize) (r := fun a b => rank b < rank a)
      (fun a b c hab hbc => hbc.trans hab) ((descending_iff.mp hsorted).imp fun hle =>
        (Nat.eq_or_lt_of_le hle).imp_left fun heq => (hrank.injective heq).symm)
  have hwords := toFinset_firstPair hreal hperm hmem
  have hnodup := nodup_of_descending hdescending
  have hlength : words.length ≤ outputSize := by
    rwa [← hwords, List.toFinset_card_of_nodup hnodup] at hcard
  have hfirst := window_first hwindow hlength hsize
  refine ⟨lists, hlists, ⟨⟨words, hnodup, hnone, hwords, hfirst⟩,
    valley_of_words hdescending hfirst⟩, fun hfull => ?_⟩
  rw [← hwords, List.toFinset_card_of_nodup hnodup] at hfull
  rw [descending_iff, hfirst, hfull, Nat.sub_self, List.replicate_zero, List.append_nil]
  exact hdescending.imp le_of_lt

/-- The cells when a further tile has been loaded and sorted. -/
def loaded (rank : Word → Nat) (outputSize tileSize : Nat) (sick : BitVec didbits)
    (lists : Nat → Word) (tile : Tile) : Nat → Word :=
  sort (cmpSwap rank) outputSize tileSize true
    (place outputSize (runQueryUniqueDevices tileSize sick tile) lists)

theorem window_loaded (rank : Word → Nat) (outputSize tileSize : Nat) (sick : BitVec didbits)
    (lists : Nat → Word) (tile : Tile) :
    window (loaded rank outputSize tileSize sick lists tile) 0 outputSize =
        window lists 0 outputSize ∧
      (window (loaded rank outputSize tileSize sick lists tile) outputSize tileSize).Perm
        (runQueryUniqueDevices tileSize sick tile) ∧
      (window (loaded rank outputSize tileSize sick lists tile) outputSize tileSize).Pairwise
        fun a b => rank a ≤ rank b := by
  have hmoved := sort_rearranged (cmpSwap_twoWay rank).exchanging outputSize tileSize true
    (place outputSize (runQueryUniqueDevices tileSize sick tile) lists)
  have hplace := window_place outputSize (runQueryUniqueDevices tileSize sick tile) lists
  rw [length_runQueryUniqueDevices] at hplace
  refine ⟨?_, ?_, ?_⟩
  · rw [← window_place_before le_rfl (runQueryUniqueDevices tileSize sick tile) lists]
    exact window_congr fun i hi => hmoved.outside (by omega)
  · have hperm := hmoved.perm
    rwa [hplace] at hperm
  · exact ascending_iff.mp (sort_sortedIn (cmpSwap_twoWay rank) outputSize tileSize true _)

/-- The merge gets a valley if the tile has no matches, or if what is in front descends. -/
theorem loaded_valley (hrank : WordOrder rank) {lists : Nat → Word} {tile : Tile}
    (hvalley : Valley (keys rank lists 0) outputSize)
    (h : matched tileSize sick [tile] = ∅ ∨ Descending (keys rank lists 0) outputSize) :
    Valley (keys rank (loaded rank outputSize tileSize sick lists tile) 0)
      (outputSize + tileSize) := by
  obtain ⟨hfirst, hperm, hsorted⟩ := window_loaded rank outputSize tileSize sick lists tile
  rcases h with hblank | hdescending
  · have hnone : ∀ k, outputSize ≤ k → k < outputSize + tileSize →
        loaded rank outputSize tileSize sick lists tile k = noneWord := by
      intro k hk hlt
      by_contra hne
      have hmem := hperm.subset (mem_window.mpr ⟨k - outputSize, by omega, rfl⟩)
      rw [show outputSize + (k - outputSize) = k by omega, mem_runQueryUniqueDevices hne,
        hblank] at hmem
      exact absurd hmem (Finset.notMem_empty _)
    refine valley_between 0 outputSize (fun i _ => hrank.none_greatest _)
      (hvalley.congr fun i hi => ?_) fun i hi hout => ?_
    · have hcell := cell_of_window hfirst hi (x := lists i) (by
        rw [List.getElem?_eq_getElem (by rwa [length_window]), getElem_window, Nat.zero_add])
      simp only [keys, Nat.zero_add] at hcell ⊢
      rw [hcell]
    · rw [keys, Nat.zero_add, hnone i (by omega) hi]
  · refine valley_of_descending_ascending (m := outputSize) ?_ ?_
    · rw [descending_iff, hfirst]
      exact descending_iff.mp hdescending
    · intro i j hij hj
      simpa [keys] using ascending_iff.mpr hsorted i j hij (by omega)

/-- If the merge gets a valley, what has been found and the tile are united. -/
theorem processTile_kept (hrank : WordOrder rank) (htwo : 2 ≤ outputSize + tileSize)
    {lists : Nat → Word} {tile : Tile} {found : Finset Word}
    (hkept : Kept rank lists outputSize found)
    (hreal : noneWord ∉ matched tileSize sick [tile])
    (hcard : (found ∪ matched tileSize sick [tile]).card ≤ outputSize)
    (h : matched tileSize sick [tile] = ∅ ∨ Descending (keys rank lists 0) outputSize) :
    ∃ lists', processTile rank outputSize tileSize sick lists tile = some lists' ∧
      Kept rank lists' outputSize (found ∪ matched tileSize sick [tile]) := by
  have hc := (cmpSwap_twoWay rank).up
  have hsorted := ascending_iff.mp
    (merge_ascending_of_valley hc _ 0 _ (loaded_valley hrank hkept.valley h))
  obtain ⟨lists', words, hlists', hholds, hmem⟩ := markAndCompact_sorted hrank htwo hsorted
  have hascending := ascending_iff.mpr (hholds.window_ascending hrank)
  refine ⟨lists', hlists', front_of_window hholds.nodup hholds.real ?_ hholds.cells hcard
    (by omega), Ascending.valley fun i j hij hj => hascending i j hij (by omega)⟩
  obtain ⟨hfirst, hperm, -⟩ := window_loaded rank outputSize tileSize sick lists tile
  obtain ⟨old, -, hold, rfl, hwindow⟩ := hkept.front
  ext w
  rw [List.mem_toFinset, hmem, (merge_rearranged hc.exchanging 0 _ _).perm.mem_iff, window_append,
    Nat.zero_add, hfirst, List.mem_append, hperm.mem_iff, Finset.mem_union, List.mem_toFinset,
    hwindow]
  by_cases hw : w = noneWord
  · simp [hw, hold, hreal]
  · rw [mem_runQueryUniqueDevices hw, List.mem_append]
    have hrest : w ∉ List.replicate (outputSize - old.length) noneWord :=
      fun hmem => hw (List.eq_of_mem_replicate hmem)
    simp [hw, hrest]

/-- All further tiles, if every merge gets a valley. -/
theorem foldlM_kept (hrank : WordOrder rank) (htwo : 2 ≤ outputSize + tileSize)
    {tiles : List Tile} {lists : Nat → Word} {found : Finset Word}
    (hkept : Kept rank lists outputSize found) (hreal : noneWord ∉ matched tileSize sick tiles)
    (hcard : (found ∪ matched tileSize sick tiles).card ≤ outputSize)
    (h : outputSize ≤ 1 ∨ ∀ i tile, tiles[i]? = some tile → matched tileSize sick [tile] = ∅ ∨
      found ∪ matched tileSize sick (tiles.take i) = ∅ ∨
        i = 0 ∧ Descending (keys rank lists 0) outputSize) :
    ∃ lists', tiles.foldlM (processTile rank outputSize tileSize sick) lists = some lists' ∧
      Kept rank lists' outputSize (found ∪ matched tileSize sick tiles) := by
  induction tiles generalizing lists found with
  | nil => exact ⟨lists, rfl, by simpa [matched] using hkept⟩
  | cons tile tiles ih =>
    have hsplit : ∀ tiles, matched tileSize sick (tile :: tiles) =
        matched tileSize sick [tile] ∪ matched tileSize sick tiles := matched_append [tile]
    rw [hsplit, ← Finset.union_assoc] at hcard ⊢
    rw [hsplit, Finset.mem_union, not_or] at hreal
    have hmerge : matched tileSize sick [tile] = ∅ ∨
        Descending (keys rank lists 0) outputSize := by
      rcases h with hone | h
      · exact .inr fun i j hij hj => by rw [show i = j by omega]
      · rcases h 0 tile rfl with hblank | hempty | ⟨-, hdescending⟩
        · exact .inl hblank
        · obtain rfl : found = ∅ := (Finset.union_eq_empty.mp hempty).1
          exact .inr hkept.front.descending_of_empty
        · exact .inr hdescending
    obtain ⟨lists₁, htile, hkept₁⟩ := processTile_kept hrank htwo hkept hreal.1
      ((Finset.card_le_card Finset.subset_union_left).trans hcard) hmerge
    obtain ⟨lists', hrest, hkept'⟩ := ih hkept₁ hreal.2 hcard
      (h.imp_right fun h i tile' htile' => by
        rcases h (i + 1) tile' htile' with hblank | hempty | ⟨hzero, -⟩
        · exact .inl hblank
        · rw [List.take_succ_cons, hsplit, ← Finset.union_assoc] at hempty
          exact .inr (.inl hempty)
        · exact absurd hzero (Nat.succ_ne_zero i))
    exact ⟨lists', by rw [List.foldlM_cons, htile]; exact hrest, hkept'⟩

theorem uniqueDevices_cons {first second : Tile} {lists fresh : Nat → Word}
    (hlists : processFirstPair rank tileSize sick first second = some lists) (tiles : List Tile) :
    uniqueDevices rank outputSize tileSize sick fresh (first :: second :: tiles) =
      tiles.foldlM (processTile rank outputSize tileSize sick)
        (fun i => if i < 2 * tileSize then lists i else fresh i) := by
  rw [uniqueDevices, hlists]
  rfl

/-- The loop finds all if every merge gets what it is made for. -/
theorem finds_of_mergeable (hrank : WordOrder rank) (hpos : 0 < tileSize)
    (hsize : outputSize ≤ 2 * tileSize) (fresh : Nat → Word) {tiles : List Tile}
    (hlength : tiles.length = 2 ∨ 2 < tiles.length ∧ 2 ≤ outputSize + tileSize)
    (hreal : noneWord ∉ matched tileSize sick tiles)
    (hcard : (matched tileSize sick tiles).card ≤ outputSize)
    (hmerge : Mergeable outputSize tileSize sick tiles) :
    Finds rank outputSize tileSize fresh sick tiles := by
  obtain ⟨first, second, rest, rfl⟩ : ∃ first second rest, tiles = first :: second :: rest := by
    match tiles, hlength with
    | first :: second :: rest, _ => exact ⟨first, second, rest, rfl⟩
    | [_], h | [], h => simp at h
  have hsplit : ∀ rest, matched tileSize sick (first :: second :: rest) =
      matched tileSize sick [first, second] ∪ matched tileSize sick rest :=
    matched_append [first, second]
  rw [hsplit rest] at hreal hcard
  rw [Finset.mem_union, not_or] at hreal
  obtain ⟨lists, hlists, hkept, hfull⟩ := processFirstPair_kept hrank hpos hsize hreal.1
    ((Finset.card_le_card Finset.subset_union_left).trans hcard)
  have hresize : ∀ i < outputSize, (if i < 2 * tileSize then lists i else fresh i) = lists i :=
    fun i hi => if_pos (by omega)
  rw [Finds, uniqueDevices_cons hlists, hsplit rest]
  rcases hlength with htwo | ⟨-, htwo⟩
  · obtain rfl : rest = [] := by simpa using htwo
    refine ⟨_, rfl, ?_⟩
    simpa [matched] using (hkept.congr hresize).front.holdsOnce
  · obtain ⟨lists', hrest, hkept'⟩ := foldlM_kept hrank htwo (hkept.congr hresize) hreal.2 hcard
      (hmerge.imp_right fun h i tile htile => by
        rcases h (i + 2) (by omega) tile htile with hblank | hempty | ⟨hzero, hcells⟩
        · exact .inl hblank
        · rw [List.take_succ_cons, List.take_succ_cons, hsplit] at hempty
          exact .inr (.inl hempty)
        · obtain rfl : i = 0 := by omega
          refine .inr (.inr ⟨rfl, fun i j hij hj => ?_⟩)
          simpa only [keys, Nat.zero_add, hresize _ hj, hresize _ (hij.trans_lt hj)] using
            hfull hcells i j hij hj)
    exact ⟨lists', hrest, hkept'.front.holdsOnce⟩

/-! ## When it does not -/

theorem matched_blank (tileSize : Nat) (sick : BitVec didbits) (k : Nat) :
    matched tileSize sick (List.replicate k (tileOf sick [])) = ∅ := by
  induction k with
  | zero => rfl
  | succ k ih =>
    rw [List.replicate_succ, ← List.singleton_append, matched_append, ih,
      matched_tileOf (Nat.zero_le _)]
    rfl

/-- One or two words in front, the greatest of them again in the tile, and a number of cells that
puts it on the other side of a split. -/
theorem processTile_repeats (hrank : WordOrder rank) (sick : BitVec didbits) {c s : Nat}
    (hcs : c + s ≤ 1) (hdvd : 2 ^ (c + s + 1) ∣ outputSize + s - c) (hbefore : c < outputSize)
    (htile : s < tileSize) {lists : Nat → Word} {found : Finset Word}
    (hfront : Front lists outputSize found) (hcard : found.card = c + 1) {y : Word}
    (hy : y ∈ found) (hgreatest : ∀ w ∈ found, rank w ≤ rank y) :
    ∃ lists' words, processTile rank outputSize tileSize sick lists
        (tileOf sick (List.replicate (s + 1) y)) = some lists' ∧ noneWord ∉ words ∧
      window lists' 0 (outputSize + tileSize) =
        words ++ List.replicate (outputSize + tileSize - words.length) noneWord ∧
      2 ≤ words.count y := by
  obtain ⟨words, hnodup, hreal, rfl, hwindow⟩ := hfront
  rw [List.toFinset_card_of_nodup hnodup] at hcard
  simp only [List.mem_toFinset] at hy hgreatest
  have hyreal : y ≠ noneWord := fun heq => hreal (heq ▸ hy)
  have hlt : rank y < rank noneWord :=
    lt_of_le_of_ne (hrank.none_greatest y) fun heq => hyreal (hrank.injective heq)
  obtain ⟨hfirst, hperm, hsorted⟩ := window_loaded rank outputSize tileSize sick lists
    (tileOf sick (List.replicate (s + 1) y))
  rw [hwindow] at hfirst
  rw [runQueryUniqueDevices_tileOf (by rw [List.length_replicate]; exact htile),
    List.length_replicate] at hperm
  have hlast : window (loaded rank outputSize tileSize sick lists
      (tileOf sick (List.replicate (s + 1) y))) outputSize tileSize =
      List.replicate (s + 1) y ++ List.replicate (tileSize - (s + 1)) noneWord := by
    refine List.Perm.eq_of_pairwise (fun a b _ _ hab hba => ?_) hsorted ?_ hperm
    · exact hrank.injective (le_antisymm hab hba)
    simp [List.pairwise_append, List.pairwise_replicate, hrank.none_greatest]
  have happart : Apart (keys rank (merge (cmpSwap rank true) 0 (outputSize + tileSize)
      (loaded rank outputSize tileSize sick lists (tileOf sick (List.replicate (s + 1) y)))) 0)
      (outputSize + tileSize) (rank y) := by
    refine merge_apart_of_stray (cmpSwap_twoWay rank).up hlt hcs _ 0 _
      (outputSize + s) ⟨by omega, by omega, hdvd, fun i hi => ?_, ?_, fun i hi hi' => ?_,
        fun i hi hci hout => ?_⟩
    · have hcell := cell_of_window hfirst (i := i) (by omega)
        (x := words[i]) (by rw [List.getElem?_append_left (by omega), List.getElem?_eq_getElem])
      rw [keys, hcell]
      exact hgreatest _ (List.getElem_mem _)
    · obtain ⟨i, hi, hget⟩ := List.getElem_of_mem hy
      have hcell := cell_of_window hfirst (i := i) (by omega) (x := y)
        (by rw [List.getElem?_append_left hi, List.getElem?_eq_getElem hi, hget])
      exact ⟨i, by omega, by rw [keys, hcell]⟩
    · have hcell := cell_of_window hlast (i := i - outputSize) (by omega) (x := y)
        (by rw [List.getElem?_append_left (by simp; omega), List.getElem?_replicate_of_lt (by omega)])
      rw [show outputSize + (i - outputSize) = i by omega] at hcell
      rw [keys, Nat.zero_add, hcell]
    · by_cases hfront : i < outputSize
      · have hcell := cell_of_window hfirst hfront (x := noneWord)
          (by rw [List.getElem?_append_right (by omega), List.getElem?_replicate_of_lt (by omega)])
        rw [keys, hcell]
      · have hcell := cell_of_window hlast (i := i - outputSize) (by omega) (x := noneWord)
          (by rw [List.getElem?_append_right (by simp; omega), List.length_replicate,
            List.getElem?_replicate_of_lt (by omega)])
        rw [show outputSize + (i - outputSize) = i by omega] at hcell
        rw [keys, Nat.zero_add, hcell]
  exact two_le_count_of_merge_apart hrank (by omega) hyreal happart

/-- A word that is there twice is found twice, unless so many others are found that they fill
the cells. -/
theorem not_holdsOnce {cells : Nat → Word} {size : Nat} {words : List Word}
    (hreal : noneWord ∉ words)
    (hwindow : window cells 0 size = words ++ List.replicate (size - words.length) noneWord)
    {y : Word} (hy : y ≠ noneWord) (hcount : 2 ≤ words.count y) {found : Finset Word}
    (hcard : found.card < outputSize) (hsize : outputSize ≤ size) :
    ¬ HoldsOnce cells outputSize found := by
  intro hholds
  rcases Nat.le_total words.length outputSize with hle | hle
  · have hone := hholds y hy
    rw [window_first hwindow hle hsize, List.count_append] at hone
    split_ifs at hone <;> omega
  · have htake : window cells 0 outputSize = words.take outputSize := by
      have hsplit := congrArg (List.take outputSize) hwindow
      rwa [show size = outputSize + (size - outputSize) by omega, window_append,
        List.take_append_of_le_length (by simp), List.take_append_of_le_length hle,
        List.take_of_length_le (by simp)] at hsplit
    have hnone : ∀ w ∈ words.take outputSize, w ≠ noneWord := fun w hw heq =>
      hreal (heq ▸ List.mem_of_mem_take hw)
    have hfound : ∀ w ∈ words.take outputSize, (words.take outputSize).count w = 1 ∧ w ∈ found := by
      intro w hw
      have hone := hholds w (hnone w hw)
      have hpos := List.count_pos_iff.mpr hw
      rw [htake] at hone
      split_ifs at hone with hmem
      · exact ⟨hone, hmem⟩
      · omega
    have hnodup : (words.take outputSize).Nodup := List.nodup_iff_count_le_one.mpr fun w => by
      by_cases hw : w ∈ words.take outputSize
      · exact (hfound w hw).1.le
      · rw [List.count_eq_zero_of_not_mem hw]
        exact Nat.zero_le 1
    have hsub : (words.take outputSize).toFinset ⊆ found := fun w hw =>
      (hfound w (List.mem_toFinset.mp hw)).2
    have hlength := Finset.card_le_card hsub
    rw [List.toFinset_card_of_nodup hnodup, List.length_take, Nat.min_eq_left hle] at hlength
    omega

/-- Some words in the first tile, one of them once more in the last tile, the others empty. -/
def strayTiles (sick : BitVec didbits) (words last : List Word) (k : Nat) : List Tile :=
  tileOf sick words :: tileOf sick [] ::
    (List.replicate k (tileOf sick []) ++ [tileOf sick last])

theorem matched_strayTiles {words last : List Word} (hwords : words.length ≤ tileSize)
    (hlast : last.length ≤ tileSize) (k : Nat) :
    matched tileSize sick (strayTiles sick words last k) = words.toFinset ∪ last.toFinset := by
  have hsplit : strayTiles sick words last k =
      [tileOf sick words] ++ (List.replicate (k + 1) (tileOf sick []) ++ [tileOf sick last]) := by
    simp [strayTiles, List.replicate_succ]
  rw [hsplit, matched_append, matched_append, matched_blank, matched_tileOf hwords,
    matched_tileOf hlast, Finset.empty_union]

theorem matched_strayTiles_replicate (sick : BitVec didbits) {words : List Word} {y : Word}
    {s : Nat} (hwords : words.length ≤ tileSize) (hs : s < tileSize) (hy : y ∈ words) (k : Nat) :
    matched tileSize sick (strayTiles sick words (List.replicate (s + 1) y) k) =
      words.toFinset := by
  rw [matched_strayTiles hwords (by rw [List.length_replicate]; omega)]
  refine Finset.union_eq_left.mpr fun w hw => ?_
  rw [List.eq_of_mem_replicate (List.mem_toFinset.mp hw)]
  exact List.mem_toFinset.mpr hy

theorem uniqueDevices_repeats (hrank : WordOrder rank) {c s : Nat} (hcs : c + s ≤ 1)
    (hdvd : 2 ^ (c + s + 1) ∣ outputSize + s - c) (hbefore : c + 1 < outputSize)
    (htile : c < tileSize ∧ s < tileSize) (hsize : outputSize ≤ 2 * tileSize)
    {words : List Word} (hlength : words.length = c + 1) (hnodup : words.Nodup)
    (hreal : noneWord ∉ words) {y : Word} (hy : y ∈ words)
    (hgreatest : ∀ w ∈ words, rank w ≤ rank y) (k : Nat) (fresh : Nat → Word) :
    ¬ Finds rank outputSize tileSize fresh sick
        (strayTiles sick words (List.replicate (s + 1) y) k) := by
  have htwo : 2 ≤ outputSize + tileSize := by omega
  have hcard : words.toFinset.card = c + 1 := by rw [List.toFinset_card_of_nodup hnodup, hlength]
  have hyreal : y ≠ noneWord := fun heq => hreal (heq ▸ hy)
  have hpair : matched tileSize sick [tileOf sick words, tileOf sick []] = words.toFinset := by
    rw [matched_pair, matched_tileOf (by omega), matched_tileOf (Nat.zero_le _)]
    simp
  have hall : matched tileSize sick (strayTiles sick words (List.replicate (s + 1) y) k) =
      words.toFinset := matched_strayTiles_replicate sick (by omega) htile.2 hy k
  obtain ⟨lists, hlists, hkept, -⟩ := processFirstPair_kept hrank (by omega) hsize
    (by rw [hpair]; simpa using hreal) (by rw [hpair, hcard]; omega)
  rw [hpair] at hkept
  have hnothing : matched tileSize sick (List.replicate k (tileOf sick [])) = ∅ :=
    matched_blank tileSize sick k
  have hresized : Kept rank (fun i => if i < 2 * tileSize then lists i else fresh i) outputSize
      words.toFinset := hkept.congr fun i hi => if_pos (by omega)
  obtain ⟨lists₁, hblank, hkept₁⟩ := foldlM_kept hrank htwo hresized
    (by rw [hnothing]; exact Finset.notMem_empty _) (by rw [hnothing, Finset.union_empty]; omega)
    (.inr fun i tile htile => .inl (by
      rw [List.eq_of_mem_replicate (List.mem_of_getElem? htile), matched_tileOf (Nat.zero_le _)]
      rfl))
  rw [hnothing, Finset.union_empty] at hkept₁
  obtain ⟨lists₂, found, hlast, hnone, hwindow, hcount⟩ := processTile_repeats hrank
    sick hcs hdvd (by omega) htile.2 hkept₁.front hcard (List.mem_toFinset.mpr hy)
    (by simpa using hgreatest)
  rintro ⟨lists', hrun, hholds⟩
  have hlists' : lists₂ = lists' := by
    rw [strayTiles, uniqueDevices_cons hlists, List.foldlM_append, hblank, Option.bind_eq_bind,
      Option.bind_some, List.foldlM_cons, hlast] at hrun
    exact Option.some.inj hrun
  subst hlists'
  rw [hall] at hholds
  exact not_holdsOnce hnone hwindow hyreal hcount (by omega) (by omega) hholds

theorem not_findsAll (hrank : WordOrder rank) {c s : Nat} (hcs : c + s ≤ 1)
    (hdvd : 2 ^ (c + s + 1) ∣ outputSize + s - c) (hbefore : c + 1 < outputSize)
    (htile : c < tileSize ∧ s < tileSize) (hsize : outputSize ≤ 2 * tileSize)
    {words : List Word} (hlength : words.length = c + 1) (hnodup : words.Nodup)
    (hreal : noneWord ∉ words) {y : Word} (hy : y ∈ words)
    (hgreatest : ∀ w ∈ words, rank w ≤ rank y) (k : Nat) :
    ¬ FindsAll rank outputSize tileSize (k + 3) := by
  intro hfinds
  have hall := matched_strayTiles_replicate 0 (by omega : words.length ≤ tileSize)
    htile.2 hy k
  refine uniqueDevices_repeats hrank hcs hdvd hbefore htile hsize hlength hnodup hreal hy hgreatest
    k (fun _ => 0) (hfinds _ 0 _ (by simp [strayTiles]) ?_ ?_)
  · rw [hall]
    simpa using hreal
  · rw [hall, List.toFinset_card_of_nodup hnodup]
    omega

/-- The loop finds every fingerprint once if every merge gets what it is made for. It does so
whatever the tiles hold if and only if there are no tiles but the first two, or hardly anything
can be found. (Lists of less than two cells are read outside their bounds.) -/
theorem findsAll_iff (hrank : WordOrder rank) {n : Nat} (hn : 2 ≤ n)
    (hsize : outputSize ≤ 2 * tileSize) :
    (0 < tileSize → n = 2 ∨ 2 ≤ outputSize + tileSize → ∀ fresh sick (tiles : List Tile),
      tiles.length = n → noneWord ∉ matched tileSize sick tiles →
      (matched tileSize sick tiles).card ≤ outputSize → Mergeable outputSize tileSize sick tiles →
      Finds rank outputSize tileSize fresh sick tiles) ∧
    (FindsAll rank outputSize tileSize n ↔
      0 < tileSize ∧ (n = 2 ∨ outputSize ≤ 1 ∧ 2 ≤ outputSize + tileSize)) := by
  refine ⟨fun hpos htwo fresh sick tiles hlength hreal hcard hmerge =>
    finds_of_mergeable hrank hpos hsize fresh (by omega) hreal hcard hmerge, ?_⟩
  constructor
  · intro hfinds
    obtain ⟨n, rfl⟩ : ∃ m, n = m + 2 := ⟨n - 2, by omega⟩
    obtain ⟨lists, hrun, -⟩ := hfinds (fun _ => 0) 0 (List.replicate (n + 2) (tileOf 0 []))
      (by simp) (by simp [matched_blank]) (by simp [matched_blank])
    simp only [List.replicate_succ, uniqueDevices, Option.bind_eq_bind, Option.bind_eq_some_iff]
      at hrun
    obtain ⟨first, hfirst, hrest⟩ := hrun
    have hpos : 0 < tileSize := by
      by_contra hzero
      simp [processFirstPair, markAndCompact, computeDistanceMarkDuplicates,
        show tileSize = 0 by omega] at hfirst
    refine ⟨hpos, ?_⟩
    cases n with
    | zero => exact .inl rfl
    | succ k =>
      simp only [List.replicate_succ, List.foldlM_cons, Option.bind_eq_bind,
        Option.bind_eq_some_iff] at hrest
      obtain ⟨second, hsecond, -⟩ := hrest
      refine .inr ⟨?_, ?_⟩
      · by_contra hlarge
        have hones : noneWord ∉ [(1 : Word)] := by decide
        have hlt : outputSize % 2 = 0 ∨ outputSize % 4 = 3 ∨ outputSize % 4 = 1 := by omega
        rcases hlt with heven | hthree | hone
        · exact not_findsAll (c := 0) (s := 0) hrank (by omega) (by omega) (by omega) (by omega)
            hsize rfl (by decide) hones (List.mem_singleton_self _) (by simp) k hfinds
        · exact not_findsAll (c := 0) (s := 1) hrank (by omega) (by omega) (by omega) (by omega)
            hsize rfl (by decide) hones (List.mem_singleton_self _) (by simp) k hfinds
        · have htwo : noneWord ∉ [(1 : Word), 2] := by decide
          have hgreatest : ∃ y ∈ [(1 : Word), 2], ∀ w ∈ [(1 : Word), 2], rank w ≤ rank y := by
            rcases Nat.le_total (rank 1) (rank 2) with hle | hle
            · exact ⟨2, by simp, by simpa using hle⟩
            · exact ⟨1, by simp, by simpa using hle⟩
          obtain ⟨y, hy, hgreatest⟩ := hgreatest
          exact not_findsAll (c := 1) (s := 0) hrank (by omega) (by omega) (by omega) (by omega)
            hsize rfl (by decide) htwo hy hgreatest k hfinds
      · by_contra hsmall
        simp [processTile, markAndCompact, computeDistanceMarkDuplicates,
          show outputSize + tileSize < 2 by omega] at hsecond
  · rintro ⟨hpos, hfew⟩ fresh sick tiles hlength hreal hcard
    refine finds_of_mergeable hrank hpos hsize fresh (by omega) hreal hcard ?_
    rcases hfew with rfl | ⟨hone, -⟩
    · refine .inr fun i hi tile htile => ?_
      rw [List.getElem?_eq_none (by omega)] at htile
      exact absurd htile (Option.some_ne_none tile).symm
    · exact .inl hone

end Spec

/-! ## Two and three tiles -/

/-- A third tile does no harm if it has no matches. -/
theorem twoTiles_findAll : FindsAll exampleRank 2 1 2 ∧
    Finds exampleRank 2 1 (fun _ => 0) 0 (strayTiles 0 [7] [] 0) := by
  have hall : matched 1 0 (strayTiles 0 [7] [] 0) = {7} :=
    matched_strayTiles (by decide) (by decide) 0
  refine ⟨(findsAll_iff exampleRank_wordOrder le_rfl (by decide)).2.mpr ⟨by decide, .inl rfl⟩,
    (findsAll_iff exampleRank_wordOrder (by decide : 2 ≤ 3) (by decide)).1 (by decide)
      (.inr (by decide)) _ _ _ rfl (by rw [hall]; decide) (by rw [hall]; decide)
      (.inr fun i hi tile htile => .inl ?_)⟩
  obtain rfl : i = 2 := by
    have := (List.getElem?_eq_some_iff.mp htile).1
    simp [strayTiles] at this
    omega
  obtain rfl : tileOf 0 [] = tile := Option.some.inj htile
  exact matched_tileOf (by decide)

/-- Fingerprint `7` in the first and in the third tile: it is there twice in the end. -/
theorem threeTiles_repeat : noneWord ∉ matched 1 0 (strayTiles 0 [7] [7] 0) ∧
    (matched 1 0 (strayTiles 0 [7] [7] 0)).card ≤ 2 ∧
    ¬ ∃ lists, uniqueDevices exampleRank 2 1 0 (fun _ => 0) (strayTiles 0 [7] [7] 0) = some lists ∧
      HoldsOnce lists 2 (matched 1 0 (strayTiles 0 [7] [7] 0)) := by
  have hall : matched 1 0 (strayTiles 0 [7] [7] 0) = {7} := matched_strayTiles (by decide) (by decide) 0
  refine ⟨by rw [hall]; decide, by rw [hall]; decide, ?_⟩
  exact uniqueDevices_repeats (c := 0) (s := 0) exampleRank_wordOrder (by decide) (by decide)
    (by decide) (by decide) (by decide) rfl (by decide) (by decide) (List.mem_singleton_self _)
    (by simp) 0 _

end CoVault.MapReduce
