import CoVault.MapReduce.Reducer

/-!
# The first reducer stage

A reducer keeps two parts of `tile_size` cells. Every tile but the first goes into the lower
part, over what the last merge has left there; that is none as long as all fingerprints fit
in the upper part. The lower part is sorted in ascending order, which is what a merge in
descending order needs before a descending part, whatever the number of cells.
-/

namespace CoVault.MapReduce

open Library Library.Cells Library.SortNetwork

/-- `lists` and `base_idx`. -/
structure Lists where
  cells : Nat → Word
  baseIdx : Nat

section Model

variable (rank : Word → Nat) (tileSize : Nat)

/-- The round of a reducer that receives tile `t`. The stages differ in how they `arrange` the
cells before the merge. -/
def reduceTile (arrange : Lists → Nat → Word) (s : Lists) (received : List Word × Nat) : Lists :=
  let cells := arrange { s with cells := place s.baseIdx received.1 s.cells }
  let cells :=
    if 0 < received.2 then merge (cmpSwap rank false) 0 (2 * tileSize) cells else cells
  ⟨cells, 0⟩

/-- All rounds, with the first tile in the upper part, and then marking and compaction. -/
def reduceTiles (arrange : Lists → Nat → Word) (fresh : Nat → Word) (tiles : List (List Word)) :
    Option (Nat → Word) :=
  markAndCompact (2 * tileSize)
    (tiles.zipIdx.foldl (reduceTile rank tileSize arrange) ⟨fresh, tileSize⟩).cells

/-- Sort what has been received, in ascending order if it is in the lower part. -/
def sortPart (s : Lists) : Nat → Word :=
  sort (cmpSwap rank) s.baseIdx tileSize (s.baseIdx == 0) s.cells

/-- The reduce loop of the first stage. -/
def firstStage (fresh : Nat → Word) (tiles : List (List Word)) : Option (Nat → Word) :=
  reduceTiles rank tileSize (sortPart rank tileSize) fresh tiles

end Model

/-! ## What a stage is for -/

/-- The entries that are not none. -/
def reals (l : List Word) : List Word := l.filter fun w => decide (w ≠ noneWord)

/-- The cells hold the words in descending order, each once, and none behind them. -/
structure HoldsDescending (rank : Word → Nat) (cells : Nat → Word) (size : Nat)
    (words : List Word) : Prop where
  descending : words.Pairwise fun a b => rank b < rank a
  real : noneWord ∉ words
  cells : window cells 0 size = words ++ List.replicate (size - words.length) noneWord

/-- The cells are in descending order and hold the fingerprints of `words`, as often as these. -/
structure Collected (rank : Word → Nat) (cells : Nat → Word) (lo n : Nat) (words : List Word) :
    Prop where
  descending : (window cells lo n).Pairwise fun a b => rank b ≤ rank a
  perm : (reals (window cells lo n)).Perm (reals words)

/-! ## Rounds -/

section Spec

variable {rank : Word → Nat} {tileSize : Nat}

theorem mem_reals {l : List Word} {w : Word} : w ∈ reals l ↔ w ≠ noneWord ∧ w ∈ l := by
  rw [reals, List.mem_filter, decide_eq_true_iff, and_comm]

theorem reals_append (l l' : List Word) : reals (l ++ l') = reals l ++ reals l' :=
  List.filter_append ..

theorem reals_eq_self {l : List Word} (h : noneWord ∉ l) : reals l = l :=
  List.filter_eq_self.mpr fun _ hw => decide_eq_true fun heq => h (heq ▸ hw)

theorem window_place_after {offset lo n : Nat} {l : List Word} (h : offset + l.length ≤ lo)
    (cells : Nat → Word) : window (place offset l cells) lo n = window cells lo n :=
  window_congr fun i _ => by rw [place, if_neg (by omega)]

/-- If the fingerprints fit in the upper part, nothing but none is in the lower part. -/
theorem Collected.upper (hrank : WordOrder rank) {cells : Nat → Word} {words : List Word}
    (h : Collected rank cells 0 (2 * tileSize) words) (hfits : (reals words).length ≤ tileSize) :
    Collected rank cells tileSize tileSize words := by
  have hdescending := h.descending
  have hperm := h.perm
  rw [Nat.two_mul, window_append, Nat.zero_add] at hdescending hperm
  obtain ⟨-, hupper, hbelow⟩ := List.pairwise_append.mp hdescending
  refine ⟨hupper, ?_⟩
  suffices hlower : reals (window cells 0 tileSize) = [] by
    rwa [reals_append, hlower, List.nil_append] at hperm
  refine List.eq_nil_iff_forall_not_mem.mpr fun w hw => ?_
  obtain ⟨hne, hmem⟩ := mem_reals.mp hw
  -- above a fingerprint in the lower part there is no room for none
  have hreal : noneWord ∉ window cells tileSize tileSize := fun hnone =>
    hne (hrank.injective ((hrank.none_greatest w).antisymm (hbelow w hmem _ hnone)))
  have hlength := hperm.length_eq
  rw [reals_append, List.length_append, reals_eq_self hreal, length_window] at hlength
  have := List.length_pos_of_mem hw
  omega

/-- Otherwise what is lost is in the lower part. -/
theorem Collected.exists_upper {cells : Nat → Word} {words : List Word}
    (h : Collected rank cells 0 (2 * tileSize) words) :
    ∃ kept ⊆ words, Collected rank cells tileSize tileSize kept := by
  have hdescending := h.descending
  have hperm := h.perm
  rw [Nat.two_mul, window_append, Nat.zero_add] at hdescending hperm
  have hkept : noneWord ∉ reals (window cells tileSize tileSize) := fun hnone =>
    (mem_reals.mp hnone).1 rfl
  refine ⟨reals (window cells tileSize tileSize), fun w hw => ?_,
    (List.pairwise_append.mp hdescending).2.1, by rw [reals_eq_self hkept]⟩
  refine (mem_reals.mp (hperm.subset ?_)).2
  rw [reals_append]
  exact List.mem_append_right _ hw

/-- A round after the first. -/
def mergeRound (rank : Word → Nat) (tileSize : Nat) (arrange : Lists → Nat → Word)
    (cells : Nat → Word) (tile : List Word) : Nat → Word :=
  merge (cmpSwap rank false) 0 (2 * tileSize) (arrange ⟨place 0 tile cells, 0⟩)

theorem reduceTiles_cons (arrange : Lists → Nat → Word) (fresh : Nat → Word) (first : List Word)
    (tiles : List (List Word)) : reduceTiles rank tileSize arrange fresh (first :: tiles) =
      markAndCompact (2 * tileSize) (tiles.foldl (mergeRound rank tileSize arrange)
        (arrange ⟨place tileSize first fresh, tileSize⟩)) := by
  have hrounds : ∀ (tiles : List (List Word)) cells t, 0 < t →
      (tiles.zipIdx t).foldl (reduceTile rank tileSize arrange) ⟨cells, 0⟩ =
        ⟨tiles.foldl (mergeRound rank tileSize arrange) cells, 0⟩ := by
    intro tiles
    induction tiles with
    | nil => exact fun _ _ _ => rfl
    | cons tile tiles ih =>
      intro cells t ht
      have hround : reduceTile rank tileSize arrange ⟨cells, 0⟩ (tile, t) =
          ⟨mergeRound rank tileSize arrange cells tile, 0⟩ := by
        simp only [reduceTile, if_pos ht, mergeRound]
      rw [List.zipIdx_cons, List.foldl_cons, List.foldl_cons, hround, ih _ _ (Nat.succ_pos t)]
  rw [reduceTiles, List.zipIdx_cons, List.foldl_cons]
  exact congrArg (fun s => markAndCompact (2 * tileSize) s.cells) (hrounds tiles _ 1 Nat.one_pos)

/-- What is done in the lower part leaves the upper part as it is. -/
theorem window_upper {cells arranged : Nat → Word} {tile : List Word}
    (hlength : tile.length = tileSize)
    (h : Rearranged 0 tileSize (place 0 tile cells) arranged) :
    window arranged tileSize tileSize = window cells tileSize tileSize := by
  have hplaced : window (place 0 tile cells) tileSize tileSize = window cells tileSize tileSize :=
    window_place_after (by omega) cells
  rw [← hplaced]
  exact window_congr fun i _ => h.outside (by omega)

/-- What a merge then sorts is the tile and the upper part. -/
theorem reals_mergeRound {arrange : Lists → Nat → Word} {cells arranged : Nat → Word}
    {tile : List Word} (hlength : tile.length = tileSize)
    (harrange : arrange ⟨place 0 tile cells, 0⟩ = arranged)
    (hlower : Rearranged 0 tileSize (place 0 tile cells) arranged) :
    (reals (window (mergeRound rank tileSize arrange cells tile) 0 (2 * tileSize))).Perm
      (reals (window cells tileSize tileSize) ++ reals tile) := by
  have hmerge := (merge_rearranged (cmpSwap_twoWay rank).down.exchanging 0 (2 * tileSize)
    arranged).perm
  have hplaced := window_place 0 tile cells
  have htile := hlower.perm
  rw [hlength] at hplaced
  rw [hplaced] at htile
  have hsplit : window arranged 0 (2 * tileSize) =
      window arranged 0 tileSize ++ window cells tileSize tileSize := by
    rw [Nat.two_mul, window_append, Nat.zero_add, window_upper hlength hlower]
  rw [hsplit] at hmerge
  rw [mergeRound, harrange, ← reals_append]
  exact (hmerge.trans ((htile.append_right _).trans List.perm_append_comm)).filter _

/-- A round that sorts has collected one tile more. -/
theorem collected_mergeRound {arrange : Lists → Nat → Word} {cells arranged : Nat → Word}
    {tile words : List Word} (hlength : tile.length = tileSize)
    (harrange : arrange ⟨place 0 tile cells, 0⟩ = arranged)
    (hlower : Rearranged 0 tileSize (place 0 tile cells) arranged)
    (hupper : (reals (window cells tileSize tileSize)).Perm (reals words))
    (hsorted : Descending
      (keys rank (merge (cmpSwap rank false) 0 (2 * tileSize) arranged) 0) (2 * tileSize)) :
    Collected rank (mergeRound rank tileSize arrange cells tile) 0 (2 * tileSize)
      (words ++ tile) := by
  refine ⟨?_, ?_⟩
  · rw [mergeRound, harrange]
    exact descending_iff.mp hsorted
  · rw [reals_append]
    exact (reals_mergeRound hlength harrange hlower).trans (hupper.append_right _)

/-- All rounds after the first. -/
theorem collected_foldl (hrank : WordOrder rank) {arrange : Lists → Nat → Word}
    (hround : ∀ cells tile words, tile.length = tileSize →
      Collected rank cells tileSize tileSize words →
      Collected rank (mergeRound rank tileSize arrange cells tile) 0 (2 * tileSize)
        (words ++ tile))
    {tiles : List (List Word)} (hlength : ∀ tile ∈ tiles, tile.length = tileSize) :
    ∀ {cells words}, tiles ≠ [] → Collected rank cells tileSize tileSize words →
      (reals (words ++ tiles.flatten)).length ≤ tileSize →
      Collected rank (tiles.foldl (mergeRound rank tileSize arrange) cells) 0 (2 * tileSize)
        (words ++ tiles.flatten) := by
  induction tiles with
  | nil => exact fun hne => absurd rfl hne
  | cons tile tiles ih =>
    intro cells words _ hcells hfits
    have hone := hround cells tile words (hlength _ (List.mem_cons_self ..)) hcells
    rw [List.foldl_cons, List.flatten_cons, ← List.append_assoc] at *
    cases tiles with
    | nil => simpa using hone
    | cons tile' tiles =>
      refine ih (fun v hv => hlength v (List.mem_cons_of_mem _ hv)) (by simp)
        (hone.upper hrank ?_) hfits
      rw [reals_append, List.length_append] at hfits
      exact Nat.le_of_add_right_le hfits

/-- Whatever the other rounds lose, the last tile is there as a whole. -/
theorem collected_foldl_concat {arrange : Lists → Nat → Word}
    (hround : ∀ cells tile words, tile.length = tileSize →
      Collected rank cells tileSize tileSize words →
      Collected rank (mergeRound rank tileSize arrange cells tile) 0 (2 * tileSize)
        (words ++ tile))
    {last : List Word} (hlast : last.length = tileSize) {tiles : List (List Word)}
    (hlength : ∀ tile ∈ tiles, tile.length = tileSize) :
    ∀ {cells words}, Collected rank cells tileSize tileSize words →
      ∃ kept ⊆ words ++ tiles.flatten, Collected rank
        ((tiles ++ [last]).foldl (mergeRound rank tileSize arrange) cells) 0 (2 * tileSize)
        (kept ++ last) := by
  induction tiles with
  | nil => exact fun {_ words} h => ⟨words, by simp, hround _ _ _ hlast h⟩
  | cons tile tiles ih =>
    intro cells words h
    obtain ⟨upper, hupper, hcells⟩ :=
      (hround cells tile words (hlength _ (List.mem_cons_self ..)) h).exists_upper
    obtain ⟨kept, hkept, hall⟩ := ih (fun v hv => hlength v (List.mem_cons_of_mem _ hv)) hcells
    refine ⟨kept, List.Subset.trans hkept ?_, hall⟩
    rw [List.flatten_cons, ← List.append_assoc]
    exact List.append_subset.mpr
      ⟨List.subset_append_of_subset_left _ hupper, List.subset_append_right ..⟩

/-- What is left once all has been collected. -/
theorem Collected.markAndCompact (hrank : WordOrder rank) (hsize : 0 < tileSize)
    {lists : Nat → Word} {words : List Word} (h : Collected rank lists 0 (2 * tileSize) words) :
    ∃ cells kept, markAndCompact (2 * tileSize) lists = some cells ∧
      HoldsDescending rank cells (2 * tileSize) kept ∧
      ∀ w, w ∈ kept ↔ w ≠ noneWord ∧ w ∈ words := by
  have hsorted : (window lists 0 (2 * tileSize)).Pairwise fun a b => a = b ∨ rank b < rank a :=
    h.descending.imp fun hle =>
      (Nat.eq_or_lt_of_le hle).imp_left fun heq => (hrank.injective heq).symm
  obtain ⟨cells, kept, hcells, hdescending, hreal, hwindow, hmem⟩ :=
    markAndCompact_pairwise (by omega) (fun a b c hab hbc => hbc.trans hab) hsorted
  refine ⟨cells, kept, hcells, ⟨hdescending, hreal, hwindow⟩, fun w => ?_⟩
  rw [hmem, ← mem_reals, h.perm.mem_iff, mem_reals]

/-! ## The first stage -/

theorem collected_sortPart (cells : Nat → Word) (hsize : 0 < tileSize) {tile : List Word}
    (hlength : tile.length = tileSize) :
    Collected rank (sortPart rank tileSize ⟨place tileSize tile cells, tileSize⟩) tileSize tileSize
      tile := by
  have hupper : (tileSize == 0) = false := by simpa using hsize.ne'
  simp only [sortPart, hupper]
  have hsorted : Descending _ _ := sort_sortedIn (cmpSwap_twoWay rank) tileSize tileSize false
    (place tileSize tile cells)
  have hperm := (sort_rearranged (cmpSwap_twoWay rank).exchanging tileSize tileSize false
    (place tileSize tile cells)).perm
  have hplaced := window_place tileSize tile cells
  rw [hlength] at hplaced
  rw [hplaced] at hperm
  exact ⟨descending_iff.mp hsorted, hperm.filter _⟩

/-- The lower part ascends and the upper part descends. -/
theorem descending_merge {cells : Nat → Word} (hlower : Ascending (keys rank cells 0) tileSize)
    (hupper : Descending (keys rank cells tileSize) tileSize) :
    Descending (keys rank (merge (cmpSwap rank false) 0 (2 * tileSize) cells) 0)
      (2 * tileSize) := by
  refine merge_ascending_of_valley (cmpSwap_twoWay rank).down (2 * tileSize) 0 cells
    (valley_of_descending_ascending (m := tileSize) hlower fun i j hij hj => ?_)
  have := hupper i j hij (by omega)
  simpa [keys] using this

theorem collected_mergeRound_sortPart (cells : Nat → Word) (tile words : List Word)
    (hlength : tile.length = tileSize) (h : Collected rank cells tileSize tileSize words) :
    Collected rank (mergeRound rank tileSize (sortPart rank tileSize) cells tile) 0 (2 * tileSize)
      (words ++ tile) := by
  have hsorted : Ascending _ _ := sort_sortedIn (cmpSwap_twoWay rank) 0 tileSize true
    (place 0 tile cells)
  have hmoved := sort_rearranged (cmpSwap_twoWay rank).exchanging 0 tileSize true
    (place 0 tile cells)
  refine collected_mergeRound hlength rfl hmoved h.perm (descending_merge hsorted ?_)
  have hupper := h.descending
  rw [← window_upper hlength hmoved] at hupper
  exact descending_iff.mpr hupper

/-- However many fingerprints there are, the first stage finds those of the last tile. -/
theorem firstStage_concat (hrank : WordOrder rank) (hsize : 0 < tileSize) (fresh : Nat → Word)
    (first last : List Word) (tiles : List (List Word))
    (hlength : ∀ tile ∈ first :: (tiles ++ [last]), tile.length = tileSize) :
    ∃ cells words, firstStage rank tileSize fresh (first :: (tiles ++ [last])) = some cells ∧
      HoldsDescending rank cells (2 * tileSize) words ∧
      (∀ w ∈ words, w ∈ (first :: (tiles ++ [last])).flatten) ∧
      ∀ w ∈ last, w ≠ noneWord → w ∈ words := by
  have hfirst : Collected rank _ tileSize tileSize first :=
    collected_sortPart fresh hsize (hlength first (List.mem_cons_self ..))
  have htiles : ∀ tile ∈ tiles, tile.length = tileSize :=
    fun tile htile => hlength tile (by simp [htile])
  obtain ⟨kept, hkept, hall⟩ :=
    collected_foldl_concat collected_mergeRound_sortPart (hlength last (by simp)) htiles hfirst
  obtain ⟨cells, words, hcells, hholds, hmem⟩ := hall.markAndCompact hrank hsize
  refine ⟨cells, words, by rw [firstStage, reduceTiles_cons, hcells], hholds, fun w hw => ?_,
    fun w hw hne => (hmem w).mpr ⟨hne, List.mem_append_right _ hw⟩⟩
  rw [List.flatten_cons, List.flatten_append, List.flatten_singleton, ← List.append_assoc]
  exact List.append_subset.mpr ⟨List.subset_append_of_subset_left _ hkept,
    List.subset_append_right ..⟩ ((hmem w).mp hw).2

/-- From two tiles on, and if all fingerprints fit in one, the first stage keeps each of them
once, in descending order; only for tiles without cells it reads outside the array. -/
theorem firstStage_collects (hrank : WordOrder rank) (fresh : Nat → Word)
    {tiles : List (List Word)} (htwo : 2 ≤ tiles.length)
    (hlength : ∀ tile ∈ tiles, tile.length = tileSize)
    (hfits : (reals tiles.flatten).length ≤ tileSize) :
    (firstStage rank tileSize fresh tiles = none ↔ tileSize = 0) ∧
    ∀ cells, firstStage rank tileSize fresh tiles = some cells →
      ∃ words, HoldsDescending rank cells (2 * tileSize) words ∧
        ∀ w, w ∈ words ↔ w ≠ noneWord ∧ w ∈ tiles.flatten := by
  by_cases hsize : tileSize = 0
  · have hnone : firstStage rank tileSize fresh tiles = none := by
      rw [firstStage, reduceTiles, markAndCompact, computeDistanceMarkDuplicates,
        if_pos (by omega)]
      rfl
    exact ⟨iff_of_true hnone hsize, fun cells hcells => by simp [hnone] at hcells⟩
  · obtain ⟨first, tiles, rfl⟩ := List.exists_cons_of_length_pos (by omega : 0 < tiles.length)
    have hfirst : Collected rank _ tileSize tileSize first := collected_sortPart fresh
      (Nat.pos_of_ne_zero hsize) (hlength first (List.mem_cons_self ..))
    have hall := collected_foldl hrank collected_mergeRound_sortPart
      (fun v hv => hlength v (List.mem_cons_of_mem _ hv))
      (List.ne_nil_of_length_pos (Nat.le_of_succ_le_succ htwo)) hfirst hfits
    obtain ⟨cells, words, hcells, hholds, hmem⟩ :=
      hall.markAndCompact hrank (Nat.pos_of_ne_zero hsize)
    have hrun : firstStage rank tileSize fresh (first :: tiles) = some cells := by
      rw [firstStage, reduceTiles_cons, hcells]
    refine ⟨by simp [hrun, hsize], fun cells' hcells' => ?_⟩
    obtain rfl := Option.some.inj (hrun.symm.trans hcells')
    exact ⟨words, hholds, hmem⟩

end Spec

/-! ## Two tiles -/

/-- The fingerprint `3` twice and `5` once, in cells for three. -/
def overlappingTiles : List (List Word) := [[3, noneWord, noneWord], [5, noneWord, 3]]

theorem overlappingTiles_collected :
    (firstStage exampleRank 3 (fun _ => 0) overlappingTiles = none ↔ 3 = 0) ∧
    ∀ cells, firstStage exampleRank 3 (fun _ => 0) overlappingTiles = some cells →
      ∃ words, HoldsDescending exampleRank cells (2 * 3) words ∧
        ∀ w, w ∈ words ↔ w ≠ noneWord ∧ w ∈ overlappingTiles.flatten :=
  firstStage_collects exampleRank_wordOrder _ (by decide) (by decide) (by decide)

end CoVault.MapReduce
