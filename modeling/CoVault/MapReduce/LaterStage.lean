import CoVault.MapReduce.FirstStage

/-!
# The later reducer stages

A list that has been reduced before is not sorted again but only reversed in the lower part.
It ends in none, though, and so does what arrives in the upper part: once there are three
fingerprints in two lists the merge can find two of them around a smaller one.
-/

namespace CoVault.MapReduce

open Library Library.Cells Library.SortNetwork

section Model

variable (rank : Word → Nat) (tileSize : Nat)

/-- Reverse the lower part, wherever the list has been received; without cells the loop starts
from `SIZE_MAX`. -/
def flipPart (s : Lists) : Nat → Word :=
  (List.range (tileSize / 2)).foldl (fun lists low => exchange lists low (tileSize - 1 - low))
    s.cells

/-- The reduce loop of a later stage. -/
def laterStage (fresh : Nat → Word) (tiles : List (List Word)) : Option (Nat → Word) :=
  reduceTiles rank tileSize (flipPart tileSize) fresh tiles

end Model

/-! ## What the stage is for -/

/-- A list as an earlier stage leaves it in its first cells. -/
def shaped (tileSize : Nat) (words : List Word) : List Word :=
  words ++ List.replicate (tileSize - words.length) noneWord

/-- From these lists the stage makes a list of the same kind. -/
def ComposesLists (rank : Word → Nat) (tileSize : Nat) (fresh : Nat → Word)
    (lists : List (List Word)) : Prop :=
  ∃ cells words, laterStage rank tileSize fresh (lists.map (shaped tileSize)) = some cells ∧
    HoldsDescending rank cells (2 * tileSize) words ∧ (∀ w, w ∈ words ↔ w ∈ lists.flatten) ∧
    window cells 0 tileSize = shaped tileSize words

/-- From `n` lists that fit together in one, the stage makes a list of the same kind. -/
def Composes (rank : Word → Nat) (tileSize n : Nat) : Prop :=
  ∀ fresh (lists : List (List Word)), lists.length = n →
    (∀ words ∈ lists, words.Pairwise (fun a b => rank b < rank a) ∧ noneWord ∉ words) →
    lists.flatten.length ≤ tileSize → ComposesLists rank tileSize fresh lists

/-- All lists but one are empty. -/
def OneList (lists : List (List Word)) : Prop :=
  ∃ before words after, lists = before ++ words :: after ∧ ∀ l ∈ before ++ after, l = []

/-- The first two lists are a single word and one without greater words; the others are empty. -/
def WordAndList (rank : Word → Nat) (lists : List (List Word)) : Prop :=
  ∃ first second after, lists = first :: second :: after ∧ (∀ l ∈ after, l = []) ∧
    ((∃ w, first = [w] ∧ ∀ v ∈ second, rank v ≤ rank w) ∨
      ∃ w, second = [w] ∧ ∀ v ∈ first, rank v ≤ rank w)

section Spec

variable {rank : Word → Nat} {tileSize : Nat}

/-! ## The flip -/

theorem rearranged_flipPart (s : Lists) : Rearranged 0 tileSize s.cells (flipPart tileSize s) := by
  have hloop : ∀ k ≤ tileSize / 2, Rearranged 0 tileSize s.cells
      ((List.range k).foldl (fun lists low => exchange lists low (tileSize - 1 - low))
        s.cells) := by
    intro k
    induction k with
    | zero => exact fun _ => Rearranged.refl ..
    | succ k ih =>
      intro hk
      rw [List.range_succ, List.foldl_concat]
      exact (ih (by omega)).trans (Rearranged.of_exchange (by omega) (by omega))
  exact hloop _ le_rfl

theorem flipPart_apply (s : Lists) {i : Nat} (hi : i < tileSize) :
    flipPart tileSize s i = s.cells (tileSize - 1 - i) := by
  have hloop : ∀ k ≤ tileSize / 2, ∀ i < tileSize,
      (List.range k).foldl (fun lists low => exchange lists low (tileSize - 1 - low)) s.cells i =
        if i < k ∨ tileSize - k ≤ i then s.cells (tileSize - 1 - i) else s.cells i := by
    intro k
    induction k with
    | zero => exact fun _ i hi => by rw [if_neg (by omega)]; rfl
    | succ k ih =>
      intro hk i hi
      have hfirst := ih (by omega) k (by omega)
      have hlast := ih (by omega) (tileSize - 1 - k) (by omega)
      rw [if_neg (by omega)] at hfirst hlast
      rw [List.range_succ, List.foldl_concat]
      by_cases hik : i = k
      · rw [hik, exchange_left, hlast, if_pos (by omega)]
      · by_cases hik' : i = tileSize - 1 - k
        · rw [hik', exchange_right, hfirst, if_pos (by omega)]
          congr 1
          omega
        · rw [exchange_of_ne _ hik hik', ih (by omega) i hi]
          congr 1
          exact propext (by omega)
  rw [flipPart, hloop _ le_rfl i hi]
  split_ifs
  · rfl
  · -- the cell in the middle
    congr 1
    omega

theorem length_shaped {words : List Word} (h : words.length ≤ tileSize) :
    (shaped tileSize words).length = tileSize := by
  rw [shaped, List.length_append, List.length_replicate]
  omega

theorem shaped_of_le {words : List Word} {j : Nat} (h : words.length ≤ j) (hj : j < tileSize) :
    (shaped tileSize words).getD j 0 = noneWord := by
  rw [shaped, List.getD_append_right _ _ _ _ h]
  exact List.getD_replicate _ (by omega)

theorem reals_shaped {words : List Word} (h : noneWord ∉ words) :
    reals (shaped tileSize words) = words := by
  have hnone : reals (List.replicate (tileSize - words.length) noneWord) = [] :=
    List.filter_replicate_of_neg (by simp)
  rw [shaped, reals_append, reals_eq_self h, hnone, List.append_nil]

theorem reals_flatten_shaped {lists : List (List Word)} (h : ∀ words ∈ lists, noneWord ∉ words) :
    reals (lists.map (shaped tileSize)).flatten = lists.flatten := by
  induction lists with
  | nil => rfl
  | cons words lists ih =>
    rw [List.map_cons, List.flatten_cons, List.flatten_cons, reals_append,
      reals_shaped (h words (List.mem_cons_self ..)),
      ih fun words hwords => h words (List.mem_cons_of_mem _ hwords)]

/-- What a round merges: the list that it receives, reversed, and the upper part. -/
theorem flipPart_lower {cells : Nat → Word} {words : List Word} (h : words.length ≤ tileSize)
    {i : Nat} (hi : i < tileSize) : flipPart tileSize ⟨place 0 (shaped tileSize words) cells, 0⟩ i =
      (shaped tileSize words).getD (tileSize - 1 - i) 0 := by
  rw [flipPart_apply _ hi]
  dsimp only
  rw [place, length_shaped h, if_pos (by omega), Nat.sub_zero]

theorem flipPart_upper {cells : Nat → Word} {words : List Word} (h : words.length ≤ tileSize)
    {i : Nat} (hi : tileSize ≤ i) :
    flipPart tileSize ⟨place 0 (shaped tileSize words) cells, 0⟩ i = cells i := by
  rw [(rearranged_flipPart _).outside (by omega)]
  dsimp only
  rw [place, length_shaped h, if_neg (by omega)]

theorem flipPart_first {cells : Nat → Word} {words : List Word} (h : words.length ≤ tileSize)
    {i : Nat} (hi : i < tileSize) :
    flipPart tileSize ⟨place tileSize (shaped tileSize words) cells, tileSize⟩ (tileSize + i) =
      (shaped tileSize words).getD i 0 := by
  rw [(rearranged_flipPart _).outside (by omega)]
  dsimp only
  rw [place, length_shaped h, if_pos (by omega), Nat.add_sub_cancel_left]

/-! ## When it composes -/

/-- What a stage leaves in its first cells is a list that the next one can receive. -/
theorem HoldsDescending.shaped {cells : Nat → Word} {words : List Word}
    (h : HoldsDescending rank cells (2 * tileSize) words) (hlength : words.length ≤ tileSize) :
    window cells 0 tileSize = MapReduce.shaped tileSize words :=
  window_first h.cells hlength (by omega)

/-- A stage that has collected its lists composes. -/
theorem Collected.composes (hrank : WordOrder rank) (hsize : 0 < tileSize)
    {lists : List (List Word)} {array : Nat → Word} (hreal : ∀ words ∈ lists, noneWord ∉ words)
    (hfits : lists.flatten.length ≤ tileSize)
    (h : Collected rank array 0 (2 * tileSize) (lists.map (shaped tileSize)).flatten) :
    ∃ cells words, MapReduce.markAndCompact (2 * tileSize) array = some cells ∧
      HoldsDescending rank cells (2 * tileSize) words ∧ (∀ w, w ∈ words ↔ w ∈ lists.flatten) ∧
      window cells 0 tileSize = shaped tileSize words := by
  obtain ⟨cells, words, hcells, hholds, hmem⟩ := h.markAndCompact hrank hsize
  have hmem' : ∀ w, w ∈ words ↔ w ∈ lists.flatten := fun w => by
    rw [hmem, ← mem_reals, reals_flatten_shaped hreal]
  have hnodup : words.Nodup := nodup_of_descending hholds.descending
  have hlength : words.length ≤ tileSize :=
    (List.subperm_of_subset hnodup fun w hw => (hmem' w).mp hw).length_le.trans hfits
  exact ⟨cells, words, hcells, hholds, hmem', hholds.shaped hlength⟩

theorem window_flipPart_first (fresh : Nat → Word) {words : List Word}
    (h : words.length ≤ tileSize) :
    window (flipPart tileSize ⟨place tileSize (shaped tileSize words) fresh, tileSize⟩) tileSize
      tileSize = shaped tileSize words := by
  have hplaced := window_place tileSize (shaped tileSize words) fresh
  have hmoved : Rearranged 0 tileSize (place tileSize (shaped tileSize words) fresh)
      (flipPart tileSize ⟨place tileSize (shaped tileSize words) fresh, tileSize⟩) :=
    rearranged_flipPart _
  rw [length_shaped h] at hplaced
  exact (window_congr fun i _ => hmoved.outside (by omega)).trans hplaced

theorem length_le_of_mem_flatten {lists : List (List Word)} {words : List Word}
    (h : lists.flatten.length ≤ tileSize) (hwords : words ∈ lists) : words.length ≤ tileSize :=
  ((List.sublist_flatten_of_mem hwords).length_le).trans h

/-- What a round merges if the upper part is as an earlier stage leaves it. -/
theorem window_flipPart {cells : Nat → Word} {first second : List Word}
    (hupper : window cells tileSize tileSize = shaped tileSize first)
    (hsecond : second.length ≤ tileSize) :
    window (flipPart tileSize ⟨place 0 (shaped tileSize second) cells, 0⟩) 0 (2 * tileSize) =
      List.replicate (tileSize - second.length) noneWord ++ ((second.reverse ++ first) ++
        List.replicate (tileSize - first.length) noneWord) := by
  have hlower : window (flipPart tileSize ⟨place 0 (shaped tileSize second) cells, 0⟩) 0 tileSize =
      (shaped tileSize second).reverse := by
    refine List.ext_getElem (by simp [length_shaped hsecond]) fun i hi hi' => ?_
    rw [length_window] at hi
    rw [getElem_window, Nat.zero_add, flipPart_lower hsecond hi, List.getElem_reverse,
      List.getD_eq_getElem _ _ (by rw [length_shaped hsecond]; omega)]
    simp only [length_shaped hsecond]
  have hrest : window (flipPart tileSize ⟨place 0 (shaped tileSize second) cells, 0⟩) tileSize
      tileSize = window cells tileSize tileSize :=
    window_upper (length_shaped hsecond) (rearranged_flipPart _)
  rw [Nat.two_mul, window_append, Nat.zero_add, hlower, hrest, hupper, shaped, shaped,
    List.reverse_append, List.reverse_replicate, List.append_assoc, List.append_assoc]

/-- Between the none at both ends a merge of a power of two of cells finds a sorted list. -/
theorem collected_monotone (hrank : WordOrder rank) {k : Nat} (hpow : tileSize = 2 ^ k)
    {cells : Nat → Word} {first second : List Word}
    (hupper : window cells tileSize tileSize = shaped tileSize first)
    (hfits : (first ++ second).length ≤ tileSize)
    (hsorted : (second.reverse ++ first).Pairwise (fun a b => rank a ≤ rank b) ∨
      (second.reverse ++ first).Pairwise fun a b => rank b ≤ rank a) :
    Collected rank (mergeRound rank tileSize (flipPart tileSize) cells (shaped tileSize second)) 0
      (2 * tileSize) (shaped tileSize first ++ shaped tileSize second) := by
  rw [List.length_append] at hfits
  have hsecond : second.length ≤ tileSize := by omega
  refine collected_mergeRound (length_shaped hsecond) rfl (rearranged_flipPart _)
    (by rw [hupper]) ?_
  have hwindow := window_flipPart hupper hsecond
  generalize flipPart tileSize ⟨place 0 (shaped tileSize second) cells, 0⟩ = f at hwindow ⊢
  have hsplit := hwindow
  rw [show 2 * tileSize = (tileSize - second.length) + ((second.reverse ++ first).length +
      (tileSize - first.length)) by simp; omega, window_append, window_append, Nat.zero_add]
    at hsplit
  obtain ⟨hbefore, hrest⟩ := List.append_inj hsplit (by simp)
  obtain ⟨hbetween, hafter⟩ := List.append_inj hrest (by simp)
  have hvalley : Valley (keys rank f 0) (2 * tileSize) := by
    refine valley_between (tileSize - second.length) (second.reverse ++ first).length
      (fun i _ => hrank.none_greatest _) ?_ fun i hi hout => ?_
    · have hkeys : Valley (keys rank f (tileSize - second.length))
          (second.reverse ++ first).length := by
        rcases hsorted with hsorted | hsorted
        · exact Ascending.valley (ascending_iff.mpr (by rwa [hbetween]))
        · exact Descending.valley (descending_iff.mpr (by rwa [hbetween]))
      exact hkeys.congr fun i _ => by rw [keys, keys, Nat.zero_add]
    · rw [keys, Nat.zero_add]
      congr 1
      rcases hout with hlow | hhigh
      · have hcell := cell_of_window hbefore hlow (List.getElem?_replicate_of_lt hlow)
        rwa [Nat.zero_add] at hcell
      · obtain ⟨d, rfl⟩ := Nat.exists_eq_add_of_le hhigh
        have hd : d < tileSize - first.length := by simp at hi; omega
        exact cell_of_window hafter hd (List.getElem?_replicate_of_lt hd)
  have hsize : 2 * tileSize = 2 ^ (k + 1) := by rw [hpow, pow_succ, Nat.mul_comm]
  have hbitonic := hvalley.bitonic.dual
  rw [hsize] at hbitonic ⊢
  exact merge_ascending_of_bitonic (cmpSwap_twoWay rank).down (k + 1) 0 f hbitonic

/-- A list without words brings none into the lower part. -/
theorem flipPart_empty (cells : Nat → Word) (i : Nat) :
    flipPart tileSize ⟨place 0 (shaped tileSize []) cells, 0⟩ i =
      if i < tileSize then noneWord else cells i := by
  split_ifs with hi
  · rw [flipPart_lower (Nat.zero_le _) hi, shaped_of_le (Nat.zero_le _) (by omega)]
  · exact flipPart_upper (Nat.zero_le _) (not_lt.mp hi)

/-- After such a list only what was in the upper part is left. -/
theorem reals_empty (rank : Word → Nat) (cells : Nat → Word) :
    (reals (window (mergeRound rank tileSize (flipPart tileSize) cells (shaped tileSize [])) 0
      (2 * tileSize))).Perm (reals (window cells tileSize tileSize)) := by
  have hlength : (shaped tileSize []).length = tileSize := length_shaped (Nat.zero_le _)
  have hperm : (reals (window (mergeRound rank tileSize (flipPart tileSize) cells
      (shaped tileSize [])) 0 (2 * tileSize))).Perm _ :=
    reals_mergeRound hlength rfl (rearranged_flipPart _)
  rwa [reals_shaped (List.not_mem_nil), List.append_nil] at hperm

/-- As long as only lists without words have come, the upper part has none. -/
theorem upper_empty (rank : Word → Nat) (fresh : Nat → Word) (k : Nat) :
    window ((List.replicate k (shaped tileSize [])).foldl
      (mergeRound rank tileSize (flipPart tileSize))
      (flipPart tileSize ⟨place tileSize (shaped tileSize []) fresh, tileSize⟩)) tileSize tileSize =
      shaped tileSize [] := by
  induction k with
  | zero => exact window_flipPart_first fresh (Nat.zero_le _)
  | succ k ih =>
    rw [List.replicate_succ', List.foldl_concat]
    generalize (List.replicate k (shaped tileSize [])).foldl _ _ = cells at ih ⊢
    have hperm : (reals (window (mergeRound rank tileSize (flipPart tileSize) cells
      (shaped tileSize [])) 0 (2 * tileSize))).Perm _ := reals_empty rank cells
    rw [ih, reals_shaped List.not_mem_nil, List.perm_nil, Nat.two_mul, window_append, reals_append,
      List.append_eq_nil_iff, Nat.zero_add] at hperm
    refine List.eq_replicate_iff.mpr ⟨length_window .., fun w hw => ?_⟩
    by_contra hne
    exact List.eq_nil_iff_forall_not_mem.mp hperm.2 w (mem_reals.mpr ⟨hne, hw⟩)

/-- Lists without words change nothing once all fits in the upper part. -/
theorem collected_empties (hrank : WordOrder rank) {lists : List (List Word)}
    (hempty : ∀ l ∈ lists, l = []) : ∀ {cells words}, Collected rank cells 0 (2 * tileSize) words →
      (reals words).length ≤ tileSize →
      Collected rank ((lists.map (shaped tileSize)).foldl
        (mergeRound rank tileSize (flipPart tileSize)) cells) 0 (2 * tileSize) words := by
  induction lists with
  | nil => exact fun h _ => h
  | cons l lists ih =>
    intro cells words h hfits
    obtain rfl := hempty l (List.mem_cons_self ..)
    have hupper := h.upper hrank hfits
    refine ih (fun l hl => hempty l (List.mem_cons_of_mem _ hl)) ⟨?_, ?_⟩ hfits
    · refine descending_iff.mp (descending_merge (fun i j hij hj => ?_) ?_)
      · simp only [keys, Nat.zero_add, flipPart_empty, if_pos hj, if_pos (hij.trans_lt hj)]
        exact le_rfl
      · rw [descending_iff, window_upper (length_shaped (Nat.zero_le _)) (rearranged_flipPart _)]
        exact hupper.descending
    · exact (reals_empty rank cells).trans hupper.perm

/-- The stage composes if one round brings together what there is. -/
theorem composes_of_round (hrank : WordOrder rank) {k : Nat} (hpow : tileSize = 2 ^ k)
    {fresh cells : Nat → Word} {lists after : List (List Word)} (first second : List Word)
    (hreal : ∀ words ∈ lists, noneWord ∉ words) (hfits : lists.flatten.length ≤ tileSize)
    (hrun : laterStage rank tileSize fresh (lists.map (shaped tileSize)) =
      markAndCompact (2 * tileSize) (((second :: after).map (shaped tileSize)).foldl
        (mergeRound rank tileSize (flipPart tileSize)) cells))
    (hupper : window cells tileSize tileSize = shaped tileSize first)
    (hall : lists.flatten = first ++ second) (hafter : ∀ l ∈ after, l = [])
    (hsorted : (second.reverse ++ first).Pairwise (fun a b => rank a ≤ rank b) ∨
      (second.reverse ++ first).Pairwise fun a b => rank b ≤ rank a) :
    ComposesLists rank tileSize fresh lists := by
  have hnone : noneWord ∉ first ∧ noneWord ∉ second := by
    rw [← not_or, ← List.mem_append, ← hall, List.mem_flatten]
    rintro ⟨words, hwords, hmem⟩
    exact hreal words hwords hmem
  have hreals : reals (shaped tileSize first ++ shaped tileSize second) = lists.flatten := by
    rw [reals_append, reals_shaped hnone.1, reals_shaped hnone.2, hall]
  have hround := collected_monotone hrank hpow hupper (hall ▸ hfits) hsorted
  have hend := collected_empties hrank hafter hround (by rwa [hreals])
  rw [ComposesLists, hrun, List.map_cons, List.foldl_cons]
  refine Collected.composes hrank (hpow ▸ Nat.two_pow_pos k) hreal hfits ⟨hend.descending, ?_⟩
  rw [reals_flatten_shaped hreal, ← hreals]
  exact hend.perm

theorem flatten_eq_nil {lists : List (List Word)} (h : ∀ l ∈ lists, l = []) :
    lists.flatten = [] := List.flatten_eq_nil_iff.mpr h

theorem composes_oneList (hrank : WordOrder rank) {k : Nat} (hpow : tileSize = 2 ^ k)
    (fresh : Nat → Word) {lists : List (List Word)} (hlength : 2 ≤ lists.length)
    (hlists : ∀ words ∈ lists, words.Pairwise (fun a b => rank b < rank a) ∧ noneWord ∉ words)
    (hfits : lists.flatten.length ≤ tileSize) (hone : OneList lists) :
    ComposesLists rank tileSize fresh lists := by
  have hreal : ∀ words ∈ lists, noneWord ∉ words := fun words hwords => (hlists words hwords).2
  obtain ⟨before, words, after, rfl, hempty⟩ := hone
  have hdescending := (hlists words (by simp)).1
  have hall : (before ++ words :: after).flatten = words := by
    rw [List.flatten_append, List.flatten_cons,
      flatten_eq_nil fun l hl => hempty l (List.mem_append_left _ hl),
      flatten_eq_nil fun l hl => hempty l (List.mem_append_right _ hl), List.nil_append,
      List.append_nil]
  cases before with
  | nil =>
    obtain ⟨l, after, rfl⟩ := List.exists_cons_of_length_pos (l := after)
      (by simp at hlength; omega)
    obtain rfl := hempty l (by simp)
    refine composes_of_round hrank hpow words [] hreal hfits
      (reduceTiles_cons ..) (window_flipPart_first fresh (by rwa [hall] at hfits))
      (hall.trans (List.append_nil _).symm) (fun l hl => hempty l (by simp [hl])) (.inr ?_)
    exact hdescending.imp le_of_lt
  | cons l before =>
    obtain rfl := hempty l (by simp)
    have hbefore : before = List.replicate before.length [] :=
      List.eq_replicate_iff.mpr ⟨rfl, fun l hl => hempty l (by simp [hl])⟩
    refine composes_of_round hrank hpow [] words hreal hfits ?_
      (upper_empty rank fresh before.length) hall
      (fun l hl => hempty l (List.mem_append_right _ hl)) (.inl ?_)
    · rw [laterStage, List.cons_append, List.map_cons, reduceTiles_cons, List.map_append,
        List.foldl_append, hbefore, List.map_replicate, List.length_replicate]
    · rw [List.append_nil, List.pairwise_reverse]
      exact hdescending.imp le_of_lt

theorem composes_wordAndList (hrank : WordOrder rank) {k : Nat} (hpow : tileSize = 2 ^ k)
    (fresh : Nat → Word) {lists : List (List Word)}
    (hlists : ∀ words ∈ lists, words.Pairwise (fun a b => rank b < rank a) ∧ noneWord ∉ words)
    (hfits : lists.flatten.length ≤ tileSize) (htwo : WordAndList rank lists) :
    ComposesLists rank tileSize fresh lists := by
  have hreal : ∀ words ∈ lists, noneWord ∉ words := fun words hwords => (hlists words hwords).2
  obtain ⟨first, second, after, rfl, hempty, hword⟩ := htwo
  have hfirst := length_le_of_mem_flatten hfits (List.mem_cons_self ..)
  refine composes_of_round hrank hpow first second hreal hfits (reduceTiles_cons ..)
    (window_flipPart_first fresh hfirst) ?_ hempty ?_
  · rw [List.flatten_cons, List.flatten_cons, flatten_eq_nil hempty, List.append_nil]
  · rcases hword with ⟨w, rfl, hle⟩ | ⟨w, rfl, hle⟩
    · refine .inl (List.pairwise_append.mpr ⟨?_, List.pairwise_singleton .., fun v hv w' hw' => ?_⟩)
      · exact List.pairwise_reverse.mpr ((hlists second (by simp)).1.imp le_of_lt)
      · obtain rfl := List.mem_singleton.mp hw'
        exact hle v (List.mem_reverse.mp hv)
    · exact .inr (List.pairwise_cons.mpr ⟨hle, (hlists first (by simp)).1.imp le_of_lt⟩)

theorem exists_oneList {lists : List (List Word)} (hne : lists ≠ [])
    (hfits : lists.flatten.length ≤ 1) : OneList lists := by
  induction lists with
  | nil => exact absurd rfl hne
  | cons words lists ih =>
    rw [List.flatten_cons, List.length_append] at hfits
    by_cases hrest : ∀ l ∈ lists, l = []
    · exact ⟨[], words, lists, rfl, hrest⟩
    · have hpos : 0 < lists.flatten.length := List.length_pos_iff.mpr fun hnil =>
        hrest (List.flatten_eq_nil_iff.mp hnil)
      obtain ⟨before, words', after, rfl, hempty⟩ := ih (fun hnil => by simp [hnil] at hpos)
        (by omega)
      obtain rfl : words = [] := List.length_eq_zero_iff.mp (by omega)
      refine ⟨[] :: before, words', after, rfl, fun l hl => ?_⟩
      rcases List.mem_cons.mp hl with rfl | hl
      · rfl
      · exact hempty l hl

/-- One word at most is always found. -/
theorem composes_one (hrank : WordOrder rank) {n : Nat} (hn : 2 ≤ n) : Composes rank 1 n := by
  intro fresh lists hlength hlists hfits
  exact composes_oneList hrank (k := 0) rfl fresh (by omega) hlists hfits
    (exists_oneList (fun hnil => by simp [hnil] at hlength; omega) hfits)

theorem composes_two (hrank : WordOrder rank) : Composes rank 2 2 := by
  intro fresh lists hlength hlists hfits
  by_cases hone : OneList lists
  · exact composes_oneList hrank (k := 1) rfl fresh hlength.ge hlists hfits hone
  · obtain ⟨first, second, rfl⟩ := List.length_eq_two.mp hlength
    refine composes_wordAndList hrank (k := 1) rfl fresh hlists hfits
      ⟨first, second, [], rfl, by simp, ?_⟩
    -- two words, one in each list
    have hfirst : first ≠ [] := fun hnil => hone ⟨[[]], second, [], by rw [hnil]; rfl, by simp⟩
    have hsecond : second ≠ [] := fun hnil => hone ⟨[], first, [[]], by rw [hnil]; rfl, by simp⟩
    have := List.length_pos_iff.mpr hfirst
    have := List.length_pos_iff.mpr hsecond
    simp only [List.flatten_cons, List.flatten_nil, List.append_nil, List.length_append] at hfits
    obtain ⟨v, rfl⟩ := List.length_eq_one_iff.mp (by omega : first.length = 1)
    obtain ⟨w, rfl⟩ := List.length_eq_one_iff.mp (by omega : second.length = 1)
    rcases Nat.le_total (rank w) (rank v) with hle | hle
    · exact .inl ⟨v, rfl, by simpa using hle⟩
    · exact .inr ⟨w, rfl, by simpa using hle⟩

/-! ## Three fingerprints -/

/-- Three words from cell `s` on. -/
def row (p q r : Word) (s i : Nat) : Word := if s ≤ i then crest p q r noneWord (i - s) else noneWord

theorem row_of_ne {p q r : Word} {s i : Nat} (h : i < s ∨ s + 3 ≤ i) : row p q r s i = noneWord := by
  rw [row]
  split_ifs with hi
  · exact crest_of_le (by omega)
  · rfl

theorem row_none (p q r : Word) (s i : Nat) :
    row noneWord q r s i = if i ≤ s then noneWord else row p q r s i := by
  split_ifs with h
  · rcases Nat.eq_or_lt_of_le h with rfl | hlt
    · rw [row, if_pos le_rfl, Nat.sub_self]
      rfl
    · exact row_of_ne (.inl hlt)
  · obtain ⟨d, rfl⟩ := Nat.exists_eq_add_of_lt (not_le.mp h)
    rw [row, row, if_pos (by omega), if_pos (by omega), show s + d + 1 - s = d + 1 by omega,
      crest_succ]

/-- A row does not reach around the ring. -/
theorem row_eq_crest {p q r : Word} {n s i : Nat} (hs : s + 3 ≤ n) :
    row p q r s i = crest p q r noneWord (turn n s i) := by
  rw [row, turn]
  split_ifs with h
  · rfl
  · exact (crest_of_le (by omega)).symm

/-- Merged in descending order, the word in the middle stays there if it is the greatest. -/
theorem merge_ring (hrank : WordOrder rank) {p q r : Word} (hp : rank r ≤ rank p)
    (hq : rank r ≤ rank q) (k : Nat) {s : Nat} (hs : s < 2 ^ (k + 2)) {f : Nat → Word}
    (hf : ∀ i < 2 ^ (k + 2), f i = crest p q r noneWord (turn (2 ^ (k + 2)) s i)) :
    ∀ i < 2 ^ (k + 2), merge (cmpSwap rank false) 0 (2 ^ (k + 2)) f i =
      row p q r (2 ^ (k + 2) - 3) i := by
  have hfour : 4 ≤ 2 ^ (k + 2) := Nat.pow_le_pow_right (n := 2) (by omega) (by omega : 2 ≤ k + 2)
  have hnone := fun w => OrderDual.toDual_le_toDual.mpr (hrank.none_greatest w)
  have hkeys : ∀ i < 2 ^ (k + 2), keys (OrderDual.toDual ∘ rank) f 0 i =
      crest (OrderDual.toDual (rank p)) (OrderDual.toDual (rank q)) (OrderDual.toDual (rank r))
        (OrderDual.toDual (rank noneWord)) (turn (2 ^ (k + 2)) s i) := fun i hi => by
    rw [keys, Nat.zero_add, hf i hi]
    exact map_crest (OrderDual.toDual ∘ rank) p q r noneWord _
  have hmerge := merge_crest (cmpSwap_twoWay rank).down (hnone p) (hnone q)
    (OrderDual.toDual_le_toDual.mpr hp) (OrderDual.toDual_le_toDual.mpr hq) k 0 f s hs hkeys
  intro i hi
  have hkey := hmerge i hi
  rw [← map_crest (fun w => OrderDual.toDual (rank w)) p q r noneWord, keys, Nat.zero_add] at hkey
  rw [row_eq_crest (by omega : 2 ^ (k + 2) - 3 + 3 ≤ 2 ^ (k + 2))]
  exact hrank.injective (OrderDual.toDual.injective hkey)

/-- What the first layer does if nothing is in the upper cells. -/
theorem layer_below (hrank : WordOrder rank) {n size : Nat} (hn : size - n ≤ n)
    {f : Nat → Word} (hf : ∀ i, n ≤ i → i < size → f i = noneWord) :
    (∀ i < n, layer (cmpSwap rank false) 0 n (size - n) f i =
      if i < size - n then noneWord else f i) ∧
    ∀ i < size - n, layer (cmpSwap rank false) 0 n (size - n) f (n + i) = f i := by
  have hc := (cmpSwap_twoWay rank).down
  have hinj : ∀ {v w : Word}, (OrderDual.toDual ∘ rank) v = (OrderDual.toDual ∘ rank) w → v = w :=
    fun heq => hrank.injective (OrderDual.toDual.injective heq)
  have hnone : ∀ w, (OrderDual.toDual ∘ rank) noneWord ≤ (OrderDual.toDual ∘ rank) w := fun w =>
    OrderDual.toDual_le_toDual.mpr (hrank.none_greatest w)
  refine ⟨fun i hi => hinj ?_, fun i hi => hinj ?_⟩
  · have hkey : keys _ (layer _ 0 n (size - n) f) 0 i = _ := keys_layer_low hc hn hi
    simp only [keys, Nat.zero_add] at hkey
    rw [hkey]
    split_ifs with hlow
    · rw [hf (i + n) (by omega) (by omega), min_eq_right (hnone _)]
    · rfl
  · have hkey : keys _ (layer _ 0 n (size - n) f) (0 + n) i = _ := keys_layer_high hc hn hi
    simp only [keys, Nat.zero_add] at hkey
    rw [hkey, hf (i + n) (by omega) (by omega), max_eq_left (hnone _)]

/-- A row that the first layer does not touch ends up at the end of the ring. -/
theorem merge_row (hrank : WordOrder rank) {p q r : Word} (hp : rank r ≤ rank p)
    (hq : rank r ≤ rank q) {k size s : Nat}
    (hsize : 2 ^ (k + 2) = size ∨ 2 ^ (k + 2) = greatestPowerBelow size ∧ 2 ^ (k + 2) < size)
    (hs : s + 3 ≤ 2 ^ (k + 2)) (hfree : size - 2 ^ (k + 2) ≤ s) {f : Nat → Word}
    (hf : ∀ i < size, f i = row p q r s i) :
    ∀ i < size, merge (cmpSwap rank false) 0 size f i = row p q r (2 ^ (k + 2) - 3) i := by
  have hc := (cmpSwap_twoWay rank).down
  rcases hsize with hsize | ⟨hsplit, hlt⟩
  · intro i hi
    rw [← hsize] at hi hf ⊢
    exact merge_ring hrank hp hq k (by omega : s < 2 ^ (k + 2))
      (fun i hi => (hf i hi).trans (row_eq_crest hs)) i hi
  · have hle := le_two_mul_greatestPowerBelow size
    have hone : 1 < size := by omega
    have hlow : ∀ i < greatestPowerBelow size, merge (cmpSwap rank false) 0 size f (0 + i) = _ :=
      fun i hi => merge_low hc.exchanging hone 0 f hi
    obtain ⟨g, hg, hhigh⟩ := merge_high hc.exchanging hone 0 f
    rw [← hsplit] at hlow hg hhigh hle
    have hbeyond : ∀ i, 2 ^ (k + 2) ≤ i → i < size → f i = noneWord := fun i hi hi' => by
      rw [hf i hi', row_of_ne (by omega)]
    obtain ⟨hlayer, hlayer'⟩ := layer_below hrank (by omega) hbeyond
    have hring := merge_ring hrank hp hq k (by omega : s < 2 ^ (k + 2))
      (f := layer (cmpSwap rank false) 0 (2 ^ (k + 2)) (size - 2 ^ (k + 2)) f) fun i hi => by
        rw [hlayer i hi, hf i (by omega), ← row_eq_crest hs]
        split_ifs with hfirst
        · exact (row_of_ne (by omega)).symm
        · rfl
    intro i hi
    by_cases hlower : i < 2 ^ (k + 2)
    · have hcell := hlow i hlower
      rw [Nat.zero_add, hring i hlower] at hcell
      exact hcell
    · obtain ⟨i, rfl⟩ := Nat.exists_eq_add_of_le (Nat.le_of_not_lt hlower)
      have hkeys : ∀ j < size - 2 ^ (k + 2), keys (OrderDual.toDual ∘ rank) g (2 ^ (k + 2)) j =
          (OrderDual.toDual ∘ rank) noneWord := fun j hj => by
        have hcell := hg j hj
        rw [Nat.zero_add, hlayer' j hj, hf j (by omega), row_of_ne (by omega)] at hcell
        rw [keys, hcell]
      have hcell := hhigh i
      simp only [Nat.zero_add] at hcell
      rw [hcell, row_of_ne (by omega)]
      exact hrank.injective (OrderDual.toDual.injective
        (keys_merge_const hc hkeys i (by omega)))

/-- A fingerprint stands before one that should come first. -/
def Inverted (rank : Word → Nat) (size : Nat) (f : Nat → Word) : Prop :=
  ∃ i j, i < j ∧ j < size ∧ f i ≠ noneWord ∧ f j ≠ noneWord ∧ rank (f i) < rank (f j)

section Three

variable {a b c : Word}

/-- The cells after the first list of one word. -/
def oneWord (tileSize : Nat) (c : Word) (fresh : Nat → Word) : Nat → Word :=
  flipPart tileSize ⟨place tileSize (shaped tileSize [c]) fresh, tileSize⟩

/-- One word meets two others in the second round. -/
theorem flipPart_three (hsize : 3 ≤ tileSize) (fresh : Nat → Word) {i : Nat}
    (hi : i < 2 * tileSize) :
    flipPart tileSize ⟨place 0 (shaped tileSize [b, a]) (oneWord tileSize c fresh), 0⟩ i =
      row a b c (tileSize - 2) i := by
  have hone : [c].length ≤ tileSize := by simp; omega
  have htwo : [b, a].length ≤ tileSize := by simp; omega
  by_cases hlow : i < tileSize
  · rw [flipPart_lower htwo hlow]
    by_cases hb : i = tileSize - 1
    · rw [hb, show tileSize - 1 - (tileSize - 1) = 0 by omega, row, if_pos (by omega),
        show tileSize - 1 - (tileSize - 2) = 1 by omega]
      rfl
    · by_cases ha : i = tileSize - 2
      · rw [ha, show tileSize - 1 - (tileSize - 2) = 1 by omega, row, if_pos le_rfl, Nat.sub_self]
        rfl
      · rw [row_of_ne (by omega), shaped_of_le (by simp; omega) (by omega)]
  · obtain ⟨i, rfl⟩ := Nat.exists_eq_add_of_le (Nat.le_of_not_lt hlow)
    rw [flipPart_upper htwo (by omega), oneWord, flipPart_first hone (by omega)]
    by_cases hc : i = 0
    · rw [hc, row, if_pos (by omega), show tileSize + 0 - (tileSize - 2) = 2 by omega]
      rfl
    · rw [row_of_ne (by omega), shaped_of_le (by simp; omega) (by omega)]

/-- The cells after the second list. -/
def threeWords (rank : Word → Nat) (tileSize : Nat) (a b c : Word) (fresh : Nat → Word) :
    Nat → Word :=
  mergeRound rank tileSize (flipPart tileSize) (oneWord tileSize c fresh) (shaped tileSize [b, a])

theorem laterStage_three (rank : Word → Nat) (fresh : Nat → Word) (lists : List (List Word)) :
    laterStage rank tileSize fresh (([c] :: [b, a] :: lists).map (shaped tileSize)) =
      markAndCompact (2 * tileSize) ((lists.map (shaped tileSize)).foldl
        (mergeRound rank tileSize (flipPart tileSize)) (threeWords rank tileSize a b c fresh)) := by
  rw [laterStage, List.map_cons, List.map_cons, reduceTiles_cons, List.foldl_cons, threeWords,
    oneWord]

/-- A row in the upper part that the merge leaves where it is. -/
def Steady (rank : Word → Nat) (tileSize : Nat) (a b c : Word) (s : Nat) : Prop :=
  tileSize ≤ s ∧ s + 3 ≤ 2 * tileSize ∧ ∀ f : Nat → Word,
    (∀ i < 2 * tileSize, f i = row a b c s i) →
      ∀ i < 2 * tileSize, merge (cmpSwap rank false) 0 (2 * tileSize) f i = row a b c s i

theorem Steady.inverted {s : Nat} (h : Steady rank tileSize a b c s) (ha : a ≠ noneWord)
    (hb : b ≠ noneWord) (hab : rank a < rank b) {f : Nat → Word}
    (hf : ∀ i < 2 * tileSize, f i = row a b c s i) : Inverted rank (2 * tileSize) f := by
  have hroom := h.2.1
  have hfirst : f s = a := by rw [hf s (by omega), row, if_pos le_rfl, Nat.sub_self]; rfl
  have hsecond : f (s + 1) = b := by
    rw [hf _ (by omega), row, if_pos (by omega), Nat.add_sub_cancel_left]
    rfl
  exact ⟨s, s + 1, by omega, by omega, by rwa [hfirst], by rwa [hsecond], by rwa [hfirst, hsecond]⟩

/-- If the ring ends right behind the lower part, the first word leaves it. -/
theorem merge_beside (hrank : WordOrder rank) (hcb : rank c ≤ rank b)
    {k : Nat} (hsplit : greatestPowerBelow (2 * tileSize) = 2 ^ (k + 2))
    (hring : 2 ^ (k + 2) = tileSize + 1) {f : Nat → Word}
    (hf : ∀ i < 2 * tileSize, f i = row a b c (tileSize - 2) i) :
    (∀ i < tileSize + 1, merge (cmpSwap rank false) 0 (2 * tileSize) f i =
      row noneWord b c (tileSize - 2) i) ∧
    ∃ j, tileSize < j ∧ j < 2 * tileSize ∧
      merge (cmpSwap rank false) 0 (2 * tileSize) f j = a := by
  have hfour : 4 ≤ 2 ^ (k + 2) := Nat.pow_le_pow_right (n := 2) (by omega) (by omega : 2 ≤ k + 2)
  have hexch := (cmpSwap_twoWay rank).down.exchanging
  have hone : 1 < 2 * tileSize := by omega
  have hlow : ∀ i < greatestPowerBelow (2 * tileSize),
      merge (cmpSwap rank false) 0 (2 * tileSize) f (0 + i) = _ :=
    fun i hi => merge_low hexch hone 0 f hi
  obtain ⟨g, hg, hhigh⟩ := merge_high hexch hone 0 f
  have hmerged := merge_ring hrank (p := noneWord) (hrank.none_greatest c) hcb k
    (by omega : tileSize - 2 < 2 ^ (k + 2))
    (f := layer (cmpSwap rank false) 0 (2 ^ (k + 2)) (2 * tileSize - 2 ^ (k + 2)) f)
  rw [hsplit] at hlow hg hhigh
  rw [hring] at hlow hg hhigh hmerged hfour
  simp only [Nat.zero_add] at hlow hg hhigh
  have hbeyond : ∀ i, tileSize + 1 ≤ i → i < 2 * tileSize → f i = noneWord := fun i hi hi' => by
    rw [hf i hi', row_of_ne (by omega)]
  obtain ⟨hlayer, hlayer'⟩ := layer_below hrank
    (by omega : 2 * tileSize - (tileSize + 1) ≤ tileSize + 1) hbeyond
  refine ⟨fun i hi => ?_, ?_⟩
  · rw [hlow i hi, hmerged (fun i hi => ?_) i hi, show tileSize + 1 - 3 = tileSize - 2 by omega]
    rw [hlayer i hi, hf i (by omega), ← row_eq_crest (by omega), row_none a]
    split_ifs <;> first | rfl | omega
  · obtain ⟨j, hj, hmoved⟩ := (merge_rearranged hexch (tileSize + 1)
      (2 * tileSize - (tileSize + 1)) g).symm.source (k := tileSize + 1 + (tileSize - 2)) (by omega)
    have hplaced := hg (tileSize - 2) (by omega)
    rw [hlayer' _ (by omega), hf _ (by omega), row, if_pos le_rfl, Nat.sub_self] at hplaced
    have hfound := hhigh (j - (tileSize + 1))
    rw [show tileSize + 1 + (j - (tileSize + 1)) = j by omega, ← hmoved, hplaced] at hfound
    exact ⟨j, by omega, by omega, hfound⟩

theorem threeWords_beside (hrank : WordOrder rank) (ha : a ≠ noneWord) (hc : c ≠ noneWord)
    (hca : rank c < rank a) (hcb : rank c ≤ rank b) {k : Nat}
    (hsplit : greatestPowerBelow (2 * tileSize) = 2 ^ (k + 2)) (hring : 2 ^ (k + 2) = tileSize + 1)
    (fresh : Nat → Word) : threeWords rank tileSize a b c fresh (tileSize - 1) = b ∧
      Inverted rank (2 * tileSize) (threeWords rank tileSize a b c fresh) := by
  have hfour : 4 ≤ 2 ^ (k + 2) := Nat.pow_le_pow_right (n := 2) (by omega) (by omega : 2 ≤ k + 2)
  obtain ⟨hlower, j, hj, hj', hfound⟩ := merge_beside hrank hcb hsplit hring fun i =>
    flipPart_three (a := a) (b := b) (c := c) (by omega : 3 ≤ tileSize) fresh (i := i)
  have hbefore := hlower (tileSize - 1) (by omega)
  have hlast := hlower tileSize (by omega)
  rw [row, if_pos (by omega), show tileSize - 1 - (tileSize - 2) = 1 by omega] at hbefore
  rw [row, if_pos (by omega), show tileSize - (tileSize - 2) = 2 by omega] at hlast
  simp only [crest] at hbefore hlast
  rw [threeWords, mergeRound]
  exact ⟨hbefore, tileSize, j, hj, hj', by rwa [hlast], by rwa [hfound], by rwa [hlast, hfound]⟩

/-- The words end up in the wrong order, either in the upper part, where they stay, or with one
of them in the last cell of the lower part, where it is overwritten. -/
theorem threeWords_cases (hrank : WordOrder rank) (hsize : 3 ≤ tileSize) (ha : a ≠ noneWord)
    (hb : b ≠ noneWord) (hc : c ≠ noneWord) (hca : rank c < rank a) (hab : rank a < rank b)
    (fresh : Nat → Word) :
    (∃ s, Steady rank tileSize a b c s ∧
      ∀ i < 2 * tileSize, threeWords rank tileSize a b c fresh i = row a b c s i) ∨
    threeWords rank tileSize a b c fresh (tileSize - 1) ∈ [a, b] ∧
      Inverted rank (2 * tileSize) (threeWords rank tileSize a b c fresh) := by
  have harranged := fun i => flipPart_three (a := a) (b := b) (c := c) hsize fresh (i := i)
  have hcb : rank c ≤ rank b := (hca.trans hab).le
  by_cases hpow : ∃ j, tileSize = 2 ^ j
  · obtain ⟨j, hj⟩ := hpow
    obtain ⟨k, rfl⟩ : ∃ k, j = k + 2 := by
      refine Nat.exists_eq_add_of_le' (not_lt.mp fun hlt => ?_)
      interval_cases j <;> omega
    have hring : 2 ^ (k + 1 + 2) = 2 * tileSize := by rw [hj]; ring
    exact .inl ⟨2 ^ (k + 1 + 2) - 3, ⟨by omega, by omega, fun f hf =>
      merge_row hrank hca.le hcb (.inl hring) (by omega) (by omega) hf⟩,
      merge_row hrank hca.le hcb (.inl hring) (by omega) (by omega) harranged⟩
  · have hlt := greatestPowerBelow_lt (show 1 < 2 * tileSize by omega)
    have hle := le_two_mul_greatestPowerBelow (2 * tileSize)
    obtain ⟨k, hsplit⟩ : ∃ k, greatestPowerBelow (2 * tileSize) = 2 ^ (k + 2) := by
      have hlog : 2 ≤ Nat.log 2 (2 * tileSize - 1) :=
        (Nat.le_log_iff_pow_le (by omega) (by omega)).mpr (by omega)
      obtain ⟨k, hk⟩ := Nat.exists_eq_add_of_le' hlog
      exact ⟨k, by rw [greatestPowerBelow, hk]⟩
    have hne : tileSize ≠ 2 ^ (k + 2) := fun heq => hpow ⟨_, heq⟩
    rw [hsplit] at hlt hle
    have hsize' : 2 ^ (k + 2) = greatestPowerBelow (2 * tileSize) ∧ 2 ^ (k + 2) < 2 * tileSize :=
      ⟨hsplit.symm, hlt⟩
    by_cases hbeside : 2 ^ (k + 2) = tileSize + 1
    · obtain ⟨hword, hinverted⟩ :=
        threeWords_beside hrank ha hc hca hcb hsplit hbeside fresh
      exact .inr ⟨by simp [hword], hinverted⟩
    · have hrow : ∀ i < 2 * tileSize, threeWords rank tileSize a b c fresh i =
          row a b c (2 ^ (k + 2) - 3) i :=
        merge_row hrank hca.le hcb (.inr hsize') (by omega) (by omega) harranged
      by_cases hnear : 2 ^ (k + 2) = tileSize + 2
      · have hstart : 2 ^ (k + 2) - 3 = tileSize - 1 := by omega
        rw [hstart] at hrow
        have hfirst := hrow (tileSize - 1) (by omega)
        have hsecond := hrow tileSize (by omega)
        rw [row, if_pos le_rfl, Nat.sub_self] at hfirst
        rw [row, if_pos (by omega), show tileSize - (tileSize - 1) = 1 by omega] at hsecond
        simp only [crest] at hfirst hsecond
        exact .inr ⟨by simp [hfirst], tileSize - 1, tileSize, by omega, by omega, by rwa [hfirst],
          by rwa [hsecond], by rwa [hfirst, hsecond]⟩
      · exact .inl ⟨2 ^ (k + 2) - 3, ⟨by omega, by omega, fun f hf =>
          merge_row hrank hca.le hcb (.inr hsize') (by omega) (by omega) hf⟩, hrow⟩

end Three

/-! ## When it does not compose -/

/-- What a stage holds is what marking leaves of its array. -/
theorem HoldsDescending.eq_unmarked {array cells : Nat → Word} {words : List Word} {size : Nat}
    (hsize : 2 ≤ size) (hcells : markAndCompact size array = some cells)
    (h : HoldsDescending rank cells size words) :
    words = Duplicates.unmarked noneWord (window array 0 size) := by
  obtain ⟨cells', hcells', hwindow⟩ := markAndCompact_spec hsize array
  obtain rfl := Option.some.inj (hcells.symm.trans hcells')
  have hnone : ∀ n, reals (List.replicate n noneWord) = [] := fun n =>
    List.filter_replicate_of_neg (by simp)
  have hreal : noneWord ∉ Duplicates.unmarked noneWord (window array 0 size) := fun hmem =>
    (Duplicates.mem_unmarked.mp hmem).1 rfl
  have heq := congrArg reals (h.cells.symm.trans hwindow)
  rwa [reals_append, reals_append, hnone, hnone, List.append_nil, List.append_nil,
    reals_eq_self h.real, reals_eq_self hreal] at heq

theorem Inverted.not_holds {array cells : Nat → Word} {words : List Word} {size : Nat}
    (h : Inverted rank size array) (hnodup : (reals (window array 0 size)).Nodup)
    (hcells : markAndCompact size array = some cells) :
    ¬ HoldsDescending rank cells size words := by
  obtain ⟨i, j, hij, hj, hi, hj', hlt⟩ := h
  intro hholds
  have hdescending := hholds.descending
  rw [hholds.eq_unmarked (by omega) hcells, Duplicates.unmarked_of_nodup hnodup,
    List.pairwise_filter, pairwise_window] at hdescending
  have hgt := hdescending i j hij hj
  simp only [Nat.zero_add] at hgt
  exact absurd (hgt (decide_eq_true hi) (decide_eq_true hj')) (not_lt.mpr hlt.le)

theorem foldl_replicate {P : (Nat → Word) → Prop} {round : (Nat → Word) → List Word → Nat → Word}
    (tile : List Word) (hround : ∀ cells, P cells → P (round cells tile)) (k : Nat) :
    ∀ {cells}, P cells → P ((List.replicate k tile).foldl round cells) := by
  induction k with
  | zero => exact id
  | succ k ih => exact fun h => ih (hround _ h)

theorem mem_window_upper {cells : Nat → Word} {w : Word}
    (h : w ∈ window cells tileSize tileSize) : w ∈ window cells 0 (2 * tileSize) := by
  rw [Nat.two_mul, window_append, Nat.zero_add]
  exact List.mem_append_right _ h

/-- A word that is in the lower part when one more list comes is lost. -/
theorem lost_of_not_mem (rank : Word → Nat) {cells : Nat → Word} {w : Word} (hw : w ≠ noneWord)
    (h : w ∉ window cells tileSize tileSize) {k : Nat} (hk : 0 < k) :
    w ∉ window ((List.replicate k (shaped tileSize [])).foldl
      (mergeRound rank tileSize (flipPart tileSize)) cells) 0 (2 * tileSize) := by
  have hround : ∀ cells, w ∉ window cells tileSize tileSize →
      w ∉ window (mergeRound rank tileSize (flipPart tileSize) cells (shaped tileSize [])) 0
        (2 * tileSize) := fun cells hcells hmem =>
    hcells (mem_reals.mp ((reals_empty rank cells).mem_iff.mp (mem_reals.mpr ⟨hw, hmem⟩))).2
  obtain ⟨k, rfl⟩ := Nat.exists_eq_add_of_lt hk
  rw [Nat.zero_add]
  exact foldl_replicate (P := fun cells => w ∉ window cells 0 (2 * tileSize)) _
    (fun cells hcells => hround cells fun hmem => hcells (mem_window_upper hmem)) k (hround _ h)

/-- A steady row is still there after lists without words. -/
theorem Steady.foldl_empty {a b c : Word} {s : Nat} (h : Steady rank tileSize a b c s)
    {f : Nat → Word} (hf : ∀ i < 2 * tileSize, f i = row a b c s i) (k : Nat) :
    ∀ i < 2 * tileSize, (List.replicate k (shaped tileSize [])).foldl
      (mergeRound rank tileSize (flipPart tileSize)) f i = row a b c s i := by
  refine foldl_replicate (P := fun f => ∀ i < 2 * tileSize, f i = row a b c s i) _ ?_ k hf
  intro f hf
  refine h.2.2 _ fun i hi => ?_
  rw [flipPart_empty]
  split_ifs with hlow
  · exact (row_of_ne (.inl (hlow.trans_le h.1))).symm
  · exact hf i hi

/-- If no word is there twice, the one in the last cell of the lower part is lost with the next
list. -/
theorem lost_of_last (rank : Word → Nat) {array : Nat → Word} (hsize : 0 < tileSize)
    (hnodup : (reals (window array 0 (2 * tileSize))).Nodup)
    (hne : array (tileSize - 1) ≠ noneWord) {k : Nat} (hk : 0 < k) :
    array (tileSize - 1) ∉ window ((List.replicate k (shaped tileSize [])).foldl
      (mergeRound rank tileSize (flipPart tileSize)) array) 0 (2 * tileSize) := by
  refine lost_of_not_mem rank hne (fun hupper => ?_) hk
  have hlower : array (tileSize - 1) ∈ window array 0 tileSize :=
    mem_window.mpr ⟨tileSize - 1, by omega, by rw [Nat.zero_add]⟩
  rw [Nat.two_mul, window_append, Nat.zero_add, reals_append] at hnodup
  exact (List.nodup_append'.mp hnodup).2.2 (mem_reals.mpr ⟨hne, hlower⟩)
    (mem_reals.mpr ⟨hne, hupper⟩)

theorem nodup_threeWords (rank : Word → Nat) {a b c : Word} (hwords : [c, b, a].Nodup)
    (hreal : noneWord ∉ [c, b, a]) (hsize : 3 ≤ tileSize) (fresh : Nat → Word) :
    (reals (window (threeWords rank tileSize a b c fresh) 0 (2 * tileSize))).Nodup := by
  have hone : [c].length ≤ tileSize := by simp; omega
  have htwo : [b, a].length ≤ tileSize := by simp; omega
  have hperm : (reals (window (threeWords rank tileSize a b c fresh) 0 (2 * tileSize))).Perm _ :=
    reals_mergeRound (length_shaped htwo) rfl (rearranged_flipPart _)
  rw [oneWord, window_flipPart_first fresh hone, reals_shaped (by simp at hreal; simp [hreal.1]),
    reals_shaped (by simp at hreal; simp [hreal.2])] at hperm
  exact hperm.nodup_iff.mpr hwords

/-- After one word, two words and any number of lists without words the array is in the wrong
order, or has lost a word. -/
theorem threeWords_spoilt (hrank : WordOrder rank) (hsize : 3 ≤ tileSize) {a b c : Word}
    (hreal : noneWord ∉ [c, b, a]) (hca : rank c < rank a) (hab : rank a < rank b)
    {array : Nat → Word} {k : Nat}
    (harray : array = (List.replicate k (shaped tileSize [])).foldl
      (mergeRound rank tileSize (flipPart tileSize))
        (threeWords rank tileSize a b c fun _ => 0)) :
    (reals (window array 0 (2 * tileSize))).Nodup ∧ Inverted rank (2 * tileSize) array ∨
      a ∉ window array 0 (2 * tileSize) ∨ b ∉ window array 0 (2 * tileSize) := by
  have hnodup : [c, b, a].Nodup := by
    have hne : ∀ {v w : Word}, rank v < rank w → v ≠ w := fun hlt heq => by simp [heq] at hlt
    simp [hne hca, hne (hca.trans hab), (hne hab).symm]
  have hthree := nodup_threeWords rank hnodup hreal hsize fun _ => 0
  simp only [List.mem_cons, List.not_mem_nil, or_false, not_or] at hreal
  obtain ⟨hc, hb, ha⟩ := hreal
  have hcases := threeWords_cases hrank hsize (Ne.symm ha) (Ne.symm hb) (Ne.symm hc) hca hab
    fun _ => 0
  generalize threeWords rank tileSize a b c (fun _ => 0) = first at *
  rcases hcases with ⟨s, hsteady, hfirst⟩ | ⟨hword, hinverted⟩
  · -- the row stays
    have hfinal : ∀ i < 2 * tileSize, array i = row a b c s i :=
      harray ▸ hsteady.foldl_empty hfirst k
    refine .inl ⟨?_, hsteady.inverted (Ne.symm ha) (Ne.symm hb) hab hfinal⟩
    rwa [window_congr fun i hi => by rw [Nat.zero_add, hfinal i hi, ← hfirst i hi]]
  · rcases Nat.eq_zero_or_pos k with rfl | hk
    · subst harray
      exact .inl ⟨hthree, hinverted⟩
    · -- the word in the last cell of the lower part is overwritten
      have hne : first (tileSize - 1) ≠ noneWord := by
        rcases List.mem_pair.mp hword with heq | heq <;> rw [heq]
        · exact Ne.symm ha
        · exact Ne.symm hb
      have hlost := lost_of_last rank (by omega) hthree hne hk
      rw [← harray] at hlost
      rcases List.mem_pair.mp hword with heq | heq <;> rw [heq] at hlost
      · exact .inr (.inl hlost)
      · exact .inr (.inr hlost)

theorem not_composes_of_three (hrank : WordOrder rank) (hsize : 3 ≤ tileSize) {n : Nat}
    (hn : 2 ≤ n) : ¬ Composes rank tileSize n := by
  intro h
  obtain ⟨l, hlength, hl, hreal⟩ := exists_ascending hrank (show 3 ≤ 2 ^ 31 by omega)
  obtain ⟨c, a, b, rfl⟩ := List.length_eq_three.mp hlength
  simp only [List.pairwise_cons, List.mem_cons, List.not_mem_nil, forall_eq_or_imp, or_false,
    forall_eq] at hl
  obtain ⟨⟨hca, -⟩, hab, -⟩ := hl
  have hreal' : noneWord ∉ [c, b, a] := by
    rwa [((List.Perm.swap a b []).cons c).mem_iff]
  obtain ⟨cells, words, hrun, hholds, hmem, -⟩ := h (fun _ => 0)
    ([c] :: [b, a] :: List.replicate (n - 2) []) (by simp; omega)
    (by
      simp only [List.mem_cons, not_or] at hreal'
      intro words hwords
      rcases List.mem_cons.mp hwords with rfl | hwords
      · simp [hreal'.1]
      · rcases List.mem_cons.mp hwords with rfl | hwords
        · simp [hab, hreal'.2.1, hreal'.2.2]
        · simp [List.eq_of_mem_replicate hwords])
    (by simpa using hsize)
  rw [laterStage_three, List.map_replicate] at hrun
  rcases threeWords_spoilt hrank hsize hreal' hca hab rfl with ⟨hnodup, hinverted⟩ | hlost
  · exact hinverted.not_holds hnodup hrun hholds
  · have hkept : ∀ w ∈ [a, b], w ∈ words := fun w hw => (hmem w).mpr (by simp at hw ⊢; tauto)
    rw [hholds.eq_unmarked (by omega) hrun] at hkept
    rcases hlost with hlost | hlost
    · exact hlost (Duplicates.mem_unmarked.mp (hkept a (by simp))).2
    · exact hlost (Duplicates.mem_unmarked.mp (hkept b (by simp))).2

/-- The word first reaches the last cell, and there it meets itself. -/
theorem twice_in_two (hrank : WordOrder rank) (a : Word) {f : Nat → Word}
    (hnone : ∀ i < 2, f (2 + i) = noneWord) :
    window (mergeRound rank 2 (flipPart 2)
      (mergeRound rank 2 (flipPart 2) f (shaped 2 [a])) (shaped 2 [a])) 0 (2 * 2) =
        [noneWord, a, noneWord, a] := by
  have hle := hrank.none_greatest a
  have hone : [a].length ≤ 2 := by simp
  have hfound : ∀ i < 4, mergeRound rank 2 (flipPart 2) f (shaped 2 [a]) i =
      row noneWord noneWord a 1 i :=
    merge_ring hrank hle hle 0 (by decide : 3 < 2 ^ (0 + 2)) fun i hi => by
      change i < 4 at hi
      by_cases hlow : i < 2
      · rw [flipPart_lower hone hlow]
        interval_cases i <;> rfl
      · rw [flipPart_upper hone (by omega), show i = 2 + (i - 2) by omega, hnone _ (by omega)]
        interval_cases i <;> rfl
  have htwice : ∀ i < 4, mergeRound rank 2 (flipPart 2)
      (mergeRound rank 2 (flipPart 2) f (shaped 2 [a])) (shaped 2 [a]) i =
        row a noneWord a 1 i :=
    merge_ring hrank le_rfl hle 0 (by decide : 1 < 2 ^ (0 + 2)) fun i hi => by
      change i < 4 at hi
      by_cases hlow : i < 2
      · rw [flipPart_lower hone hlow]
        interval_cases i <;> rfl
      · rw [flipPart_upper hone (by omega), hfound i hi, row_eq_crest (by decide : 1 + 3 ≤ 4)]
        interval_cases i
        · exact crest_succ noneWord a noneWord a noneWord 0
        · exact crest_succ noneWord a noneWord a noneWord 1
  calc _ = window (row a noneWord a 1) 0 4 :=
        window_congr fun i hi => by rw [Nat.zero_add]; exact htwice i hi
    _ = [noneWord, a, noneWord, a] := rfl

/-- In two cells a word that comes twice stays twice if another list came before. -/
theorem not_composes_two (hrank : WordOrder rank) {n : Nat} (hn : 3 ≤ n) :
    ¬ Composes rank 2 n := by
  intro h
  obtain ⟨l, hlength, -, hreal⟩ := exists_ascending hrank (show 1 ≤ 2 ^ 31 by omega)
  obtain ⟨a, rfl⟩ := List.length_eq_one_iff.mp hlength
  have ha : a ≠ noneWord := Ne.symm (by simpa using hreal)
  obtain ⟨cells, words, hrun, hholds, -, -⟩ := h (fun _ => 0)
    ([] :: (List.replicate (n - 3) [] ++ [[a], [a]])) (by simp; omega)
    (by
      intro words hwords
      rcases List.mem_cons.mp hwords with rfl | hwords
      · simp
      · rcases List.mem_append.mp hwords with hwords | hwords
        · simp [List.eq_of_mem_replicate hwords]
        · obtain rfl : words = [a] := by simpa using hwords
          simp [hreal])
    (by simp)
  rw [laterStage, List.map_cons, List.map_append, List.map_replicate, reduceTiles_cons,
    List.foldl_append] at hrun
  have hdescending := hholds.descending
  rw [hholds.eq_unmarked (by omega) hrun] at hdescending
  simp only [List.map_cons, List.map_nil, List.foldl_cons, List.foldl_nil] at hdescending
  rw [twice_in_two hrank a fun i hi => cell_of_window (upper_empty rank _ (n - 3)) hi
    (List.getElem?_replicate_of_lt hi)] at hdescending
  simp [Duplicates.unmarked, Duplicates.markRuns, ha, Ne.symm ha] at hdescending

/-- In a power of two of cells a stage composes for one list alone, and for one word with another
list without greater words. It composes for all lists if and only if they are in one cell each,
or there are two lists in two. -/
theorem composes_iff (hrank : WordOrder rank) {n : Nat} (hn : 2 ≤ n) :
    ((∃ k, tileSize = 2 ^ k) → ∀ fresh (lists : List (List Word)), lists.length = n →
      (∀ words ∈ lists, words.Pairwise (fun a b => rank b < rank a) ∧ noneWord ∉ words) →
      lists.flatten.length ≤ tileSize → OneList lists ∨ WordAndList rank lists →
      ComposesLists rank tileSize fresh lists) ∧
    (Composes rank tileSize n ↔ tileSize = 1 ∨ tileSize = 2 ∧ n = 2) := by
  refine ⟨fun ⟨k, hpow⟩ fresh lists hlength hlists hfits hfew => ?_, ?_⟩
  · rcases hfew with hone | htwo
    · exact composes_oneList hrank hpow fresh (by omega) hlists hfits hone
    · exact composes_wordAndList hrank hpow fresh hlists hfits htwo
  constructor
  · intro h
    by_contra hsizes
    rcases (by omega : tileSize = 0 ∨ tileSize = 2 ∧ 3 ≤ n ∨ 3 ≤ tileSize) with
      rfl | ⟨rfl, hthree⟩ | hthree
    · -- without cells the loops leave the array
      obtain ⟨cells, words, hrun, -⟩ := h (fun _ => 0) (List.replicate n []) (by simp)
        (fun words hwords => by simp [List.eq_of_mem_replicate hwords]) (by simp)
      simp [laterStage, reduceTiles, markAndCompact, computeDistanceMarkDuplicates] at hrun
    · exact not_composes_two hrank hthree h
    · exact not_composes_of_three hrank hthree hn h
  · rintro (rfl | ⟨rfl, rfl⟩)
    · exact composes_one hrank hn
    · exact composes_two hrank

end Spec

/-! ## Four cells -/

/-- Four cells are merged if the other list is empty. -/
theorem twoCells_compose : Composes exampleRank 2 2 ∧
    ComposesLists exampleRank 4 (fun _ => 0) [[], [3, 2, 1]] :=
  ⟨(composes_iff exampleRank_wordOrder le_rfl).2.mpr (.inr ⟨rfl, rfl⟩),
    (composes_iff exampleRank_wordOrder le_rfl).1 ⟨2, rfl⟩ _ _ rfl (by decide) (by decide)
      (.inl ⟨[[]], [3, 2, 1], [], rfl, by decide⟩)⟩

/-- The list `1` and the list `3, 2`, in four cells each, come out in the wrong order. -/
theorem fourCells_out_of_order :
    (∀ words ∈ [[1], [3, 2]], words.Pairwise (fun a b => exampleRank b < exampleRank a) ∧
      noneWord ∉ words) ∧
    ([[1], [3, 2]] : List (List Word)).flatten.length ≤ 4 ∧
    ¬ ∃ cells words, laterStage exampleRank 4 (fun _ => 0) ([[1], [3, 2]].map (shaped 4)) =
      some cells ∧ HoldsDescending exampleRank cells (2 * 4) words := by
  refine ⟨by decide, by decide, ?_⟩
  rintro ⟨cells, words, hrun, hholds⟩
  have hrow : ∀ i < 2 * 4, threeWords exampleRank 4 2 3 1 (fun _ => 0) i = row 2 3 1 5 i :=
    merge_row exampleRank_wordOrder (by decide) (by decide) (.inl (rfl : 2 ^ (1 + 2) = 2 * 4))
      (by decide : 2 + 3 ≤ 2 ^ (1 + 2)) (by decide)
      fun i => flipPart_three (by decide : 3 ≤ 4) _
  have hnodup : (reals (window (threeWords exampleRank 4 2 3 1 fun _ => 0) 0 (2 * 4))).Nodup :=
    nodup_threeWords exampleRank (by decide) (by decide) (by decide) fun _ => 0
  rw [laterStage_three, List.map_nil, List.foldl_nil] at hrun
  refine Inverted.not_holds ⟨5, 6, by decide, by decide, ?_⟩ hnodup hrun hholds
  rw [hrow 5 (by decide), hrow 6 (by decide)]
  decide

end CoVault.MapReduce
