import CoVault.MapReduce.CategoryTally

/-!
# Merging two tallies

The first tally is reversed and both are merged in descending order. For two tallies that hold all
categories this is an ascending and a descending part, which the merge sorts, and the frequencies
are added up. A tally with null behind it is no such part, since null is the greatest word, and
the smallest category of both can be left in two cells apart.
-/

namespace CoVault.MapReduce.TopOne

open Library Library.Cells Library.SortNetwork

section Model

variable (rank : Word → Nat) (nCategories : Nat)

/-- One step of the network, which moves the frequencies with their categories. -/
def cmpSwapData (acc : Bool) (i j : Nat) (f : Nat → Word × Word) : Nat → Word × Word :=
  if decide (rank (f j).1 < rank (f i).1) == acc then exchange f i j else f

/-- The first chunk of either array is reversed. -/
def flip (f : Nat → Word) : Nat → Word := fun i =>
  if i < nCategories then f (nCategories - 1 - i) else f i

/-- The first two tallies when they have been merged. -/
def merged (t : Table) : Table :=
  let cells := merge (cmpSwapData rank false) 0 (2 * nCategories) fun i =>
    (flip nCategories t.list i, flip nCategories t.frequency i)
  ⟨Prod.fst ∘ cells, Prod.snd ∘ cells⟩

def mergeRound (t : Table) : Option Table :=
  compactCut (2 * nCategories) nCategories
    (addChunks (2 * nCategories) (merged rank nCategories t))

def mergeTree (rounds : Nat) (t : Table) : Option Table :=
  (List.range rounds).foldlM (fun t _ => mergeRound rank nCategories t) t

end Model

section Spec

variable {rank : Word → Nat} {nCategories : Nat}

/-! ## Full tallies -/

theorem cmpSwapData_twoWay (rank : Word → Nat) : TwoWay (rank ∘ Prod.fst) (cmpSwapData rank) :=
  twoWay_of_key (rank ∘ Prod.fst)

variable {t : Table} {words : List Word} {counts counts' : Word → Word}

/-- Category `i` of a tally. -/
theorem Holds.cell {lo n i : Nat} (h : Holds rank t lo n words counts) (hfit : words.length ≤ n)
    (hi : i < words.length) :
    t.list (lo + i) = words[i] ∧ t.frequency (lo + i) = counts words[i] := by
  have hentry := cell_of_window h.cells (hi.trans_le hfit) (x := (words[i], counts words[i]))
    (by rw [List.getElem?_append_left (by simpa using hi), List.getElem?_map,
      List.getElem?_eq_getElem hi, Option.map_some])
  have hlist : t.list (lo + i) = words[i] := by rw [← t.entry_fst, hentry]
  have hne : t.list (lo + i) ≠ noneWord := fun heq =>
    h.real (heq ▸ hlist ▸ List.getElem_mem hi)
  rw [Table.entry_of_ne hne] at hentry
  exact ⟨hlist, (Prod.mk.inj hentry).2⟩

theorem Holds.rank_le {lo n i j : Nat} (h : Holds rank t lo n words counts)
    (hfit : words.length ≤ n) (hij : i ≤ j) (hj : j < words.length) :
    rank (t.list (lo + j)) ≤ rank (t.list (lo + i)) := by
  rw [(h.cell hfit hj).1, (h.cell hfit (hij.trans_lt hj)).1]
  rcases Nat.eq_or_lt_of_le hij with rfl | hlt
  · exact le_rfl
  · exact (List.pairwise_iff_getElem.mp h.descending i j _ hj hlt).le

/-- The cells that are merged. -/
def joined (nCategories : Nat) (t : Table) : Nat → Word × Word := fun i =>
  (flip nCategories t.list i, flip nCategories t.frequency i)

theorem window_joined (nCategories : Nat) (t : Table) :
    window (joined nCategories t) 0 (2 * nCategories) =
      (window (fun i => (t.list i, t.frequency i)) 0 nCategories).reverse ++
        window (fun i => (t.list i, t.frequency i)) nCategories nCategories := by
  refine List.ext_getElem (by simp; omega) fun i hi hi' => ?_
  rw [getElem_window, Nat.zero_add]
  rw [length_window] at hi
  by_cases hlow : i < nCategories
  · rw [List.getElem_append_left (by simpa using hlow), List.getElem_reverse, getElem_window,
      length_window, Nat.zero_add]
    simp only [joined, flip, hlow, if_true]
  · rw [List.getElem_append_right (by simpa using hlow), getElem_window]
    simp only [joined, flip, hlow, if_false, List.length_reverse, length_window]
    rw [Nat.add_sub_cancel' (by omega)]

theorem Holds.window_cells {lo : Nat} (h : Holds rank t lo words.length words counts) :
    window (fun i => (t.list i, t.frequency i)) lo words.length =
      words.map fun w => (w, counts w) := by
  refine List.ext_getElem (by simp) fun i hi hi' => ?_
  rw [length_window] at hi
  rw [getElem_window, List.getElem_map, (h.cell le_rfl hi).1, (h.cell le_rfl hi).2]

theorem merged_descending (h : Holds rank t 0 words.length words counts)
    (h' : Holds rank t words.length words.length words counts') :
    Descending (keys rank (merged rank words.length t).list 0) (2 * words.length) := by
  refine merge_ascending_of_valley (cmpSwapData_twoWay rank).down (2 * words.length) 0
    (joined words.length t)
    (valley_of_descending_ascending (m := words.length) (fun i j hij hj => ?_) fun i j hij hj => ?_)
  · have hle := h.rank_le le_rfl (show words.length - 1 - j ≤ words.length - 1 - i by omega)
      (by omega)
    simp only [keys, joined, flip, Function.comp_apply, Nat.zero_add,
      if_pos (show i < words.length by omega), if_pos hj] at hle ⊢
    exact hle
  · have hle := h'.rank_le le_rfl hij (by omega)
    simp only [keys, joined, flip, Function.comp_apply, Nat.zero_add,
      if_neg (show ¬ words.length + i < words.length by omega),
      if_neg (show ¬ words.length + j < words.length by omega)] at hle ⊢
    exact hle

theorem rearranged_merged (rank : Word → Nat) (nCategories : Nat) (t : Table) :
    Rearranged 0 (2 * nCategories) (joined nCategories t)
      (fun i => ((merged rank nCategories t).list i, (merged rank nCategories t).frequency i)) :=
  merge_rearranged (cmpSwapData_twoWay rank).down.exchanging 0 (2 * nCategories) _

/-- Behind the two tallies nothing changes. -/
theorem entry_addChunks (rank : Word → Nat) {nCategories i : Nat} (hpos : 0 < nCategories)
    (t : Table) (hi : 2 * nCategories ≤ i) :
    (addChunks (2 * nCategories) (merged rank nCategories t)).entry i = t.entry i := by
  have houtside := (tallied_addChunks (show 0 < 2 * nCategories by omega)
    (merged rank nCategories t)).outside i hi
  have hkeep := Prod.mk.inj ((rearranged_merged rank nCategories t).outside (k := i) (by omega))
  simp only [flip, if_neg (show ¬ i < nCategories by omega)] at hkeep
  rw [Table.entry, Table.entry, houtside.1, houtside.2, hkeep.1, hkeep.2]

/-- The order of categories is determined. -/
theorem eq_of_descending {words words' : List Word} (h : words.Pairwise fun a b => rank b < rank a)
    (h' : words'.Pairwise fun a b => rank b < rank a) (hmem : ∀ w, w ∈ words ↔ w ∈ words') :
    words = words' :=
  List.Perm.eq_of_pairwise (fun _ _ _ _ hab hba => absurd hab hba.asymm) h h'
    ((List.perm_ext_iff_of_nodup (nodup_of_descending h) (nodup_of_descending h')).mpr hmem)

/-- Two tallies that hold all categories are added up. -/
theorem mergeRound_full (hinj : Function.Injective rank) (hpos : 0 < words.length)
    (h : Holds rank t 0 words.length words counts)
    (h' : Holds rank t words.length words.length words counts') :
    ∃ t', mergeRound rank words.length t = some t' ∧
      Holds rank t' 0 words.length words (fun w => counts w + counts' w) ∧
      ∀ i, words.length ≤ i → t'.entry i = t.entry (i + words.length) := by
  have hperm := (rearranged_merged rank words.length t).perm
  rw [window_joined, h.window_cells, h'.window_cells] at hperm
  have hlist : (window (merged rank words.length t).list 0 (2 * words.length)).Perm
      (words.reverse ++ words) := by
    have hfst := hperm.map Prod.fst
    rw [window, List.map_map, List.map_append, List.map_reverse, List.map_map] at hfst
    simpa [window, Function.comp_def] using hfst
  have hmem : ∀ w, w ∈ window (merged rank words.length t).list 0 (2 * words.length) ↔ w ∈ words :=
    fun w => by rw [hlist.mem_iff, List.mem_append, List.mem_reverse, or_self]
  have hfew : ((window (merged rank words.length t).list 0
      (2 * words.length)).toFinset.erase noneWord).card ≤ words.length := by
    refine (Finset.card_le_card fun w hw => ?_).trans (List.toFinset_card_le words)
    rw [Finset.mem_erase, List.mem_toFinset, hmem] at hw
    exact List.mem_toFinset.mpr hw.2
  obtain ⟨t', words', hrun, hholds, hmem', hrest⟩ := compactCut_sorted hinj
    (show 2 ≤ 2 * words.length by omega) (tallied_addChunks (by omega) _) (merged_descending h h')
    (by omega) hfew
  have hnodup := nodup_of_descending h.descending
  obtain rfl : words' = words := eq_of_descending hholds.descending h.descending fun w => by
    rw [hmem', hmem]
    exact and_iff_right_of_imp fun hw heq => h.real (heq ▸ hw)
  refine ⟨t', hrun, hholds.congr fun w hw => ?_, fun i hi => ?_⟩
  · rw [Duplicates.total_perm hperm, Duplicates.total_append,
      Duplicates.total_perm (List.reverse_perm _), Duplicates.total_map hnodup _ hw,
      Duplicates.total_map hnodup _ hw]
  · rw [hrest i hi, entry_addChunks rank hpos t (by omega)]
    congr 1
    omega

theorem Holds.of_entry {t' : Table} {lo lo' n : Nat} (h : Holds rank t lo n words counts)
    (hentry : ∀ i < n, t'.entry (lo' + i) = t.entry (lo + i)) :
    Holds rank t' lo' n words counts where
  descending := h.descending
  real := h.real
  cells := by
    rw [← h.cells]
    exact List.map_congr_left fun i hi => hentry i (List.mem_range.mp hi)

/-- As long as the tallies hold all categories, the frequencies are added up. -/
theorem mergeTree_full (hinj : Function.Injective rank) (hpos : 0 < words.length)
    {counts : Nat → Word → Word} {n : Nat}
    (h : ∀ m < n + 1, Holds rank t (m * words.length) words.length words (counts m)) :
    ∃ t', mergeTree rank words.length n t = some t' ∧
      Holds rank t' 0 words.length words (fun w => ∑ m ∈ Finset.range (n + 1), counts m w) ∧
      ∀ i, words.length ≤ i → t'.entry i = t.entry (i + n * words.length) := by
  induction n with
  | zero =>
    have hfirst := h 0 (by omega)
    rw [Nat.zero_mul] at hfirst
    exact ⟨t, rfl, by simpa using hfirst, fun i _ => by rw [Nat.zero_mul, Nat.add_zero]⟩
  | succ n ih =>
    obtain ⟨t', hrun, hholds, hrest⟩ := ih fun m hm => h m (by omega)
    have hnext : Holds rank t' words.length words.length words (counts (n + 1)) := by
      refine (h (n + 1) (by omega)).of_entry fun i _ => ?_
      rw [hrest _ (by omega)]
      congr 1
      ring
    obtain ⟨t'', hstep, hholds', hrest'⟩ := mergeRound_full hinj hpos hholds hnext
    refine ⟨t'', ?_, hholds'.congr fun w _ => Finset.sum_range_succ .., fun i hi => ?_⟩
    · rw [mergeTree] at hrun ⊢
      rw [List.range_succ, List.foldlM_append, hrun]
      simpa using hstep
    · rw [hrest' i hi, hrest _ (by omega)]
      congr 1
      ring

/-! ## A tally of the smallest category alone -/

section Stray

variable {a : Word}

/-- The smallest category stands in the first cell and in the middle; the cells in between hold
greater categories in ascending order, and null follows. -/
structure StrayCells (rank : Word → Nat) (f : Nat → Word × Word) (n : Nat) (a x y : Word) :
    Prop where
  first : f 0 = (a, x)
  middle : f n = (a, y)
  ascending : ∀ i j, i ≤ j → j < n → rank (f i).1 ≤ rank (f j).1
  other : ∀ i, 0 < i → i < 2 * n → i ≠ n → (f i).1 ≠ a
  null : ∀ i, n < i → i < 2 * n → (f i).1 = noneWord

theorem strayCells_joined (hone : 1 < words.length)
    (h : Holds rank t 0 words.length words counts) (ha : words[words.length - 1]? = some a)
    (h' : Holds rank t words.length words.length [a] counts') :
    StrayCells rank (joined words.length t) words.length a (counts a) (counts' a) := by
  obtain ⟨hlt, hget⟩ := List.getElem?_eq_some_iff.mp ha
  have hlow : ∀ i, i < words.length → (joined words.length t i).1 = words[words.length - 1 - i] ∧
      (joined words.length t i).2 = counts words[words.length - 1 - i] := fun i hi => by
    have hcell := h.cell le_rfl (i := words.length - 1 - i) (by omega)
    rw [Nat.zero_add] at hcell
    simp only [joined, flip, if_pos hi]
    exact hcell
  have hmid := h'.cell (by simp; omega) (i := 0) (by simp)
  rw [Nat.add_zero] at hmid
  have hnull : ∀ i, words.length < i → i < 2 * words.length →
      (joined words.length t i).1 = noneWord := fun i hi hi' => by
    have hcell := cell_of_window h'.cells (i := i - words.length) (by omega) (x := nullEntry)
      (by rw [List.getElem?_append_right (by simp; omega), List.getElem?_replicate_of_lt (by
        simp only [List.length_map, List.length_singleton]
        omega)])
    rw [Nat.add_sub_cancel' hi.le] at hcell
    simp only [joined, flip, if_neg (show ¬ i < words.length by omega)]
    rw [← t.entry_fst, hcell]
    rfl
  refine ⟨?_, ?_, fun i j hij hj => ?_, fun i hi hi' hne => ?_, hnull⟩
  · obtain ⟨hlist, hfrequency⟩ := hlow 0 (by omega)
    simp only [Nat.sub_zero, hget] at hlist hfrequency
    exact Prod.ext hlist hfrequency
  · simp only [joined, flip, if_neg (lt_irrefl words.length)]
    exact Prod.ext hmid.1 hmid.2
  · have hle := h.rank_le le_rfl (show words.length - 1 - j ≤ words.length - 1 - i by omega)
      (by omega)
    simp only [joined, flip, if_pos hj, if_pos (hij.trans_lt hj), Nat.zero_add] at hle ⊢
    exact hle
  · by_cases hupper : words.length < i
    · rw [hnull i hupper hi']
      exact fun heq => h'.real (heq ▸ List.mem_singleton_self a)
    · rw [(hlow i (by omega)).1, ← hget]
      intro heq
      have := (List.Nodup.getElem_inj_iff (nodup_of_descending h.descending)).mp heq
      omega

namespace StrayCells

variable {f : Nat → Word × Word} {n : Nat} {x y : Word}

theorem rank_le (h : StrayCells rank f n a x y) (hrank : WordOrder rank) (hn : 0 < n) {i : Nat}
    (hi : i < 2 * n) : rank a ≤ rank (f i).1 := by
  rcases Nat.lt_trichotomy i n with hlt | rfl | hgt
  · have hle := h.ascending 0 i (Nat.zero_le i) hlt
    rwa [h.first] at hle
  · rw [h.middle]
  · rw [h.null i hgt hi]
    exact hrank.none_greatest a

/-- One of the two cells stays in the lower part of the merge. -/
theorem exists_low (h : StrayCells rank f n a x y) (hrank : WordOrder rank) (hn : 1 < n) :
    ∃ i < greatestPowerBelow (2 * n), (merge (cmpSwapData rank false) 0 (2 * n) f i).1 = a := by
  have hc := (cmpSwapData_twoWay rank).down
  have hlt := greatestPowerBelow_lt (show 1 < 2 * n by omega)
  have hle := le_two_mul_greatestPowerBelow (2 * n)
  have hmerge := fun i => merge_low hc.exchanging (show 1 < 2 * n by omega) 0 f (i := i)
  generalize greatestPowerBelow (2 * n) = p at *
  have hcell : ∃ i < p, keys (OrderDual.toDual ∘ rank ∘ Prod.fst)
      (layer (cmpSwapData rank false) 0 p (2 * n - p) f) 0 i = OrderDual.toDual (rank a) := by
    have hfirst : keys (OrderDual.toDual ∘ rank ∘ Prod.fst) f 0 0 = OrderDual.toDual (rank a) := by
      simp [keys, h.first]
    have hmiddle : keys (OrderDual.toDual ∘ rank ∘ Prod.fst) f 0 n = OrderDual.toDual (rank a) := by
      simp [keys, h.middle]
    by_cases hpn : p = n
    · refine ⟨0, by omega, ?_⟩
      rw [keys_layer_low hc (by omega) (by omega), if_pos (by omega), Nat.zero_add, hpn, hfirst,
        hmiddle, min_self]
    · refine ⟨n, by omega, ?_⟩
      rw [keys_layer_low hc (by omega) (by omega), if_neg (by omega), hmiddle]
  obtain ⟨i, hi, hkey⟩ := hcell
  obtain ⟨j, hj, heq⟩ := (merge_rearranged hc.exchanging 0 p
    (layer (cmpSwapData rank false) 0 p (2 * n - p) f)).symm.source (k := 0 + i) (by omega)
  refine ⟨j, by omega, hrank.injective ?_⟩
  have hj' := hmerge j (by omega)
  rw [Nat.zero_add] at hj'
  rw [hj', ← heq]
  exact OrderDual.toDual_inj.mp hkey

/-- The first layer brings the smallest categories, in ascending order, to the upper part, which
is sorted, so that the other one ends up last. -/
theorem last (h : StrayCells rank f n a x y) (hrank : WordOrder rank) (hn : 1 < n) :
    (merge (cmpSwapData rank false) 0 (2 * n) f (2 * n - 1)).1 = a := by
  have hc := (cmpSwapData_twoWay rank).down
  have hlt := greatestPowerBelow_lt (show 1 < 2 * n by omega)
  have hle := le_two_mul_greatestPowerBelow (2 * n)
  obtain ⟨g, hg, hmerge⟩ := merge_high hc.exchanging (show 1 < 2 * n by omega) 0 f
  have hmoved := merge_rearranged hc.exchanging 0 (2 * n) f
  generalize greatestPowerBelow (2 * n) = p at *
  have hkey : ∀ i < 2 * n - p, keys (OrderDual.toDual ∘ rank ∘ Prod.fst) g (0 + p) i =
      OrderDual.toDual (rank (f i).1) := by
    intro i hi
    have hlayer : keys (OrderDual.toDual ∘ rank ∘ Prod.fst)
        (layer (cmpSwapData rank false) 0 p (2 * n - p) f) (0 + p) i = _ :=
      keys_layer_high hc (show 2 * n - p ≤ p by omega) hi
    have hsmaller : rank (f i).1 ≤ rank (f (i + p)).1 := by
      rcases Nat.eq_or_lt_of_le (show n ≤ i + p by omega) with heq | hgt
      · obtain rfl : i = 0 := by omega
        rw [← heq, h.first, h.middle]
      · rw [h.null _ hgt (by omega)]
        exact hrank.none_greatest _
    have hgi : keys (OrderDual.toDual ∘ rank ∘ Prod.fst) g (0 + p) i =
        keys (OrderDual.toDual ∘ rank ∘ Prod.fst)
          (layer (cmpSwapData rank false) 0 p (2 * n - p) f) (0 + p) i := by
      rw [keys, keys, hg i hi]
    rw [hgi, hlayer]
    simp only [keys, Nat.zero_add, Function.comp_apply]
    exact max_eq_left (OrderDual.toDual_le_toDual.mpr hsmaller)
  have hsorted := merge_ascending_of_valley hc (2 * n - p) (0 + p) g (Descending.valley
    fun i j hij hj => by
      rw [hkey i (by omega), hkey j hj]
      exact OrderDual.toDual_le_toDual.mpr (h.ascending i j hij (by omega)))
  obtain ⟨k, hk, heq⟩ := (merge_rearranged hc.exchanging (0 + p) (2 * n - p) g).symm.source
    (k := 0 + p) ⟨le_rfl, by omega⟩
  have hlast := hsorted (k - p) (2 * n - p - 1) (by omega) (by omega)
  have hfirst := hkey 0 (by omega)
  rw [keys, Nat.add_zero, heq, h.first] at hfirst
  have hend := hmerge (2 * n - p - 1)
  rw [Nat.zero_add, show p + (2 * n - p - 1) = 2 * n - 1 by omega] at hend
  rw [keys, keys, show 0 + p + (k - p) = k by omega, hfirst] at hlast
  have hle' : rank (merge (cmpSwapData rank false) 0 (2 * n) f (2 * n - 1)).1 ≤ rank a := by
    rw [hend]
    exact OrderDual.toDual_le_toDual.mp hlast
  obtain ⟨j, hj, hsource⟩ := hmoved.source (k := 2 * n - 1) ⟨by omega, by omega⟩
  refine hrank.injective (le_antisymm hle' ?_)
  rw [hsource]
  exact h.rank_le hrank (by omega) (by omega)

/-- Nothing else holds the category, so that the two stand alone. -/
theorem alone (h : StrayCells rank f n a x y) (hrank : WordOrder rank) (hn : 1 < n) {k : Nat}
    (hk : k < 2 * n) (hka : (merge (cmpSwapData rank false) 0 (2 * n) f k).1 = a) :
    ((merge (cmpSwapData rank false) 0 (2 * n) f k).2 = x ∨
        (merge (cmpSwapData rank false) 0 (2 * n) f k).2 = y) ∧
      (k = 0 ∨ (merge (cmpSwapData rank false) 0 (2 * n) f (k - 1)).1 ≠ a) := by
  obtain ⟨i, hi, hia⟩ := h.exists_low hrank hn
  have hea := h.last hrank hn
  have hlt := greatestPowerBelow_lt (show 1 < 2 * n by omega)
  have heven : 2 ∣ greatestPowerBelow (2 * n) :=
    dvd_pow_self 2 (Nat.log_pos (by decide) (by omega)).ne'
  obtain ⟨σ, hσ, hmerge⟩ :=
    merge_rearranged (cmpSwapData_twoWay rank).down.exchanging 0 (2 * n) f
  rw [hmerge] at hia hea hka ⊢
  simp only [Function.comp_apply] at hia hea hka ⊢
  have hinside : ∀ k < 2 * n, σ k < 2 * n := by
    intro k hk
    by_contra hout
    have hfix := σ.injective (hσ (σ k) (by omega))
    omega
  have hcells : ∀ k < 2 * n, (f (σ k)).1 = a → σ k = 0 ∨ σ k = n := by
    intro k hk hka
    by_contra hne
    exact h.other (σ k) (by omega) (hinside k hk) (by omega) hka
  -- the cells with the category come from two cells only
  have htwo : ∀ k < 2 * n, (f (σ k)).1 = a → k = i ∨ k = 2 * n - 1 := by
    intro k hk hka
    have hk' := hcells k hk hka
    have hi' := hcells i (by omega) hia
    have he' := hcells (2 * n - 1) (by omega) hea
    by_contra hne
    have hki : σ k ≠ σ i := fun heq => hne (.inl (σ.injective heq))
    have hke : σ k ≠ σ (2 * n - 1) := fun heq => hne (.inr (σ.injective heq))
    have hie : σ i ≠ σ (2 * n - 1) := fun heq => absurd (σ.injective heq) (by omega)
    omega
  refine ⟨?_, ?_⟩
  · rcases hcells k hk hka with heq | heq <;> rw [heq]
    · exact .inl (by rw [h.first])
    · exact .inr (by rw [h.middle])
  · by_cases hzero : k = 0
    · exact .inl hzero
    · refine .inr fun hbefore => ?_
      have hk' := htwo k hk hka
      have hbefore' := htwo (k - 1) (by omega) hbefore
      omega

end StrayCells

/-- Its two cells are not added up. -/
theorem mergeRound_stray (hrank : WordOrder rank) (hone : 1 < words.length)
    (h : Holds rank t 0 words.length words counts) (ha : words[words.length - 1]? = some a)
    (h' : Holds rank t words.length words.length [a] counts') :
    ∃ t', mergeRound rank words.length t = some t' ∧
      ∀ i < words.length, t'.list i = a →
        t'.frequency i = counts a ∨ t'.frequency i = counts' a := by
  have hstray := strayCells_joined hone h ha h'
  have hreal : a ≠ noneWord := fun heq => h'.real (heq ▸ List.mem_singleton_self a)
  have htallied := tallied_addChunks (show 0 < 2 * words.length by omega)
    (merged rank words.length t)
  obtain ⟨t', entries, hrun, hentry, hwindow, -⟩ := compactCut_spec
    (show 2 ≤ 2 * words.length by omega) htallied words.length
  refine ⟨t', hrun, fun i hi hlist => ?_⟩
  have hne : t'.list i ≠ noneWord := hlist ▸ hreal
  have hcell : t'.entry i = entries i := by rw [hentry, erase, if_pos hi]
  rw [Table.entry_of_ne hne, hlist] at hcell
  have hmem : (a, t'.frequency i) ∈ window entries 0 (2 * words.length) :=
    mem_window.mpr ⟨i, by omega, by rw [Nat.zero_add, hcell]⟩
  rw [hwindow, List.mem_append] at hmem
  have hleft := hmem.resolve_right fun hnull =>
    hreal (Prod.mk.inj (List.eq_of_mem_replicate hnull)).1
  obtain ⟨k, hk, hkept⟩ := mem_window.mp (List.mem_filter.mp hleft).1
  rw [Nat.zero_add] at hkept
  have hka : (addChunks (2 * words.length) (merged rank words.length t)).list k = a := by
    rw [← Table.entry_fst, hkept]
  rw [Table.entry_of_ne (by rwa [hka])] at hkept
  have hlast : Duplicates.IsLast (merged rank words.length t).list (2 * words.length) k := by
    by_contra hnot
    exact hreal (hka ▸ htallied.other k hk hnot)
  obtain ⟨hmerged, hfrequency⟩ := htallied.last k hk hlast
  obtain ⟨hsource, halone⟩ := hstray.alone hrank hone hk (hmerged.symm.trans hka)
  have htotal : Duplicates.runTotal (merged rank words.length t).list
      (merged rank words.length t).frequency k = (merged rank words.length t).frequency k := by
    cases k with
    | zero => rfl
    | succ k =>
      rw [Duplicates.runTotal, if_neg]
      intro heq
      exact halone.resolve_left (by omega) ((heq.symm.trans hmerged.symm).trans hka)
  rw [← (Prod.mk.inj hkept).2, hfrequency, htotal]
  exact hsource

end Stray

end Spec

end CoVault.MapReduce.TopOne
