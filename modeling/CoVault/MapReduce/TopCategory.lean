import CoVault.MapReduce.CategoryMerge

/-!
# The most frequent category

Every chunk of the list is sorted and tallied in as many cells as there are categories; then the
tallies are merged one after the other. The merge counts right as long as no chunk lacks a
category.
-/

namespace CoVault.MapReduce.TopOne

open Library Library.Cells Library.SortNetwork

section Model

variable (rank : Word → Nat) (nCategories chunkSize : Nat)

/-- `&list[start_idx]` and `&frequency[start_idx]`. -/
def Table.drop (t : Table) (startIdx : Nat) : Table :=
  ⟨fun i => t.list (startIdx + i), fun i => t.frequency (startIdx + i)⟩

/-- A step on the cells from `start_idx` on. -/
def Table.onDrop (startIdx : Nat) (step : Table → Option Table) (t : Table) : Option Table := do
  let t' ← step (t.drop startIdx)
  some ⟨fun i => if i < startIdx then t.list i else t'.list (i - startIdx),
    fun i => if i < startIdx then t.frequency i else t'.frequency (i - startIdx)⟩

/-- A chunk, from its first cell on. -/
def processChunk (t : Table) : Option Table :=
  let list := sort (cmpSwap rank) 0 chunkSize false t.list
  compactCut chunkSize nCategories (countChunk chunkSize ⟨list, t.frequency⟩)

/-- The first pass. Chunk `i` is what follows the cells that `i` chunks have left. -/
def firstPass (nChunks : Nat) (t : Table) : Option Table :=
  (List.range nChunks).foldlM
    (fun t i => t.onDrop (i * nCategories) (processChunk rank nCategories chunkSize)) t

/-- Both passes. The assertion between them leaves nothing to pad. -/
def top1 (inputs : List Word) : Option Table := do
  let nChunks := inputs.length / chunkSize
  let t ← firstPass rank nCategories chunkSize nChunks ⟨ofList inputs 0, fun _ => 0⟩
  let inputSize := inputs.length - nChunks * (chunkSize - nCategories)
  if nChunks * nCategories = inputSize then
    mergeTree rank nCategories (inputSize / nCategories - 1) t
  else none

end Model

/-- Every category that occurs is there once, with the number of its occurrences, and all other
cells are null. -/
structure Tallies (nCategories : Nat) (inputs : List Word) (t : Table) : Prop where
  once : ∀ w ∈ inputs, (window t.list 0 nCategories).count w = 1
  frequency : ∀ i < nCategories, t.list i ∈ inputs →
    (t.frequency i).toNat = inputs.count (t.list i)
  null : ∀ i < nCategories, t.list i ∉ inputs → t.list i = noneWord

/-- What the query is for. -/
def CountsCategories (rank : Word → Nat) (nCategories chunkSize : Nat) (inputs : List Word) :
    Prop :=
  ∃ t, top1 rank nCategories chunkSize inputs = some t ∧ Tallies nCategories inputs t

section Spec

variable {rank : Word → Nat} {nCategories chunkSize : Nat}

/-! ## The first pass -/

/-- A chunk gives each of its categories with the number of its occurrences. -/
theorem processChunk_spec (hinj : Function.Injective rank) (hsize : 2 ≤ chunkSize)
    (hcut : nCategories ≤ chunkSize) {t : Table} {chunk : List Word}
    (hchunk : window t.list 0 chunkSize = chunk) (hreal : noneWord ∉ chunk)
    (hfew : chunk.toFinset.card ≤ nCategories) :
    ∃ t' words, processChunk rank nCategories chunkSize t = some t' ∧
      Holds rank t' 0 nCategories words (fun w => (chunk.count w : Word)) ∧
      (∀ w, w ∈ words ↔ w ∈ chunk) ∧
      ∀ i, nCategories ≤ i → t'.list i = t.list (i + (chunkSize - nCategories)) := by
  have hc := cmpSwap_twoWay rank
  have hmoved := sort_rearranged hc.exchanging 0 chunkSize false t.list
  have hperm := hmoved.perm
  rw [hchunk] at hperm
  have htallied := tallied_countChunk (show 0 < chunkSize by omega)
    ⟨sort (cmpSwap rank) 0 chunkSize false t.list, t.frequency⟩
  have herase : (window (sort (cmpSwap rank) 0 chunkSize false t.list) 0
      chunkSize).toFinset.erase noneWord = chunk.toFinset := by
    rw [List.toFinset_eq_of_perm _ _ hperm]
    exact Finset.erase_eq_of_notMem (by simpa using hreal)
  obtain ⟨t', words, hrun, hholds, hmem, hrest⟩ := compactCut_sorted hinj hsize htallied
    (sort_sortedIn hc 0 chunkSize false _) hcut (by rwa [herase])
  refine ⟨t', words, hrun, hholds.congr fun w _ => ?_, fun w => ?_, fun i hi => ?_⟩
  · have hones : window (fun i => (sort (cmpSwap rank) 0 chunkSize false t.list i, (1 : Word))) 0
        chunkSize = (window (sort (cmpSwap rank) 0 chunkSize false t.list) 0 chunkSize).map
          fun y => (y, 1) := by
      rw [window, window, List.map_map]
      rfl
    rw [hones, Duplicates.total_const, hperm.count_eq, nsmul_one]
  · rw [hmem, hperm.mem_iff]
    exact and_iff_right_of_imp fun hw heq => hreal (heq ▸ hw)
  · rw [← t'.entry_fst, hrest i hi, Table.entry_fst, (htallied.outside _ (by omega)).1]
    exact hmoved.outside (by omega)

/-- Chunk `m` of the list. -/
def chunkOf (chunkSize : Nat) (f : Nat → Word) (m : Nat) : List Word :=
  window f (m * chunkSize) chunkSize

/-- A chunk ends before the end of the chunks. -/
theorem chunk_le {m n : Nat} (size : Nat) (hm : m < n) : m * size + size ≤ n * size := by
  rw [← Nat.succ_mul]
  exact Nat.mul_le_mul_right size hm

/-- The first `i` chunks have been tallied, and the others follow. -/
structure Passed (rank : Word → Nat) (nCategories chunkSize : Nat) (f : Nat → Word) (i : Nat)
    (t : Table) : Prop where
  tallies : ∀ m < i, ∃ words, Holds rank t (m * nCategories) nCategories words
      (fun w => ((chunkOf chunkSize f m).count w : Word)) ∧
    ∀ w, w ∈ words ↔ w ∈ chunkOf chunkSize f m
  ahead : ∀ j, t.list (i * nCategories + j) = f (i * chunkSize + j)

theorem entry_onDrop {startIdx : Nat} {t t' : Table} (i : Nat) :
    Table.entry ⟨fun i => if i < startIdx then t.list i else t'.list (i - startIdx),
      fun i => if i < startIdx then t.frequency i else t'.frequency (i - startIdx)⟩ i =
      if i < startIdx then t.entry i else t'.entry (i - startIdx) := by
  by_cases hi : i < startIdx <;> simp only [Table.entry, hi, if_true, if_false]

theorem passed_step (hinj : Function.Injective rank) (hsize : 2 ≤ chunkSize)
    (hcut : nCategories ≤ chunkSize) {f : Nat → Word} {i : Nat} {t : Table}
    (h : Passed rank nCategories chunkSize f i t) (hreal : noneWord ∉ chunkOf chunkSize f i)
    (hfew : (chunkOf chunkSize f i).toFinset.card ≤ nCategories) :
    ∃ t', t.onDrop (i * nCategories) (processChunk rank nCategories chunkSize) = some t' ∧
      Passed rank nCategories chunkSize f (i + 1) t' := by
  have hchunk : window (t.drop (i * nCategories)).list 0 chunkSize = chunkOf chunkSize f i := by
    refine List.map_congr_left fun j _ => ?_
    rw [Nat.zero_add]
    exact h.ahead j
  obtain ⟨t', words, hrun, hholds, hmem, hrest⟩ := processChunk_spec hinj hsize hcut hchunk hreal
    hfew
  refine ⟨_, by rw [Table.onDrop, hrun]; rfl, fun m hm => ?_, fun j => ?_⟩
  · rcases Nat.lt_succ_iff_lt_or_eq.mp hm with hlt | rfl
    · obtain ⟨words', hholds', hmem'⟩ := h.tallies m hlt
      have hbefore := chunk_le nCategories hlt
      refine ⟨words', ⟨hholds'.descending, hholds'.real, ?_⟩, hmem'⟩
      rw [← hholds'.cells]
      exact window_congr fun j hj => by rw [entry_onDrop, if_pos (by omega)]
    · refine ⟨words, ⟨hholds.descending, hholds.real, ?_⟩, hmem⟩
      rw [← hholds.cells]
      refine List.map_congr_left fun j _ => ?_
      rw [entry_onDrop, if_neg (by omega), Nat.add_sub_cancel_left, Nat.zero_add]
  · have hskip : (i + 1) * nCategories + j = i * nCategories + (nCategories + j) := by ring
    have hskip' : (i + 1) * chunkSize + j =
        i * chunkSize + (nCategories + j + (chunkSize - nCategories)) := by
      rw [Nat.succ_mul]
      omega
    dsimp only
    rw [hskip, hskip', if_neg (by omega), Nat.add_sub_cancel_left, hrest _ (by omega)]
    exact h.ahead _

/-- The first pass tallies every chunk. -/
theorem firstPass_spec (hinj : Function.Injective rank) (hsize : 2 ≤ chunkSize)
    (hcut : nCategories ≤ chunkSize) {f frequency : Nat → Word} {n : Nat}
    (hreal : ∀ m < n, noneWord ∉ chunkOf chunkSize f m)
    (hfew : ∀ m < n, (chunkOf chunkSize f m).toFinset.card ≤ nCategories) :
    ∃ t, firstPass rank nCategories chunkSize n ⟨f, frequency⟩ = some t ∧
      Passed rank nCategories chunkSize f n t := by
  induction n with
  | zero => exact ⟨⟨f, frequency⟩, rfl, by omega, fun j => by simp⟩
  | succ n ih =>
    obtain ⟨t, hrun, hpassed⟩ := ih (fun m hm => hreal m (by omega)) fun m hm => hfew m (by omega)
    obtain ⟨t', hstep, hpassed'⟩ := passed_step hinj hsize hcut hpassed (hreal n (by omega))
      (hfew n (by omega))
    refine ⟨t', ?_, hpassed'⟩
    rw [firstPass] at hrun ⊢
    rw [List.range_succ, List.foldlM_append, hrun]
    simpa using hstep

variable {t : Table} {words : List Word}

/-! ## The whole query -/

/-- A tally of all of the input is what is asked for, if the counts fit in a word. -/
theorem Holds.tallies {inputs : List Word}
    (h : Holds rank t 0 nCategories words fun w => (inputs.count w : Word))
    (hmem : ∀ w, w ∈ words ↔ w ∈ inputs) (hlength : inputs.length < 2 ^ hashbits) :
    Tallies nCategories inputs t := by
  have hlist : window t.list 0 nCategories =
      words ++ List.replicate (nCategories - words.length) noneWord := by
    have hfst := congrArg (List.map Prod.fst) h.cells
    rw [List.map_append, List.map_map, List.map_replicate] at hfst
    simpa [window, Function.comp_def, Table.entry_fst, nullEntry] using hfst
  have hcell : ∀ i < nCategories,
      t.list i ∈ words ∧ t.frequency i = (inputs.count (t.list i) : Word) ∨
        t.list i = noneWord := by
    intro i hi
    by_cases hnone : t.list i = noneWord
    · exact .inr hnone
    · have hmem : t.entry i ∈ window t.entry 0 nCategories :=
        mem_window.mpr ⟨i, hi, by rw [Nat.zero_add]⟩
      rw [h.cells, List.mem_append, Table.entry_of_ne hnone] at hmem
      have hleft := hmem.resolve_right fun hnull =>
        hnone (Prod.mk.inj (List.eq_of_mem_replicate hnull)).1
      obtain ⟨w, hw, heq⟩ := List.mem_map.mp hleft
      obtain ⟨rfl, hfrequency⟩ := Prod.mk.inj heq
      exact .inl ⟨hw, hfrequency.symm⟩
  refine ⟨fun w hw => ?_, fun i hi hin => ?_, fun i hi hout => ?_⟩
  · have hreal : w ≠ noneWord := fun heq => h.real (heq ▸ (hmem w).mpr hw)
    rw [hlist, List.count_append, List.count_replicate, if_neg (by simpa using hreal.symm),
      Nat.add_zero, List.count_eq_one_of_mem (nodup_of_descending h.descending) ((hmem w).mpr hw)]
  · have hreal : t.list i ≠ noneWord := fun heq => h.real (heq ▸ (hmem _).mpr hin)
    rw [((hcell i hi).resolve_right hreal).2]
    exact Nat.mod_eq_of_lt (List.count_le_length.trans_lt hlength)
  · exact (hcell i hi).resolve_left fun hleft => hout ((hmem _).mp hleft.1)

theorem top1_eq (hpos : 0 < nCategories) (hcut : nCategories ≤ chunkSize) {n : Nat}
    {inputs : List Word} (hlength : inputs.length = n * chunkSize) :
    top1 rank nCategories chunkSize inputs =
      (firstPass rank nCategories chunkSize n ⟨ofList inputs 0, fun _ => 0⟩).bind
        (mergeTree rank nCategories (n - 1)) := by
  have hchunks : inputs.length / chunkSize = n := by
    rw [hlength, Nat.mul_div_cancel _ (by omega)]
  have hsize : inputs.length - n * (chunkSize - nCategories) = n * nCategories := by
    rw [hlength, ← Nat.mul_sub, Nat.sub_sub_self hcut]
  simp only [top1, hchunks, hsize, if_true, Nat.mul_div_cancel _ hpos]
  rfl

/-- The chunks hold the occurrences of the whole list. -/
theorem count_chunks (f : Nat → Word) (w : Word) (n : Nat) :
    (window f 0 (n * chunkSize)).count w =
      ∑ m ∈ Finset.range n, (chunkOf chunkSize f m).count w := by
  induction n with
  | zero => simp [window]
  | succ n ih =>
    rw [Nat.succ_mul, window_append, List.count_append, ih, Nat.zero_add, Finset.sum_range_succ]
    rfl

/-- The chunks of a list that fits the input. -/
theorem chunkOf_ofList {f : Nat → Word} {n m : Nat} (hm : m < n) :
    chunkOf chunkSize (ofList (window f 0 (n * chunkSize)) 0) m = chunkOf chunkSize f m := by
  refine window_congr fun i hi => ?_
  have hin : m * chunkSize + i < n * chunkSize := by
    have hle := chunk_le chunkSize hm
    omega
  rw [ofList, List.getD_eq_getElem?_getD, List.getElem?_eq_getElem (by simpa using hin),
    Option.getD_some, getElem_window, Nat.zero_add]

theorem window_inputs {inputs : List Word} {n : Nat} (hlength : inputs.length = n * chunkSize) :
    window (ofList inputs 0) 0 (n * chunkSize) = inputs := by
  rw [← hlength, window_ofList]

theorem mem_of_mem_chunkOf {inputs : List Word} {n m : Nat}
    (hlength : inputs.length = n * chunkSize) (hm : m < n) {w : Word}
    (hw : w ∈ chunkOf chunkSize (ofList inputs 0) m) : w ∈ inputs := by
  obtain ⟨i, hi, rfl⟩ := mem_window.mp hw
  have hin : m * chunkSize + i < n * chunkSize := by
    have hle := chunk_le chunkSize hm
    omega
  have hmem : ofList inputs 0 (m * chunkSize + i) ∈ window (ofList inputs 0) 0 (n * chunkSize) :=
    mem_window.mpr ⟨m * chunkSize + i, hin, by rw [Nat.zero_add]⟩
  rwa [window_inputs hlength] at hmem

theorem card_toFinset_le {l l' : List Word} (h : ∀ w ∈ l, w ∈ l') :
    l.toFinset.card ≤ l'.toFinset.card :=
  Finset.card_le_card fun w hw => List.mem_toFinset.mpr (h w (List.mem_toFinset.mp hw))

theorem card_chunkOf_le {inputs : List Word} {n m : Nat}
    (hlength : inputs.length = n * chunkSize) (hm : m < n) :
    (chunkOf chunkSize (ofList inputs 0) m).toFinset.card ≤ inputs.toFinset.card :=
  card_toFinset_le fun _ hw => mem_of_mem_chunkOf hlength hm hw

theorem card_le_length {l : List Word} (h : ∀ w ∈ l, w ∈ words) :
    l.toFinset.card ≤ words.length :=
  (card_toFinset_le h).trans (List.toFinset_card_le words)

/-- The first pass on an input of categories. -/
theorem firstPass_inputs (hinj : Function.Injective rank) (hsize : 2 ≤ chunkSize)
    (hcut : nCategories ≤ chunkSize) {n : Nat} {inputs : List Word}
    (hlength : inputs.length = n * chunkSize) (hreal : noneWord ∉ inputs)
    (hfew : inputs.toFinset.card ≤ nCategories) :
    ∃ t, firstPass rank nCategories chunkSize n ⟨ofList inputs 0, fun _ => 0⟩ = some t ∧
      Passed rank nCategories chunkSize (ofList inputs 0) n t := by
  refine firstPass_spec hinj hsize hcut (fun m hm hnone => hreal ?_) fun m hm => ?_
  · exact mem_of_mem_chunkOf hlength hm hnone
  · exact (card_chunkOf_le hlength hm).trans hfew

/-- One chunk needs no merging. -/
theorem top1_one_chunk (hinj : Function.Injective rank) (hpos : 0 < nCategories)
    (hsize : 2 ≤ chunkSize) (hcut : nCategories ≤ chunkSize) {inputs : List Word}
    (hlength : inputs.length = 1 * chunkSize) (hreal : noneWord ∉ inputs)
    (hfew : inputs.toFinset.card ≤ nCategories) (hfits : inputs.length < 2 ^ hashbits) :
    CountsCategories rank nCategories chunkSize inputs := by
  obtain ⟨t, hrun, hpassed⟩ := firstPass_inputs hinj hsize hcut hlength hreal hfew
  obtain ⟨words, hholds, hmem⟩ := hpassed.tallies 0 (by omega)
  have hchunk : chunkOf chunkSize (ofList inputs 0) 0 = inputs := by
    have hall := window_inputs hlength
    rw [Nat.one_mul] at hall
    rw [chunkOf, Nat.zero_mul, hall]
  rw [hchunk] at hmem
  rw [hchunk, Nat.zero_mul] at hholds
  exact ⟨t, by rw [top1_eq hpos hcut hlength, hrun]; rfl, hholds.tallies hmem hfits⟩

/-- If every chunk holds all categories, their frequencies are added up. -/
theorem top1_full (hinj : Function.Injective rank) (hpos : 0 < words.length)
    (hsize : 2 ≤ chunkSize) (hcut : words.length ≤ chunkSize) {n : Nat} {inputs : List Word}
    (hlength : inputs.length = (n + 1) * chunkSize) (hreal : noneWord ∉ inputs)
    (hwords : words.Pairwise fun a b => rank b < rank a) (hmem : ∀ w, w ∈ words ↔ w ∈ inputs)
    (hall : ∀ m < n + 1, ∀ w ∈ inputs, w ∈ chunkOf chunkSize (ofList inputs 0) m)
    (hfits : inputs.length < 2 ^ hashbits) :
    CountsCategories rank words.length chunkSize inputs := by
  have hfew : inputs.toFinset.card ≤ words.length :=
    card_le_length fun w hw => (hmem w).mpr hw
  obtain ⟨t, hrun, hpassed⟩ := firstPass_inputs hinj hsize hcut hlength hreal hfew
  have htallies : ∀ m < n + 1, Holds rank t (m * words.length) words.length words
      fun w => ((chunkOf chunkSize (ofList inputs 0) m).count w : Word) := by
    intro m hm
    obtain ⟨words', hholds, hmem'⟩ := hpassed.tallies m hm
    have hsame : words' = words := eq_of_descending hholds.descending hwords fun w => by
      rw [hmem', hmem]
      exact ⟨mem_of_mem_chunkOf hlength hm, hall m hm w⟩
    rwa [hsame] at hholds
  obtain ⟨t', htree, hholds, -⟩ := mergeTree_full hinj hpos htallies
  have hcount : ∀ w ∈ words, (inputs.count w : Word) = ∑ m ∈ Finset.range (n + 1),
      ((chunkOf chunkSize (ofList inputs 0) m).count w : Word) := fun w _ => by
    rw [← Nat.cast_sum, ← count_chunks, window_inputs hlength]
  refine ⟨t', ?_, (hholds.congr hcount).tallies hmem hfits⟩
  rw [top1_eq hpos hcut hlength, hrun]
  exact htree

/-! ## When it fails -/

/-- All categories, then the smallest one up to the end of the chunk, in all chunks but the last,
which holds the smallest one only. -/
def strayInput (words : List Word) (a : Word) (chunkSize n : Nat) : Nat → Word := fun i =>
  if i < n * chunkSize then words.getD (i % chunkSize) a else a

theorem getD_mem (ha : a ∈ words) (i : Nat) : words.getD i a ∈ words := by
  rw [List.getD_eq_getElem?_getD]
  by_cases hlt : i < words.length
  · rw [List.getElem?_eq_getElem hlt]
    exact List.getElem_mem hlt
  · rw [List.getElem?_eq_none (by omega)]
    exact ha

theorem mem_chunkOf_strayInput {n m : Nat} (ha : a ∈ words) (hcut : words.length ≤ chunkSize)
    (hm : m < n) (w : Word) :
    w ∈ chunkOf chunkSize (strayInput words a chunkSize n) m ↔ w ∈ words := by
  have hcell : ∀ i < chunkSize,
      strayInput words a chunkSize n (m * chunkSize + i) = words.getD i a := by
    intro i hi
    have hin := chunk_le chunkSize hm
    rw [strayInput, if_pos (by omega), Nat.mul_comm, Nat.mul_add_mod, Nat.mod_eq_of_lt hi]
  rw [chunkOf, mem_window]
  constructor
  · rintro ⟨i, hi, rfl⟩
    rw [hcell i hi]
    exact getD_mem ha i
  · intro hw
    obtain ⟨i, hi, rfl⟩ := List.getElem_of_mem hw
    exact ⟨i, by omega, by rw [hcell i (by omega), List.getD_eq_getElem?_getD,
      List.getElem?_eq_getElem hi, Option.getD_some]⟩

theorem chunkOf_strayInput_last (words : List Word) (a : Word) (chunkSize n : Nat) :
    chunkOf chunkSize (strayInput words a chunkSize n) n = List.replicate chunkSize a := by
  refine List.eq_replicate_iff.mpr ⟨length_window .., fun w hw => ?_⟩
  obtain ⟨i, -, rfl⟩ := mem_window.mp hw
  exact if_neg (by omega)

theorem mem_strayInput {n : Nat} (ha : a ∈ words) {w : Word} {size : Nat}
    (hw : w ∈ window (strayInput words a chunkSize n) 0 size) : w ∈ words := by
  obtain ⟨i, -, rfl⟩ := mem_window.mp hw
  rw [strayInput]
  split_ifs
  · exact getD_mem ha _
  · exact ha

/-- The last merge does not add up the smallest category. -/
theorem not_tallies_stray (hrank : WordOrder rank) (hone : 1 < words.length)
    (hcut : words.length ≤ chunkSize) (hwords : words.Pairwise fun a b => rank b < rank a)
    (hreal : noneWord ∉ words) (ha : words[words.length - 1]? = some a) (n : Nat)
    (hfits : (n + 2) * chunkSize < 2 ^ hashbits) {inputs : List Word}
    (hinputs : inputs = window (strayInput words a chunkSize (n + 1)) 0 ((n + 2) * chunkSize)) :
    ¬ CountsCategories rank words.length chunkSize inputs := by
  have hmem : a ∈ words := List.mem_of_getElem? ha
  have hlength : inputs.length = (n + 2) * chunkSize := by rw [hinputs, length_window]
  have hin : ∀ w ∈ inputs, w ∈ words := fun w hw => mem_strayInput hmem (hinputs ▸ hw)
  have hfew : inputs.toFinset.card ≤ words.length := card_le_length hin
  have hchunk : ∀ m < n + 2, chunkOf chunkSize (ofList inputs 0) m =
      chunkOf chunkSize (strayInput words a chunkSize (n + 1)) m := fun m hm => by
    rw [hinputs, chunkOf_ofList hm]
  obtain ⟨t, hrun, hpassed⟩ := firstPass_inputs hrank.injective (by omega) hcut hlength
    (fun hnone => hreal (hin _ hnone)) hfew
  have htallies : ∀ m < n + 1, Holds rank t (m * words.length) words.length words
      fun w => ((chunkOf chunkSize (ofList inputs 0) m).count w : Word) := by
    intro m hm
    obtain ⟨words', hholds, hmem'⟩ := hpassed.tallies m (by omega)
    have hsame : words' = words := eq_of_descending hholds.descending hwords fun w => by
      rw [hmem', hchunk m (by omega), mem_chunkOf_strayInput hmem hcut hm]
    rwa [hsame] at hholds
  obtain ⟨last, hlast, hmemLast⟩ := hpassed.tallies (n + 1) (by omega)
  rw [hchunk (n + 1) (by omega), chunkOf_strayInput_last] at hlast hmemLast
  obtain rfl : last = [a] := eq_of_descending hlast.descending (List.pairwise_singleton _ a)
    fun w => by
      rw [hmemLast, List.mem_replicate, List.mem_singleton]
      exact and_iff_right (by omega)
  obtain ⟨t', htree, hholds, hrest⟩ := mergeTree_full hrank.injective (by omega) htallies
  obtain ⟨t'', hround, hfrequency⟩ := mergeRound_stray hrank hone hholds ha
    (hlast.of_entry fun i _ => by
      rw [hrest _ (by omega)]
      congr 1
      ring)
  rintro ⟨result, hresult, htally⟩
  have hsame : t'' = result := by
    rw [top1_eq (by omega) hcut hlength, hrun, Option.bind_some, show n + 2 - 1 = n + 1 by omega,
      mergeTree, List.range_succ, List.foldlM_append] at hresult
    rw [mergeTree] at htree
    simpa [htree, hround] using hresult
  subst hsame
  have hfull : 0 < (chunkOf chunkSize (ofList inputs 0) 0).count a := List.count_pos_iff.mpr (by
    rw [hchunk 0 (by omega), mem_chunkOf_strayInput hmem hcut (by omega)]
    exact hmem)
  have hcount : inputs.count a = ∑ m ∈ Finset.range (n + 2),
      (chunkOf chunkSize (ofList inputs 0) m).count a := by
    rw [← count_chunks, window_inputs hlength]
  rw [Finset.sum_range_succ, hchunk (n + 1) (by omega), chunkOf_strayInput_last,
    List.count_replicate_self] at hcount
  have hle : (chunkOf chunkSize (ofList inputs 0) 0).count a ≤
      ∑ m ∈ Finset.range (n + 1), (chunkOf chunkSize (ofList inputs 0) m).count a :=
    Finset.single_le_sum (fun m _ => Nat.zero_le ((chunkOf chunkSize (ofList inputs 0) m).count a))
      (Finset.mem_range.mpr (Nat.succ_pos n))
  have hsmall : inputs.count a < 2 ^ hashbits :=
    (List.count_le_length.trans_eq hlength).trans_lt hfits
  have hone := htally.once a (List.count_pos_iff.mp (by omega))
  obtain ⟨i, hi, hlist⟩ := mem_window.mp (List.count_pos_iff.mp (hone ▸ Nat.one_pos))
  rw [Nat.zero_add] at hlist
  have hexact := htally.frequency i hi (hlist ▸ List.count_pos_iff.mp (by omega))
  rw [hlist] at hexact
  -- the frequency is that of all chunks but the last, or of the last one
  rcases hfrequency i hi hlist with heq | heq <;> rw [heq] at hexact
  · rw [← Nat.cast_sum] at hexact
    have hcast := Nat.mod_eq_of_lt (show ∑ m ∈ Finset.range (n + 1),
      (chunkOf chunkSize (ofList inputs 0) m).count a < 2 ^ hashbits by omega)
    have hsame := hexact.symm.trans hcast
    omega
  · rw [List.count_replicate_self] at hexact
    have hcast := Nat.mod_eq_of_lt (show chunkSize < 2 ^ hashbits by omega)
    have hsame := hexact.symm.trans hcast
    omega

/-- Words can be brought in descending order. -/
theorem exists_descending (hinj : Function.Injective rank) (s : Finset Word) :
    ∃ words : List Word, (words.Pairwise fun a b => rank b < rank a) ∧ words.toFinset = s := by
  induction s using Finset.induction_on_max_value rank with
  | empty => exact ⟨[], .nil, rfl⟩
  | insert a s ha hle ih =>
    obtain ⟨words, hwords, rfl⟩ := ih
    refine ⟨a :: words, List.pairwise_cons.mpr ⟨fun w hw => ?_, hwords⟩, List.toFinset_cons⟩
    have hw' := List.mem_toFinset.mpr hw
    exact lt_of_le_of_ne (hle w hw') fun heq => ha (hinj heq ▸ hw')

/-- There are as many categories as asked for. -/
theorem exists_categories (hinj : Function.Injective rank) {n : Nat} (hn : n ≤ 2 ^ 31) :
    ∃ words : List Word, (words.Pairwise fun a b => rank b < rank a) ∧ words.length = n ∧
      ∀ w ∈ words, w.toNat < 2 ^ 31 := by
  obtain ⟨words, hwords, hset⟩ := exists_descending hinj
    ((Finset.range n).image (BitVec.ofNat hashbits))
  have hsmall : ∀ i < n, (BitVec.ofNat hashbits i).toNat = i := fun i hi =>
    Nat.mod_eq_of_lt (show i < 2 ^ hashbits from (hi.trans_le hn).trans (by decide))
  refine ⟨words, hwords, ?_, fun w hw => ?_⟩
  · rw [← List.toFinset_card_of_nodup (nodup_of_descending hwords), hset,
      Finset.card_image_of_injOn, Finset.card_range]
    intro i hi j hj heq
    have hnat := congrArg BitVec.toNat heq
    rwa [hsmall i (Finset.mem_range.mp hi), hsmall j (Finset.mem_range.mp hj)] at hnat
  · rw [← List.mem_toFinset, hset] at hw
    obtain ⟨i, hi, rfl⟩ := Finset.mem_image.mp hw
    rw [hsmall i (Finset.mem_range.mp hi)]
    exact (Finset.mem_range.mp hi).trans_le hn

/-- A chunk of one cell is read outside its bounds. -/
theorem top1_one_cell (hpos : 0 < nCategories) (hcut : nCategories ≤ 1) {n : Nat}
    {inputs : List Word} (hlength : inputs.length = (n + 1) * 1) :
    top1 rank nCategories 1 inputs = none := by
  have hnone : processChunk rank nCategories 1 = fun _ => none := by
    funext t
    rw [processChunk, compactCut, computeDistanceMarkDuplicates, if_pos (by omega)]
    rfl
  rw [top1_eq hpos hcut hlength, firstPass, List.range_succ_eq_map, List.foldlM_cons, Table.onDrop,
    hnone]
  rfl

theorem card_replicate_le (n : Nat) (w : Word) : (List.replicate n w).toFinset.card ≤ 1 :=
  Finset.card_le_one.mpr fun a ha b hb => by
    rw [List.eq_of_mem_replicate (List.mem_toFinset.mp ha),
      List.eq_of_mem_replicate (List.mem_toFinset.mp hb)]

/-- An input of one category has the right frequency only if its length fits in a word. -/
theorem fits_of_countsCategories {n : Nat} {w : Word} (hpos : 0 < nCategories)
    (hcut : nCategories ≤ chunkSize) (hsize : 0 < chunkSize)
    (h : CountsCategories rank nCategories chunkSize (List.replicate ((n + 1) * chunkSize) w)) :
    2 ≤ chunkSize ∧ (n + 1) * chunkSize < 2 ^ hashbits := by
  obtain ⟨t, hrun, htally⟩ := h
  have hmem : w ∈ List.replicate ((n + 1) * chunkSize) w :=
    List.mem_replicate.mpr ⟨by positivity, rfl⟩
  refine ⟨?_, ?_⟩
  · by_contra hlt
    obtain rfl : chunkSize = 1 := by omega
    rw [top1_one_cell hpos hcut List.length_replicate] at hrun
    exact absurd hrun (by simp)
  · have hone := htally.once w hmem
    obtain ⟨i, hi, hlist⟩ := mem_window.mp (List.count_pos_iff.mp (hone ▸ Nat.one_pos))
    rw [Nat.zero_add] at hlist
    have hcount := htally.frequency i hi (hlist ▸ hmem)
    rw [hlist, List.count_replicate_self] at hcount
    exact hcount ▸ (t.frequency i).isLt

/-- Frequencies that fit in a word are right if there is one chunk, or every chunk holds all
categories. -/
theorem countsCategories_of_full (hinj : Function.Injective rank) (hcut : nCategories ≤ chunkSize)
    (hsize : 2 ≤ chunkSize) {n : Nat} (hfits : (n + 1) * chunkSize < 2 ^ hashbits)
    {inputs : List Word} (hlength : inputs.length = (n + 1) * chunkSize)
    (hreal : noneWord ∉ inputs) (hfew : inputs.toFinset.card ≤ nCategories)
    (hfull : n = 0 ∨
      ∀ m < n + 1, (chunkOf chunkSize (ofList inputs 0) m).toFinset.card = nCategories) :
    CountsCategories rank nCategories chunkSize inputs := by
  obtain ⟨a, ha⟩ : ∃ a, a ∈ inputs := List.exists_mem_of_length_pos (by
    rw [hlength]
    positivity)
  have hpos : 0 < nCategories :=
    (Finset.card_pos.mpr ⟨a, List.mem_toFinset.mpr ha⟩).trans_le hfew
  rcases hfull with rfl | hfull
  · exact top1_one_chunk hinj hpos hsize hcut hlength hreal hfew (hlength ▸ hfits)
  · obtain ⟨words, hwords, hset⟩ := exists_descending hinj inputs.toFinset
    have hsub : ∀ m < n + 1, (chunkOf chunkSize (ofList inputs 0) m).toFinset = inputs.toFinset :=
      fun m hm => Finset.eq_of_subset_of_card_le (fun w hw => List.mem_toFinset.mpr
        (mem_of_mem_chunkOf hlength hm (List.mem_toFinset.mp hw))) (hfew.trans (hfull m hm).ge)
    have hlen : words.length = nCategories := by
      rw [← List.toFinset_card_of_nodup (nodup_of_descending hwords), hset, ← hsub 0 (by omega),
        hfull 0 (by omega)]
    subst hlen
    refine top1_full hinj hpos hsize hcut hlength hreal hwords (fun w => ?_) (fun m hm w hw => ?_)
      (hlength ▸ hfits)
    · rw [← List.mem_toFinset, hset, List.mem_toFinset]
    · rwa [← List.mem_toFinset, hsub m hm, List.mem_toFinset]

/-- The query is right for an input that fits if there is one chunk, or every chunk holds all
categories. It is right for all inputs of a length if and only if there is one chunk or one
category, a chunk has more than one cell, and the length fits in a word. -/
theorem top1_iff (hrank : WordOrder rank) (hcut : nCategories ≤ chunkSize) {n : Nat} (hn : 0 < n)
    (hsize : 0 < chunkSize) :
    (2 ≤ chunkSize → n * chunkSize < 2 ^ hashbits →
      ∀ inputs : List Word, inputs.length = n * chunkSize → inputs.toFinset.card ≤ nCategories →
        (∀ w ∈ inputs, w.toNat < 2 ^ 31) →
        (n = 1 ∨
          ∀ m < n, (chunkOf chunkSize (ofList inputs 0) m).toFinset.card = nCategories) →
        CountsCategories rank nCategories chunkSize inputs) ∧
    ((∀ inputs : List Word, inputs.length = n * chunkSize → inputs.toFinset.card ≤ nCategories →
        (∀ w ∈ inputs, w.toNat < 2 ^ 31) →
        CountsCategories rank nCategories chunkSize inputs) ↔
      nCategories = 0 ∨
        (n = 1 ∨ nCategories = 1) ∧ 2 ≤ chunkSize ∧ n * chunkSize < 2 ^ hashbits) := by
  obtain ⟨n, rfl⟩ : ∃ m, n = m + 1 := ⟨n - 1, by omega⟩
  have hnone : noneWord.toNat = 2 ^ 31 := by decide
  have hreal : ∀ l : List Word, (∀ w ∈ l, w.toNat < 2 ^ 31) → noneWord ∉ l :=
    fun l hl hmem => (hl _ hmem).ne hnone
  refine ⟨fun htwo hfits inputs hlength hfew hbelow hfull =>
    countsCategories_of_full hrank.injective hcut htwo hfits hlength (hreal inputs hbelow) hfew
      (hfull.imp_left fun hone => by omega), fun hall => ?_, ?_⟩
  · by_cases hzero : nCategories = 0
    · exact .inl hzero
    obtain ⟨htwo, hfits⟩ := fits_of_countsCategories (by omega) hcut hsize
      (hall (List.replicate ((n + 1) * chunkSize) 0) List.length_replicate
        ((card_replicate_le _ _).trans (by omega)) fun w hw => by
          rw [List.eq_of_mem_replicate hw]
          decide)
    refine .inr ⟨?_, htwo, hfits⟩
    by_contra hmany
    obtain ⟨n, rfl⟩ : ∃ m, n = m + 1 := ⟨n - 1, by omega⟩
    have hbound : nCategories < 2 ^ 31 := by
      have hhalf := Nat.mul_le_mul_right chunkSize (show 2 ≤ n + 1 + 1 by omega)
      have hbits : 2 ^ hashbits = 2 * 2 ^ 31 := rfl
      omega
    obtain ⟨words, hwords, hlen, hbelow⟩ := exists_categories hrank.injective hbound.le
    subst hlen
    have ha := List.getElem?_eq_getElem (show words.length - 1 < words.length by omega)
    have hin : ∀ w ∈ window (strayInput words words[words.length - 1] chunkSize (n + 1)) 0
        ((n + 2) * chunkSize), w ∈ words := fun w hw =>
      mem_strayInput (List.mem_of_getElem? ha) hw
    exact not_tallies_stray hrank (by omega) hcut hwords (hreal words hbelow) ha n hfits rfl
      (hall _ (length_window ..) (card_le_length hin) fun w hw => hbelow w (hin w hw))
  · intro hcondition inputs hlength hfew hbelow
    have hchunk : ∀ m < n + 1, 0 < (chunkOf chunkSize (ofList inputs 0) m).toFinset.card ∧
        (chunkOf chunkSize (ofList inputs 0) m).toFinset.card ≤ nCategories := fun m hm =>
      ⟨Finset.card_pos.mpr ⟨_, List.mem_toFinset.mpr (mem_window.mpr ⟨0, hsize, rfl⟩)⟩,
        (card_chunkOf_le hlength hm).trans hfew⟩
    have hpos : nCategories ≠ 0 := fun hzero => by
      have := hchunk 0 (by omega)
      omega
    obtain ⟨hone, htwo, hfits⟩ := hcondition.resolve_left hpos
    refine countsCategories_of_full hrank.injective hcut htwo hfits hlength (hreal inputs hbelow)
      hfew (hone.imp (fun hone => by omega) fun hone m hm => ?_)
    have := hchunk m hm
    omega

end Spec

/-- Two categories in three chunks of two cells: they are counted if both are in every chunk, but
not for all inputs. -/
theorem top1_threeChunks : CountsCategories exampleRank 2 2 [0, 1, 1, 0, 0, 1] ∧
    ¬ ∀ inputs : List Word, inputs.length = 3 * 2 → inputs.toFinset.card ≤ 2 →
      (∀ w ∈ inputs, w.toNat < 2 ^ 31) → CountsCategories exampleRank 2 2 inputs := by
  obtain ⟨hcounts, hall⟩ := top1_iff exampleRank_wordOrder (le_refl 2) (by decide : 0 < 3)
    (by decide : 0 < 2)
  refine ⟨hcounts le_rfl (by decide) _ rfl (by decide) (fun w hw => ?_) (.inr (by decide)),
    fun h => absurd (hall.mp h) (by decide)⟩
  have hword : w = 0 ∨ w = 1 := by
    simp only [List.mem_cons, List.not_mem_nil, or_false] at hw
    tauto
  rcases hword with rfl | rfl <;> decide

/-- Category `0` in both of two chunks, and category `1` in the first one only. -/
theorem top1_missing : ([1, 0, 0, 0] : List Word).toFinset.card ≤ 2 ∧
    (∀ w ∈ ([1, 0, 0, 0] : List Word), w.toNat < 2 ^ 31) ∧
    ¬ CountsCategories exampleRank 2 2 [1, 0, 0, 0] := by
  refine ⟨by decide, fun w hw => ?_, ?_⟩
  · have hword : w = 1 ∨ w = 0 := by simpa using hw
    rcases hword with rfl | rfl <;> decide
  · exact not_tallies_stray (a := 0) exampleRank_wordOrder
      (show 1 < ([1, 0] : List Word).length by decide) le_rfl (by decide) (by decide) rfl 0
      (by decide) rfl

end CoVault.MapReduce.TopOne
