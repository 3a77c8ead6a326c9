import CoVault.MapReduce.Reducer

/-!
# Categories and their frequencies

The list of categories has an array of frequencies beside it. A scan leaves the frequency of a run
of equal categories at its last cell, and compaction moves both arrays alike. What remains of a
list is a word for each run, with the frequencies of the run added up.
-/

namespace CoVault.MapReduce.TopOne

open Library Library.Cells Library.SortNetwork

/-- `list` and `frequency`. -/
structure Table where
  list : Nat → Word
  frequency : Nat → Word

section Model

variable {size : Nat}

/-- A table with the `count` and the last `condition` of a scan. -/
structure Scan extends Table where
  count : Word
  condition : Bool

/-- The frequency of a category is the length of its run. -/
def countCell (s : Scan) (j : Nat) : Scan :=
  let condition := s.list j == s.list (j + 1)
  { list := Function.update s.list j (if condition then noneWord else s.list j)
    frequency := Function.update s.frequency j (if condition then 0 else s.count)
    count := if condition then s.count + 1 else 1
    condition }

/-- The scan of a chunk that has been sorted. -/
def countChunk (size : Nat) (t : Table) : Table :=
  -- with more than one cell the condition is set before it is used
  let s := (List.range (size - 1)).foldl countCell ⟨t, 1, false⟩
  ⟨s.list, Function.update s.frequency (size - 1) (if s.condition then s.count else 1)⟩

/-- The frequency of a category is the sum of those in its run. -/
def addCell (s : Scan) (j : Nat) : Scan :=
  let condition := s.list j == s.list (j + 1)
  let tmpF := s.frequency j
  { list := Function.update s.list j (if condition then noneWord else s.list j)
    frequency := Function.update s.frequency j (if condition then 0 else s.frequency j + s.count)
    count := if condition then tmpF + s.count else 0
    condition }

/-- The scan of two chunks that have been merged. -/
def addChunks (size : Nat) (t : Table) : Table :=
  let s := (List.range (size - 1)).foldl addCell ⟨t, 0, false⟩
  ⟨s.list, Function.update s.frequency (size - 1)
    (if s.condition then s.frequency (size - 1) + s.count else s.frequency (size - 1))⟩

/-- `distance`, `data` and `frequencies`. -/
structure Compacting (size : Nat) where
  distance : Nat → BitVec (nBits size)
  data : Nat → Word
  frequencies : Nat → Word

/-- Obliviously move `data[j]` and `frequencies[j]` by `2^i` or not at all. -/
def compactCell (i : Nat) (s : Compacting size) (j : Nat) : Compacting size :=
  let index := j - 2 ^ i
  let modulo := s.distance j &&& 1
  let newDistance := s.distance j >>> 1
  let move := modulo != 0
  let data := Function.update s.data index (if move then s.data j else s.data index)
  let frequencies := Function.update s.frequencies index
    (if move then s.frequencies j else s.frequencies index)
  let distance := Function.update s.distance index (if move then newDistance else s.distance index)
  let moveMask := BitVec.fill (nBits size) (!move)
  let distance := Function.update distance j (newDistance &&& moveMask)
  let data := Function.update data j (data j &&& moveDataMask move)
  let frequencies := Function.update frequencies j (frequencies j &&& moveDataMask move)
  ⟨distance, Function.update data j (data j ||| highestBit move),
    Function.update frequencies j (frequencies j ||| highestBit move)⟩

def compact (size : Nat) (distance : Nat → BitVec (nBits size)) (data frequencies : Nat → Word) :
    Compacting size :=
  (List.range (nBits size)).foldl
    (fun s i => (List.range' (2 ^ i) (size - 2 ^ i)).foldl (compactCell i) s)
    ⟨distance, data, frequencies⟩

/-- The cells from `first` up to `last` are erased. -/
def erase {α : Type*} (first last : Nat) (f : Nat → α) : Nat → α := fun i =>
  if i < first then f i else f (i + (last - first))

/-- Both arrays are compacted and cut to `n_categories` cells. -/
def compactCut (size nCategories : Nat) (t : Table) : Option Table := do
  let (list, distance) ← computeDistanceMarkDuplicates size t.list
  let s := compact size distance list t.frequency
  some ⟨erase nCategories size s.data, erase nCategories size s.frequencies⟩

end Model

/-! ## Scans -/

section Scans

variable {list frequency weight : Nat → Word} {n size : Nat}

/-- Before cell `n` only the last cells of runs are left, with the weights of their runs. -/
structure Scanned (list frequency weight : Nat → Word) (n : Nat) (t : Table) : Prop where
  done : ∀ k < n, t.list k = (if list k = list (k + 1) then noneWord else list k) ∧
    t.frequency k = if list k = list (k + 1) then 0 else Duplicates.runTotal list weight k
  ahead : ∀ k, n ≤ k → t.list k = list k ∧ t.frequency k = frequency k

theorem Scanned.step {t : Table} (h : Scanned list frequency weight n t) :
    Scanned list frequency weight (n + 1)
      ⟨Function.update t.list n (if list n = list (n + 1) then noneWord else list n),
        Function.update t.frequency n
          (if list n = list (n + 1) then 0 else Duplicates.runTotal list weight n)⟩ := by
  refine ⟨fun k hk => ?_, fun k hk => ?_⟩ <;> dsimp only
  · by_cases hkn : k = n
    · rw [hkn, Function.update_self, Function.update_self]
      exact ⟨rfl, rfl⟩
    · rw [Function.update_of_ne hkn, Function.update_of_ne hkn]
      exact h.done k (by omega)
  · rw [Function.update_of_ne (by omega), Function.update_of_ne (by omega)]
    exact h.ahead k (by omega)

theorem scanned_countCell {s : Scan} (h : Scanned list frequency (fun _ => 1) n s.toTable)
    (hcount : s.count = Duplicates.runTotal list (fun _ => 1) n) :
    Scanned list frequency (fun _ => 1) (n + 1) (countCell s n).toTable ∧
      (countCell s n).count = Duplicates.runTotal list (fun _ => 1) (n + 1) ∧
      ((countCell s n).condition = false → (countCell s n).count = 1) := by
  simp only [countCell, (h.ahead n le_rfl).1, (h.ahead (n + 1) (by omega)).1, beq_iff_eq, hcount]
  refine ⟨h.step, ?_, fun hcondition => if_neg (by simpa using hcondition)⟩
  rw [Duplicates.runTotal]
  simp only [eq_comm]

theorem scanned_addCell {s : Scan} (h : Scanned list frequency frequency n s.toTable)
    (hcount : frequency n + s.count = Duplicates.runTotal list frequency n) :
    Scanned list frequency frequency (n + 1) (addCell s n).toTable ∧
      frequency (n + 1) + (addCell s n).count = Duplicates.runTotal list frequency (n + 1) ∧
      ((addCell s n).condition = false → (addCell s n).count = 0) := by
  simp only [addCell, (h.ahead n le_rfl).1, (h.ahead n le_rfl).2, (h.ahead (n + 1) (by omega)).1,
    beq_iff_eq, hcount]
  refine ⟨h.step, ?_, fun hcondition => if_neg (by simpa using hcondition)⟩
  rw [Duplicates.runTotal]
  by_cases heq : list n = list (n + 1)
  · rw [if_pos heq, if_pos heq.symm, add_comm]
  · rw [if_neg heq, if_neg (Ne.symm heq), add_zero]

/-- The last cell of every run keeps its category and has the weights of the run. -/
structure Tallied (list frequency weight : Nat → Word) (size : Nat) (t : Table) : Prop where
  last : ∀ k < size, Duplicates.IsLast list size k →
    t.list k = list k ∧ t.frequency k = Duplicates.runTotal list weight k
  other : ∀ k < size, ¬ Duplicates.IsLast list size k → t.list k = noneWord
  outside : ∀ k, size ≤ k → t.list k = list k ∧ t.frequency k = frequency k

/-- After the last cell has got its frequency, the scan is complete. -/
theorem Scanned.tallied {t : Table} (hsize : 0 < size)
    (h : Scanned list frequency weight (size - 1) t) {x : Word}
    (hx : x = Duplicates.runTotal list weight (size - 1)) :
    Tallied list frequency weight size ⟨t.list, Function.update t.frequency (size - 1) x⟩ := by
  refine ⟨fun k hk hlast => ?_, fun k hk hlast => ?_, fun k hk => ?_⟩ <;> dsimp only
  · by_cases hend : k = size - 1
    · rw [hend, Function.update_self, hx]
      exact ⟨(h.ahead _ le_rfl).1, rfl⟩
    · have hnext : list k ≠ list (k + 1) := hlast.elim (fun heq => by omega) Ne.symm
      have hdone := h.done k (by omega)
      rw [if_neg hnext, if_neg hnext] at hdone
      rw [Function.update_of_ne hend]
      exact hdone
  · have hnext : list k = list (k + 1) := by
      by_contra hne
      exact hlast (.inr (Ne.symm hne))
    have hend : k + 1 ≠ size := fun heq => hlast (.inl heq)
    rw [(h.done k (by omega)).1, if_pos hnext]
  · rw [Function.update_of_ne (by omega)]
    exact h.ahead k (by omega)

theorem tallied_countChunk (hsize : 0 < size) (t : Table) :
    Tallied t.list t.frequency (fun _ => 1) size (countChunk size t) := by
  have hscan : ∀ n, Scanned t.list t.frequency (fun _ => 1) n
        ((List.range n).foldl countCell ⟨t, 1, false⟩).toTable ∧
      ((List.range n).foldl countCell ⟨t, 1, false⟩).count =
        Duplicates.runTotal t.list (fun _ => 1) n ∧
      (((List.range n).foldl countCell ⟨t, 1, false⟩).condition = false →
        ((List.range n).foldl countCell ⟨t, 1, false⟩).count = 1) := by
    intro n
    induction n with
    | zero => exact ⟨⟨by omega, fun _ _ => ⟨rfl, rfl⟩⟩, rfl, fun _ => rfl⟩
    | succ n ih =>
      rw [List.range_succ, List.foldl_concat]
      exact scanned_countCell ih.1 ih.2.1
  obtain ⟨hscanned, hcount, hfirst⟩ := hscan (size - 1)
  refine hscanned.tallied hsize ?_
  split_ifs with hcondition
  · exact hcount
  · rw [← hcount, hfirst (by simpa using hcondition)]

theorem tallied_addChunks (hsize : 0 < size) (t : Table) :
    Tallied t.list t.frequency t.frequency size (addChunks size t) := by
  have hscan : ∀ n, Scanned t.list t.frequency t.frequency n
        ((List.range n).foldl addCell ⟨t, 0, false⟩).toTable ∧
      t.frequency n + ((List.range n).foldl addCell ⟨t, 0, false⟩).count =
        Duplicates.runTotal t.list t.frequency n ∧
      (((List.range n).foldl addCell ⟨t, 0, false⟩).condition = false →
        ((List.range n).foldl addCell ⟨t, 0, false⟩).count = 0) := by
    intro n
    induction n with
    | zero => exact ⟨⟨by omega, fun _ _ => ⟨rfl, rfl⟩⟩, add_zero _, fun _ => rfl⟩
    | succ n ih =>
      rw [List.range_succ, List.foldl_concat]
      exact scanned_addCell ih.1 ih.2.1
  obtain ⟨hscanned, hcount, hfirst⟩ := hscan (size - 1)
  refine hscanned.tallied hsize ?_
  rw [(hscanned.ahead _ le_rfl).2, ← hcount]
  split_ifs with hcondition
  · rfl
  · rw [hfirst (by simpa using hcondition), add_zero]

end Scans

/-! ## Compaction -/

/-- What cell `j` says; the frequency of null says nothing. -/
def Table.entry (t : Table) (j : Nat) : Word × Word :=
  if t.list j = noneWord then (noneWord, noneWord) else (t.list j, t.frequency j)

/-- Null, whatever frequency stands beside it. -/
def nullEntry : Word × Word := (noneWord, noneWord)

section Compaction

variable {size nCategories : Nat}

theorem Table.entry_fst (t : Table) (j : Nat) : (t.entry j).1 = t.list j := by
  rw [Table.entry]
  split_ifs with hnull
  · exact hnull.symm
  · rfl

theorem Table.entry_eq_null {t : Table} {j : Nat} :
    t.entry j = nullEntry ↔ t.list j = noneWord := by
  refine ⟨fun h => ?_, fun h => if_pos h⟩
  rw [← t.entry_fst, h]
  rfl

theorem Table.entry_of_ne {t : Table} {j : Nat} (h : t.list j ≠ noneWord) :
    t.entry j = (t.list j, t.frequency j) := if_neg h

theorem Table.entry_update (list frequency : Nat → Word) (i : Nat) (x y : Word) :
    Table.entry ⟨Function.update list i x, Function.update frequency i y⟩ =
      Function.update (Table.entry ⟨list, frequency⟩) i
        (if x = noneWord then nullEntry else (x, y)) := by
  funext j
  by_cases hj : j = i
  · rw [hj, Function.update_self, Table.entry]
    simp only [Function.update_self]
    rfl
  · rw [Function.update_of_ne hj, Table.entry]
    simp only [Function.update_of_ne hj]
    rfl

/-- The entries, with distances as numbers. -/
def Compacting.toState (s : Compacting size) : Compaction.State (Word × Word) :=
  ⟨Table.entry ⟨s.data, s.frequencies⟩, BitVec.toNat ∘ s.distance⟩

/-- The circuit moves both arrays as the compaction of the library moves entries. -/
theorem toState_compactCell (i : Nat) (s : Compacting size) (j : Nat) :
    (compactCell i s j).toState = Compaction.move nullEntry i s.toState j := by
  simp only [compactCell, Compaction.and_fill, clear_or_keep, Function.update_self,
    Function.update_idem, Compacting.toState]
  rw [Compaction.move_toNat (w := nBits size) (Nat.succ_pos _)]
  cases s.distance j &&& 1 != 0 with
  | true =>
    simp only [if_true, Table.entry_update]
    rfl
  | false => simp only [Bool.false_eq_true, if_false, Function.update_eq_self]

theorem measured_entry {t : Table} {distance : Nat → Nat}
    (h : Compaction.Measured noneWord t.list size distance) :
    Compaction.Measured nullEntry t.entry size distance := by
  intro p hp
  have hgaps : Compaction.gaps nullEntry t.entry p = Compaction.gaps noneWord t.list p :=
    List.countP_congr fun k _ => by
      rw [decide_eq_true_iff, decide_eq_true_iff, Table.entry_eq_null]
  rw [h p hp, hgaps]
  simp only [Table.entry_eq_null]

theorem computeDistanceMarkDuplicates_outside {list marked : Nat → Word}
    {distance : Nat → BitVec (nBits size)}
    (h : computeDistanceMarkDuplicates size list = some (marked, distance)) {k : Nat}
    (hk : size ≤ k) : marked k = list k := by
  unfold computeDistanceMarkDuplicates at h
  split_ifs at h with hsize
  rw [← (Prod.mk.inj (Option.some.inj h)).1, Function.update_of_ne (by omega)]
  exact (marked_foldl list size le_rfl).ahead k hk

/-- After a scan there is nothing left to mark. -/
theorem Tallied.mark {list frequency weight : Nat → Word} {t : Table}
    (h : Tallied list frequency weight size t) {k : Nat} (hk : k < size) :
    Duplicates.mark noneWord size t.list k = t.list k := by
  rw [Duplicates.mark]
  refine ite_eq_right_iff.mpr fun hsame => ?_
  obtain ⟨hnext, heq⟩ := hsame
  by_cases hlast : Duplicates.IsLast list size k
  · have hne : list (k + 1) ≠ list k := hlast.resolve_left (by omega)
    by_cases hlast' : Duplicates.IsLast list size (k + 1)
    · rw [(h.last k hk hlast).1, (h.last (k + 1) hnext hlast').1] at heq
      exact absurd heq.symm hne
    · rw [heq, h.other (k + 1) hnext hlast']
  · exact (h.other k hk hlast).symm

/-- The entries that are left come first, in their order, and behind the list nothing changes. -/
theorem compactCut_spec {list frequency weight : Nat → Word} {t : Table} (hsize : 2 ≤ size)
    (h : Tallied list frequency weight size t) (nCategories : Nat) :
    ∃ t' entries, compactCut size nCategories t = some t' ∧
      t'.entry = erase nCategories size entries ∧
      window entries 0 size = (window t.entry 0 size).filter (fun x => decide (x ≠ nullEntry)) ++
        List.replicate (Compaction.gaps nullEntry t.entry size) nullEntry ∧
      ∀ k, size ≤ k → entries k = t.entry k := by
  obtain ⟨marked, distance, hmark, hmarked, hmeasured⟩ := computeDistanceMarkDuplicates_spec hsize
    t.list
  obtain rfl : marked = t.list := by
    funext k
    by_cases hk : k < size
    · rw [hmarked k hk, h.mark hk]
    · exact computeDistanceMarkDuplicates_outside hmark (by omega)
  have hstate : (compact size distance t.list t.frequency).toState =
      Compaction.compact nullEntry size (nBits size) ⟨t.entry, BitVec.toNat ∘ distance⟩ :=
    Compaction.compact_of_move _ _ _ toState_compactCell ..
  have hplaced := Compaction.placed_compact (measured_entry hmeasured) (nBits size)
  have hwindow := Compaction.window_compact (measured_entry hmeasured)
    (size_le_two_pow_nBits hsize)
  rw [← hstate] at hplaced hwindow
  have hcut : compactCut size nCategories t = some
      ⟨erase nCategories size (compact size distance t.list t.frequency).data,
        erase nCategories size (compact size distance t.list t.frequency).frequencies⟩ := by
    rw [compactCut, hmark]
    rfl
  refine ⟨_, _, hcut, ?_, hwindow, hplaced.outside⟩
  · funext j
    simp only [Table.entry, erase, Compacting.toState]
    split_ifs <;> rfl

/-- What a scan leaves where equal categories are adjacent: each once, with all its weights. -/
theorem Tallied.entries {list frequency weight : Nat → Word} {t : Table}
    (h : Tallied list frequency weight size t)
    (hadjacent : ∀ w, Duplicates.Adjacent list size w) :
    (window t.entry 0 size).filter (fun x => decide (x ≠ nullEntry)) =
      (Duplicates.unmarked noneWord (window list 0 size)).map fun w =>
        (w, Duplicates.total w (window (fun i => (list i, weight i)) 0 size)) := by
  let entryOf : Word → Word × Word := fun w => if w = noneWord then nullEntry
    else (w, Duplicates.total w (window (fun i => (list i, weight i)) 0 size))
  have hcell : ∀ k < size, t.entry k = entryOf (Duplicates.mark noneWord size list k) := by
    intro k hk
    by_cases hlast : Duplicates.IsLast list size k
    · have hkeep : Duplicates.mark noneWord size list k = list k :=
        if_neg fun hsame => hlast.elim (by omega) fun hne => hne hsame.2.symm
      obtain ⟨hlist, hfrequency⟩ := h.last k hk hlast
      rw [hkeep, Table.entry, hlist, hfrequency,
        Duplicates.runTotal_of_isLast weight hadjacent hk hlast]
      rfl
    · have hgone : Duplicates.mark noneWord size list k = noneWord := by
        refine if_pos ⟨?_, ?_⟩
        · by_contra hend
          exact hlast (.inl (by omega))
        · by_contra hne
          exact hlast (.inr (Ne.symm hne))
      rw [hgone, Table.entry_eq_null.mpr (h.other k hk hlast)]
      exact (if_pos rfl).symm
  have hmap : window t.entry 0 size =
      (Duplicates.markRuns noneWord (window list 0 size)).map entryOf := by
    rw [← Duplicates.window_mark, Nat.zero_add, window, window, List.map_map]
    refine List.map_congr_left fun k hk => ?_
    rw [Function.comp_apply, Nat.zero_add]
    exact hcell k (List.mem_range.mp hk)
  have hreal : ∀ w, (entryOf w ≠ nullEntry) = (w ≠ noneWord) := fun w => by
    by_cases hw : w = noneWord
    · simp [entryOf, hw]
    · simp only [entryOf, hw, if_false, ne_eq, not_false_eq_true, eq_iff_iff, iff_true]
      exact fun heq => hw (Prod.mk.inj heq).1
  rw [hmap, List.filter_map, Duplicates.unmarked]
  simp only [Function.comp_def, hreal]
  refine List.map_congr_left fun w hw => ?_
  exact if_neg (by simpa using (List.mem_filter.mp hw).2)

/-- The cells hold these categories in descending order, each with its frequency, and null
behind them. -/
structure Holds (rank : Word → Nat) (t : Table) (lo n : Nat) (words : List Word)
    (counts : Word → Word) : Prop where
  descending : words.Pairwise fun a b => rank b < rank a
  real : noneWord ∉ words
  cells : window t.entry lo n =
    words.map (fun w => (w, counts w)) ++ List.replicate (n - words.length) nullEntry

theorem Holds.congr {rank : Word → Nat} {t : Table} {lo n : Nat} {words : List Word}
    {counts counts' : Word → Word} (h : Holds rank t lo n words counts)
    (heq : ∀ w ∈ words, counts' w = counts w) : Holds rank t lo n words counts' where
  descending := h.descending
  real := h.real
  cells := by
    rw [h.cells]
    congr 1
    exact List.map_congr_left fun w hw => by rw [heq w hw]

/-- Scanned and cut, a sorted list holds each of its categories with all its weights, if they
fit. -/
theorem compactCut_sorted {rank : Word → Nat} (hinj : Function.Injective rank) (hsize : 2 ≤ size)
    {list frequency weight : Nat → Word} {t : Table} (h : Tallied list frequency weight size t)
    (hsorted : Descending (keys rank list 0) size) (hcut : nCategories ≤ size)
    (hfew : ((window list 0 size).toFinset.erase noneWord).card ≤ nCategories) :
    ∃ t' words, compactCut size nCategories t = some t' ∧
      Holds rank t' 0 nCategories words (fun w =>
        Duplicates.total w (window (fun i => (list i, weight i)) 0 size)) ∧
      (∀ w, w ∈ words ↔ w ≠ noneWord ∧ w ∈ window list 0 size) ∧
      ∀ i, nCategories ≤ i → t'.entry i = t.entry (i + (size - nCategories)) := by
  have hadjacent : ∀ w, Duplicates.Adjacent list size w := by
    intro w i j k hij hjk hk hi hk'
    have hji := hsorted i j hij (by omega)
    have hkj := hsorted j k hjk hk
    simp only [keys, Nat.zero_add, hi, hk'] at hji hkj
    exact hinj (le_antisymm hji hkj)
  obtain ⟨t', entries, hrun, hentry, hwindow, houtside⟩ := compactCut_spec hsize h nCategories
  rw [h.entries hadjacent] at hwindow
  have hmem : ∀ w, w ∈ Duplicates.unmarked noneWord (window list 0 size) ↔
      w ≠ noneWord ∧ w ∈ window list 0 size := fun w => Duplicates.mem_unmarked
  have hdescending : (Duplicates.unmarked noneWord (window list 0 size)).Pairwise
      fun a b => rank b < rank a := by
    refine Duplicates.pairwise_unmarked noneWord (fun a b c hab hbc => hbc.trans hab) ?_
    refine (descending_iff.mp hsorted).imp fun hle => ?_
    rcases Nat.eq_or_lt_of_le hle with heq | hlt
    · exact .inl (hinj heq).symm
    · exact .inr hlt
  generalize Duplicates.unmarked noneWord (window list 0 size) = words at *
  have hreal : noneWord ∉ words := fun hnone => ((hmem _).mp hnone).1 rfl
  have hlength : words.length ≤ nCategories := by
    rw [← List.toFinset_card_of_nodup (nodup_of_descending hdescending)]
    refine (Finset.card_le_card fun w hw => ?_).trans hfew
    rw [List.mem_toFinset, hmem] at hw
    rw [Finset.mem_erase, List.mem_toFinset]
    exact hw
  refine ⟨t', words, hrun, ⟨hdescending, hreal, ?_⟩, hmem, fun i hi => ?_⟩
  · have hfront : window t'.entry 0 nCategories = window entries 0 nCategories := by
      refine window_congr fun i hi => ?_
      rw [hentry, erase, if_pos (by omega)]
    have htotal := congrArg List.length hwindow
    rw [List.length_append, List.length_replicate, List.length_map, length_window] at htotal
    have hsplit : window entries 0 size =
        window entries 0 nCategories ++ window entries (0 + nCategories) (size - nCategories) := by
      rw [← window_append, Nat.add_sub_cancel' hcut]
    have hnulls : Compaction.gaps nullEntry t.entry size =
        nCategories - words.length + (size - nCategories) := by omega
    rw [hfront]
    rw [hsplit, hnulls, List.replicate_add, ← List.append_assoc] at hwindow
    refine (List.append_inj hwindow ?_).1
    simp only [length_window, List.length_append, List.length_map, List.length_replicate]
    omega
  · rw [hentry, erase, if_neg (by omega), houtside _ (by omega)]

end Compaction

end CoVault.MapReduce.TopOne
