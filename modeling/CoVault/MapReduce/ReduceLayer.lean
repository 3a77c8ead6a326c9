import Mathlib
import CoVault.MapReduce.Reducer

/-!
# The reduce layers of the unique-device query

A process puts the list of another one, which arrives in reverse order, behind its own and
merges both. An ascending list before a descending one is what a merge network sorts if the
number of cells is a power of two; it is the wrong way round for the other sizes,
unless one of both lists is empty.
-/

namespace CoVault.MapReduce

open Circuit Library Library.Cells Library.SortNetwork

/-- The bytes of the shared memory segment. -/
def segmentSize : Nat := 655360

/-- `sizeof(emp::block)`. -/
def blockSize : Nat := 16

/-- `sender` and then `receiver`; `fits` says whether a vector of so many bytes can be allocated
in the segment. Otherwise the receiver waits for ever. -/
def sendReceive (fits : Nat → Bool) (beyond : Nat → Bool) (list : List Word) :
    Option (List Word) :=
  if fits (list.length * hashbits * blockSize) then
    some ((receiver (sender beyond (list.map bitsOf)) list.length).map (ofBits hashbits))
  else none

section Model

variable (rank : Word → Nat) (fits beyond : Nat → Bool) (outputSize : Nat)

/-- One layer at a process that receives, with the `lists` of the process that sends. -/
def reduceLayer (self other : Nat → Word) : Option (Nat → Word) := do
  let received ← sendReceive fits beyond (window other 0 outputSize)
  let lists := place outputSize received self
  markAndCompact (2 * outputSize) (merge (cmpSwap rank true) 0 (2 * outputSize) lists)

/-- A process after some layers, with all that has reached it. -/
inductive ReduceTree where
  | leaf (lists : Nat → Word)
  | node (self other : ReduceTree)

def ReduceTree.run : ReduceTree → Option (Nat → Word)
  | leaf lists => some lists
  | node self other => do
    let selfLists ← self.run
    let otherLists ← other.run
    reduceLayer rank fits beyond outputSize selfLists otherLists

end Model

/-! ## What the layers are for -/

/-- The different fingerprints of the leaves. -/
def ReduceTree.union (outputSize : Nat) : ReduceTree → Finset Word
  | leaf lists => (window lists 0 outputSize).toFinset.erase noneWord
  | node self other => self.union outputSize ∪ other.union outputSize

/-- All that is sent on or merged fits in `output_size` cells. -/
def ReduceTree.Fits (outputSize : Nat) : ReduceTree → Prop
  | leaf _ => True
  | node self other => self.Fits outputSize ∧ other.Fits outputSize ∧
      (self.union outputSize).card ≤ outputSize ∧ (other.union outputSize).card ≤ outputSize

/-- The cells of a process that hold its list. -/
def ReduceTree.size (outputSize : Nat) : ReduceTree → Nat
  | leaf _ => outputSize
  | node .. => 2 * outputSize

/-- The leaves hold ascending lists without duplicates. -/
def ReduceTree.Started (rank : Word → Nat) (outputSize : Nat) : ReduceTree → Prop
  | leaf lists => ∃ words, HoldsSet rank lists outputSize words
  | node self other => self.Started rank outputSize ∧ other.Started rank outputSize

/-- At every node one of the two lists is empty. -/
def ReduceTree.OneSided (outputSize : Nat) : ReduceTree → Prop
  | leaf _ => True
  | node self other => self.OneSided outputSize ∧ other.OneSided outputSize ∧
      (self.union outputSize = ∅ ∨ other.union outputSize = ∅)

/-- The layer makes these two lists one. -/
def Unites (rank : Word → Nat) (fits beyond : Nat → Bool) (outputSize : Nat)
    (self other : Nat → Word) (selfWords otherWords : List Word) : Prop :=
  ∃ lists words, reduceLayer rank fits beyond outputSize self other = some lists ∧
    HoldsSet rank lists (2 * outputSize) words ∧
    ∀ w, w ∈ words ↔ w ∈ selfWords ∨ w ∈ otherWords

/-- The layers unite the leaves of this tree. -/
def ReduceTree.Unites (rank : Word → Nat) (fits beyond : Nat → Bool) (outputSize : Nat)
    (tree : ReduceTree) : Prop :=
  ∃ lists words, tree.run rank fits beyond outputSize = some lists ∧
    HoldsSet rank lists (tree.size outputSize) words ∧ words.toFinset = tree.union outputSize

/-- A layer unites two lists. -/
def LayerUnites (rank : Word → Nat) (fits : Nat → Bool) (outputSize : Nat) : Prop :=
  ∀ beyond self other selfWords otherWords, HoldsSet rank self outputSize selfWords →
    HoldsSet rank other outputSize otherWords →
    Unites rank fits beyond outputSize self other selfWords otherWords

/-- Any number of layers unites the leaves. -/
def TreeUnites (rank : Word → Nat) (fits : Nat → Bool) (outputSize : Nat) : Prop :=
  ∀ beyond (tree : ReduceTree), tree.Started rank outputSize → tree.Fits outputSize →
    tree.Unites rank fits beyond outputSize

/-! ## When they do -/

section Spec

variable {rank : Word → Nat} {fits beyond : Nat → Bool} {outputSize : Nat}

theorem sendReceive_eq (list : List Word) (hfits : fits (list.length * hashbits * blockSize) = true) :
    sendReceive fits beyond list = some list.reverse := by
  have htransport := Channel.transport_eq beyond .sharedMemory (list.map bitsOf)
  rw [Channel.transport, List.length_map] at htransport
  rw [sendReceive, if_pos hfits, htransport, List.map_map, ← List.map_reverse, List.map_map]
  congr 1
  refine (List.map_congr_left fun w _ => ?_).trans (List.map_id _)
  simp [sentWord_of_length]

/-- The list of a process and that of another one, reversed. -/
def joined (outputSize : Nat) (self other : Nat → Word) : Nat → Word :=
  place outputSize (window other 0 outputSize).reverse self

theorem reduceLayer_eq (self other : Nat → Word)
    (hfits : fits (outputSize * hashbits * blockSize) = true) :
    reduceLayer rank fits beyond outputSize self other = markAndCompact (2 * outputSize)
      (merge (cmpSwap rank true) 0 (2 * outputSize) (joined outputSize self other)) := by
  rw [reduceLayer, sendReceive_eq _ (by rwa [length_window])]
  rfl

theorem window_joined (outputSize : Nat) (self other : Nat → Word) :
    window (joined outputSize self other) 0 (2 * outputSize) =
      window self 0 outputSize ++ (window other 0 outputSize).reverse := by
  have hback := window_place outputSize (window other 0 outputSize).reverse self
  rw [List.length_reverse, length_window] at hback
  rw [Nat.two_mul, window_append, Nat.zero_add, joined, hback, window_place_before le_rfl]

theorem joined_front (self other : Nat → Word) {i : Nat} (hi : i < outputSize) :
    joined outputSize self other i = self i := by
  rw [joined, place, if_neg (by omega)]

theorem joined_back (self other : Nat → Word) {i : Nat} (hi : outputSize ≤ i)
    (hlt : i < 2 * outputSize) :
    joined outputSize self other i = other (2 * outputSize - 1 - i) := by
  rw [joined, place, if_pos (by rw [List.length_reverse, length_window]; omega),
    List.getD_eq_getElem?_getD, List.getElem?_eq_getElem (by
      rw [List.length_reverse, length_window]; omega), Option.getD_some, List.getElem_reverse,
    getElem_window, length_window]
  congr 1
  omega

/-- The merge of a power of two of cells sorts both lists. -/
theorem joined_bitonic (hrank : WordOrder rank) {self other : Nat → Word}
    {selfWords otherWords : List Word} (hself : HoldsSet rank self outputSize selfWords)
    (hother : HoldsSet rank other outputSize otherWords) :
    Bitonic (keys rank (joined outputSize self other) 0) (2 * outputSize) := by
  have hwindow := window_joined outputSize self other
  rw [Nat.two_mul, window_append, Nat.zero_add] at hwindow
  obtain ⟨hfirst, hsecond⟩ := List.append_inj hwindow (by simp)
  refine bitonic_of_ascending_descending (m := outputSize) ?_ ?_
  · rw [ascending_iff, hfirst]
    exact hself.window_ascending hrank
  · have hdescending :
        Descending (keys rank (joined outputSize self other) outputSize) outputSize := by
      rw [descending_iff, hsecond, List.pairwise_reverse]
      exact hother.window_ascending hrank
    intro i j hij hj
    simpa [keys] using hdescending i j hij (by omega)

/-- If one of both lists is empty, all cells ascend, or all descend. -/
theorem joined_valley (hrank : WordOrder rank) {self other : Nat → Word}
    {selfWords otherWords : List Word} (hself : HoldsSet rank self outputSize selfWords)
    (hother : HoldsSet rank other outputSize otherWords)
    (hempty : selfWords = [] ∨ otherWords = []) :
    Valley (keys rank (joined outputSize self other) 0) (2 * outputSize) := by
  have hwindow := window_joined outputSize self other
  have hlast : ∀ w, rank w ≤ rank noneWord := hrank.none_greatest
  rcases hempty with rfl | rfl
  · refine Descending.valley (descending_iff.mpr ?_)
    rw [hwindow, hself.cells, List.nil_append, List.pairwise_append, List.pairwise_reverse]
    refine ⟨List.pairwise_replicate.mpr (.inr le_rfl), hother.window_ascending hrank,
      fun v hv w _ => ?_⟩
    rw [List.eq_of_mem_replicate hv]
    exact hlast w
  · refine Ascending.valley (ascending_iff.mpr ?_)
    rw [hwindow, hother.cells, List.nil_append, List.reverse_replicate, List.pairwise_append]
    refine ⟨hself.window_ascending hrank, List.pairwise_replicate.mpr (.inr le_rfl),
      fun v _ w hw => ?_⟩
    rw [List.eq_of_mem_replicate hw]
    exact hlast v

/-- A layer whose merge sorts unites its lists. -/
theorem unites_of_ascending (hrank : WordOrder rank) (hpos : 0 < outputSize)
    (hfits : fits (outputSize * hashbits * blockSize) = true) {self other : Nat → Word}
    {selfWords otherWords : List Word} (hself : HoldsSet rank self outputSize selfWords)
    (hother : HoldsSet rank other outputSize otherWords)
    (hsorted : Ascending (keys rank (merge (cmpSwap rank true) 0 (2 * outputSize)
      (joined outputSize self other)) 0) (2 * outputSize)) :
    Unites rank fits beyond outputSize self other selfWords otherWords := by
  have hperm := (merge_rearranged (cmpSwap_twoWay rank).up.exchanging 0 (2 * outputSize)
    (joined outputSize self other)).perm
  obtain ⟨lists, words, hlists, hholds, hmem⟩ :=
    markAndCompact_sorted hrank (by omega) (ascending_iff.mp hsorted)
  refine ⟨lists, words, by rw [reduceLayer_eq self other hfits, hlists], hholds, fun w => ?_⟩
  rw [hmem, hperm.mem_iff, window_joined, List.mem_append, List.mem_reverse, and_or_left,
    ← hself.mem_iff, ← hother.mem_iff]

theorem unites_of_empty (hrank : WordOrder rank) (hpos : 0 < outputSize)
    (hfits : fits (outputSize * hashbits * blockSize) = true) {self other : Nat → Word}
    {selfWords otherWords : List Word} (hself : HoldsSet rank self outputSize selfWords)
    (hother : HoldsSet rank other outputSize otherWords)
    (hempty : selfWords = [] ∨ otherWords = []) :
    Unites rank fits beyond outputSize self other selfWords otherWords :=
  unites_of_ascending hrank hpos hfits hself hother
    (merge_ascending_of_valley (cmpSwap_twoWay rank).up _ 0 _
      (joined_valley hrank hself hother hempty))

theorem layerUnites_of_two_pow (hrank : WordOrder rank) {k : Nat} (hsize : outputSize = 2 ^ k)
    (hfits : fits (outputSize * hashbits * blockSize) = true) :
    LayerUnites rank fits outputSize := by
  intro beyond self other selfWords otherWords hself hother
  have hpow : 2 * outputSize = 2 ^ (k + 1) := by rw [hsize, pow_succ, Nat.mul_comm]
  have hbitonic := joined_bitonic hrank hself hother
  rw [hpow] at hbitonic
  have hsorted := merge_ascending_of_bitonic (cmpSwap_twoWay rank).up (k + 1) 0 _ hbitonic
  rw [← hpow] at hsorted
  exact unites_of_ascending hrank (hsize ▸ Nat.two_pow_pos k) hfits hself hother hsorted

theorem HoldsSet.nodup {cells : Nat → Word} {words : List Word} {size : Nat}
    (h : HoldsSet rank cells size words) : words.Nodup :=
  h.ascending.imp fun hlt heq => by simp [heq] at hlt

theorem HoldsSet.count_le_one {cells : Nat → Word} {words : List Word} {size : Nat}
    (h : HoldsSet rank cells size words) {w : Word} (hw : w ≠ noneWord) :
    (window cells 0 size).count w ≤ 1 := by
  have hone := List.nodup_iff_count_le_one.mp h.nodup w
  rw [h.cells, List.count_append, List.count_replicate, if_neg (by simpa using hw.symm)]
  exact hone

/-- One node, if the layer unites what both sides leave. -/
theorem ReduceTree.Unites.node {self other : ReduceTree}
    (hself : self.Unites rank fits beyond outputSize)
    (hother : other.Unites rank fits beyond outputSize)
    (hcard : (self.union outputSize).card ≤ outputSize)
    (hcard' : (other.union outputSize).card ≤ outputSize)
    (h : ∀ lists lists' words words', HoldsSet rank lists outputSize words →
      HoldsSet rank lists' outputSize words' → words.toFinset = self.union outputSize →
      words'.toFinset = other.union outputSize →
      MapReduce.Unites rank fits beyond outputSize lists lists' words words') :
    (ReduceTree.node self other).Unites rank fits beyond outputSize := by
  obtain ⟨lists, words, hrun, hholds, hunion⟩ := hself
  obtain ⟨lists', words', hrun', hholds', hunion'⟩ := hother
  rw [← hunion, List.toFinset_card_of_nodup hholds.nodup] at hcard
  rw [← hunion', List.toFinset_card_of_nodup hholds'.nodup] at hcard'
  have hsize : ∀ tree : ReduceTree, outputSize ≤ tree.size outputSize := fun tree => by
    cases tree <;> simp only [ReduceTree.size] <;> omega
  obtain ⟨result, all, hlayer, hall, hmem⟩ := h lists lists' words words'
    ⟨hholds.ascending, hholds.real, window_first hholds.cells hcard (hsize self)⟩
    ⟨hholds'.ascending, hholds'.real, window_first hholds'.cells hcard' (hsize other)⟩
    hunion hunion'
  refine ⟨result, all, ?_, hall, ?_⟩
  · rw [ReduceTree.run, hrun, hrun']
    exact hlayer
  · ext w
    rw [ReduceTree.union, ← hunion, ← hunion', Finset.mem_union, List.mem_toFinset,
      List.mem_toFinset, List.mem_toFinset, hmem]

theorem unites_leaf {lists : Nat → Word}
    (hstarted : (ReduceTree.leaf lists).Started rank outputSize) :
    (ReduceTree.leaf lists).Unites rank fits beyond outputSize := by
  obtain ⟨words, hwords⟩ := hstarted
  refine ⟨lists, words, rfl, hwords, ?_⟩
  ext w
  rw [List.mem_toFinset, hwords.mem_iff, ReduceTree.union, Finset.mem_erase, List.mem_toFinset]

/-- The union that a layer needs is there if the layers unite two lists at a time. -/
theorem treeUnites_of_layerUnites (h : LayerUnites rank fits outputSize) :
    TreeUnites rank fits outputSize := by
  intro beyond tree hstarted htree
  induction tree with
  | leaf lists => exact unites_leaf hstarted
  | node self other ihSelf ihOther =>
    obtain ⟨hself, hother, hcard, hcard'⟩ := htree
    exact (ihSelf hstarted.1 hself).node (ihOther hstarted.2 hother) hcard hcard'
      fun lists lists' words words' hwords hwords' _ _ =>
        h beyond lists lists' words words' hwords hwords'

/-- A tree in which nothing meets is handed on from one side. -/
theorem unites_of_oneSided (hrank : WordOrder rank) (hpos : 0 < outputSize)
    (hfits : fits (outputSize * hashbits * blockSize) = true) {tree : ReduceTree}
    (hstarted : tree.Started rank outputSize) (htree : tree.Fits outputSize)
    (hsides : tree.OneSided outputSize) : tree.Unites rank fits beyond outputSize := by
  induction tree with
  | leaf lists => exact unites_leaf hstarted
  | node self other ihSelf ihOther =>
    obtain ⟨hself, hother, hcard, hcard'⟩ := htree
    obtain ⟨hone, hone', hempty⟩ := hsides
    refine (ihSelf hstarted.1 hself hone).node (ihOther hstarted.2 hother hone') hcard hcard'
      fun lists lists' words words' hwords hwords' hunion hunion' => ?_
    rw [← hunion, ← hunion', List.toFinset_eq_empty_iff, List.toFinset_eq_empty_iff] at hempty
    exact unites_of_empty hrank hpos hfits hwords hwords' hempty

/-! ## When they do not -/

/-- Cells that hold a list. -/
def cellsOf (l : List Word) : Nat → Word := ofList l noneWord

theorem cellsOf_of_length_le {l : List Word} {i : Nat} (h : l.length ≤ i) :
    cellsOf l i = noneWord := by
  rw [cellsOf, ofList, List.getD_eq_getElem?_getD, List.getElem?_eq_none h, Option.getD_none]

theorem cellsOf_holds {l : List Word} (hl : l.Pairwise fun a b => rank a < rank b)
    (hreal : noneWord ∉ l) {size : Nat} (hsize : l.length ≤ size) :
    HoldsSet rank (cellsOf l) size l := by
  refine ⟨hl, hreal, ?_⟩
  rw [show size = l.length + (size - l.length) by omega, window_append, cellsOf, window_ofList]
  congr 1
  refine List.eq_replicate_iff.mpr ⟨by simp, fun w hw => ?_⟩
  obtain ⟨i, hi, rfl⟩ := mem_window.mp hw
  simp [ofList]

/-- A list that fills its cells, and one word behind it: what the lower part of a split gets. -/
theorem joined_again_front {l : List Word} (hlength : l.length = outputSize) (w : Word) {i : Nat}
    (hi : i < 2 * outputSize - 1) :
    joined outputSize (cellsOf l) (cellsOf [w]) i = cellsOf l i := by
  by_cases hupper : outputSize ≤ i
  · rw [joined_back _ _ hupper (by omega), cellsOf_of_length_le (by simp; omega),
      cellsOf_of_length_le (by omega)]
  · exact joined_front _ _ (by omega)

/-- What the upper part of a split gets: the word in the last cell, and none before it. -/
theorem joined_again_back (l : List Word) (w : Word) {i m : Nat} (hm : outputSize ≤ m)
    (hi : i < 2 * outputSize - m) : joined outputSize (cellsOf l) (cellsOf [w]) (i + m) =
      if i = 2 * outputSize - m - 1 then w else noneWord := by
  rw [joined_back _ _ (by omega) (by omega)]
  split_ifs with hlast
  · rw [show 2 * outputSize - 1 - (i + m) = 0 by omega]
    rfl
  · exact cellsOf_of_length_le (by simp; omega)

/-- If the word stands where the last cell of the upper part is compared, the first layer leaves
the lower part as it is. -/
theorem keys_layer_again (hrank : WordOrder rank) {l : List Word}
    (hlength : l.length = outputSize) {w : Word} {m : Nat} (hm : outputSize < m)
    (hm' : m < 2 * outputSize) (hw : l[2 * outputSize - m - 1]? = some w) {i : Nat} (hi : i < m) :
    keys rank (layer (cmpSwap rank true) 0 m (2 * outputSize - m)
      (joined outputSize (cellsOf l) (cellsOf [w]))) 0 i = keys rank (cellsOf l) 0 i := by
  have hcell : cellsOf l (2 * outputSize - m - 1) = w := by
    rw [cellsOf, ofList, List.getD_eq_getElem?_getD, hw, Option.getD_some]
  rw [keys_layer_low (cmpSwap_twoWay rank).up (by omega) hi]
  simp only [keys, Nat.zero_add, joined_again_front hlength w (i := i) (by omega)]
  split_ifs with hir
  · rw [joined_again_back l w hm.le hir]
    split_ifs with hlast
    · rw [hlast, hcell, min_self]
    · exact min_eq_left (hrank.none_greatest _)
  · rfl

/-- For a number of cells that is not a power of two, take a list that fills its cells and send
it the word again that stands where the last cell of the upper part is compared. -/
theorem reduceLayer_repeats (hrank : WordOrder rank)
    (hfits : fits (outputSize * hashbits * blockSize) = true)
    (hsplit : outputSize < greatestPowerBelow (2 * outputSize)) {l : List Word}
    (hlength : l.length = outputSize) (hl : l.Pairwise fun a b => rank a < rank b)
    (hreal : noneWord ∉ l) {w : Word}
    (hw : l[2 * outputSize - greatestPowerBelow (2 * outputSize) - 1]? = some w) :
    ∃ lists, reduceLayer rank fits beyond outputSize (cellsOf l) (cellsOf [w]) = some lists ∧
      2 ≤ (window lists 0 (2 * outputSize)).count w := by
  rw [reduceLayer_eq _ _ hfits]
  obtain ⟨hindex, hget⟩ := List.getElem?_eq_some_iff.mp hw
  have hone : 1 < 2 * outputSize := by omega
  have hlt := greatestPowerBelow_lt hone
  have hle := le_two_mul_greatestPowerBelow (2 * outputSize)
  have hc := (cmpSwap_twoWay rank).up
  have hwreal : w ≠ noneWord := fun heq => hreal (heq ▸ hget ▸ List.getElem_mem hindex)
  suffices happart : Apart (keys rank (merge (cmpSwap rank true) 0 (2 * outputSize)
      (joined outputSize (cellsOf l) (cellsOf [w]))) 0) (2 * outputSize) (rank w) by
    obtain ⟨lists, words, hlists, -, hwindow, hcount⟩ :=
      two_le_count_of_merge_apart hrank hone hwreal happart
    refine ⟨lists, hlists, ?_⟩
    rw [hwindow, List.count_append]
    exact Nat.le_add_right_of_le hcount
  have hcell : cellsOf l (2 * outputSize - greatestPowerBelow (2 * outputSize) - 1) = w := by
    rw [cellsOf, ofList, List.getD_eq_getElem?_getD, hw, Option.getD_some]
  have hlow : ∀ i < greatestPowerBelow (2 * outputSize), _ = keys rank (cellsOf l) 0 i :=
    fun i hi => keys_layer_again hrank hlength hsplit hlt hw hi
  have hgreater : rank w < rank (cellsOf l (outputSize - 1)) := by
    have hlast : outputSize - 1 < l.length := by omega
    have hpair := List.pairwise_iff_getElem.mp hl _ _ hindex hlast (by omega)
    rwa [hget, ← Option.getD_some (a := l[outputSize - 1]) (b := noneWord),
      ← List.getElem?_eq_getElem hlast, ← List.getD_eq_getElem?_getD] at hpair
  refine merge_apart hc hone rfl ?_
    ⟨2 * outputSize - greatestPowerBelow (2 * outputSize) - 1, by omega, ?_⟩
    ⟨outputSize - 1, by omega, ?_⟩
    ⟨2 * outputSize - greatestPowerBelow (2 * outputSize) - 1, by omega, ?_⟩
  · have hsorted := (cellsOf_holds hl hreal (hlength.trans_le hsplit.le)).window_ascending hrank
    exact (ascending_iff.mpr hsorted).valley.bitonic.congr hlow
  · rw [hlow _ (by omega), keys, Nat.zero_add, hcell]
  · rw [hlow _ (by omega), keys, Nat.zero_add]
    exact hgreater
  · rw [keys_layer_high hc (by omega) (by omega)]
    simp only [keys, Nat.zero_add]
    rw [joined_again_back l w hsplit.le (by omega), if_pos rfl,
      joined_again_front hlength w (by omega), hcell, max_self]

/-- If one of both lists is empty, a layer unites them in any number of cells, and so do the layers
of a tree with such nodes only. The layers unite all their lists if and only if `output_size` is
a power of two. A list of that size has to fit in the segment. -/
theorem reduce_iff (hrank : WordOrder rank) (hsegment : ∀ n, fits n = true → n ≤ segmentSize) :
    (0 < outputSize → fits (outputSize * hashbits * blockSize) = true → ∀ beyond,
      (∀ self other selfWords otherWords, HoldsSet rank self outputSize selfWords →
        HoldsSet rank other outputSize otherWords → selfWords = [] ∨ otherWords = [] →
        Unites rank fits beyond outputSize self other selfWords otherWords) ∧
      ∀ tree : ReduceTree, tree.Started rank outputSize → tree.Fits outputSize →
        tree.OneSided outputSize → tree.Unites rank fits beyond outputSize) ∧
    (LayerUnites rank fits outputSize ∧ TreeUnites rank fits outputSize ↔
      (∃ k, outputSize = 2 ^ k) ∧ fits (outputSize * hashbits * blockSize) = true) := by
  refine ⟨fun hpos hfits beyond => ⟨fun _ _ _ _ hself hother hempty =>
    unites_of_empty hrank hpos hfits hself hother hempty, fun tree hstarted htree hsides =>
      unites_of_oneSided hrank hpos hfits hstarted htree hsides⟩, ?_⟩
  constructor
  · rintro ⟨h, -⟩
    have hfits : fits (outputSize * hashbits * blockSize) = true := by
      have hempty : HoldsSet rank (cellsOf []) outputSize [] := cellsOf_holds .nil (by simp) (by simp)
      obtain ⟨lists, words, hlayer, -⟩ := h (fun _ => false) _ _ _ _ hempty hempty
      by_contra hfits
      simp [reduceLayer, sendReceive, hfits] at hlayer
    refine ⟨?_, hfits⟩
    by_contra hpow
    have hbound := hsegment _ hfits
    simp only [hashbits, blockSize, segmentSize] at hbound
    have hle := le_two_mul_greatestPowerBelow (2 * outputSize)
    have hsplit : outputSize < greatestPowerBelow (2 * outputSize) := by
      refine lt_of_le_of_ne (by omega) fun heq => hpow ⟨Nat.log 2 (2 * outputSize - 1), heq⟩
    obtain ⟨l, hlength, hl, hreal⟩ := exists_ascending hrank (show outputSize ≤ 2 ^ 31 by omega)
    have hself := cellsOf_holds hl hreal hlength.le
    by_cases hzero : outputSize = 0
    · -- an empty list is read outside its bounds
      obtain ⟨lists, words, hlayer, -⟩ := h (fun _ => false) _ _ _ _ hself hself
      rw [reduceLayer_eq _ _ hfits, hzero] at hlayer
      simp [markAndCompact, computeDistanceMarkDuplicates] at hlayer
    · have hlt := greatestPowerBelow_lt (show 1 < 2 * outputSize by omega)
      have hindex : 2 * outputSize - greatestPowerBelow (2 * outputSize) - 1 < l.length := by omega
      obtain ⟨w, hw⟩ : ∃ w, l[2 * outputSize - greatestPowerBelow (2 * outputSize) - 1]? = some w :=
        ⟨_, List.getElem?_eq_getElem hindex⟩
      have hwmem : w ∈ l := List.mem_of_getElem? hw
      have hwreal : w ≠ noneWord := fun heq => hreal (heq ▸ hwmem)
      have hother : HoldsSet rank (cellsOf [w]) outputSize [w] :=
        cellsOf_holds (List.pairwise_singleton ..) (by simpa using hwreal.symm) (by simp; omega)
      obtain ⟨lists, words, hlayer, hholds, -⟩ := h (fun _ => false) _ _ _ _ hself hother
      obtain ⟨lists', hlayer', hcount⟩ := reduceLayer_repeats hrank hfits hsplit hlength hl hreal hw
      obtain rfl := Option.some.inj (hlayer.symm.trans hlayer')
      have := hholds.count_le_one hwreal
      omega
  · rintro ⟨⟨k, hsize⟩, hfits⟩
    have hlayer := layerUnites_of_two_pow hrank hsize hfits
    exact ⟨hlayer, treeUnites_of_layerUnites hlayer⟩

end Spec

/-! ## Three and four cells -/

/-- A segment of which everything can be allocated. -/
def wholeSegment (bytes : Nat) : Bool := decide (bytes ≤ segmentSize)

/-- Three cells are enough if the other list is empty. -/
theorem fourCells_unite :
    (LayerUnites exampleRank wholeSegment 4 ∧ TreeUnites exampleRank wholeSegment 4) ∧
    Unites exampleRank wholeSegment (fun _ => false) 3 (cellsOf [1, 2, 3]) (cellsOf []) [1, 2, 3]
      [] :=
  have hsegment : ∀ n, wholeSegment n = true → n ≤ segmentSize := fun _ h => of_decide_eq_true h
  ⟨(reduce_iff exampleRank_wordOrder hsegment).2.mpr ⟨⟨2, rfl⟩, by decide⟩,
    ((reduce_iff exampleRank_wordOrder hsegment).1 (by decide) (by decide) _).1 _ _ _ _
      (cellsOf_holds (by decide) (by decide) (by decide))
      (cellsOf_holds (by decide) (by decide) (by decide)) (.inr rfl)⟩

/-- The lists `1, 2, 3` and `2` in three cells each: `2` stays twice. -/
theorem threeCells_do_not_unite :
    HoldsSet exampleRank (cellsOf [1, 2, 3]) 3 [1, 2, 3] ∧
    HoldsSet exampleRank (cellsOf [2]) 3 [2] ∧
    ¬ ∃ lists words, reduceLayer exampleRank wholeSegment (fun _ => false) 3 (cellsOf [1, 2, 3])
        (cellsOf [2]) = some lists ∧ HoldsSet exampleRank lists 6 words ∧
      ∀ w, w ∈ words ↔ w ∈ [1, 2, 3] ∨ w ∈ [2] := by
  refine ⟨cellsOf_holds (by decide) (by decide) (by decide),
    cellsOf_holds (by decide) (by decide) (by decide), ?_⟩
  rintro ⟨lists, words, hlayer, hholds, -⟩
  have hfits : wholeSegment (3 * hashbits * blockSize) = true := by decide
  have hlength : ([1, 2, 3] : List Word).length = 3 := rfl
  obtain ⟨lists', hlayer', hcount⟩ := reduceLayer_repeats exampleRank_wordOrder hfits (by decide)
    hlength (by decide) (by decide) (w := 2) (by decide)
  obtain rfl := Option.some.inj (hlayer.symm.trans hlayer')
  exact absurd (hcount.trans (hholds.count_le_one (by decide))) (by decide)

end CoVault.MapReduce
