import CoVault.Library.Compaction
import CoVault.Library.Duplicates
import CoVault.Library.MergeLimits
import CoVault.MapReduce.Query

/-!
# Lists of fingerprints without duplicates

Duplicates in a sorted list become none, and compaction moves the others to the front. Both
work with distances of as many bits as the last index has. Nothing is known about the order in
which the circuit library sorts words but that none is the greatest; `rank` stands for it.
-/

namespace CoVault.MapReduce

open Library Library.Cells Library.SortNetwork

/-- A fingerprint or none. -/
abbrev Word := BitVec hashbits

/-- `Integer(hashbits, -2147483648)`. -/
def noneWord : Word := BitVec.ofInt hashbits (-2147483648)

/-- `floor(log2(size - 1)) + 1`. -/
def nBits (size : Nat) : Nat := Nat.log 2 (size - 1) + 1

/-- The list is written into the cells from `offset` on. -/
def place (offset : Nat) (l : List Word) (cells : Nat → Word) : Nat → Word := fun i =>
  if offset ≤ i ∧ i < offset + l.length then l.getD (i - offset) 0 else cells i

/-! ## Sorting -/

/-- One step of the network: swap if `(key[i] > key[j]) == acc`. -/
def cmpSwap (rank : Word → Nat) (acc : Bool) (i j : Nat) (f : Nat → Word) : Nat → Word :=
  if decide (rank (f j) < rank (f i)) == acc then exchange f i j else f

/-- Words are totally ordered and none is the greatest. -/
structure WordOrder (rank : Word → Nat) : Prop where
  injective : Function.Injective rank
  none_greatest : ∀ w, rank w ≤ rank noneWord

/-! ## Marking and compaction -/

section Model

variable {size : Nat}

/-- `list`, `distance` and `count_none`. -/
structure Marking (size : Nat) where
  list : Nat → Word
  distance : Nat → BitVec (nBits size)
  countNone : BitVec (nBits size)

def markCell (s : Marking size) (i : Nat) : Marking size :=
  let list := if i < size - 1 then
    Function.update s.list i (if s.list i == s.list (i + 1) then noneWord else s.list i) else s.list
  let condition := list i == noneWord
  ⟨list, Function.update s.distance i (if condition then 0 else s.countNone),
    s.countNone + if condition then 1 else 0⟩

/-- The list with duplicates marked and the distances; a list of fewer than two cells is read
outside its bounds. -/
def computeDistanceMarkDuplicates (size : Nat) (list : Nat → Word) :
    Option ((Nat → Word) × (Nat → BitVec (nBits size))) :=
  if size < 2 then none
  else
    let s := (List.range size).foldl markCell (⟨list, fun _ => 0, 0⟩ : Marking size)
    some (Function.update s.list (size - 1)
      (if s.list (size - 1) == s.list (size - 2) then noneWord else s.list (size - 1)), s.distance)

/-- `distance` and `data`. -/
structure Compacting (size : Nat) where
  distance : Nat → BitVec (nBits size)
  data : Nat → Word

/-- `move_data_mask`: the highest bit stays set. -/
def moveDataMask (move : Bool) : Word := BitVec.cons true (BitVec.fill 31 (!move))

/-- What the highest bit is combined with in the end. -/
def highestBit (move : Bool) : Word := BitVec.cons move (0 : BitVec 31)

/-- Obliviously move `data[j]` by `2^i` or not at all. -/
def compactCell (i : Nat) (s : Compacting size) (j : Nat) : Compacting size :=
  let index := j - 2 ^ i
  let modulo := s.distance j &&& 1
  let newDistance := s.distance j >>> 1
  let move := modulo != 0
  let data := Function.update s.data index (if move then s.data j else s.data index)
  let distance := Function.update s.distance index (if move then newDistance else s.distance index)
  let moveMask := BitVec.fill (nBits size) (!move)
  let distance := Function.update distance j (newDistance &&& moveMask)
  -- a cell that has been left becomes none: its lower bits are cleared, its highest bit is set
  let data := Function.update data j (data j &&& moveDataMask move)
  ⟨distance, Function.update data j (data j ||| highestBit move)⟩

def compact (size : Nat) (distance : Nat → BitVec (nBits size)) (data : Nat → Word) :
    Compacting size :=
  (List.range (nBits size)).foldl
    (fun s i => (List.range' (2 ^ i) (size - 2 ^ i)).foldl (compactCell i) s) ⟨distance, data⟩

/-- Both on a list of `size` cells. -/
def markAndCompact (size : Nat) (list : Nat → Word) : Option (Nat → Word) := do
  let (list, distance) ← computeDistanceMarkDuplicates size list
  some (compact size distance list).data

end Model

/-! ## What they do -/

section Spec

variable {size : Nat} {rank : Word → Nat}

theorem cmpSwap_twoWay (rank : Word → Nat) : TwoWay rank (cmpSwap rank) := twoWay_of_key rank

theorem window_place (offset : Nat) (l : List Word) (cells : Nat → Word) :
    window (place offset l cells) offset l.length = l := by
  refine List.ext_getElem (by simp) fun i hi hi' => ?_
  rw [getElem_window, place, if_pos (by omega), Nat.add_sub_cancel_left,
    List.getD_eq_getElem?_getD, List.getElem?_eq_getElem hi', Option.getD_some]

theorem window_place_before {offset n : Nat} (hn : n ≤ offset) (l : List Word)
    (cells : Nat → Word) : window (place offset l cells) 0 n = window cells 0 n :=
  window_congr fun i hi => by rw [place, if_neg (by omega)]

/-- The first cells hold the whole list if it fits. -/
theorem window_first {cells : Nat → Word} {words : List Word} {n : Nat}
    (h : window cells 0 size = words ++ List.replicate (size - words.length) noneWord)
    (hlength : words.length ≤ n) (hn : n ≤ size) :
    window cells 0 n = words ++ List.replicate (n - words.length) noneWord := by
  rw [show size = n + (size - n) by omega, window_append,
    show n + (size - n) - words.length = n - words.length + (size - n) by omega,
    List.replicate_add, ← List.append_assoc] at h
  exact (List.append_inj h (by simp; omega)).1

/-- The cells, with distances as numbers. -/
def Compacting.toState (s : Compacting size) : Compaction.State Word :=
  ⟨s.data, BitVec.toNat ∘ s.distance⟩

theorem clear_or_keep (x : Word) (move : Bool) :
    x &&& moveDataMask move ||| highestBit move = if move then noneWord else x := by
  cases move
  · have hmask : moveDataMask false = BitVec.allOnes hashbits := by decide
    have hbit : highestBit false = 0 := by decide
    rw [hmask, hbit, BitVec.and_allOnes]
    exact BitVec.or_zero
  · have hmask : moveDataMask true = noneWord := by decide
    have hbit : highestBit true = noneWord := by decide
    rw [hmask, hbit]
    refine BitVec.eq_of_getLsbD_eq fun i hi => ?_
    rw [BitVec.getLsbD_or, BitVec.getLsbD_and, if_pos rfl]
    cases x.getLsbD i <;> simp

/-- The circuit moves cells as the compaction of the library does. -/
theorem toState_compactCell (i : Nat) (s : Compacting size) (j : Nat) :
    (compactCell i s j).toState = Compaction.move noneWord i s.toState j := by
  simp only [compactCell, Compaction.and_fill, clear_or_keep, Function.update_self,
    Function.update_idem, Compacting.toState]
  exact (Compaction.move_toNat (Nat.succ_pos _) noneWord i s.data s.distance j).symm

theorem toState_compact (distance : Nat → BitVec (nBits size)) (data : Nat → Word) :
    (compact size distance data).toState =
      Compaction.compact noneWord size (nBits size) ⟨data, BitVec.toNat ∘ distance⟩ :=
  Compaction.compact_of_move _ _ _ toState_compactCell ..

theorem size_le_two_pow_nBits (h : 2 ≤ size) : size ≤ 2 ^ nBits size := by
  have := Nat.lt_pow_succ_log_self (b := 2) (by omega) (size - 1)
  unfold nBits
  omega

/-! ## Marking -/

/-- The first `n` cells are marked and measured. -/
structure Marked (list : Nat → Word) (n : Nat) (s : Marking size) : Prop where
  done : ∀ k < n, s.list k = Duplicates.mark noneWord size list k
  ahead : ∀ k, n ≤ k → s.list k = list k
  distance : ∀ k < n, s.distance k =
    if Duplicates.mark noneWord size list k = noneWord then 0
    else BitVec.ofNat _ (Compaction.gaps noneWord (Duplicates.mark noneWord size list) k)
  count : s.countNone =
    BitVec.ofNat _ (Compaction.gaps noneWord (Duplicates.mark noneWord size list) n)

theorem marked_markCell {list : Nat → Word} {n : Nat} {s : Marking size} (h : Marked list n s)
    (hn : n < size) : Marked list (n + 1) (markCell s n) := by
  have hmark : (if n < size - 1 then Function.update s.list n
      (if s.list n == s.list (n + 1) then noneWord else s.list n) else s.list) =
      Function.update s.list n (Duplicates.mark noneWord size list n) := by
    rw [h.ahead n le_rfl, h.ahead (n + 1) (by omega), Duplicates.mark]
    by_cases hlast : n < size - 1
    · simp [hlast, show n + 1 < size by omega]
    · rw [if_neg hlast, if_neg (by omega), ← h.ahead n le_rfl, Function.update_eq_self]
  unfold markCell
  rw [hmark]
  simp only [Function.update_self, beq_iff_eq]
  obtain ⟨hdistance, hcount⟩ := Compaction.measure_step h.distance h.count
  refine ⟨fun k hk => ?_, fun k hk => ?_, hdistance, hcount⟩ <;> dsimp only
  · by_cases hkn : k = n
    · rw [hkn, Function.update_self]
    · rw [Function.update_of_ne hkn, h.done k (by omega)]
  · rw [Function.update_of_ne (by omega), h.ahead k (by omega)]

theorem marked_foldl (list : Nat → Word) (n : Nat) (hn : n ≤ size) :
    Marked list n ((List.range n).foldl markCell (⟨list, fun _ => 0, 0⟩ : Marking size)) := by
  induction n with
  | zero => exact ⟨by omega, fun _ _ => rfl, by omega, rfl⟩
  | succ n ih =>
    rw [List.range_succ, List.foldl_concat]
    exact marked_markCell (ih (by omega)) (by omega)

/-- Marking the last cell once more changes nothing. -/
theorem computeDistanceMarkDuplicates_spec (h : 2 ≤ size) (list : Nat → Word) :
    ∃ marked distance, computeDistanceMarkDuplicates size list = some (marked, distance) ∧
      (∀ k < size, marked k = Duplicates.mark noneWord size list k) ∧
      Compaction.Measured noneWord marked size (BitVec.toNat ∘ distance) := by
  have hs : Marked list size ((List.range size).foldl markCell
      (⟨list, fun _ => 0, 0⟩ : Marking size)) := marked_foldl list size le_rfl
  rw [computeDistanceMarkDuplicates, if_neg (by omega)]
  generalize (List.range size).foldl markCell (⟨list, fun _ => 0, 0⟩ : Marking size) = s at hs
  have hlast : (if s.list (size - 1) == s.list (size - 2) then noneWord else s.list (size - 1)) =
      s.list (size - 1) := by
    have hone := hs.done (size - 1) (by omega)
    have htwo := hs.done (size - 2) (by omega)
    rw [Duplicates.mark, if_neg (by omega)] at hone
    rw [Duplicates.mark, show size - 2 + 1 = size - 1 by omega] at htwo
    simp only [hone, htwo, beq_iff_eq]
    split_ifs with hmark heq heq
    · exact heq.symm
    · rfl
    · exact absurd ⟨by omega, heq.symm⟩ hmark
    · rfl
  refine ⟨s.list, s.distance, ?_, hs.done, fun k hk => ?_⟩
  · simp only [hlast, Function.update_eq_self]
  · have hgaps : Compaction.gaps noneWord s.list k =
        Compaction.gaps noneWord (Duplicates.mark noneWord size list) k :=
      Compaction.gaps_congr fun i hi => hs.done i (hi.trans hk)
    have hlt : Compaction.gaps noneWord s.list k < 2 ^ nBits size :=
      (Compaction.gaps_le noneWord s.list k).trans_lt (hk.trans_le (size_le_two_pow_nBits h))
    rw [Function.comp_apply, hs.distance k hk, hs.done k hk, ← hgaps]
    split_ifs
    · rfl
    · rw [BitVec.toNat_ofNat, Nat.mod_eq_of_lt hlt]

/-- Of every run of equal words one stays, without none, in their order, and none follows. -/
theorem markAndCompact_spec (h : 2 ≤ size) (list : Nat → Word) :
    ∃ cells, markAndCompact size list = some cells ∧
      window cells 0 size = Duplicates.unmarked noneWord (window list 0 size) ++
        List.replicate (size - (Duplicates.unmarked noneWord (window list 0 size)).length)
          noneWord := by
  obtain ⟨marked, distance, hmark, hmarked, hmeasured⟩ :=
    computeDistanceMarkDuplicates_spec h list
  have hwindow : window marked 0 size = Duplicates.markRuns noneWord (window list 0 size) := by
    rw [← Duplicates.window_mark, Nat.zero_add]
    exact window_congr fun i hi => by rw [Nat.zero_add, hmarked i hi]
  have hcompact := Compaction.window_compact hmeasured (size_le_two_pow_nBits h)
  rw [← toState_compact, hwindow] at hcompact
  change _ = Duplicates.unmarked noneWord (window list 0 size) ++ _ at hcompact
  refine ⟨(compact size distance marked).data, by rw [markAndCompact, hmark]; rfl, ?_⟩
  have hlength := congrArg List.length hcompact
  rw [List.length_append, List.length_replicate, length_window] at hlength
  refine hcompact.trans ?_
  congr 2
  omega

/-! ## Sorted input -/

theorem ascending_iff {f : Nat → Word} {lo n : Nat} : Ascending (keys rank f lo) n ↔
    (window f lo n).Pairwise fun a b => rank a ≤ rank b := by
  rw [pairwise_window_of_refl (r := fun a b => rank a ≤ rank b) fun _ => le_rfl]
  rfl

theorem descending_iff {f : Nat → Word} {lo n : Nat} : Descending (keys rank f lo) n ↔
    (window f lo n).Pairwise fun a b => rank b ≤ rank a := by
  rw [pairwise_window_of_refl (r := fun a b => rank b ≤ rank a) fun _ => le_rfl]
  rfl

theorem nodup_of_descending {words : List Word} (h : words.Pairwise fun a b => rank b < rank a) :
    words.Nodup := h.imp fun hlt heq => by simp [heq] at hlt

/-- The cells hold the words in ascending order, each once, and none behind them. -/
structure HoldsSet (rank : Word → Nat) (cells : Nat → Word) (size : Nat) (words : List Word) :
    Prop where
  ascending : words.Pairwise fun a b => rank a < rank b
  real : noneWord ∉ words
  cells : window cells 0 size = words ++ List.replicate (size - words.length) noneWord

theorem HoldsSet.mem_iff {cells : Nat → Word} {words : List Word}
    (h : HoldsSet rank cells size words) {w : Word} :
    w ∈ words ↔ w ≠ noneWord ∧ w ∈ window cells 0 size := by
  rw [h.cells, List.mem_append]
  constructor
  · exact fun hw => ⟨fun heq => h.real (heq ▸ hw), .inl hw⟩
  · rintro ⟨hne, hw | hw⟩
    · exact hw
    · exact absurd (List.eq_of_mem_replicate hw) hne

theorem HoldsSet.window_ascending (hrank : WordOrder rank) {cells : Nat → Word} {words : List Word}
    (h : HoldsSet rank cells size words) :
    (window cells 0 size).Pairwise fun a b => rank a ≤ rank b := by
  rw [h.cells, List.pairwise_append]
  refine ⟨h.ascending.imp fun hlt => hlt.le, ?_, fun a _ b hb => ?_⟩
  · exact List.pairwise_replicate.mpr (.inr le_rfl)
  · rw [List.eq_of_mem_replicate hb]
    exact hrank.none_greatest a

/-- In either order each word of a sorted list stays once, in its place. -/
theorem markAndCompact_pairwise (h : 2 ≤ size) {r : Word → Word → Prop}
    (htrans : ∀ a b c, r a b → r b c → r a c) {list : Nat → Word}
    (hsorted : (window list 0 size).Pairwise fun a b => a = b ∨ r a b) :
    ∃ cells words, markAndCompact size list = some cells ∧ words.Pairwise r ∧ noneWord ∉ words ∧
      window cells 0 size = words ++ List.replicate (size - words.length) noneWord ∧
      ∀ w, w ∈ words ↔ w ≠ noneWord ∧ w ∈ window list 0 size := by
  obtain ⟨cells, hcells, hwindow⟩ := markAndCompact_spec h list
  exact ⟨cells, _, hcells, Duplicates.pairwise_unmarked _ htrans hsorted,
    fun hmem => (Duplicates.mem_unmarked.mp hmem).1 rfl, hwindow, fun w => Duplicates.mem_unmarked⟩

/-- Marked and compacted, a sorted list holds each of its words once. -/
theorem markAndCompact_sorted (hrank : WordOrder rank) (h : 2 ≤ size) {list : Nat → Word}
    (hsorted : (window list 0 size).Pairwise fun a b => rank a ≤ rank b) :
    ∃ cells words, markAndCompact size list = some cells ∧ HoldsSet rank cells size words ∧
      ∀ w, w ∈ words ↔ w ≠ noneWord ∧ w ∈ window list 0 size := by
  obtain ⟨cells, words, hcells, hascending, hreal, hwindow, hmem⟩ :=
    markAndCompact_pairwise h (r := fun a b => rank a < rank b) (fun a b c => Nat.lt_trans)
      (hsorted.imp fun hle => (Nat.eq_or_lt_of_le hle).imp_left (hrank.injective ·))
  exact ⟨cells, words, hcells, ⟨hascending, hreal, hwindow⟩, hmem⟩

/-- A word that comes back after another one is not recognized as a duplicate. -/
theorem two_le_count_of_between {list : Nat → Word} {w : Word} (hw : w ≠ noneWord) {i j k : Nat}
    (hij : i < j) (hjk : j < k) (hk : k < size) (hi : list i = w) (hj : list j ≠ w)
    (hk' : list k = w) : 2 ≤ (Duplicates.unmarked noneWord (window list 0 size)).count w := by
  have hsplit : window list 0 size =
      window list 0 j ++ list j :: window list (j + 1) (size - (j + 1)) := by
    rw [← Duplicates.window_cons, show size - (j + 1) + 1 = size - j by omega]
    conv_lhs => rw [show size = j + (size - j) by omega, window_append, Nat.zero_add]
  rw [hsplit]
  refine Duplicates.two_le_count_unmarked hw (Ne.symm hj) ?_ ?_
  · exact mem_window.mpr ⟨i, hij, by rwa [Nat.zero_add]⟩
  · exact mem_window.mpr ⟨k - (j + 1), by omega, by
      rwa [show j + 1 + (k - (j + 1)) = k by omega]⟩

theorem two_le_count_of_apart (hrank : WordOrder rank) {list : Nat → Word} {w : Word}
    (hw : w ≠ noneWord) (h : Apart (keys rank list 0) size (rank w)) :
    2 ≤ (Duplicates.unmarked noneWord (window list 0 size)).count w := by
  obtain ⟨i, j, k, hij, hjk, hk, hi, hj, hk'⟩ := h
  simp only [keys, Nat.zero_add] at hi hj hk'
  exact two_le_count_of_between hw hij hjk hk (hrank.injective hi)
    (fun heq => absurd hj (by simp [heq])) (hrank.injective hk')

/-- A word that comes back after another one in a sorted list stays twice. -/
theorem two_le_count_of_merge_apart (hrank : WordOrder rank) (hsize : 2 ≤ size) {list : Nat → Word}
    {w : Word} (hw : w ≠ noneWord) (h : Apart (keys rank list 0) size (rank w)) :
    ∃ cells words, markAndCompact size list = some cells ∧ noneWord ∉ words ∧
      window cells 0 size = words ++ List.replicate (size - words.length) noneWord ∧
      2 ≤ words.count w := by
  obtain ⟨cells, hcells, hwindow⟩ := markAndCompact_spec hsize list
  exact ⟨cells, _, hcells, fun hmem => (Duplicates.mem_unmarked.mp hmem).1 rfl, hwindow,
    two_le_count_of_apart hrank hw h⟩

/-- There are many words besides none. -/
theorem exists_ascending (hrank : WordOrder rank) {n : Nat} (hn : n ≤ 2 ^ 31) :
    ∃ l : List Word, l.length = n ∧ l.Pairwise (fun a b => rank a < rank b) ∧ noneWord ∉ l := by
  let words := (List.range n).map fun i => BitVec.ofNat hashbits i
  have hnodup : words.Nodup := by
    refine List.Nodup.map_on (fun i hi j hj heq => ?_) List.nodup_range
    have hi := List.mem_range.mp hi
    have hj := List.mem_range.mp hj
    have heq := congrArg BitVec.toNat heq
    simp only [BitVec.toNat_ofNat, hashbits] at heq
    omega
  let le : Word → Word → Bool := fun a b => decide (rank a ≤ rank b)
  have hperm : (words.mergeSort le).Perm words := List.mergeSort_perm ..
  have hsorted : (words.mergeSort le).Pairwise fun a b => le a b = true :=
    List.pairwise_mergeSort (by simpa [le] using fun _ _ _ => Nat.le_trans)
      (by simpa [le] using fun _ _ => Nat.le_total ..) words
  refine ⟨words.mergeSort le, by simp [words], ?_, fun hmem => ?_⟩
  · refine List.Pairwise.imp_of_mem ?_ (hsorted.and (hperm.nodup_iff.mpr hnodup))
    rintro a b _ _ ⟨hle, hne⟩
    exact lt_of_le_of_ne (by simpa [le] using hle) fun heq => hne (hrank.injective heq)
  · obtain ⟨i, hi, heq⟩ := List.mem_map.mp (hperm.mem_iff.mp hmem)
    have hi := List.mem_range.mp hi
    have heq := congrArg BitVec.toNat heq
    simp only [BitVec.toNat_ofNat, hashbits, noneWord] at heq
    have hnone : (BitVec.ofInt 32 (-2147483648)).toNat = 2 ^ 31 := by decide
    rw [hnone] at heq
    omega

end Spec

/-! ## An order -/

/-- An order with none as the greatest word. -/
def exampleRank (w : Word) : Nat := (w + 0x7fffffff).toNat

theorem exampleRank_wordOrder : WordOrder exampleRank where
  injective := fun a b h => by
    have h := BitVec.eq_of_toNat_eq h
    simpa using h
  none_greatest := fun w => by
    have hnone : exampleRank noneWord = 2 ^ 32 - 1 := by decide
    have := (w + 0x7fffffff).isLt
    rw [hnone]
    exact Nat.le_sub_one_of_lt this

end CoVault.MapReduce
