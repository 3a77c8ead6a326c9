import CoVault.Circuit.Compare
import CoVault.Library.NetworkContents
import CoVault.MapReduce.StoredTile

/-!
# Fingerprints that wrap around

The circuit compares words by the sign of their difference. The words form a circle, each of them
greater than the half of the circle behind it, and none is one of them. On one half of the circle
this is an order; otherwise the sort need not bring equal words together.
-/

namespace CoVault.MapReduce.Wrapped

open Circuit Library Library.Cells Library.SortNetwork

/-- `a > b`. -/
def greater (a b : Word) : Bool := !geq b a

/-- One step of the network: swap if `(key[i] > key[j]) == acc`. -/
def cmpSwap (acc : Bool) (i j : Nat) (f : Nat → Word) : Nat → Word :=
  if greater (f i) (f j) == acc then exchange f i j else f

/-- `process_first_pair` when the values of its two fetches are these. -/
def processFirstPair (tileSize : Nat) (sick : BitVec didbits) (first second : Tile) :
    Option (Nat → Word) :=
  let lists := place 0 (runQueryUniqueDevices tileSize sick first ++
    runQueryUniqueDevices tileSize sick second) fun _ => 0
  markAndCompact (2 * tileSize) (sort cmpSwap 0 (2 * tileSize) false lists)

/-- Fingerprints that lie, together with none, on one half of the circle: none of them is zero, and
those with the top bit set are less than half a circle above those without. -/
structure Comparable (words : Set Word) : Prop where
  zero : 0 ∉ words
  gap : ∀ x ∈ words, ∀ y ∈ words, 2 ^ 31 < x.toNat → y.toNat < 2 ^ 31 → x.toNat < y.toNat + 2 ^ 31

/-! ## The order from a given word on -/

/-- How far the word is ahead of `t`. -/
def rankFrom (t w : Word) : Nat := (w - t).toNat

theorem rankFrom_injective (t : Word) : Function.Injective (rankFrom t) := fun _ _ h =>
  sub_left_injective (BitVec.eq_of_toNat_eq h)

theorem exchanging_cmpSwap (acc : Bool) : Exchanging (cmpSwap acc) := by
  intro i j f
  unfold cmpSwap
  split_ifs
  · exact .inr rfl
  · exact .inl rfl

theorem greater_iff {a b : Word} : greater a b = true ↔ 2 ^ 31 ≤ (b - a).toNat := by
  rw [greater, geq, Bool.not_not, BitVec.msb_eq_decide, decide_eq_true_iff]
  rfl

/-- Less than half a circle ahead of `t`, greater is further ahead. -/
theorem greater_iff_rankFrom {t a b : Word} (ha : Circuit.Small (a - t))
    (hb : Circuit.Small (b - t)) :
    greater a b = true ↔ rankFrom t b < rankFrom t a := by
  have hshift : geq b a = geq (b - t) (a - t) := by
    rw [geq, geq, sub_sub_sub_cancel_right]
  rw [greater, hshift, Bool.not_eq_true', ← Bool.not_eq_true, geq_iff hb ha, Nat.not_le]
  rfl

theorem cmpSwap_eq_rankFrom {t : Word} (acc : Bool) (i j : Nat) (f : Nat → Word)
    (hi : Circuit.Small (f i - t)) (hj : Circuit.Small (f j - t)) :
    cmpSwap acc i j f = MapReduce.cmpSwap (rankFrom t) acc i j f := by
  have hgreater : greater (f i) (f j) = decide (rankFrom t (f j) < rankFrom t (f i)) := by
    rw [Bool.eq_iff_iff, greater_iff_rankFrom hi hj, decide_eq_true_iff]
  rw [cmpSwap, MapReduce.cmpSwap, hgreater]

/-- Cells that are less than half a circle ahead of `t` are sorted in the order from `t` on. -/
theorem sort_eq_rankFrom {t : Word} {f : Nat → Word} {lo n : Nat}
    (hall : AllCells (fun w => Circuit.Small (w - t)) lo n f) (asc : Bool) :
    sort cmpSwap lo n asc f = sort (MapReduce.cmpSwap (rankFrom t)) lo n asc f :=
  sort_congr exchanging_cmpSwap (fun acc i j f => cmpSwap_eq_rankFrom acc i j f) asc hall

/-! ## Words on one half of the circle -/

/-- The words and none are ahead of the least word without top bit, or else of none. -/
theorem Comparable.exists_start {words : Set Word} (h : Comparable words) :
    ∃ t : Word, Circuit.Small (noneWord - t) ∧ ∀ w ∈ words, Circuit.Small (w - t) := by
  have hnone : noneWord.toNat = 2 ^ 31 := by decide
  have hsmall : ∀ {a b : Word}, b.toNat ≤ a.toNat → a.toNat < b.toNat + 2 ^ 31 →
      Circuit.Small (a - b) := by
    intro a b hle hlt
    rw [Circuit.Small, BitVec.toNat_sub_of_le (BitVec.le_def.mpr hle)]
    have hcircle : 2 ^ hashbits = 2 * 2 ^ 31 := rfl
    omega
  by_cases hlow : ∃ n, ∃ y ∈ words, y.toNat = n ∧ n < 2 ^ 31
  · classical
    obtain ⟨t, ht, hn, hlt⟩ := Nat.find_spec hlow
    have hpos : 0 < t.toNat := by
      refine Nat.pos_of_ne_zero fun hzero => h.zero ?_
      rwa [show t = 0 from BitVec.eq_of_toNat_eq hzero] at ht
    rw [← hn] at hlt
    refine ⟨t, hsmall (by omega) (by omega), fun w hw => ?_⟩
    by_cases htop : w.toNat < 2 ^ 31
    · have hle := Nat.find_min' hlow ⟨w, hw, rfl, htop⟩
      exact hsmall (by omega) (by omega)
    · by_cases hhalf : w.toNat = 2 ^ 31
      · exact hsmall (by omega) (by omega)
      · have hgap := h.gap w hw t ht (by omega) hlt
        exact hsmall (by omega) hgap
  · have htop : ∀ w ∈ words, 2 ^ 31 ≤ w.toNat := fun w hw => by
      by_contra hlt
      exact hlow ⟨_, w, hw, rfl, by omega⟩
    refine ⟨noneWord, hsmall le_rfl (by omega), fun w hw => hsmall ?_ ?_⟩
    · exact hnone.le.trans (htop w hw)
    · have hw' := BitVec.isLt w
      have hcircle : 2 ^ hashbits = 2 ^ 31 + 2 ^ 31 := rfl
      rwa [hnone, ← hcircle]

section Spec

variable {tileSize : Nat} {sick : BitVec didbits} {first second : Tile}

/-- The words of the first pair are the fingerprints that match, and none. -/
theorem firstPair_cell {i : Nat} (hi : i < 2 * tileSize) :
    firstPair tileSize sick first second i = noneWord ∨
      firstPair tileSize sick first second i ∈ matched tileSize sick [first, second] := by
  have hmem : firstPair tileSize sick first second i ∈
      window (firstPair tileSize sick first second) 0 (2 * tileSize) :=
    mem_window.mpr ⟨i, hi, by rw [Nat.zero_add]⟩
  by_cases hnone : firstPair tileSize sick first second i = noneWord
  · exact .inl hnone
  · rw [window_firstPair, List.mem_append, mem_runQueryUniqueDevices hnone,
      mem_runQueryUniqueDevices hnone, ← Finset.mem_union, ← matched_pair] at hmem
    exact .inr hmem

theorem card_matched_pair_le (first second : Tile) :
    (matched tileSize sick [first, second]).card ≤ 2 * tileSize := by
  refine (List.toFinset_card_le _).trans ?_
  have hle : ∀ v : Tile, ((List.range tileSize).filter fun j => v.isMatch j sick).length ≤
      tileSize := fun v => (List.length_filter_le _ _).trans List.length_range.le
  have hfirst := hle first
  have hsecond := hle second
  simp only [List.flatMap_cons, List.flatMap_nil, List.append_nil, List.length_append,
    List.length_map]
  omega

theorem processFirstPair_of_comparable (hpos : 0 < tileSize)
    (hreal : noneWord ∉ matched tileSize sick [first, second])
    (hcomparable : Comparable (matched tileSize sick [first, second] : Set Word)) :
    ∃ cells, processFirstPair tileSize sick first second = some cells ∧
      Front cells (2 * tileSize) (matched tileSize sick [first, second]) := by
  obtain ⟨t, hnone, hwords⟩ := hcomparable.exists_start
  have hall : AllCells (fun w => Circuit.Small (w - t)) 0 (2 * tileSize)
      (firstPair tileSize sick first second) := by
    intro i _ hi
    have hcell : firstPair tileSize sick first second i = noneWord ∨
        firstPair tileSize sick first second i ∈ matched tileSize sick [first, second] :=
      firstPair_cell (by omega)
    rcases hcell with hcell | hcell
    · simpa only [hcell] using hnone
    · exact hwords (firstPair tileSize sick first second i) (Finset.mem_coe.mpr hcell)
  have hc := cmpSwap_twoWay (rankFrom t)
  have hsort : processFirstPair tileSize sick first second = markAndCompact (2 * tileSize)
      (sort (MapReduce.cmpSwap (rankFrom t)) 0 (2 * tileSize) false
        (firstPair tileSize sick first second)) := by
    rw [← sort_eq_rankFrom hall]
    rfl
  rw [hsort]
  exact front_of_adjacent hpos le_rfl hreal (card_matched_pair_le first second)
    (sort_rearranged hc.exchanging 0 (2 * tileSize) false _) fun w _ =>
      adjacent_of_descending (rankFrom_injective t) (sort_sortedIn hc 0 (2 * tileSize) false _) w

/-- Two cells are always adjacent. -/
theorem processFirstPair_one (hreal : noneWord ∉ matched 1 sick [first, second]) :
    ∃ cells, processFirstPair 1 sick first second = some cells ∧
      Front cells (2 * 1) (matched 1 sick [first, second]) :=
  front_of_adjacent Nat.one_pos le_rfl hreal (card_matched_pair_le first second)
    (sort_rearranged exchanging_cmpSwap 0 (2 * 1) false _) fun w _ i j k hij hjk hk hi hk' => by
      obtain rfl | rfl : i = j ∨ j = k := by omega
      · exact hi
      · exact hk'

/-! ## Tiles with given words -/

/-- A row that gives the word. None is given by a row that is not confirmed. -/
def rowOf (sick : BitVec didbits) (w : Word) : TileRow :=
  ⟨0, sick, w.setWidth didbits, 0, 0, if w = noneWord then 0 else 128⟩

def tileOfWords (sick : BitVec didbits) (words : List Word) : Tile :=
  tileOfRows (words.map (rowOf sick)) fun _ => false

theorem getLastD_rowOf (sick : BitVec didbits) (w : Word) :
    (rowOf sick w).bits.getLastD false = decide (w ≠ noneWord) := by
  have hbits : (rowOf sick w).bits = bitsOf sick ++ bitsOf (w.setWidth didbits) ++
      bitsOf (0 : BitVec 32) ++ bitsOf (0 : BitVec 16) ++
        bitsOf (if w = noneWord then 0 else 128 : BitVec 8) := rfl
  have hbyte : (bitsOf (if w = noneWord then 0 else 128 : BitVec 8)).getLast? =
      some (decide (w ≠ noneWord)) := by
    by_cases hw : w = noneWord
    · rw [if_pos hw, decide_eq_false (not_not_intro hw)]
      rfl
    · rw [if_neg hw, decide_eq_true hw]
      rfl
  rw [List.getLastD_eq_getLast?, hbits, List.getLast?_append, hbyte, Option.some_or,
    Option.getD_some]

theorem isOf_rowOf (sick : BitVec didbits) (w : Word) :
    (rowOf sick w).isOf sick = decide (w ≠ noneWord) := by
  have hdevice : ((rowOf sick w).device == sick) = true := beq_self_eq_true sick
  rw [TileRow.isOf, hdevice, Bool.true_and, getLastD_rowOf]

theorem setWidth_encountered_rowOf (sick : BitVec didbits) (w : Word) :
    (rowOf sick w).encountered.setWidth hashbits = w :=
  (BitVec.setWidth_setWidth_of_le w (by decide)).trans (BitVec.setWidth_eq w)

theorem word_rowOf (sick : BitVec didbits) (w : Word) : (rowOf sick w).word sick = w := by
  rw [TileRow.word, isOf_rowOf, setWidth_encountered_rowOf]
  by_cases hw : w = noneWord
  · rw [if_neg (by simpa using hw), hw]
  · rw [if_pos (by simpa using hw)]

theorem runQueryUniqueDevices_tileOfWords {words : List Word} (hlength : words.length = tileSize) :
    runQueryUniqueDevices tileSize sick (tileOfWords sick words) = words := by
  have hrun := runQueryUniqueDevices_tileOfRows (words.map (rowOf sick)) sick fun _ => false
  rw [List.length_map, hlength] at hrun
  rw [tileOfWords, hrun, List.map_map]
  exact List.map_id'' (word_rowOf sick) words

/-- A matching row of such a tile gives a word of the list, other than none. -/
theorem mem_matched_tileOfWords {words words' : List Word} (hlength : words.length = tileSize)
    (hlength' : words'.length = tileSize) {w : Word}
    (hw : w ∈ matched tileSize sick [tileOfWords sick words, tileOfWords sick words']) :
    w ≠ noneWord ∧ (w ∈ words ∨ w ∈ words') := by
  have hone : ∀ l : List Word, l.length = tileSize →
      w ∈ matched tileSize sick [tileOfWords sick l] → w ≠ noneWord ∧ w ∈ l := by
    intro l hl hmem
    simp only [matched, List.flatMap_cons, List.flatMap_nil, List.append_nil, List.mem_toFinset,
      List.mem_map, List.mem_filter, List.mem_range] at hmem
    obtain ⟨j, ⟨hj, hmatch⟩, hword⟩ := hmem
    have hin : j < l.length := hl ▸ hj
    have hrow : (l.map (rowOf sick))[j]? = some (rowOf sick l[j]) := by
      rw [List.getElem?_map, List.getElem?_eq_getElem hin, Option.map_some]
    rw [tileOfWords, isMatch_tileOfRows hrow, isOf_rowOf, decide_eq_true_iff] at hmatch
    rw [tileOfWords, did2_tileOfRows hrow, setWidth_encountered_rowOf] at hword
    rw [← hword]
    exact ⟨hmatch, List.getElem_mem _⟩
  rw [matched_pair, Finset.mem_union] at hw
  rcases hw with hw | hw
  · exact ⟨(hone words hlength hw).1, .inl (hone words hlength hw).2⟩
  · exact ⟨(hone words' hlength' hw).1, .inr (hone words' hlength' hw).2⟩

theorem window_firstPair_tileOfWords {words words' : List Word} (hlength : words.length = tileSize)
    (hlength' : words'.length = tileSize) :
    window (firstPair tileSize sick (tileOfWords sick words) (tileOfWords sick words')) 0
      (2 * tileSize) = words ++ words' := by
  rw [window_firstPair, runQueryUniqueDevices_tileOfWords hlength,
    runQueryUniqueDevices_tileOfWords hlength']

/-- If the sort leaves a word on both sides of another one, the word is found twice. -/
theorem not_front_of_between (htwo : 2 ≤ 2 * tileSize) {w : Word} (hw : w ≠ noneWord) {i j k : Nat}
    {sorted : Nat → Word}
    (hsorted : sort cmpSwap 0 (2 * tileSize) false (firstPair tileSize sick first second) = sorted)
    (hij : i < j) (hjk : j < k) (hk : k < 2 * tileSize) (hi : sorted i = w) (hj : sorted j ≠ w)
    (hk' : sorted k = w) :
    ¬ ∃ cells, processFirstPair tileSize sick first second = some cells ∧
      Front cells (2 * tileSize) (matched tileSize sick [first, second]) := by
  rintro ⟨cells, hcells, hfront⟩
  obtain ⟨cells', hcells', hwindow⟩ := markAndCompact_spec htwo sorted
  have hsame : cells' = cells := by
    have hrun : processFirstPair tileSize sick first second = some cells' := by
      rw [← hcells', ← hsorted]
      rfl
    exact Option.some.inj (hrun.symm.trans hcells)
  have hcount := two_le_count_of_between hw hij hjk hk hi hj hk'
  have hholds := hfront.holdsOnce w hw
  rw [← hsame, hwindow, List.count_append] at hholds
  split_ifs at hholds <;> omega

/-! ## Words on opposite sides of the circle -/

/-- Of two opposite words each is greater than the other, so a descending comparison leaves them. -/
theorem cmpSwap_of_opposite {x y : Word} (hopposite : x = y + noneWord) {i j : Nat}
    {f : Nat → Word} (hi : f i = x ∨ f i = y) (hj : f j = x ∨ f j = y) :
    cmpSwap false i j f = f := by
  have hback : y - x = noneWord := by
    rw [hopposite, sub_add_cancel_left]
    decide
  have hthere : x - y = noneWord := by rw [hopposite, add_sub_cancel_left]
  have hnone : 2 ^ 31 ≤ noneWord.toNat := by decide
  have hxy : greater x y = true := greater_iff.mpr (by rwa [hback])
  have hyx : greater y x = true := greater_iff.mpr (by rwa [hthere])
  rw [cmpSwap]
  rcases hi with hi | hi <;> rcases hj with hj | hj
  · rw [exchange_of_eq (hi.trans hj.symm), ite_self]
  · rw [hi, hj, hxy]
    rfl
  · rw [hi, hj, hyx]
    rfl
  · rw [exchange_of_eq (hi.trans hj.symm), ite_self]

/-- The upper half is sorted in descending order, so nothing moves its last cell, and nothing moves
a cell into the other half. -/
theorem sort_opposite {x y : Word} (hopposite : x = y + noneWord) {n : Nat} {f : Nat → Word}
    (hall : AllCells (fun w => w = x ∨ w = y) 0 (2 * n) f) (hlow : f (n - 1) = y)
    (hfirst : f n = x) (hlast : f (2 * n - 1) = y) (hn : 2 ≤ n) :
    ∃ i k, i < n ∧ n ≤ k ∧ k < 2 * n - 1 ∧ sort cmpSwap 0 (2 * n) false f i = y ∧
      sort cmpSwap 0 (2 * n) false f k = x ∧ sort cmpSwap 0 (2 * n) false f (2 * n - 1) = y := by
  have hxy : x ≠ y := fun heq => absurd (add_eq_left.mp (hopposite.symm.trans heq)) (by decide)
  have hmoved := sort_rearranged exchanging_cmpSwap 0 n true f
  have hhalf := hall.rearranged hmoved le_rfl (by omega)
  have hmoved' := sort_rearranged exchanging_cmpSwap n n false (sort cmpSwap 0 n true f)
  have hhigh := hhalf.rearranged hmoved' (by omega) (by omega)
  have hrest : AllCells (fun w => w = x ∨ w = y) n n (sort cmpSwap 0 n true f) :=
    hhalf.mono (by omega) (by omega)
  have hkeep := sort_last exchanging_cmpSwap
    (fun i j f hi hj => cmpSwap_of_opposite hopposite hi hj) hrest (by omega)
  rw [← Nat.two_mul] at hkeep
  have hsort : sort cmpSwap 0 (2 * n) false f =
      sort cmpSwap n n false (sort cmpSwap 0 n true f) := by
    rw [sort_of_lt cmpSwap 0 (by omega), show 2 * n / 2 = n by omega,
      show 2 * n - n = n by omega, Nat.zero_add]
    exact merge_eq_self fun i j hi hij hj =>
      cmpSwap_of_opposite hopposite (hhigh i hi (by omega)) (hhigh j (by omega) hj)
  obtain ⟨i, hi, hstart⟩ := hmoved.symm.source (k := n - 1) ⟨by omega, by omega⟩
  obtain ⟨k, hk, hmid⟩ := hmoved'.symm.source (k := n) ⟨le_rfl, by omega⟩
  rw [hlow] at hstart
  rw [hmoved.outside (by omega), hfirst] at hmid
  rw [hsort]
  have hend : sort cmpSwap n n false (sort cmpSwap 0 n true f) (2 * n - 1) = y := by
    rw [hkeep, hmoved.outside (by omega), hlast]
  refine ⟨i, k, by omega, hk.1, ?_, ?_, hmid.symm, hend⟩
  · have hne : k ≠ 2 * n - 1 := fun heq => hxy (by rw [hmid, heq, hend])
    omega
  · rw [hmoved'.outside (by omega), hstart]

/-- Both tiles hold a word in the last row and its opposite in the others. -/
theorem not_front_of_opposite (htwo : 2 ≤ tileSize) {x y : Word} (hopposite : x = y + noneWord)
    (hy : y ≠ noneWord)
    (hfirst : first = tileOfWords sick (List.replicate (tileSize - 1) x ++ [y])) :
    ¬ ∃ cells, processFirstPair tileSize sick first first = some cells ∧
      Front cells (2 * tileSize) (matched tileSize sick [first, first]) := by
  have hlength : (List.replicate (tileSize - 1) x ++ [y]).length = tileSize := by
    simp
    omega
  have hword : ∀ i < tileSize, (List.replicate (tileSize - 1) x ++ [y])[i]? =
      some (if i = tileSize - 1 then y else x) := by
    intro i hi
    split_ifs with hlast
    · rw [hlast, List.getElem?_append_right (by simp), List.length_replicate, Nat.sub_self,
        List.getElem?_cons_zero]
    · rw [List.getElem?_append_left (by simp; omega), List.getElem?_replicate_of_lt (by omega)]
  have hwindow : window (firstPair tileSize sick first first) 0 (2 * tileSize) =
      (List.replicate (tileSize - 1) x ++ [y]) ++ (List.replicate (tileSize - 1) x ++ [y]) := by
    rw [hfirst]
    exact window_firstPair_tileOfWords hlength hlength
  have hcell : ∀ i < tileSize, firstPair tileSize sick first first i =
        (if i = tileSize - 1 then y else x) ∧
      firstPair tileSize sick first first (tileSize + i) =
        if i = tileSize - 1 then y else x := by
    intro i hi
    have hlow := cell_of_window hwindow (i := i) (by omega)
      (by rw [List.getElem?_append_left (by omega), hword i hi])
    have hhigh := cell_of_window hwindow (i := tileSize + i) (by omega)
      (by rw [List.getElem?_append_right (by omega), hlength, Nat.add_sub_cancel_left, hword i hi])
    rw [Nat.zero_add] at hlow hhigh
    exact ⟨hlow, hhigh⟩
  have hall : AllCells (fun w => w = x ∨ w = y) 0 (2 * tileSize)
      (firstPair tileSize sick first first) := by
    have hmem : ∀ i, (if i = tileSize - 1 then y else x) = x ∨
        (if i = tileSize - 1 then y else x) = y := fun i => by
      split_ifs
      · exact .inr rfl
      · exact .inl rfl
    intro i _ hi
    by_cases hlow : i < tileSize
    · exact (hcell i hlow).1 ▸ hmem i
    · have hhigh := (hcell (i - tileSize) (by omega)).2
      rw [Nat.add_sub_cancel' (by omega)] at hhigh
      exact hhigh ▸ hmem (i - tileSize)
  have hlast := hcell (tileSize - 1) (by omega)
  have hfirst := (hcell 0 (by omega)).2
  rw [if_pos rfl] at hlast
  rw [if_neg (by omega), Nat.add_zero] at hfirst
  rw [show tileSize + (tileSize - 1) = 2 * tileSize - 1 by omega] at hlast
  obtain ⟨i, k, hi, hk, hk', hstart, hsorted, hend⟩ :=
    sort_opposite hopposite hall hlast.1 hfirst hlast.2 htwo
  have hxy : x ≠ y := fun heq => absurd (add_eq_left.mp (hopposite.symm.trans heq)) (by decide)
  exact not_front_of_between (by omega) hy rfl (hi.trans_le hk) hk' (by omega) hstart
    (by rwa [hsorted]) hend

/-! ## Words and none all around the circle -/

/-- What is sorted already on half a circle stays. -/
theorem window_sort {t : Word} {f : Nat → Word} {lo n : Nat} {asc : Bool} {l : List Word}
    (hwindow : window f lo n = l) (hsmall : ∀ w ∈ l, Circuit.Small (w - t))
    (hsorted : l.Pairwise fun a b =>
      if asc then rankFrom t a ≤ rankFrom t b else rankFrom t b ≤ rankFrom t a) :
    window (sort cmpSwap lo n asc f) lo n = l := by
  have hall : AllCells (fun w => Circuit.Small (w - t)) lo n f := fun k hk hk' =>
    hsmall (f k) (hwindow ▸ mem_window.mpr ⟨k - lo, by omega, by rw [Nat.add_sub_cancel' hk]⟩)
  have hc := cmpSwap_twoWay (rankFrom t)
  have hresult : (window (sort cmpSwap lo n asc f) lo n).Pairwise fun a b =>
      if asc then rankFrom t a ≤ rankFrom t b else rankFrom t b ≤ rankFrom t a := by
    have hin := sort_sortedIn hc lo n asc f
    rw [sort_eq_rankFrom hall]
    cases asc
    · exact descending_iff.mp hin
    · exact ascending_iff.mp hin
  refine List.Perm.eq_of_pairwise (fun a b _ _ hab hba => rankFrom_injective t ?_) hresult hsorted
    (hwindow ▸ (sort_rearranged exchanging_cmpSwap lo n asc f).perm)
  cases asc
  · exact le_antisymm hba hab
  · exact le_antisymm hab hba

/-- `x`, `y` and none in a circle, each of them greater than the one before and none smaller than
`x`. -/
structure Circle (x y : Word) : Prop where
  low : Circuit.Small (y - x)
  high : Circuit.Small (noneWord - y)
  back : greater x noneWord = true
  up : greater noneWord y = true

theorem toNat_sub_of_lt {a b : Word} (h : a.toNat < b.toNat) :
    (a - b).toNat + b.toNat = a.toNat + 2 ^ hashbits := by
  have hb := BitVec.isLt b
  rw [BitVec.toNat_sub, Nat.mod_eq_of_lt (by omega)]
  omega

theorem circle_of_toNat {x y : Word} (hy : 0 < y.toNat) (hy' : y.toNat < 2 ^ 31)
    (hx : y.toNat + 2 ^ 31 < x.toNat) : Circle x y := by
  have hnone : noneWord.toNat = 2 ^ 31 := by decide
  have hcircle : 2 ^ hashbits = 2 * 2 ^ 31 := rfl
  have hx' := BitVec.isLt x
  have hyx := toNat_sub_of_lt (show y.toNat < x.toNat by omega)
  have hny := BitVec.toNat_sub_of_le (BitVec.le_def.mpr (show y.toNat ≤ noneWord.toNat by omega))
  have hnx := toNat_sub_of_lt (show noneWord.toNat < x.toNat by omega)
  have hyn := toNat_sub_of_lt (show y.toNat < noneWord.toNat by omega)
  constructor
  · rw [Circuit.Small]
    omega
  · rw [Circuit.Small]
    omega
  · exact greater_iff.mpr (by omega)
  · exact greater_iff.mpr (by omega)

/-- When the halves are sorted, the first layer leaves `x` before none, and neither part of the
merge brings the words `y` on both sides of none together. -/
theorem merge_circle {x y : Word} (h : Circle x y) {n : Nat} (hn : 2 ≤ n) {f : Nat → Word}
    (hx : f 0 = x) (hy : ∀ i, 0 < i → i < n → f i = y)
    (hnone : ∀ i, n ≤ i → i ≤ greatestPowerBelow (2 * n) → f i = noneWord)
    (hrest : ∀ i, greatestPowerBelow (2 * n) < i → i < 2 * n → f i = y) :
    ∃ i < greatestPowerBelow (2 * n),
      merge (cmpSwap false) 0 (2 * n) f i = y ∧
      merge (cmpSwap false) 0 (2 * n) f (greatestPowerBelow (2 * n)) = noneWord ∧
      ∀ j, greatestPowerBelow (2 * n) < j → j < 2 * n →
        merge (cmpSwap false) 0 (2 * n) f j = y := by
  have hlt := greatestPowerBelow_lt (show 1 < 2 * n by omega)
  have hle := le_two_mul_greatestPowerBelow (2 * n)
  rw [merge_of_lt _ 0 (by omega)]
  generalize greatestPowerBelow (2 * n) = k at *
  have hlayer : layer (cmpSwap false) 0 k (2 * n - k) f = f := by
    refine layer_eq_self fun t ht => ?_
    rw [Nat.zero_add]
    cases t with
    | zero =>
      rw [cmpSwap, hx, Nat.zero_add, hnone k (by omega) le_rfl, h.back]
      rfl
    | succ t =>
      rw [cmpSwap, exchange_of_eq ((hy (t + 1) (by omega) (by omega)).trans
        (hrest (t + 1 + k) (by omega) (by omega)).symm), ite_self]
  have hlow := merge_rearranged (exchanging_cmpSwap false) 0 k f
  have hcell : ∀ i, k ≤ i → merge (cmpSwap false) 0 k f i = f i := fun i hi =>
    hlow.outside (by omega)
  have hupper : merge (cmpSwap false) (0 + k) (2 * n - k) (merge (cmpSwap false) 0 k f) =
      merge (cmpSwap false) 0 k f := by
    refine merge_eq_self fun i j hi hij hj => ?_
    have hj' := (hcell j (by omega)).trans (hrest j (by omega) (by omega))
    rcases Nat.eq_or_lt_of_le hi with heq | hgt
    · rw [cmpSwap, hj', hcell i (by omega), hnone i (by omega) (by omega), h.up]
      rfl
    · have hi' := (hcell i (by omega)).trans (hrest i (by omega) (by omega))
      rw [cmpSwap, exchange_of_eq (hi'.trans hj'.symm), ite_self]
  obtain ⟨i, hi, hmoved⟩ := hlow.symm.source (k := 1) ⟨by omega, by omega⟩
  rw [hlayer, hupper]
  refine ⟨i, by omega, ?_, ?_, fun j hj hj' => ?_⟩
  · rw [← hmoved, hy 1 (by omega) (by omega)]
  · rw [hcell k le_rfl, hnone k (by omega) le_rfl]
  · rw [hcell j hj.le, hrest j hj hj']

theorem Circle.window_sort_low {x y : Word} (h : Circle x y) {f : Nat → Word} {lo n m : Nat}
    (hwindow : window f lo n = x :: List.replicate m y) :
    window (sort cmpSwap lo n true f) lo n = x :: List.replicate m y := by
  have hzero : rankFrom x x = 0 := by rw [rankFrom, sub_self]; rfl
  have hstart : Circuit.Small (x - x) := by rw [sub_self]; decide
  refine window_sort (t := x) hwindow (fun w hw => ?_) ?_
  · rcases List.mem_cons.mp hw with rfl | hw
    · exact hstart
    · rw [List.eq_of_mem_replicate hw]
      exact h.low
  · refine List.pairwise_cons.mpr ⟨fun w _ => ?_, List.pairwise_replicate.mpr (.inr le_rfl)⟩
    rw [if_pos rfl, hzero]
    exact Nat.zero_le _

theorem Circle.window_sort_high {x y : Word} (h : Circle x y) {f : Nat → Word} {lo n m r : Nat}
    (hwindow : window f lo n = List.replicate m noneWord ++ List.replicate r y) :
    window (sort cmpSwap lo n false f) lo n =
      List.replicate m noneWord ++ List.replicate r y := by
  have hzero : rankFrom y y = 0 := by rw [rankFrom, sub_self]; rfl
  have hstart : Circuit.Small (y - y) := by rw [sub_self]; decide
  refine window_sort (t := y) hwindow (fun w hw => ?_) ?_
  · rcases List.mem_append.mp hw with hw | hw <;> rw [List.eq_of_mem_replicate hw]
    · exact h.high
    · exact hstart
  · refine List.pairwise_append.mpr ⟨List.pairwise_replicate.mpr (.inr le_rfl),
      List.pairwise_replicate.mpr (.inr le_rfl), fun a _ b hb => ?_⟩
    rw [List.eq_of_mem_replicate hb, if_neg Bool.false_ne_true, hzero]
    exact Nat.zero_le _

/-- The first tile holds `x` and the words `y`, the second one so many rows without a match that
the first split of the merge falls behind them. -/
theorem not_front_of_circle (htwo : 2 ≤ tileSize) {x y : Word} (h : Circle x y)
    (hy : y ≠ noneWord)
    (hfirst : first = tileOfWords sick (x :: List.replicate (tileSize - 1) y))
    (hsecond : second = tileOfWords sick
      (List.replicate (greatestPowerBelow (2 * tileSize) + 1 - tileSize) noneWord ++
        List.replicate (2 * tileSize - 1 - greatestPowerBelow (2 * tileSize)) y)) :
    ¬ ∃ cells, processFirstPair tileSize sick first second = some cells ∧
      Front cells (2 * tileSize) (matched tileSize sick [first, second]) := by
  have hlt := greatestPowerBelow_lt (show 1 < 2 * tileSize by omega)
  have hle := le_two_mul_greatestPowerBelow (2 * tileSize)
  have heven : 2 ∣ greatestPowerBelow (2 * tileSize) :=
    dvd_pow_self 2 (Nat.log_pos (by decide) (by omega)).ne'
  have hwindow : window (firstPair tileSize sick first second) 0 (tileSize + tileSize) =
      (x :: List.replicate (tileSize - 1) y) ++
        (List.replicate (greatestPowerBelow (2 * tileSize) + 1 - tileSize) noneWord ++
          List.replicate (2 * tileSize - 1 - greatestPowerBelow (2 * tileSize)) y) := by
    rw [hfirst, hsecond, ← Nat.two_mul]
    exact window_firstPair_tileOfWords (by simp; omega) (by simp; omega)
  rw [window_append, Nat.zero_add] at hwindow
  obtain ⟨hlow, hhigh⟩ := List.append_inj hwindow (by simp; omega)
  have hmoved := sort_rearranged exchanging_cmpSwap 0 tileSize true
    (firstPair tileSize sick first second)
  rw [window_congr fun i _ => (hmoved.outside (k := tileSize + i) (by omega)).symm] at hhigh
  have hlow' := h.window_sort_low hlow
  have hhigh' := h.window_sort_high hhigh
  have hmoved' := sort_rearranged exchanging_cmpSwap tileSize tileSize false
    (sort cmpSwap 0 tileSize true (firstPair tileSize sick first second))
  rw [window_congr fun i _ => (hmoved'.outside (k := 0 + i) (by omega)).symm] at hlow'
  obtain ⟨i, hi, hleft, hmid, hright⟩ := merge_circle h htwo
    (by simpa using cell_of_window hlow' (i := 0) (by omega) (x := x) rfl)
    (fun i hi hi' => by
      have hcell := cell_of_window hlow' hi' (x := y) (by
        rw [List.getElem?_cons, if_neg (by omega), List.getElem?_replicate_of_lt (by omega)])
      rwa [Nat.zero_add] at hcell)
    (fun i hi hi' => by
      have hcell := cell_of_window hhigh' (i := i - tileSize) (by omega) (x := noneWord) (by
        rw [List.getElem?_append_left (by simp; omega), List.getElem?_replicate_of_lt (by omega)])
      rwa [Nat.add_sub_cancel' hi] at hcell)
    (fun i hi hi' => by
      have hcell := cell_of_window hhigh' (i := i - tileSize) (by omega) (x := y) (by
        rw [List.getElem?_append_right (by simp; omega), List.length_replicate,
          List.getElem?_replicate_of_lt (by omega)])
      rwa [Nat.add_sub_cancel' (by omega)] at hcell)
  refine not_front_of_between (by omega) hy ?_ hi (Nat.lt_succ_self _) (by omega) hleft
    (by rw [hmid]; exact hy.symm) (hright _ (Nat.lt_succ_self _) (by omega))
  rw [sort_of_lt cmpSwap 0 (by omega), show 2 * tileSize / 2 = tileSize by omega,
    show 2 * tileSize - tileSize = tileSize by omega, Nat.zero_add]
  rfl

/-- Whatever two tiles with fingerprints from the given ones hold, every fingerprint that matches
is returned once and only none follows, if and only if each tile has one row, or the given
fingerprints lie with none on one half of the circle. -/
theorem processFirstPair_iff {allowed : Set Word} (hreal : noneWord ∉ allowed) :
    (∀ sick first second, (∀ w ∈ matched tileSize sick [first, second], w ∈ allowed) →
      ∃ cells, processFirstPair tileSize sick first second = some cells ∧
        Front cells (2 * tileSize) (matched tileSize sick [first, second])) ↔
      tileSize = 1 ∨ 2 ≤ tileSize ∧ Comparable allowed := by
  constructor
  · intro hall
    have hpos : tileSize ≠ 0 := by
      rintro rfl
      obtain ⟨cells, hcells, -⟩ := hall 0 (fun _ => false) (fun _ => false)
        (by simp [matched])
      simp [processFirstPair, markAndCompact, computeDistanceMarkDuplicates] at hcells
    by_cases hone : tileSize = 1
    · exact .inl hone
    have htwo : 2 ≤ tileSize := by omega
    have hopposite : ∀ x y, x = y + noneWord → x = noneWord ∨ x ∈ allowed → y ∉ allowed := by
      intro x y hxy hx hy
      refine not_front_of_opposite htwo hxy (fun heq => hreal (heq ▸ hy)) rfl
        (hall 0 _ _ fun w hw => ?_)
      obtain ⟨hnone, hmem⟩ := mem_matched_tileOfWords (by simp; omega) (by simp; omega) hw
      have hxw : w = x ∨ w = y := by
        simp only [List.mem_append, List.mem_replicate, List.mem_singleton] at hmem
        tauto
      rcases hxw with rfl | rfl
      · exact hx.resolve_left hnone
      · exact hy
    have hzero : 0 ∉ allowed := hopposite noneWord 0 (by decide) (.inl rfl)
    refine .inr ⟨htwo, hzero, fun x hx y hy hx' hy' => ?_⟩
    by_contra hge
    rcases Nat.eq_or_lt_of_le (not_lt.mp hge) with heq | hlt
    · refine hopposite x y (BitVec.eq_of_toNat_eq ?_) (.inr hx) hy
      have hnone : noneWord.toNat = 2 ^ 31 := by decide
      rw [BitVec.toNat_add, hnone, heq, Nat.mod_eq_of_lt (BitVec.isLt x)]
    · have hpos : 0 < y.toNat := Nat.pos_of_ne_zero fun h =>
        hzero ((BitVec.eq_of_toNat_eq h : y = 0) ▸ hy)
      have hlow := greatestPowerBelow_lt (show 1 < 2 * tileSize by omega)
      have hhigh := le_two_mul_greatestPowerBelow (2 * tileSize)
      refine not_front_of_circle htwo (circle_of_toNat hpos hy' hlt) (fun heq => hreal (heq ▸ hy))
        rfl rfl (hall 0 _ _ fun w hw => ?_)
      obtain ⟨hnone, hmem⟩ := mem_matched_tileOfWords (by simp; omega) (by simp; omega) hw
      simp only [List.mem_append, List.mem_cons, List.mem_replicate] at hmem
      obtain (hw | ⟨-, hw⟩) | ⟨-, hw⟩ | ⟨-, hw⟩ := hmem
      · exact hw ▸ hx
      · exact hw ▸ hy
      · exact absurd hw hnone
      · exact hw ▸ hy
  · rintro (rfl | ⟨htwo, hcomparable⟩) sick first second hmem
    · exact processFirstPair_one fun hnone => hreal (hmem _ hnone)
    · exact processFirstPair_of_comparable (by omega) (fun hnone => hreal (hmem _ hnone))
        ⟨fun hzero => hcomparable.zero (hmem _ hzero), fun x hx y hy =>
          hcomparable.gap x (hmem x hx) y (hmem y hy)⟩

end Spec

/-- Fingerprints `1` and `7` in a tile of two rows, fetched twice. -/
theorem processFirstPair_oneSeven :
    let tile := tileOfWords 5 [1, 7]
    ∃ cells, processFirstPair 2 5 tile tile = some cells ∧
      Front cells (2 * 2) (matched 2 5 [tile, tile]) := by
  have hall : _ ↔ 2 = 1 ∨ 2 ≤ 2 ∧ Comparable ({1, 7} : Set Word) := processFirstPair_iff (by decide)
  refine hall.mpr (.inr ⟨le_rfl, by decide, fun x hx y _ hlarge => ?_⟩) 5 _ _ fun w hw => ?_
  · rcases hx with rfl | rfl <;> exact absurd hlarge (by decide)
  · have hmem := (mem_matched_tileOfWords rfl rfl hw).2
    simpa [or_assoc] using hmem

/-- Fingerprint zero in the last of two rows, fetched twice, is returned twice. -/
theorem processFirstPair_zero :
    let tile := tileOfWords 5 [noneWord, 0]
    (∀ w ∈ matched 2 5 [tile, tile], w ≠ noneWord) ∧
      ¬ ∃ cells, processFirstPair 2 5 tile tile = some cells ∧
        Front cells (2 * 2) (matched 2 5 [tile, tile]) :=
  ⟨fun _ hw => (mem_matched_tileOfWords rfl rfl hw).1,
    not_front_of_opposite (x := noneWord) (y := 0) le_rfl (by decide) (by decide) rfl⟩

end CoVault.MapReduce.Wrapped
