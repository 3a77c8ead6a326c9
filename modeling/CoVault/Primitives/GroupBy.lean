import CoVault.Circuit.Compare
import CoVault.Library.NetworkContents
import CoVault.Primitives.Aggregate

/-!
# The primitives in a row

A list is filtered, sorted, counted by groups, compacted and merged again. None is `-1` and the
comparison is the sign of a difference, so that none is the least of the words as long as these
are numbers other than the greatest one. Then one word of every group that passes the filter comes
out, in descending order, and the merge has nothing left to do.
-/

namespace CoVault.Primitives

open Circuit Library Library.Cells Library.SortNetwork MapReduce

variable {w size : Nat}

section Model

/-- `a > b`. -/
def greater (a b : BitVec w) : Bool := !geq b a

/-- One step of the network: swap if `(key[i] > key[j]) == acc`. -/
def cmpSwap (acc : Bool) (i j : Nat) (f : Nat → BitVec w) : Nat → BitVec w :=
  if greater (f i) (f j) == acc then exchange f i j else f

/-- The words from `match` on, and none for all others. -/
def filter (match_ : BitVec w) (list : Nat → BitVec w) : Nat → BitVec w := fun i =>
  if geq (list i) match_ then list i else BitVec.allOnes w

/-- What `main` does with one list, up to the last merge. -/
def compacted (size : Nat) (match_ : BitVec w) (list : Nat → BitVec w) :
    Option (Nat → BitVec w) := do
  let result := sort cmpSwap 0 size false (filter match_ list)
  let s ← aggregate size result
  let distance ← computeDistance size s.list
  some (compact size distance s.list).data

/-- What `main` does with one list. -/
def groupBy (size : Nat) (match_ : BitVec w) (list : Nat → BitVec w) :
    Option (Nat → BitVec w) := do
  let cells ← compacted size match_ list
  some (merge (cmpSwap false) 0 size cells)

end Model

/-! ## The comparison -/

/-- None, or a number that is neither negative nor the greatest one. -/
def Countable (x : BitVec w) : Prop := Circuit.Small (x + 1)

instance (x : BitVec w) : Decidable (Countable x) := inferInstanceAs (Decidable (Circuit.Small _))

section Compare

variable {a b x : BitVec w}

theorem none_add_one : BitVec.allOnes w + 1 = 0 := by
  rw [← BitVec.neg_one_eq_allOnes]
  exact neg_add_cancel 1

theorem countable_none : Countable (BitVec.allOnes w) := by
  rw [Countable, none_add_one, Circuit.Small]
  simp

theorem toInt_add_one (hw : 0 < w) (h : Countable x) : x.toInt + 1 = (x + 1).toNat := by
  have htwo : 2 ≤ 2 ^ w := Nat.le_self_pow hw.ne' 2
  have hone : (1 : BitVec w).toNat = 1 := BitVec.toNat_one hw
  have hlt := x.isLt
  rw [Countable, Circuit.Small, BitVec.toNat_add, hone] at h
  rw [BitVec.toNat_add, hone, BitVec.toInt_eq_toNat_cond]
  rcases Nat.lt_or_ge (x.toNat + 1) (2 ^ w) with hsum | hsum
  · rw [Nat.mod_eq_of_lt hsum] at h ⊢
    rw [if_pos (by omega)]
    rfl
  · have hlast : x.toNat + 1 = 2 ^ w := by omega
    rw [hlast, Nat.mod_self, if_neg (by omega)]
    omega

theorem none_toInt_le (hw : 0 < w) (hx : Countable x) : (BitVec.allOnes w).toInt ≤ x.toInt := by
  have hone := toInt_add_one hw hx
  have hnone := toInt_add_one hw (countable_none (w := w))
  have hzero : (0 : BitVec w).toNat = 0 := BitVec.toNat_zero
  rw [none_add_one, hzero] at hnone
  omega

theorem geq_iff_toInt (hw : 0 < w) (ha : Countable a) (hb : Countable b) :
    geq a b = true ↔ b.toInt ≤ a.toInt := by
  have hshift : geq a b = geq (a + 1) (b + 1) := by
    rw [geq, geq, add_sub_add_right_eq_sub]
  have hone := toInt_add_one hw ha
  have hone' := toInt_add_one hw hb
  rw [hshift, geq_iff ha hb]
  omega

theorem greater_iff_toInt (hw : 0 < w) (ha : Countable a) (hb : Countable b) :
    greater a b = true ↔ b.toInt < a.toInt := by
  rw [greater, Bool.not_eq_true', ← Bool.not_eq_true, geq_iff_toInt hw hb ha, not_le]

end Compare

/-! ## The sort -/

section Network

variable {f : Nat → BitVec w}

theorem exchanging_cmpSwap (acc : Bool) : Exchanging (cmpSwap (w := w) acc) := by
  intro i j f
  unfold cmpSwap
  split_ifs
  · exact .inr rfl
  · exact .inl rfl

theorem descending_iff {lo n : Nat} : Descending (keys BitVec.toInt f lo) n ↔
    (window f lo n).Pairwise fun a b => b.toInt ≤ a.toInt := by
  rw [pairwise_window_of_refl (r := fun a b : BitVec w => b.toInt ≤ a.toInt) fun _ => le_rfl]
  rfl

/-- Numbers are sorted as such. -/
theorem sort_descending (hw : 0 < w) (hall : AllCells Countable 0 size f) :
    (window (sort cmpSwap 0 size false f) 0 size).Pairwise fun a b => b.toInt ≤ a.toInt := by
  have hkey : sort cmpSwap 0 size false f = sort (fun acc i j f =>
      if decide ((f j).toInt < (f i).toInt) == acc then exchange f i j else f) 0 size false f := by
    refine sort_congr exchanging_cmpSwap (fun acc i j f hi hj => ?_) false hall
    have hgreater : greater (f i) (f j) = decide ((f j).toInt < (f i).toInt) := by
      rw [Bool.eq_iff_iff, greater_iff_toInt hw hi hj, decide_eq_true_iff]
    rw [cmpSwap, hgreater]
  have hsorted : Descending _ _ := sort_sortedIn (twoWay_of_key BitVec.toInt) 0 size false f
  rw [← hkey] at hsorted
  exact descending_iff.mp hsorted

/-- A list in descending order is left alone by a merge. -/
theorem merge_descending (hw : 0 < w) (hall : AllCells Countable 0 size f)
    (h : (window f 0 size).Pairwise fun a b => b.toInt ≤ a.toInt) :
    merge (cmpSwap false) 0 size f = f := by
  refine merge_eq_self fun i j _ hij hj => ?_
  have hle := descending_iff.mpr h i j hij.le (by omega)
  simp only [keys, Nat.zero_add] at hle
  by_cases heq : f i = f j
  · rw [cmpSwap, exchange_of_eq heq, ite_self]
  · have hlt := lt_of_le_of_ne hle fun hint => heq (BitVec.eq_of_toInt_eq hint.symm)
    rw [cmpSwap, (greater_iff_toInt hw (hall i (by omega) (by omega)) (hall j (by omega) hj)).mpr hlt]
    rfl

end Network

/-! ## The whole chain -/

section Chain

variable {match_ : BitVec w} {list : Nat → BitVec w}

theorem mem_window_filter (hw : 0 < w) (hmatch : Countable match_)
    (hlist : AllCells Countable 0 size list) {x : BitVec w} (hx : x ≠ BitVec.allOnes w) :
    x ∈ window (filter match_ list) 0 size ↔ x ∈ window list 0 size ∧ match_.toInt ≤ x.toInt := by
  simp only [mem_window, filter, Nat.zero_add]
  constructor
  · rintro ⟨k, hk, hcell⟩
    split_ifs at hcell with hgeq
    · subst hcell
      exact ⟨⟨k, hk, rfl⟩, (geq_iff_toInt hw (hlist k (by omega) (by omega)) hmatch).mp hgeq⟩
    · exact absurd hcell.symm hx
  · rintro ⟨⟨k, hk, rfl⟩, hle⟩
    exact ⟨k, hk, if_pos ((geq_iff_toInt hw (hlist k (by omega) (by omega)) hmatch).mpr hle)⟩

theorem countable_filter (match_ : BitVec w) (hlist : AllCells Countable 0 size list) :
    AllCells Countable 0 size (filter match_ list) := fun k hk hk' => by
  unfold filter
  split_ifs
  · exact hlist k hk hk'
  · exact countable_none

/-- The last word of every run stays. -/
theorem window_aggregate (hsize : 2 ≤ size) (list : Nat → BitVec w) :
    ∃ s, aggregate size list = some s ∧ window s.list 0 size =
      Duplicates.markRuns (BitVec.allOnes w) (window list 0 size) := by
  obtain ⟨s, hs, hspec⟩ := aggregate_spec hsize list
  refine ⟨s, hs, ?_⟩
  rw [← Duplicates.window_mark]
  refine window_congr fun i hi => ?_
  have hcell := hspec i hi
  simp only [Nat.zero_add, Duplicates.mark]
  split_ifs at hcell with hlast
  · rw [hcell.1, if_neg]
    rintro ⟨hi', heq⟩
    exact hlast.elim (by omega) fun hne => hne heq.symm
  · rw [hcell.1, if_pos]
    rw [Duplicates.IsLast, not_or, not_not] at hlast
    exact ⟨by omega, hlast.2.symm⟩

/-- The words in front of the nones. -/
theorem window_compact (hsize : 2 ≤ size) (list : Nat → BitVec w) :
    ∃ distance, computeDistance size list = some distance ∧
      window (compact size distance list).data 0 size =
        (window list 0 size).filter (fun x => decide (x ≠ BitVec.allOnes w)) ++
          List.replicate (Compaction.gaps (BitVec.allOnes w) list size) (BitVec.allOnes w) := by
  obtain ⟨distance, hdistance, hmeasured⟩ := computeDistance_spec hsize list
  have hstate : (compact size distance list).toState = Compaction.compact (BitVec.allOnes w) size
      (nBits size) ⟨list, BitVec.toNat ∘ distance⟩ :=
    Compaction.compact_of_move _ _ _ toState_compactCell ..
  refine ⟨distance, hdistance, ?_⟩
  rw [← Compaction.window_compact hmeasured (size_le_two_pow_nBits hsize), ← hstate]
  rfl

/-- Counting and compacting leave one word of every group of a list in descending order. -/
theorem compact_aggregate (hsize : 2 ≤ size) {sorted : Nat → BitVec w}
    (h : (window sorted 0 size).Pairwise fun a b => b.toInt ≤ a.toInt) :
    ∃ s distance kept, aggregate size sorted = some s ∧
      computeDistance size s.list = some distance ∧
      window (compact size distance s.list).data 0 size =
        kept ++ List.replicate (size - kept.length) (BitVec.allOnes w) ∧
      kept.Pairwise (fun a b => b.toInt < a.toInt) ∧
      ∀ x, x ∈ kept ↔ x ≠ BitVec.allOnes w ∧ x ∈ window sorted 0 size := by
  obtain ⟨s, hs, hmarked⟩ := window_aggregate hsize sorted
  obtain ⟨distance, hdistance, hdata⟩ := window_compact hsize s.list
  rw [hmarked, ← Duplicates.unmarked] at hdata
  have hnones : Compaction.gaps (BitVec.allOnes w) s.list size =
      size - (Duplicates.unmarked (BitVec.allOnes w) (window sorted 0 size)).length := by
    have hlength := congrArg List.length hdata
    rw [length_window, List.length_append, List.length_replicate] at hlength
    omega
  rw [hnones] at hdata
  refine ⟨s, distance, _, hs, hdistance, hdata, ?_, fun x => Duplicates.mem_unmarked⟩
  refine Duplicates.pairwise_unmarked _ (fun a b c hab hbc => hbc.trans hab) (h.imp ?_)
  exact fun {a b} hle => (lt_or_eq_of_le hle).symm.imp_left fun heq =>
    (BitVec.eq_of_toInt_eq heq).symm

/-- Words in descending order with nones behind them. -/
theorem merge_kept (hw : 0 < w) {cells : Nat → BitVec w} {kept : List (BitVec w)}
    (hcells : window cells 0 size =
      kept ++ List.replicate (size - kept.length) (BitVec.allOnes w))
    (hkept : kept.Pairwise fun a b => b.toInt < a.toInt) (hleft : ∀ x ∈ kept, Countable x) :
    merge (cmpSwap false) 0 size cells = cells := by
  refine merge_descending hw (fun k _ hk => ?_) ?_
  · have hx : cells k ∈ window cells 0 size :=
      mem_window.mpr ⟨k, by omega, by rw [Nat.zero_add]⟩
    rw [hcells] at hx
    rcases List.mem_append.mp hx with hx | hx
    · exact hleft _ hx
    · rw [List.eq_of_mem_replicate hx]
      exact countable_none
  · rw [hcells, List.pairwise_append]
    refine ⟨hkept.imp le_of_lt, List.pairwise_replicate_of_refl, fun a ha b hb => ?_⟩
    rw [List.eq_of_mem_replicate hb]
    exact none_toInt_le hw (hleft a ha)

/-- Of a list of numbers, and none, those from `match` on come out, each once and in descending
order, and then none. They are in place before the last merge. -/
theorem groupBy_eq (hw : 0 < w) (hsize : 2 ≤ size) (hmatch : Countable match_)
    (hlist : ∀ i < size, Countable (list i)) :
    ∃ cells kept, compacted size match_ list = some cells ∧
      groupBy size match_ list = some cells ∧
      window cells 0 size = kept ++ List.replicate (size - kept.length) (BitVec.allOnes w) ∧
      kept.Pairwise (fun a b => b.toInt < a.toInt) ∧
      ∀ x, x ∈ kept ↔ x ≠ BitVec.allOnes w ∧ x ∈ window list 0 size ∧ match_.toInt ≤ x.toInt := by
  have hcells : AllCells Countable 0 size list := fun k _ hk => hlist k (by omega)
  have hmoved := sort_rearranged exchanging_cmpSwap 0 size false (filter match_ list)
  obtain ⟨s, distance, kept, hs, hdistance, hdata, hdescending, hmem⟩ :=
    compact_aggregate hsize (sort_descending hw (countable_filter match_ hcells))
  have hall : ∀ x, x ∈ kept ↔
      x ≠ BitVec.allOnes w ∧ x ∈ window list 0 size ∧ match_.toInt ≤ x.toInt := fun x => by
    rw [hmem, hmoved.perm.mem_iff]
    exact and_congr_right fun hx => mem_window_filter hw hmatch hcells hx
  have hleft : ∀ x ∈ kept, Countable x := fun x hx => by
    obtain ⟨k, hk, rfl⟩ := mem_window.mp ((hall x).mp hx).2.1
    exact hcells _ (by omega) (by omega)
  have hcompacted : compacted size match_ list = some (compact size distance s.list).data := by
    simp only [compacted, hs, hdistance, Option.bind_eq_bind, Option.bind_some]
  refine ⟨_, kept, hcompacted, ?_, hdata, hdescending, hall⟩
  rw [groupBy, hcompacted, Option.bind_eq_bind, Option.bind_some,
    merge_kept hw hdata hdescending hleft]

end Chain

/-- From `3` on, of `5`, none, `3`, `5` and `1`. -/
theorem groupBy_five : ∃ cells kept,
    compacted 5 (3 : BitVec 8) (ofList [5, 255, 3, 5, 1] 0) = some cells ∧
      groupBy 5 (3 : BitVec 8) (ofList [5, 255, 3, 5, 1] 0) = some cells ∧
      window cells 0 5 = kept ++ List.replicate (5 - kept.length) (BitVec.allOnes 8) ∧
      kept.Pairwise (fun a b => b.toInt < a.toInt) ∧
      ∀ x, x ∈ kept ↔ x ≠ BitVec.allOnes 8 ∧
        x ∈ window (ofList [5, 255, 3, 5, 1] (0 : BitVec 8)) 0 5 ∧
          (3 : BitVec 8).toInt ≤ x.toInt :=
  groupBy_eq (by decide) (by decide) (by decide) (by decide)

end CoVault.Primitives
