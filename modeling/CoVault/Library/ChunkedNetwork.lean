import CoVault.Library.SortNetwork

/-!
# Networks in pieces

A layer of comparisons is made chunk by chunk, and the parts of a network that are small enough are
left to networks of which only the results are known. They are taken out of the cells as windows and
put back. The whole sorts as long as every chunk is an exchange of disjoint cells; where it is not,
contents are lost, and nothing that draws from the cells brings them back.
-/

namespace CoVault.Library.SortNetwork

open Cells

variable {α β : Type*} [LinearOrder β]

/-! ## Windows -/

/-- The window of `n` cells from `lo` on gets the contents of `g`. -/
def putWindow (lo n : Nat) (g f : Nat → α) : Nat → α :=
  fun p => if lo ≤ p ∧ p < lo + n then g (p - lo) else f p

theorem putWindow_of_lt {lo n i : Nat} (h : i < n) (g f : Nat → α) :
    putWindow lo n g f (lo + i) = g i := by
  rw [putWindow, if_pos (by omega), Nat.add_sub_cancel_left]

theorem putWindow_of_not {lo n p : Nat} (h : ¬ (lo ≤ p ∧ p < lo + n)) (g f : Nat → α) :
    putWindow lo n g f p = f p := if_neg h

theorem putWindow_congr {lo n p : Nat} {g f f' : Nat → α} (h : f p = f' p) :
    putWindow lo n g f p = putWindow lo n g f' p := by
  rw [putWindow, putWindow, h]

theorem putWindow_succ (lo n : Nat) (g f : Nat → α) (p : Nat) :
    putWindow lo (n + 1) g f p = if p = lo + n then g n else putWindow lo n g f p := by
  by_cases hp : p = lo + n
  · rw [if_pos hp, hp, putWindow_of_lt (Nat.lt_succ_self n)]
  · simp only [putWindow, if_neg hp]
    exact if_congr (by omega) rfl rfl

/-- What is put back is all there is to know of the cells. -/
theorem eq_putWindow {lo n : Nat} {f g h : Nat → α} (hin : ∀ i < n, h (lo + i) = g i)
    (hout : ∀ p, p < lo ∨ lo + n ≤ p → h p = f p) : putWindow lo n g f = h := by
  funext p
  rw [putWindow]
  split_ifs with hp
  · have hsame := hin (p - lo) (by omega)
    rw [Nat.add_sub_cancel' hp.1] at hsame
    exact hsame.symm
  · exact (hout p (by omega)).symm

/-! ## The steps that look at keys -/

section Keys

variable (key : α → β)

/-- Two cells are exchanged if `(key[i] > key[j]) == acc`. -/
def cmpSwap (acc : Bool) (i j : Nat) (f : Nat → α) : Nat → α :=
  if decide (key (f j) < key (f i)) == acc then exchange f i j else f

theorem twoWay_cmpSwap : TwoWay key (cmpSwap key) := twoWay_of_key key

/-- The content of a cell after a step that compares it with the content above it. -/
def lowCell (acc : Bool) (x y : α) : α := if decide (key y < key x) == acc then y else x

def highCell (acc : Bool) (x y : α) : α := if decide (key y < key x) == acc then x else y

theorem lowCell_eq_or (acc : Bool) (x y : α) :
    lowCell key acc x y = x ∨ lowCell key acc x y = y := by
  unfold lowCell
  split_ifs
  · exact Or.inr rfl
  · exact Or.inl rfl

theorem highCell_eq_or (acc : Bool) (x y : α) :
    highCell key acc x y = x ∨ highCell key acc x y = y := by
  unfold highCell
  split_ifs
  · exact Or.inl rfl
  · exact Or.inr rfl

/-- Against the direction, equal keys are exchanged. -/
theorem lowCell_false_of_eq {x y : α} (h : key x = key y) : lowCell key false x y = y := by
  simp [lowCell, h]

theorem highCell_false_of_eq {x y : α} (h : key x = key y) : highCell key false x y = x := by
  simp [highCell, h]

theorem cmpSwap_apply (acc : Bool) (i j : Nat) (f : Nat → α) (k : Nat) :
    cmpSwap key acc i j f k = if k = i then lowCell key acc (f i) (f j)
      else if k = j then highCell key acc (f i) (f j) else f k := by
  unfold cmpSwap lowCell highCell
  split_ifs <;> simp_all [exchange]

/-- What a layer puts into its cells. -/
theorem layer_cmpSwap (acc : Bool) {lo m r : Nat} (hr : r ≤ m) (f : Nat → α) :
    layer (cmpSwap key acc) lo m r f =
      putWindow (lo + m) r (fun i => highCell key acc (f (lo + i)) (f (lo + m + i)))
        (putWindow lo r (fun i => lowCell key acc (f (lo + i)) (f (lo + m + i))) f) := by
  induction r with
  | zero =>
    funext p
    rw [putWindow_of_not (by omega), putWindow_of_not (by omega)]
    rfl
  | succ r ih =>
    rw [layer_succ, ih (by omega)]
    funext p
    have hlow : lo + r < lo + m := by omega
    rw [cmpSwap_apply, putWindow_of_not (p := lo + r) (by omega),
      putWindow_of_not (p := lo + r) (by omega), putWindow_of_not (p := lo + r + m) (by omega),
      putWindow_of_not (p := lo + r + m) (by omega), Nat.add_right_comm lo r m, putWindow_succ]
    by_cases hp : p = lo + r
    · rw [if_pos hp, if_neg (by omega), putWindow_of_not (by omega), putWindow_succ, if_pos hp]
    · rw [if_neg hp]
      by_cases hp' : p = lo + m + r
      · rw [if_pos hp', if_pos hp']
      · rw [if_neg hp', if_neg hp']
        exact putWindow_congr (by rw [putWindow_succ, if_neg hp])

end Keys

/-- A layer is made of the layers on its first and on its last cells. -/
theorem layer_add (ce : Nat → Nat → (Nat → α) → (Nat → α)) (lo m r r' : Nat) (f : Nat → α) :
    layer ce lo m (r + r') f = layer ce (lo + r) m r' (layer ce lo m r f) := by
  induction r' with
  | zero => rfl
  | succ r' ih => rw [← Nat.add_assoc, layer_succ, layer_succ, ih, ← Nat.add_assoc]

/-! ## Networks in pieces -/

/-- `net n` sorts `n` cells. -/
structure Sorts (key : α → β) (net : Nat → (Nat → α) → Nat → α) : Prop where
  rearranged : ∀ n f, Rearranged 0 n f (net n f)
  ascending : ∀ n f, Ascending (keys key (net n f) 0) n

/-- `net n` merges `n` cells. -/
structure Merges (key : α → β) (net : Nat → (Nat → α) → Nat → α) : Prop where
  rearranged : ∀ n f, Rearranged 0 n f (net n f)
  valley : ∀ n f, Valley (keys key f 0) n → Ascending (keys key (net n f) 0) n
  bitonic : ∀ k f, Bitonic (keys key f 0) (2 ^ k) → Ascending (keys key (net (2 ^ k) f) 0) (2 ^ k)

theorem merges_merge {key : α → β} {ce : Nat → Nat → (Nat → α) → (Nat → α)}
    (hc : Comparator key ce) : Merges key fun n => merge ce 0 n where
  rearranged := merge_rearranged hc.exchanging 0
  valley n := merge_ascending_of_valley hc n 0
  bitonic k := merge_ascending_of_bitonic hc k 0

theorem sorts_sort {key : α → β} {ce : Bool → Nat → Nat → (Nat → α) → (Nat → α)}
    (hc : TwoWay key ce) : Sorts key (fun n => sort ce 0 n true) ∧
      Sorts (OrderDual.toDual ∘ key) fun n => sort ce 0 n false :=
  ⟨⟨fun n => sort_rearranged hc.exchanging 0 n true, fun n => sort_sortedIn hc 0 n true⟩,
    ⟨fun n => sort_rearranged hc.exchanging 0 n false, fun n => sort_sortedIn hc 0 n false⟩⟩

/-- A network on the window of `n` cells from `lo` on. -/
def onWindow (net : Nat → (Nat → α) → Nat → α) (lo n : Nat) (f : Nat → α) : Nat → α :=
  putWindow lo n (net n fun i => f (lo + i)) f

theorem onWindow_rearranged {net : Nat → (Nat → α) → Nat → α}
    (hnet : ∀ n f, Rearranged 0 n f (net n f)) (lo n : Nat) (f : Nat → α) :
    Rearranged lo n f (onWindow net lo n f) := by
  obtain ⟨σ, hσ, heq⟩ := hnet n fun i => f (lo + i)
  have hin : ∀ i, i < n → σ i < n := by
    intro i hi
    by_contra hout
    have := σ.injective (hσ (σ i) (by omega))
    omega
  refine ⟨⟨fun p => if lo ≤ p then lo + σ (p - lo) else p,
    fun p => if lo ≤ p then lo + σ.symm (p - lo) else p, fun p => ?_, fun p => ?_⟩, ?_, ?_⟩
  · by_cases hp : lo ≤ p <;> simp [hp]
  · by_cases hp : lo ≤ p <;> simp [hp]
  · intro p hp
    by_cases hlo : lo ≤ p
    · simp only [Equiv.coe_fn_mk, if_pos hlo, hσ (p - lo) (by omega)]
      omega
    · simp only [Equiv.coe_fn_mk, if_neg hlo]
  · refine eq_putWindow (fun i hi => ?_) fun p hp => ?_
    · rw [heq]
      simp
    · by_cases hlo : lo ≤ p
      · simp only [Function.comp_apply, Equiv.coe_fn_mk, if_pos hlo, hσ (p - lo) (by omega),
          Nat.add_sub_cancel' hlo]
      · simp only [Function.comp_apply, Equiv.coe_fn_mk, if_neg hlo]

theorem keys_onWindow {γ : Type*} {net : Nat → (Nat → α) → Nat → α} {key : α → γ}
    {lo n i : Nat} (h : i < n) (f : Nat → α) : keys key (onWindow net lo n f) lo i =
      keys key (net n fun i => f (lo + i)) 0 i := by
  rw [keys, onWindow, putWindow_of_lt h, keys, Nat.zero_add]

theorem keys_window {γ : Type*} (key : α → γ) (f : Nat → α) (lo : Nat) :
    keys key (fun i => f (lo + i)) 0 = keys key f lo := by
  funext i
  rw [keys, keys, Nat.zero_add]

section Pieces

variable (ce : Nat → Nat → (Nat → α) → (Nat → α)) (net : Nat → (Nat → α) → Nat → α) (limit : Nat)

/-- The merge network down to the parts that `net` may do. -/
def mergeInPieces (lo n : Nat) (f : Nat → α) : Nat → α :=
  if _h : 1 < n ∧ limit < n then
    let m := greatestPowerBelow n
    mergeInPieces (lo + m) (n - m) (mergeInPieces lo m (layer ce lo m (n - m) f))
  else if 1 < n then onWindow net lo n f else f
termination_by n
decreasing_by
  · exact greatestPowerBelow_lt _h.1
  · have := greatestPowerBelow_pos n; omega

variable {limit}

theorem mergeInPieces_of_lt (lo : Nat) {n : Nat} (h : 1 < n) (hlimit : limit < n) (f : Nat → α) :
    mergeInPieces ce net limit lo n f =
      mergeInPieces ce net limit (lo + greatestPowerBelow n) (n - greatestPowerBelow n)
        (mergeInPieces ce net limit lo (greatestPowerBelow n)
          (layer ce lo (greatestPowerBelow n) (n - greatestPowerBelow n) f)) := by
  rw [mergeInPieces, dif_pos ⟨h, hlimit⟩]

theorem mergeInPieces_of_le (lo : Nat) {n : Nat} (hlimit : n ≤ limit) (f : Nat → α) :
    mergeInPieces ce net limit lo n f = if 1 < n then onWindow net lo n f else f := by
  rw [mergeInPieces, dif_neg (by omega)]

variable {ce net} (limit)

theorem mergeInPieces_rearranged (hc : Exchanging ce) (hnet : ∀ n f, Rearranged 0 n f (net n f))
    (lo n : Nat) (f : Nat → α) : Rearranged lo n f (mergeInPieces ce net limit lo n f) := by
  induction lo, n, f using mergeInPieces.induct ce net limit with
  | case1 lo n f h m ihLow _ ihHigh =>
    rw [mergeInPieces_of_lt ce net lo h.1 h.2]
    have hm : m < n := greatestPowerBelow_lt h.1
    have hfirst : Rearranged lo n f (layer ce lo m (n - m) f) := layer_rearranged hc (by omega)
    have hlow : Rearranged lo n _ _ := ihLow.mono (le_refl lo) (by omega)
    have hhigh : Rearranged lo n _ _ := ihHigh.mono (by omega) (by omega)
    exact hfirst.trans (hlow.trans hhigh)
  | case2 lo n f h hn =>
    rw [mergeInPieces, dif_neg h, if_pos hn]
    exact onWindow_rearranged hnet lo n f
  | case3 lo n f h hn =>
    rw [mergeInPieces, dif_neg h, if_neg hn]
    exact Rearranged.refl lo n f

section Ascending

variable {key : α → β} (hc : Comparator key ce) (hnet : Merges key net)

include hc hnet

/-- For a power of two every bitonic input is sorted. -/
theorem mergeInPieces_ascending_of_bitonic (k : Nat) :
    ∀ (lo : Nat) (f : Nat → α), Bitonic (keys key f lo) (2 ^ k) →
      Ascending (keys key (mergeInPieces ce net limit lo (2 ^ k) f) lo) (2 ^ k) := by
  have hrearranged := mergeInPieces_rearranged limit hc.exchanging hnet.rearranged
  induction k with
  | zero =>
    intro lo f _ i j hij hj
    have : i = j := by omega
    rw [this]
  | succ k ih =>
    intro lo f hb
    have hpos := Nat.two_pow_pos k
    have hpow : 2 ^ (k + 1) = 2 ^ k + 2 ^ k := by rw [pow_succ]; ring
    have hone : 1 < 2 ^ (k + 1) := by omega
    by_cases hlimit : limit < 2 ^ (k + 1)
    · have hhalf := greatestPowerBelow_two_pow k
      have hrest : 2 ^ (k + 1) - 2 ^ k = 2 ^ k := by omega
      rw [mergeInPieces_of_lt ce net lo hone hlimit, hhalf, hrest]
      rw [hpow] at hb
      have hclean := layer_halfCleaned hc lo f (le_refl (2 ^ k))
      have hmerged := hrearranged lo (2 ^ k) (layer ce lo (2 ^ k) (2 ^ k) f)
      refine Ascending.of_parts hmerged (by rw [hrest]; exact hrearranged _ _ _) ?_
        (ih lo _ (hclean.low_bitonic hb)) ?_
      · rw [hrest]
        exact fun i j hi hj => hclean.separated_of_bitonic hb hi hj
      · rw [hrest]
        refine ih _ _ ((hclean.high_bitonic hb).congr fun j _ => ?_)
        rw [keys, keys, hmerged.outside (by omega)]
    · rw [mergeInPieces_of_le ce net lo (by omega), if_pos hone]
      intro i j hij hj
      rw [keys_onWindow (by omega), keys_onWindow hj]
      exact hnet.bitonic _ _ (by rwa [keys_window]) i j hij hj

/-- For any length a descending part followed by an ascending part is sorted. -/
theorem mergeInPieces_ascending_of_valley (n : Nat) :
    ∀ (lo : Nat) (f : Nat → α), Valley (keys key f lo) n →
      Ascending (keys key (mergeInPieces ce net limit lo n f) lo) n := by
  have hrearranged := mergeInPieces_rearranged limit hc.exchanging hnet.rearranged
  induction n using Nat.strong_induction_on with
  | _ n ih =>
    intro lo f hv
    by_cases hone : 1 < n
    · by_cases hlimit : limit < n
      · have hlt := greatestPowerBelow_lt hone
        have hpos := greatestPowerBelow_pos n
        have hle := le_two_mul_greatestPowerBelow n
        have hsplit : n = greatestPowerBelow n + (n - greatestPowerBelow n) := by omega
        have hr : n - greatestPowerBelow n ≤ greatestPowerBelow n := by omega
        have hclean := layer_halfCleaned hc lo f hr
        have hmerged := hrearranged lo (greatestPowerBelow n)
          (layer ce lo (greatestPowerBelow n) (n - greatestPowerBelow n) f)
        rw [hsplit] at hv
        rw [mergeInPieces_of_lt ce net lo hone hlimit]
        refine Ascending.of_parts hmerged (hrearranged _ _ _)
          (fun i j hi hj => hclean.separated_of_valley hr hv hi hj)
          (mergeInPieces_ascending_of_bitonic limit hc hnet _ lo _
            (hclean.low_bitonic_of_valley hr hv))
          (ih _ (by omega) _ _ ((hclean.high_valley hv).congr fun j _ => ?_))
        rw [keys, keys, hmerged.outside (by omega)]
      · rw [mergeInPieces_of_le ce net lo (by omega), if_pos hone]
        intro i j hij hj
        rw [keys_onWindow (by omega), keys_onWindow hj]
        exact hnet.valley n _ (by rwa [keys_window]) i j hij hj
    · intro i j hij hj
      have : i = j := by omega
      rw [this]

end Ascending

end Pieces

section SortPieces

variable (ce : Bool → Nat → Nat → (Nat → α) → (Nat → α))
  (sortNet mergeNet : Bool → Nat → (Nat → α) → Nat → α) (limit : Nat)

/-- The parts are cut like those of a merge, the first one sorted against the direction. -/
def sortInPieces (lo n : Nat) (asc : Bool) (f : Nat → α) : Nat → α :=
  if _h : 1 < n ∧ limit < n then
    let m := greatestPowerBelow n
    mergeInPieces (ce asc) (mergeNet asc) limit lo n
      (sortInPieces (lo + m) (n - m) asc (sortInPieces lo m (!asc) f))
  else if 1 < n then onWindow (sortNet asc) lo n f else f
termination_by n
decreasing_by
  · exact greatestPowerBelow_lt _h.1
  · have := greatestPowerBelow_pos n; omega

variable {limit}

theorem sortInPieces_of_lt (lo : Nat) {n : Nat} (h : 1 < n) (hlimit : limit < n) (asc : Bool)
    (f : Nat → α) : sortInPieces ce sortNet mergeNet limit lo n asc f =
      mergeInPieces (ce asc) (mergeNet asc) limit lo n
        (sortInPieces ce sortNet mergeNet limit (lo + greatestPowerBelow n)
          (n - greatestPowerBelow n) asc
          (sortInPieces ce sortNet mergeNet limit lo (greatestPowerBelow n) (!asc) f)) := by
  rw [sortInPieces, dif_pos ⟨h, hlimit⟩]

theorem sortInPieces_of_le (lo : Nat) {n : Nat} (hlimit : n ≤ limit) (asc : Bool) (f : Nat → α) :
    sortInPieces ce sortNet mergeNet limit lo n asc f =
      if 1 < n then onWindow (sortNet asc) lo n f else f := by
  rw [sortInPieces, dif_neg (by omega)]

end SortPieces

/-- The networks for both directions. -/
structure TwoWayNets (key : α → β) (sortNet mergeNet : Bool → Nat → (Nat → α) → Nat → α) :
    Prop where
  sortUp : Sorts key (sortNet true)
  sortDown : Sorts (OrderDual.toDual ∘ key) (sortNet false)
  mergeUp : Merges key (mergeNet true)
  mergeDown : Merges (OrderDual.toDual ∘ key) (mergeNet false)

namespace TwoWayNets

variable {key : α → β} {ce : Bool → Nat → Nat → (Nat → α) → (Nat → α)}
  {sortNet mergeNet : Bool → Nat → (Nat → α) → Nat → α}

theorem sort_rearranged (hnet : TwoWayNets key sortNet mergeNet) :
    ∀ asc n f, Rearranged 0 n f (sortNet asc n f)
  | true => hnet.sortUp.rearranged
  | false => hnet.sortDown.rearranged

theorem merge_rearranged (hnet : TwoWayNets key sortNet mergeNet) :
    ∀ asc n f, Rearranged 0 n f (mergeNet asc n f)
  | true => hnet.mergeUp.rearranged
  | false => hnet.mergeDown.rearranged

theorem sort_sortedIn (hnet : TwoWayNets key sortNet mergeNet) :
    ∀ asc n f, SortedIn asc (keys key (sortNet asc n f) 0) n
  | true => hnet.sortUp.ascending
  | false => hnet.sortDown.ascending

theorem of_twoWay (hc : TwoWay key ce) :
    TwoWayNets key (fun asc n => sort ce 0 n asc) (fun asc n => merge (ce asc) 0 n) :=
  ⟨(sorts_sort hc).1, (sorts_sort hc).2, merges_merge hc.up, merges_merge hc.down⟩

variable (limit : Nat) (hc : TwoWay key ce) (hnet : TwoWayNets key sortNet mergeNet)

include hc hnet

theorem sortInPieces_rearranged (lo n : Nat) (asc : Bool) (f : Nat → α) :
    Rearranged lo n f (sortInPieces ce sortNet mergeNet limit lo n asc f) := by
  induction lo, n, asc, f using sortInPieces.induct ce sortNet mergeNet limit with
  | case1 lo n asc f h m ihLow _ ihHigh =>
    rw [sortInPieces_of_lt ce sortNet mergeNet lo h.1 h.2]
    have hm : m < n := greatestPowerBelow_lt h.1
    have hlow : Rearranged lo n _ _ := ihLow.mono (le_refl lo) (by omega)
    have hhigh : Rearranged lo n _ _ := ihHigh.mono (by omega) (by omega)
    exact hlow.trans (hhigh.trans
      (mergeInPieces_rearranged limit (hc.exchanging asc) (hnet.merge_rearranged asc) lo n _))
  | case2 lo n asc f h hn =>
    rw [sortInPieces, dif_neg h, if_pos hn]
    exact onWindow_rearranged (hnet.sort_rearranged asc) lo n f
  | case3 lo n asc f h hn =>
    rw [sortInPieces, dif_neg h, if_neg hn]
    exact Rearranged.refl lo n f

theorem sortInPieces_sortedIn (lo n : Nat) (asc : Bool) (f : Nat → α) :
    SortedIn asc (keys key (sortInPieces ce sortNet mergeNet limit lo n asc f) lo) n := by
  induction lo, n, asc, f using sortInPieces.induct ce sortNet mergeNet limit with
  | case1 lo n asc f h m ihLow _ ihHigh =>
    rw [sortInPieces_of_lt ce sortNet mergeNet lo h.1 h.2]
    have hkeep := sortInPieces_rearranged limit hc hnet (lo + m) (n - m) asc
      (sortInPieces ce sortNet mergeNet limit lo m (!asc) f)
    refine sortedIn_of_valley
      (u := fun asc => mergeInPieces (ce asc) (mergeNet asc) limit lo n _)
      (mergeInPieces_ascending_of_valley limit hc.up hnet.mergeUp n lo _)
      (mergeInPieces_ascending_of_valley limit hc.down hnet.mergeDown n lo _)
      (ihLow.congr fun i hi => ?_) ihHigh
    rw [keys, keys, hkeep.outside (by omega)]
  | case2 lo n asc f h hn =>
    rw [sortInPieces, dif_neg h, if_pos hn]
    refine (hnet.sort_sortedIn asc n fun i => f (lo + i)).congr fun i hi => ?_
    rw [keys_onWindow hi]
  | case3 lo n asc f h hn =>
    have honly : ∀ i j, i ≤ j → j < n → i = j := by omega
    cases asc <;> intro i j hij hj <;> rw [honly i j hij hj]

end TwoWayNets

/-- Two sorted orders of the same cells have the same keys. -/
theorem SortedIn.eq_of_rearranged {key : α → β} {asc : Bool} {lo n : Nat} {f g : Nat → α}
    (hf : SortedIn asc (keys key f lo) n) (hg : SortedIn asc (keys key g lo) n)
    (hfg : Rearranged lo n f g) {i : Nat} (hi : i < n) : keys key g lo i = keys key f lo i := by
  have hperm : ((window g lo n).map key).Perm ((window f lo n).map key) := hfg.perm.map key
  have hsame : (window g lo n).map key = (window f lo n).map key := by
    cases asc with
    | true =>
      refine hperm.eq_of_pairwise' (r := (· ≤ ·)) ?_ ?_
      all_goals
        rw [List.pairwise_map, pairwise_window]
      · exact fun i j hij hj => hg i j hij.le hj
      · exact fun i j hij hj => hf i j hij.le hj
    | false =>
      refine hperm.eq_of_pairwise' (r := (· ≥ ·)) ?_ ?_
      all_goals
        rw [List.pairwise_map, pairwise_window]
      · exact fun i j hij hj => hg i j hij.le hj
      · exact fun i j hij hj => hf i j hij.le hj
  have hget := congrArg (·[i]?) hsame
  simpa [window, hi, keys] using hget

/-! ## Contents that are lost -/

/-- Every cell of the window has a content of the window, and the other cells keep theirs. -/
structure DrawnFrom (lo n : Nat) (f g : Nat → α) : Prop where
  source : ∀ i < n, ∃ j < n, g (lo + i) = f (lo + j)
  outside : ∀ p, p < lo ∨ lo + n ≤ p → g p = f p

/-- No two cells of the window have the same content. -/
def DistinctOn (lo n : Nat) (f : Nat → α) : Prop :=
  ∀ i < n, ∀ j < n, f (lo + i) = f (lo + j) → i = j

theorem DistinctOn.mono {lo n lo' n' : Nat} {f : Nat → α} (h : DistinctOn lo n f)
    (hlo : lo ≤ lo') (hhi : lo' + n' ≤ lo + n) : DistinctOn lo' n' f := by
  intro i hi j hj heq
  have hsame := h (lo' - lo + i) (by omega) (lo' - lo + j) (by omega)
  rw [show lo + (lo' - lo + i) = lo' + i by omega, show lo + (lo' - lo + j) = lo' + j by omega]
    at hsame
  have := hsame heq
  omega

namespace DrawnFrom

variable {lo n : Nat} {f g h : Nat → α}

theorem refl (lo n : Nat) (f : Nat → α) : DrawnFrom lo n f f :=
  ⟨fun i hi => ⟨i, hi, rfl⟩, fun _ _ => rfl⟩

theorem trans (hfg : DrawnFrom lo n f g) (hgh : DrawnFrom lo n g h) : DrawnFrom lo n f h where
  source i hi := by
    obtain ⟨j, hj, hij⟩ := hgh.source i hi
    obtain ⟨l, hl, hjl⟩ := hfg.source j hj
    exact ⟨l, hl, hij.trans hjl⟩
  outside p hp := (hgh.outside p hp).trans (hfg.outside p hp)

theorem mono {lo' n' : Nat} (hfg : DrawnFrom lo n f g) (hlo : lo' ≤ lo)
    (hhi : lo + n ≤ lo' + n') : DrawnFrom lo' n' f g where
  source i hi := by
    by_cases hin : lo ≤ lo' + i ∧ lo' + i < lo + n
    · obtain ⟨j, hj, hij⟩ := hfg.source (lo' + i - lo) (by omega)
      rw [Nat.add_sub_cancel' hin.1] at hij
      refine ⟨lo + j - lo', by omega, ?_⟩
      rw [hij, Nat.add_sub_cancel' (by omega)]
    · exact ⟨i, hi, hfg.outside _ (by omega)⟩
  outside p hp := hfg.outside p (by omega)

theorem of_rearranged (hfg : Rearranged lo n f g) : DrawnFrom lo n f g where
  source i hi := by
    obtain ⟨p, hp, hip⟩ := hfg.source (k := lo + i) (by omega)
    refine ⟨p - lo, by omega, ?_⟩
    rw [hip, Nat.add_sub_cancel' hp.1]
  outside p hp := hfg.outside hp

/-- Contents of the window may be put into it. -/
theorem putWindow {lo' n' : Nat} {x : Nat → α} (hfg : DrawnFrom lo n f g) (hlo : lo ≤ lo')
    (hhi : lo' + n' ≤ lo + n) (hx : ∀ i < n', ∃ j < n, x i = f (lo + j)) :
    DrawnFrom lo n f (putWindow lo' n' x g) where
  source i hi := by
    by_cases hin : lo' ≤ lo + i ∧ lo + i < lo' + n'
    · obtain ⟨j, hj, hxj⟩ := hx (lo + i - lo') (by omega)
      exact ⟨j, hj, (if_pos hin).trans hxj⟩
    · obtain ⟨j, hj, hij⟩ := hfg.source i hi
      exact ⟨j, hj, (putWindow_of_not hin _ _).trans hij⟩
  outside p hp := (putWindow_of_not (by omega) _ _).trans (hfg.outside p hp)

/-- What holds of all contents is not lost. -/
theorem forall_of_forall {P : α → Prop} (hfg : DrawnFrom lo n f g) (hf : ∀ i < n, P (f (lo + i))) :
    ∀ i < n, P (g (lo + i)) := by
  intro i hi
  obtain ⟨j, hj, hij⟩ := hfg.source i hi
  rw [hij]
  exact hf j hj

/-- Cells that are all different now were so before. -/
theorem distinctOn (hfg : DrawnFrom lo n f g) (hg : DistinctOn lo n g) : DistinctOn lo n f := by
  choose σ hσ using fun i : Fin n => hfg.source i i.isLt
  let τ : Fin n → Fin n := fun i => ⟨σ i, (hσ i).1⟩
  have hτ : ∀ i : Fin n, g (lo + i) = f (lo + τ i) := fun i => (hσ i).2
  have hinj : Function.Injective τ := by
    intro i j hij
    exact Fin.ext (hg i i.isLt j j.isLt (by rw [hτ, hτ, hij]))
  have hsurj : Function.Surjective τ := Finite.surjective_of_injective hinj
  intro i hi j hj heq
  obtain ⟨i', hi'⟩ := hsurj ⟨i, hi⟩
  obtain ⟨j', hj'⟩ := hsurj ⟨j, hj⟩
  have hsame : i' = j' := Fin.ext (hg i' i'.isLt j' j'.isLt (by rw [hτ, hτ, hi', hj']; exact heq))
  have hval : (⟨i, hi⟩ : Fin n) = ⟨j, hj⟩ := by rw [← hi', ← hj', hsame]
  exact congrArg Fin.val hval

end DrawnFrom

end CoVault.Library.SortNetwork
