import CoVault.Dualex.RevealProtocol
import CoVault.Library.Cells

/-!
# The words compared after dual execution

Both runs give every output wire a label for `0` and a label for `1`, which differ by the
`delta` of the run. The evaluator of a run has one label of each wire and a Boolean; of the
label, only the half that the Boolean chooses is used. The garbler has for each wire the low
half of one label and the high half of the other, and chooses among them by the Booleans of
the other run.

A fresh array holds arbitrary contents.
-/

namespace CoVault.Dualex.Labels

open Library Library.Cells

/-- `label_ptr[0]`. -/
def first (label : BitVec 128) : BitVec 64 := label.extractLsb' 0 64

/-- `label_ptr[1]`. -/
def second (label : BitVec 128) : BitVec 64 := label.extractLsb' 64 64

/-- `delta1`. -/
def clearFirst (delta : BitVec 128) : BitVec 128 := second delta ++ (first delta ^^^ first delta)

/-- The cells from `0` on are written with a list. -/
def overwrite {α : Type} (xs : List α) (mem : Nat → α) : Nat → α := fun i => xs.getD i (mem i)

/-- `get_labels` of the evaluator. -/
def getLabels (input : List (List (BitVec 128))) (labels : Nat → BitVec 128) : Nat → BitVec 128 :=
  overwrite input.flatten labels

/-- `get_labels` of the garbler. -/
def getLabelsDelta (input : List (List (BitVec 128))) (labels : Nat → BitVec 128)
    (delta : BitVec 128) : Nat → BitVec 128 :=
  overwrite (input.flatten.map (· ^^^ clearFirst delta)) labels

/-- One round of `apply_labels`. -/
def applyLabel (label : BitVec 128) (b : Bool) : BitVec 64 :=
  if b then second label else first label

/-- `apply_labels` over blocks: what is written to `output`. -/
def applyLabels (labels : Nat → BitVec 128) (bools : Nat → Bool) (size bits : Nat) :
    List (BitVec 64) :=
  (List.range (size * bits)).map fun i => applyLabel (labels i) (bools i)

/-- The loop of `apply_labels` over words, with `n` rounds to go. -/
def applyWordsFrom (labels : Nat → BitVec 64) (bools : Nat → Bool) : (n i k : Nat) → List (BitVec 64)
  | 0, _, _ => []
  | n + 1, i, k =>
    (if bools i then labels (k + 1) else labels k) :: applyWordsFrom labels bools n (i + 1) (k + 2)

/-- `apply_labels` over words. -/
def applyWords (labels : Nat → BitVec 64) (bools : Nat → Bool) (size bits : Nat) :
    List (BitVec 64) :=
  applyWordsFrom labels bools (size * bits) 0 0

/-- The loop over `revealBools`, for Integers that give the Booleans `revealed`. -/
def revealBools (revealed : List (List Bool)) (bits : Nat) (bools : Nat → Bool) : Nat → Bool :=
  revealed.zipIdx.foldl (fun bools (x, i) =>
    fun k => if i * bits ≤ k ∧ k < i * bits + x.length then x.getD (k - i * bits) false
      else bools k) bools

/-- What the arrays of a run hold before they are written. -/
structure Memory where
  blocks : Nat → BitVec 128
  words : Nat → BitVec 64
  bools : Nat → Bool
  s : Nat → BitVec 64
  b : Nat → Bool

/-- `reveal_labels_and_bools`. -/
def revealLabelsAndBools (mem : Memory) (input : List (List (BitVec 128)))
    (revealed : List (List Bool)) (bits : Nat) : List (BitVec 64) × (Nat → Bool) :=
  let labels := getLabels input mem.blocks
  let bools := revealBools revealed bits mem.bools
  (applyLabels labels bools input.length bits, bools)

/-! ## One run -/

/-- An output wire: its label for `0`, which of the two labels the evaluator has, and the Boolean
that the evaluator is given. -/
structure Wire where
  zero : BitVec 128
  held : Bool
  claimed : Bool

namespace Wire

variable (delta : BitVec 128) (x : Wire)

def label (b : Bool) : BitVec 128 := if b then x.zero ^^^ delta else x.zero

def heldLabel : BitVec 128 := x.label delta x.held

/-- All halves of both labels are different. -/
def HalvesDiffer : Prop :=
  [first (x.label delta false), second (x.label delta false), first (x.label delta true),
    second (x.label delta true)].Nodup

instance : Decidable (x.HalvesDiffer delta) := inferInstanceAs (Decidable (List.Nodup _))

/-- The evaluator has the label of its Boolean. -/
def Truthful : Prop := x.heldLabel delta = x.label delta x.claimed

end Wire

/-- The first `tile_size` Integers of the result of a run, each of `hashbits` wires. -/
structure Run (size bits : Nat) where
  delta : BitVec 128
  integers : List (List Wire)
  length_integers : integers.length = size
  length_wires : ∀ x ∈ integers, x.length = bits

namespace Run

variable {size bits : Nat} (r : Run size bits) (mem : Memory)

def wires : List Wire := r.integers.flatten

/-- The Integers of the garbler. -/
def zeros : List (List (BitVec 128)) := r.integers.map (·.map (·.zero))

/-- The Integers of the evaluator. -/
def heldLabels : List (List (BitVec 128)) := r.integers.map (·.map (·.heldLabel r.delta))

/-- What `revealBools` gives the evaluator. -/
def claimed : List (List Bool) := r.integers.map (·.map (·.claimed))

end Run

/-- The loops that fill `s` with two words at a time. -/
def storePairs (pair : Nat → BitVec 64 × BitVec 64) (n : Nat) (s : Nat → BitVec 64) :
    Nat → BitVec 64 :=
  (List.range n).foldl (fun s i =>
    Function.update (Function.update s (2 * i) (pair i).1) (2 * i + 1) (pair i).2) s

namespace Run

variable {size bits : Nat} (r : Run size bits) (mem : Memory)

/-- What `reduce` leaves in `s` on the side of the garbler. -/
def garblerLabels : Nat → BitVec 64 :=
  let labels := getLabelsDelta r.zeros mem.blocks r.delta
  storePairs (fun i => (first (labels i), second (labels i))) (size * bits) mem.s

/-- What `reduce` leaves in `s` and `b` on the side of the evaluator. The last round reads one
word behind `labels_w`. -/
def evaluatorLabels : (Nat → BitVec 64) × (Nat → Bool) :=
  let (labels, bools) := revealLabelsAndBools mem r.heldLabels r.claimed bits
  let labels := overwrite labels mem.words
  (storePairs (fun i => (labels i, labels (i + 1))) (size * bits) mem.s,
    overwrite (window bools 0 (size * bits)) mem.b)

end Run

/-! ## The payloads -/

/-- The loop of `equality_check` over the labels of the evaluator, in place. -/
def compress (n : Nat) (w : Nat → BitVec 64) : Nat → BitVec 64 :=
  (List.range n).foldl (fun w i => Function.update w i (w (2 * i))) w

section Payloads

variable {size bits : Nat} (run₁ run₂ : Run size bits) (mem₁ mem₂ : Memory)

/-- `concat` of ALICE, who garbles the first run. -/
def concatAlice : List (BitVec 64) :=
  let labels_r1 := run₁.garblerLabels mem₁
  let (labels_r2, bools_r2) := run₂.evaluatorLabels mem₂
  let W_1_v_2 := applyWords labels_r1 bools_r2 size bits
  window (compress (size * bits) labels_r2) 0 (size * bits) ++ W_1_v_2

/-- `concat` of BOB, who garbles the second run. -/
def concatBob : List (BitVec 64) :=
  let (labels_r1, bools_r1) := run₁.evaluatorLabels mem₁
  let labels_r2 := run₂.garblerLabels mem₂
  let W_2_v_1 := applyWords labels_r2 bools_r1 size bits
  W_2_v_1 ++ window (compress (size * bits) labels_r1) 0 (size * bits)

end Payloads

/-! ## What the loops compute -/

theorem storePairs_apply (pair : Nat → BitVec 64 × BitVec 64) (n : Nat) (s : Nat → BitVec 64)
    (k : Nat) : storePairs pair n s k =
      if k < 2 * n then (if k % 2 = 0 then (pair (k / 2)).1 else (pair (k / 2)).2) else s k := by
  induction n with
  | zero => simp [storePairs]
  | succ n ih =>
    rw [storePairs, List.range_succ, List.foldl_append, ← storePairs]
    simp only [List.foldl_cons, List.foldl_nil, Function.update_apply, ih]
    rcases Nat.lt_trichotomy k (2 * n) with hk | rfl | hk
    · simp [show k ≠ 2 * n + 1 by omega, show k ≠ 2 * n by omega, hk, show k < 2 * (n + 1) by omega]
    · simp
    · by_cases hlast : k = 2 * n + 1
      · subst hlast
        simp [show 2 * n + 1 < 2 * (n + 1) by omega, show (2 * n + 1) / 2 = n by omega]
      · simp [hlast, show k ≠ 2 * n by omega, show ¬ k < 2 * n by omega,
          show ¬ k < 2 * (n + 1) by omega]

theorem storePairs_even (pair : Nat → BitVec 64 × BitVec 64) {n i : Nat} (h : i < n)
    (s : Nat → BitVec 64) : storePairs pair n s (2 * i) = (pair i).1 := by
  simp [storePairs_apply, h]

theorem storePairs_odd (pair : Nat → BitVec 64 × BitVec 64) {n i : Nat} (h : i < n)
    (s : Nat → BitVec 64) : storePairs pair n s (2 * i + 1) = (pair i).2 := by
  rw [storePairs_apply, if_pos (by omega), if_neg (by omega), show (2 * i + 1) / 2 = i by omega]

/-- No round reads a cell that an earlier one has written. -/
theorem compress_apply (n : Nat) (w : Nat → BitVec 64) (k : Nat) :
    compress n w k = if k < n then w (2 * k) else w k := by
  induction n generalizing k with
  | zero => rfl
  | succ n ih =>
    rw [compress, List.range_succ, List.foldl_append, ← compress]
    simp only [List.foldl_cons, List.foldl_nil, Function.update_apply, ih]
    by_cases hk : k = n
    · subst hk
      rcases Nat.eq_zero_or_pos k with rfl | hpos
      · simp
      · simp [show ¬ 2 * k < k by omega]
    · simp only [hk, if_false, show (k < n + 1) = (k < n) by simp; omega]

theorem applyWordsFrom_eq (labels : Nat → BitVec 64) (bools : Nat → Bool) (n i : Nat) :
    applyWordsFrom labels bools n i (2 * i) = (List.range n).map fun j =>
      if bools (i + j) then labels (2 * (i + j) + 1) else labels (2 * (i + j)) := by
  induction n generalizing i with
  | zero => rfl
  | succ n ih =>
    rw [applyWordsFrom, show 2 * i + 2 = 2 * (i + 1) by ring, ih, List.range_succ_eq_map,
      List.map_cons, List.map_map]
    refine congrArg₂ List.cons rfl (List.map_congr_left fun j _ => ?_)
    simp only [Function.comp_apply, show i + 1 + j = i + (j + 1) by ring]

/-- Both overloads of `apply_labels` give the same words. -/
theorem applyWords_storePairs (labels : Nat → BitVec 128) (bools : Nat → Bool) (size bits : Nat)
    (s : Nat → BitVec 64) :
    applyWords (storePairs (fun i => (first (labels i), second (labels i))) (size * bits) s) bools
      size bits = applyLabels labels bools size bits := by
  rw [applyWords, show applyWordsFrom _ bools (size * bits) 0 0 = _ from applyWordsFrom_eq ..,
    applyLabels]
  refine List.map_congr_left fun i hi => ?_
  rw [List.mem_range] at hi
  rw [Nat.zero_add, storePairs_even _ hi, storePairs_odd _ hi, applyLabel]

theorem window_overwrite {α : Type} {xs : List α} {n : Nat} (h : xs.length = n) (mem : Nat → α) :
    window (overwrite xs mem) 0 n = xs := by
  subst h
  apply List.ext_getElem (by simp)
  intro i hi hi'
  simp [overwrite, hi']

theorem applyLabels_eq_zipWith {labels : Nat → BitVec 128} {bools : Nat → Bool} {size bits : Nat}
    {ls : List (BitVec 128)} {bs : List Bool} (hlabels : window labels 0 (size * bits) = ls)
    (hbools : window bools 0 (size * bits) = bs) :
    applyLabels labels bools size bits = List.zipWith applyLabel ls bs := by
  subst hlabels hbools
  rw [applyLabels, window, window, List.zipWith_map, List.zipWith_self]
  simp

/-- With Integers of one width the Booleans lie in the order of the wires. -/
theorem revealBools_from (revealed : List (List Bool)) {bits : Nat}
    (hbits : ∀ x ∈ revealed, x.length = bits) (start : Nat) (bools : Nat → Bool) (k : Nat) :
    (revealed.zipIdx start).foldl (fun (bools : Nat → Bool) (x, i) =>
      fun k => if i * bits ≤ k ∧ k < i * bits + x.length then x.getD (k - i * bits) false
        else bools k) bools k =
      if start * bits ≤ k ∧ k < (start + revealed.length) * bits then
        revealed.flatten.getD (k - start * bits) false
      else bools k := by
  induction revealed generalizing start bools with
  | nil =>
    rw [List.length_nil, Nat.add_zero, if_neg (by omega)]
    rfl
  | cons x xs ih =>
    have hx : x.length = bits := hbits x (List.mem_cons_self ..)
    rw [List.zipIdx_cons, List.foldl_cons, ih fun y hy => hbits y (List.mem_cons_of_mem _ hy)]
    simp only [List.length_cons, List.flatten_cons, hx, Nat.add_mul, Nat.one_mul,
      List.getD_eq_getElem?_getD]
    by_cases hlow : k < start * bits
    · simp [show ¬ start * bits + bits ≤ k by omega, show ¬ start * bits ≤ k by omega]
    · by_cases hfirst : k < start * bits + bits
      · have hin : k - start * bits < x.length := by omega
        rw [if_neg (by omega), if_pos ⟨by omega, by omega⟩, if_pos ⟨by omega, by omega⟩,
          List.getElem?_append_left hin]
      · have hout : x.length ≤ k - start * bits := by omega
        have hrest : k - (start * bits + bits) = k - start * bits - x.length := by omega
        have hnot : ¬ (start * bits ≤ k ∧ k < start * bits + bits) := by omega
        rw [List.getElem?_append_right hout, ← hrest, if_neg hnot]
        congr 1
        simp only [eq_iff_iff]
        omega

theorem window_revealBools {revealed : List (List Bool)} {size bits : Nat}
    (hsize : revealed.length = size) (hbits : ∀ x ∈ revealed, x.length = bits)
    (bools : Nat → Bool) :
    window (revealBools revealed bits bools) 0 (size * bits) = revealed.flatten := by
  have hlength : revealed.flatten.length = size * bits := by
    rw [List.length_flatten, List.map_congr_left hbits, List.map_const', List.sum_replicate, hsize,
      smul_eq_mul]
  apply List.ext_getElem (by simp [hlength])
  intro i hi hi'
  have hfrom := revealBools_from revealed hbits 0 bools i
  rw [getElem_window, revealBools, Nat.zero_add, hfrom, if_pos, Nat.zero_mul, Nat.sub_zero,
    List.getD_eq_getElem _ _ hi']
  rw [Nat.zero_add, hsize]
  exact ⟨by omega, by simpa using hi⟩

/-! ## The payloads as lists of words -/

namespace Run

variable {size bits : Nat} (r : Run size bits)

theorem length_wires_eq : r.wires.length = size * bits := by
  rw [wires, List.length_flatten, List.map_congr_left r.length_wires, List.map_const',
    List.sum_replicate, r.length_integers, smul_eq_mul]

/-- The words of the evaluator. -/
def words : List (BitVec 64) := r.wires.map fun x => applyLabel (x.heldLabel r.delta) x.claimed

/-- The words of the garbler for some Booleans. -/
def wordsFor (bs : List Bool) : List (BitVec 64) :=
  List.zipWith applyLabel (r.wires.map fun x => x.zero ^^^ clearFirst r.delta) bs

def bools : List Bool := r.wires.map (·.claimed)

@[simp] theorem length_words : r.words.length = size * bits := by simp [words, length_wires_eq]

@[simp] theorem length_bools : r.bools.length = size * bits := by simp [bools, length_wires_eq]

@[simp] theorem length_wordsFor (bs : List Bool) (h : bs.length = size * bits) :
    (r.wordsFor bs).length = size * bits := by
  simp [wordsFor, length_wires_eq, h]

theorem window_getLabels (labels : Nat → BitVec 128) :
    window (getLabels r.heldLabels labels) 0 (size * bits) =
      r.wires.map (·.heldLabel r.delta) := by
  have hflatten : r.heldLabels.flatten = r.wires.map (·.heldLabel r.delta) := by
    rw [heldLabels, wires, List.map_flatten]
  rw [getLabels, window_overwrite (by simp [hflatten, length_wires_eq]), hflatten]

theorem window_getLabelsDelta (labels : Nat → BitVec 128) :
    window (getLabelsDelta r.zeros labels r.delta) 0 (size * bits) =
      r.wires.map fun x => x.zero ^^^ clearFirst r.delta := by
  have hflatten : r.zeros.flatten = r.wires.map (·.zero) := by rw [zeros, wires, List.map_flatten]
  rw [getLabelsDelta, window_overwrite (by simp [hflatten, length_wires_eq]), hflatten,
    List.map_map]
  rfl

theorem window_claimed (bools : Nat → Bool) :
    window (revealBools r.claimed bits bools) 0 (size * bits) = r.bools := by
  rw [window_revealBools (by simp [claimed, r.length_integers]) ?_, claimed, Run.bools, wires,
    List.map_flatten]
  intro x hx
  obtain ⟨y, hy, rfl⟩ := List.mem_map.mp hx
  rw [List.length_map, r.length_wires y hy]

variable (mem : Memory)

/-- `reveal_labels_and_bools` leaves the words of the evaluator. -/
theorem revealLabelsAndBools_fst :
    (revealLabelsAndBools mem r.heldLabels r.claimed bits).1 = r.words := by
  have hsize : r.heldLabels.length = size := by simp [heldLabels, r.length_integers]
  rw [revealLabelsAndBools]
  simp only [hsize]
  rw [applyLabels_eq_zipWith (r.window_getLabels _) (r.window_claimed _), Run.bools, words,
    List.zipWith_map, List.zipWith_self]

theorem window_compress :
    window (compress (size * bits) (r.evaluatorLabels mem).1) 0 (size * bits) = r.words := by
  have hwords := r.revealLabelsAndBools_fst mem
  apply List.ext_getElem (by simp)
  intro i hi hi'
  have hlt : i < size * bits := by simpa using hi
  rw [getElem_window, Nat.zero_add, compress_apply, if_pos hlt, evaluatorLabels]
  simp only [hwords]
  rw [storePairs_even _ hlt, overwrite, List.getD_eq_getElem]

theorem applyWords_garblerLabels (mem' : Memory) {bools : Nat → Bool} {bs : List Bool}
    (hbools : window bools 0 (size * bits) = bs) :
    applyWords (r.garblerLabels mem') bools size bits = r.wordsFor bs := by
  rw [garblerLabels, applyWords_storePairs, applyLabels_eq_zipWith (r.window_getLabelsDelta _) hbools,
    wordsFor]

theorem window_evaluatorBools : window (r.evaluatorLabels mem).2 0 (size * bits) = r.bools := by
  rw [evaluatorLabels, window_overwrite (by simp)]
  exact r.window_claimed _

end Run

section Payloads

variable {size bits : Nat} (run₁ run₂ : Run size bits) (mem₁ mem₂ : Memory)

theorem concatAlice_eq :
    concatAlice run₁ run₂ mem₁ mem₂ = run₂.words ++ run₁.wordsFor run₂.bools := by
  rw [← run₂.window_compress mem₂,
    ← run₁.applyWords_garblerLabels mem₁ (run₂.window_evaluatorBools mem₂)]
  rfl

theorem concatBob_eq :
    concatBob run₁ run₂ mem₁ mem₂ = run₂.wordsFor run₁.bools ++ run₁.words := by
  rw [← run₁.window_compress mem₁,
    ← run₂.applyWords_garblerLabels mem₂ (run₁.window_evaluatorBools mem₁)]
  rfl

end Payloads

/-! ## The equality checker of the Revealer -/

/-- The equality checker that calls the `apply_labels` above. -/
def checker (cfg : Reveal.Config) (isGarbler : Bool) : Reveal.Config :=
  { cfg with
    isGarbler := isGarbler
    applyLabel := applyLabel }

section Checker

variable {size bits : Nat} (cfg : Reveal.Config) (isGarbler : Bool) (own other : Run size bits)
  (oldLabels : Reveal.Role → Nat → BitVec 128) (oldBools : Nat → Bool)

/-- The two regions of labels on a machine that garbles the run `own` and evaluates `other`. -/
def labelsOf : Reveal.Role → Nat → BitVec 128
  | .garbler => getLabelsDelta own.zeros (oldLabels .garbler) own.delta
  | .nonGarbler => getLabels other.heldLabels (oldLabels .nonGarbler)

/-- What the checker of that machine hashes. -/
def hashMe : List (BitVec 64) :=
  (checker cfg isGarbler).hashMe (labelsOf own other oldLabels)
    (revealBools other.claimed bits oldBools) (size * bits)

theorem hashMe_eq :
    hashMe cfg isGarbler own other oldLabels oldBools =
      if isGarbler then own.wordsFor other.bools ++ other.words
      else other.words ++ own.wordsFor other.bools := by
  have hgarbler : (checker cfg isGarbler).applyLabels (labelsOf own other oldLabels .garbler)
      (revealBools other.claimed bits oldBools) (size * bits) = own.wordsFor other.bools :=
    applyLabels_eq_zipWith (own.window_getLabelsDelta _) (other.window_claimed _)
  have hevaluator : (checker cfg isGarbler).applyLabels (labelsOf own other oldLabels .nonGarbler)
      (revealBools other.claimed bits oldBools) (size * bits) = other.words := by
    refine (applyLabels_eq_zipWith (other.window_getLabels _) (other.window_claimed _)).trans ?_
    rw [Run.bools, Run.words, List.zipWith_map, List.zipWith_self]
  rw [hashMe, Reveal.Config.hashMe, hgarbler, hevaluator]
  rfl

end Checker

/-! ## The check -/

theorem first_xor (a b : BitVec 128) : first (a ^^^ b) = first a ^^^ first b := by
  simp [first, BitVec.extractLsb'_xor]

theorem second_xor (a b : BitVec 128) : second (a ^^^ b) = second a ^^^ second b := by
  simp [second, BitVec.extractLsb'_xor]

theorem getLsbD_clearFirst (delta : BitVec 128) (i : Nat) :
    (clearFirst delta).getLsbD i = if i < 64 then false else (second delta).getLsbD (i - 64) := by
  rw [clearFirst, BitVec.xor_self]
  refine (BitVec.getLsbD_append ..).trans ?_
  simp

theorem first_clearFirst (delta : BitVec 128) : first (clearFirst delta) = 0 :=
  BitVec.eq_of_getLsbD_eq fun i hi => by simp [first, getLsbD_clearFirst, hi]

theorem second_clearFirst (delta : BitVec 128) : second (clearFirst delta) = second delta :=
  BitVec.eq_of_getLsbD_eq fun i hi => by
    simp only [second, BitVec.getLsbD_extractLsb', getLsbD_clearFirst, hi]
    simp [hi]

namespace Wire

variable {delta : BitVec 128} {x : Wire}

/-- The garbler's block has the low half of one label and the high half of the other. -/
theorem applyLabel_garbler (b : Bool) :
    applyLabel (x.zero ^^^ clearFirst delta) b = applyLabel (x.label delta b) b := by
  cases b <;>
    simp [applyLabel, label, first_xor, second_xor, first_clearFirst, second_clearFirst]

/-- The garbler's word for a Boolean is that of the evaluator, if and only if the Boolean is the
evaluator's and the evaluator has the label of it. -/
theorem word_eq_iff (h : x.HalvesDiffer delta) (b : Bool) :
    applyLabel (x.heldLabel delta) x.claimed = applyLabel (x.zero ^^^ clearFirst delta) b ↔
      x.claimed = b ∧ x.Truthful delta := by
  rw [applyLabel_garbler]
  constructor
  · intro heq
    have hcases : x.claimed = b ∧ x.held = b := by
      simp only [HalvesDiffer, List.nodup_cons, List.mem_cons, List.not_mem_nil, or_false] at h
      revert heq
      rw [heldLabel]
      cases x.held <;> cases x.claimed <;> cases b <;> simp only [applyLabel] <;> grind
    exact ⟨hcases.1, by rw [Truthful, heldLabel, hcases.1, hcases.2]⟩
  · rintro ⟨rfl, htruthful⟩
    rw [htruthful]

end Wire

/-- The evaluator's words are the garbler's words for the Booleans of the other run, if and only
if these are the evaluator's and it has the label of each. -/
theorem words_eq_iff {size bits : Nat} {run : Run size bits}
    (h : ∀ x ∈ run.wires, x.HalvesDiffer run.delta) {bs : List Bool}
    (hlength : bs.length = size * bits) :
    run.words = run.wordsFor bs ↔
      run.bools = bs ∧ ∀ x ∈ run.wires, x.Truthful run.delta := by
  rw [← run.length_wires_eq] at hlength
  rw [Run.words, Run.wordsFor, Run.bools]
  generalize run.wires = xs at h hlength
  induction xs generalizing bs with
  | nil => simp_all
  | cons x xs ih =>
    obtain ⟨b, bs, rfl⟩ : ∃ b bs', bs = b :: bs' := List.exists_cons_of_length_eq_add_one hlength
    have hx := Wire.word_eq_iff (h x (List.mem_cons_self ..)) b
    have hrest := ih (fun y hy => h y (List.mem_cons_of_mem _ hy)) (by simpa using hlength)
    simp only [List.map_cons, List.zipWith_cons_cons, List.cons.injEq, hx, hrest,
      List.forall_mem_cons]
    tauto

/-- Both evaluators claim the same Booleans, and have the label of each. -/
structure Agree {size bits : Nat} (run₁ run₂ : Run size bits) : Prop where
  bools : run₁.bools = run₂.bools
  first : ∀ x ∈ run₁.wires, x.Truthful run₁.delta
  second : ∀ x ∈ run₂.wires, x.Truthful run₂.delta

section Contract

variable {size bits : Nat} {run₁ run₂ : Run size bits}

theorem words_agree_iff (h₁ : ∀ x ∈ run₁.wires, x.HalvesDiffer run₁.delta)
    (h₂ : ∀ x ∈ run₂.wires, x.HalvesDiffer run₂.delta) :
    run₂.words = run₂.wordsFor run₁.bools ∧ run₁.words = run₁.wordsFor run₂.bools ↔
      Agree run₁ run₂ := by
  rw [words_eq_iff h₁ run₂.length_bools, words_eq_iff h₂ run₁.length_bools]
  exact ⟨fun h => ⟨h.2.1, h.2.2, h.1.2⟩, fun h => ⟨⟨h.bools.symm, h.second⟩, h.bools, h.first⟩⟩

/-- The two payloads of the last reducer are equal if and only if the evaluators agree, and so
are those of the equality checkers of a Revealer; the two overloads that apply labels give the
same words. -/
theorem label_check (h₁ : ∀ x ∈ run₁.wires, x.HalvesDiffer run₁.delta)
    (h₂ : ∀ x ∈ run₂.wires, x.HalvesDiffer run₂.delta) :
    (∀ mem₁ mem₂ mem₁' mem₂',
      concatAlice run₁ run₂ mem₁ mem₂ = concatBob run₁ run₂ mem₁' mem₂' ↔ Agree run₁ run₂) ∧
    (∀ cfg cfg' oldLabels oldBools oldLabels' oldBools',
      hashMe cfg true run₁ run₂ oldLabels oldBools =
        hashMe cfg' false run₂ run₁ oldLabels' oldBools' ↔ Agree run₁ run₂) ∧
    ∀ labels bools s,
      applyWords (storePairs (fun i => (Labels.first (labels i), Labels.second (labels i)))
        (size * bits) s) bools size bits = applyLabels labels bools size bits := by
  refine ⟨fun mem₁ mem₂ mem₁' mem₂' => ?_, fun cfg cfg' _ _ _ _ => ?_, fun labels bools s => ?_⟩
  · rw [concatAlice_eq, concatBob_eq, ← words_agree_iff h₁ h₂]
    have hlength : run₂.words.length = (run₂.wordsFor run₁.bools).length := by simp
    exact (List.append_eq_append_iff_of_size_eq_left hlength).trans (and_congr_right' eq_comm)
  · rw [hashMe_eq, hashMe_eq, if_pos rfl, if_neg Bool.false_ne_true, ← words_agree_iff h₁ h₂]
    have hlength : (run₁.wordsFor run₂.bools).length = run₁.words.length := by simp
    exact (List.append_eq_append_iff_of_size_eq_left hlength).trans
      ((and_congr_left' eq_comm).trans and_comm)
  · exact applyWords_storePairs labels bools size bits s

end Contract

/-! ## One wire -/

/-- A wire whose labels have the halves `1`, `2` and `5`, `10`. -/
def oneWire (held claimed : Bool) : Run 1 1 where
  delta := 8#64 ++ 4#64
  integers := [[⟨2#64 ++ 1#64, held, claimed⟩]]
  length_integers := rfl
  length_wires := by simp

theorem oneWire_halvesDiffer (held claimed : Bool) :
    ∀ x ∈ (oneWire held claimed).wires, x.HalvesDiffer (oneWire held claimed).delta := by
  cases held <;> cases claimed <;> decide +kernel

def zeroed : Memory := ⟨fun _ => 0, fun _ => 0, fun _ => false, fun _ => 0, fun _ => false⟩

/-- An evaluator that claims `1` with the label for `0` is found out. -/
theorem lie_found_out : concatAlice (oneWire true true) (oneWire false true) zeroed zeroed ≠
    concatBob (oneWire true true) (oneWire false true) zeroed zeroed := by
  intro heq
  have hagree := ((label_check (oneWire_halvesDiffer true true)
    (oneWire_halvesDiffer false true)).1 zeroed zeroed zeroed zeroed).mp heq
  have htruthful := hagree.second _ (List.mem_singleton_self _)
  revert htruthful
  simp [Wire.Truthful, Wire.heldLabel, Wire.label, oneWire]

end CoVault.Dualex.Labels
