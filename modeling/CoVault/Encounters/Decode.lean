import CoVault.Encounters.Fields
import CoVault.Library.Slices

/-!
# Decoding encounters

`fromIntegers` opens an integer into a buffer of Booleans and walks through it field by field. It
advances by the widths `fillIntegers` advances by, so it finds every field where it was put; the
fields that are not named keep what they were.
-/

namespace CoVault.Encounters

open Circuit Library.Slices

/-- `8 * sizeof(struct encounter)`, the size of `bools`. -/
def bufferBits : Nat := 992

/-- `revealBools`: the bits of the integer in front, and behind them what was there. -/
def revealBools (x : Integer) (bools : Nat → Bool) : Nat → Bool := fun i => x.getD i (bools i)

/-- `n` Booleans from `&bools[i]` on. -/
def readBools (bools : Nat → Bool) (i n : Nat) : Integer := List.ofFn fun j : Fin n => bools (i + j)

/-- `from_bool` into one field, or the assignment to `reciprocated`. -/
def Encounter.fromBool (e : Encounter) (bits : Integer) : FieldName → Encounter
  | .none => e
  | .id => { e with id := ofBits 256 bits }
  | .device => { e with device := ofBits 256 bits }
  | .encountered => { e with encountered := ofBits 256 bits }
  | .latitude => { e with latitude := ofBits 32 bits }
  | .longitude => { e with longitude := ofBits 32 bits }
  | .tile => { e with tile := ofBits 32 bits }
  | .time => { e with time := ofBits 32 bits }
  | .previous => { e with previous := ofBits 32 bits }
  | .next => { e with next := ofBits 32 bits }
  | .duration => { e with duration := ofBits 16 bits }
  | .confirmed => { e with confirmed := ofBits 8 bits }
  | .reciprocated => { e with reciprocated := bits.getD 0 false }

/-- One round of the loop over the field names: `i` and the encounter. -/
def readField (bools : Nat → Bool) (s : Nat × Encounter) (field : FieldName) : Nat × Encounter :=
  (s.1 + field.width, s.2.fromBool (readBools bools s.1 field.width) field)

/-- The loop over the encounters from number `j` on. -/
def fromIntegersFrom (fields : List FieldName) :
    (Nat → Bool) → (Nat → Encounter) → Nat → List Integer → Nat → Encounter
  | _, encounter, _, [] => encounter
  | bools, encounter, j, x :: xs =>
    let bools := revealBools x bools
    let e := ((fieldOrder fields).foldl (readField bools) (0, encounter j)).2
    fromIntegersFrom fields bools (Function.update encounter j e) (j + 1) xs

/-- `fromIntegers`; a dummy call opens the integers and writes nothing. -/
def fromIntegers (bools : Nat → Bool) (encounter : Nat → Encounter) (integers : List Integer)
    (dummy : Bool) (fields : List FieldName) : Nat → Encounter :=
  if dummy then encounter else fromIntegersFrom fields bools encounter 0 integers

/-- How many bits stand before a field. -/
def fieldPlace (fields : List FieldName) (f : FieldName) : Nat :=
  ((fields.takeWhile (· ≠ f)).map FieldName.width).sum

/-! ## What is decoded -/

variable {e : Encounter} {b : Nat → Bool}

/-- A field decoded from its own bits. -/
theorem toBool_fromBool_self (e' : Encounter) (f : FieldName) :
    (e'.fromBool (e.toBool f) f).toBool f = e.toBool f := by
  cases f <;> simp [Encounter.fromBool, Encounter.toBool]

/-- Decoding one field leaves the others. -/
theorem toBool_fromBool_of_ne (bits : Integer) {f g : FieldName} (h : g ≠ f) :
    (e.fromBool bits f).toBool g = e.toBool g := by
  cases f <;> cases g <;> first | rfl | exact absurd rfl h

theorem readBools_revealBools (xs ys zs : Integer) :
    readBools (revealBools (xs ++ ys ++ zs) b) xs.length ys.length = ys := by
  apply List.ext_getElem (by simp [readBools])
  intro i hi hi'
  simp [readBools, revealBools, List.getD_eq_getElem?_getD, List.getElem?_append]

/-- The loop over the field names restores the fields named; `done` are those already read. -/
theorem foldl_readField (done fields : List FieldName) (e' : Encounter)
    (hdone : ∀ g ∈ done, e'.toBool g = e.toBool g) (g : FieldName) :
    (fields.foldl (readField (revealBools ((done ++ fields).flatMap e.toBool) b))
      ((done.flatMap e.toBool).length, e')).2.toBool g =
      if g ∈ done ++ fields then e.toBool g else e'.toBool g := by
  induction fields generalizing done e' with
  | nil =>
    rw [List.append_nil, List.foldl_nil]
    split_ifs with hg
    · exact hdone g hg
    · rfl
  | cons f fields ih =>
    have hread : readField (revealBools ((done ++ f :: fields).flatMap e.toBool) b)
        ((done.flatMap e.toBool).length, e') f =
        (((done ++ [f]).flatMap e.toBool).length, e'.fromBool (e.toBool f) f) := by
      have hbits : (done ++ f :: fields).flatMap e.toBool =
          done.flatMap e.toBool ++ e.toBool f ++ fields.flatMap e.toBool := by simp
      have hfield := readBools_revealBools (b := b) (done.flatMap e.toBool) (e.toBool f)
        (fields.flatMap e.toBool)
      rw [e.length_toBool] at hfield
      rw [readField, hbits, hfield]
      exact Prod.ext (by simp) rfl
    have hnext : ∀ g ∈ done ++ [f], (e'.fromBool (e.toBool f) f).toBool g = e.toBool g := by
      intro g hg
      by_cases hgf : g = f
      · rw [hgf, toBool_fromBool_self]
      · rw [toBool_fromBool_of_ne _ hgf, hdone g (by simpa [hgf] using hg)]
    have hrest := ih (done ++ [f]) (e'.fromBool (e.toBool f) f) hnext
    rw [List.append_cons, List.foldl_cons, ← List.append_cons, hread, List.append_cons, hrest]
    split_ifs with hg
    · rfl
    · exact toBool_fromBool_of_ne _ fun h => hg (by simp [h])

/-- The loop over the encounters. -/
theorem fromIntegersFrom_toBool (fields : List FieldName) (bools : Nat → Bool)
    (encounter : Nat → Encounter) (j : Nat) (encounters : List Encounter) (k : Nat)
    (g : FieldName) :
    (fromIntegersFrom fields bools encounter j
      (encounters.map fun e => (fieldOrder fields).flatMap e.toBool) k).toBool g =
      match if j ≤ k then encounters[k - j]? else none with
      | some e => if g ∈ fieldOrder fields then e.toBool g else (encounter k).toBool g
      | none => (encounter k).toBool g := by
  induction encounters generalizing bools encounter j with
  | nil => simp [fromIntegersFrom]
  | cons e encounters ih =>
    have hone := foldl_readField (e := e) (b := bools) [] (fieldOrder fields) (encounter j)
      (by simp) g
    rw [List.nil_append, List.flatMap_nil, List.length_nil] at hone
    rw [List.map_cons, fromIntegersFrom, ih]
    rcases Nat.lt_trichotomy k j with hlt | rfl | hgt
    · rw [if_neg (by omega), if_neg (by omega), Function.update_of_ne (by omega)]
    · rw [if_neg (by omega), if_pos le_rfl, Nat.sub_self, Function.update_self]
      exact hone
    · rw [if_pos (by omega), if_pos (by omega), Function.update_of_ne (by omega),
        show k - j = k - (j + 1) + 1 by omega, List.getElem?_cons_succ]

/-- Integers that `fillIntegers` made, decoded with the same field names: every encounter gets
back the fields named and keeps its others. -/
theorem fromIntegers_fillIntegers (buffer bools : Nat → Bool) (encounter : Nat → Encounter)
    (encounters : List Encounter) (fields : List FieldName) (k : Nat) (g : FieldName) :
    (fromIntegers bools encounter (fillIntegers buffer encounters false fields) false fields
      k).toBool g =
      match encounters[k]? with
      | some e => if g ∈ fieldOrder fields then e.toBool g else (encounter k).toBool g
      | none => (encounter k).toBool g := by
  rw [fromIntegers, fillIntegers, if_neg (by decide), if_neg (by decide),
    fromIntegersFrom_toBool]
  rfl

/-- Where the bits of a field stand in the encoding. -/
theorem slice_fieldPlace {fields : List FieldName} {f : FieldName} (hf : f ∈ fields) :
    slice (fields.flatMap e.toBool) (fieldPlace fields f) f.width = e.toBool f := by
  obtain ⟨before, after, rfl, hbefore⟩ := List.eq_append_cons_of_mem hf
  have htake : (before ++ f :: after).takeWhile (· ≠ f) = before := by
    rw [List.takeWhile_append_of_pos fun g hg => by simpa using ne_of_mem_of_not_mem hg hbefore]
    simp
  have hplace : fieldPlace (before ++ f :: after) f = (before.flatMap e.toBool).length := by
    rw [fieldPlace, htake, List.length_flatMap]
    simp
  rw [hplace, List.flatMap_append, slice_append_right le_rfl, Nat.sub_self, List.flatMap_cons,
    slice_append_left (by simp), ← e.length_toBool f, slice_length]

/-- Different fields fit into the buffer. -/
theorem length_flatMap_toBool_le {fields : List FieldName} (hfields : fields.Nodup)
    (e : Encounter) : (fields.flatMap e.toBool).length ≤ bufferBits := by
  have hsubset : fields ⊆ .none :: traditionalOrder := fun f _ => by
    cases f <;> simp [traditionalOrder]
  obtain ⟨among, hperm, hsub⟩ := hfields.subperm hsubset
  have hle := (hsub.map FieldName.width).sum_le_sum fun _ _ => Nat.zero_le _
  rw [(hperm.map FieldName.width).sum_eq] at hle
  rw [List.length_flatMap, List.map_congr_left fun f _ => e.length_toBool f]
  exact hle.trans (by decide)

/-- The fields named are different if the names given are. -/
theorem fieldOrder_nodup {fields : List FieldName} (h : fields.Nodup) :
    (fieldOrder fields).Nodup := by
  rw [fieldOrder]
  split_ifs
  · decide
  · exact h

end CoVault.Encounters
