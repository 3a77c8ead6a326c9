import CoVault.Encounters.Generate
import CoVault.Ingress.Confirm
import CoVault.Library.Cells

/-!
# From generated encounters to a confirmed tile

Both parties write their shares into the circuit, where they are put together, sorted by
encounter id and confirmed. Two encounters have the same id exactly if they are a reciprocal
pair, so a row is confirmed exactly if its encounter is reciprocated.
-/

namespace CoVault.Ingress

open Circuit Encounters Library Library.Cells Library.Slices

/-- The loop that puts shares together. -/
def recombine (a b : List Integer) : List Integer := List.zipWith (List.zipWith (· ^^ ·)) a b

/-- The fields of a row. -/
def dataFields : List FieldName := [.device, .encountered, .time, .duration, .confirmed]

/-- The steps of `main` up to the confirmation: the encounters and the tile. -/
def ingress (g : Generator) (buffer : Nat → Bool)
    (sort : List (Integer × Integer) → List (Integer × Integer)) (fuel count : Nat)
    (startIndex : BitVec 64) : Option (List Encounter × (Nat → Integer)) := do
  let (encounters, shareA, shareB) ← g.fillShareEncounters fuel count startIndex
  let sortKey := recombine (fillIntegers buffer shareA false [.id])
    (fillIntegers buffer shareB false [.id])
  let tile := recombine (fillIntegers buffer shareA false dataFields)
    (fillIntegers buffer shareB false dataFields)
  let sorted := sort (sortKey.zip tile)
  let tile ← confirmEncounters (ofList (sorted.map Prod.snd) []) (ofList (sorted.map Prod.fst) [])
    count
  some (encounters, tile)

/-- Keys and data move together, and equal keys become adjacent. -/
structure SortsTogether (sort : List (Integer × Integer) → List (Integer × Integer)) : Prop where
  perm : ∀ l, (sort l).Perm l
  grouped : ∀ l, Grouped (ofList ((sort l).map Prod.fst) []) l.length

/-- What a confirmed tile says of encounter number `i`. -/
structure Tells (es : List Encounter) (i : Nat) (e : Encounter) (row : Integer) : Prop where
  confirmed : row.getLast? = some e.reciprocated
  encountered : e.reciprocated = true → ∃ e', es[partner i]? = some e' ∧
    slice row 256 256 = bitsOf e'.device
  device : slice row 0 256 = bitsOf e.device
  time : slice row 512 32 = bitsOf e.time
  duration : slice row 544 16 = bitsOf e.duration

/-! ## Sharing and encoding -/

theorem zipWith_flatMap {α β γ δ : Type*} (f : β → γ → δ) (a : α → List β) (b : α → List γ)
    (h : ∀ x, (a x).length = (b x).length) (l : List α) :
    List.zipWith f (l.flatMap a) (l.flatMap b) = l.flatMap fun x => List.zipWith f (a x) (b x) := by
  induction l with
  | nil => rfl
  | cons x l ih => rw [List.flatMap_cons, List.flatMap_cons, List.zipWith_append (h x), ih,
      List.flatMap_cons]

/-- Putting together what both parties wrote gives what the encounters would give. -/
theorem recombine_fillIntegers (buffer : Nat → Bool) (fields : List FieldName)
    {es bs : List Encounter} (h : bs.length = es.length) :
    recombine (fillIntegers buffer (List.zipWith Encounter.xor es bs) false fields)
      (fillIntegers buffer bs false fields) =
        es.map fun e => (fieldOrder fields).flatMap e.toBool := by
  simp only [recombine, fillIntegers, Bool.false_eq_true, if_false, List.zipWith_map]
  apply List.ext_getElem (by simp [h])
  intro i hi hi'
  simp only [List.getElem_zipWith, List.getElem_map]
  rw [zipWith_flatMap _ _ _ (by simp)]
  simp only [Encounter.zipWith_xor_toBool]

/-- The row of an encounter before it is confirmed. -/
def dataRow (e : Encounter) : Integer := dataFields.flatMap e.toBool

@[simp] theorem length_dataRow (e : Encounter) : (dataRow e).length = 568 := by
  simp [dataRow, dataFields, FieldName.width]

theorem dataRow_eq (e : Encounter) : dataRow e = bitsOf e.device ++ (bitsOf e.encountered ++
    (bitsOf e.time ++ (bitsOf e.duration ++ (bitsOf e.confirmed ++ [])))) := rfl

theorem slice_device (e : Encounter) : slice (dataRow e) 0 256 = bitsOf e.device := by
  rw [dataRow_eq, slice_append_left (by simp)]
  simp [slice]

theorem slice_time (e : Encounter) : slice (dataRow e) 512 32 = bitsOf e.time := by
  rw [dataRow_eq, slice_append_right (by simp), slice_append_right (by simp),
    slice_append_left (by simp)]
  simp [slice]

theorem slice_duration (e : Encounter) : slice (dataRow e) 544 16 = bitsOf e.duration := by
  rw [dataRow_eq, slice_append_right (by simp), slice_append_right (by simp),
    slice_append_right (by simp), slice_append_left (by simp)]
  simp [slice]

section Confirmed

variable {bit : Bool} {e e' : Encounter}

theorem slice_confirmed {off n : Nat} (h : off + n ≤ 256 ∨ 512 ≤ off ∧ off + n ≤ 567) :
    slice (confirmed 567 bit (dataRow e) (dataRow e')) off n = slice (dataRow e) off n := by
  apply List.ext_getElem?
  intro i
  rw [getElem?_slice, getElem?_slice]
  split_ifs with hi
  · exact getElem?_confirmed_of_ne (by simp only [deviceIdBits]; omega) (by omega)
  · rfl

theorem slice_confirmed_met :
    slice (confirmed 567 bit (dataRow e) (dataRow e')) 256 256 = bitsOf e'.device := by
  rw [← slice_device e']
  apply List.ext_getElem?
  intro i
  rw [getElem?_slice, getElem?_slice]
  split_ifs with hi
  · rw [getElem?_confirmed_of_met (by simp only [deviceIdBits]; omega) (by simp; omega),
      show 256 + i - deviceIdBits = 0 + i by simp [deviceIdBits], List.getD_eq_getElem?_getD,
      List.getElem?_eq_getElem (by simp; omega), Option.getD_some]
  · rfl

theorem getLast?_confirmed :
    (confirmed 567 bit (dataRow e) (dataRow e')).getLast? = some bit := by
  rw [List.getLast?_eq_getElem?, length_confirmed, length_dataRow]
  exact getElem?_confirmed_of_conf (by simp [deviceIdBits]) (by simp)

end Confirmed

/-! ## The whole tile -/

section Tile

variable {g : Generator} {buffer : Nat → Bool}
  {sort : List (Integer × Integer) → List (Integer × Integer)} {fuel count : Nat}
  {startIndex : BitVec 64} {es : List Encounter}

theorem partner_lt {i : Nat} (hcount : count % 2 = 0) (hi : i < count) : partner i < count := by
  rw [partner]
  split <;> omega

theorem partner_ne (i : Nat) : partner i ≠ i := by
  rw [partner]
  split <;> omega

/-- Two encounters have the same id if and only if they are a reciprocal pair. -/
def Paired (es : List Encounter) : Prop :=
  ∀ i j e e', es[i]? = some e → es[j]? = some e' →
    (e.id = e'.id ↔ i = j ∨ j = partner i ∧ e.reciprocated = true)

theorem fillEncounters_paired (heven : startIndex.toNat % 2 = 0) (hsize : count < 2 ^ 64)
    (hgen : g.fillEncounters fuel count startIndex = some es)
    (hfree : Set.InjOn g.sha256 (g.idInputs count startIndex)) : Paired es := by
  intro i j e e' he he'
  obtain ⟨hlength, hes⟩ := Generator.fillEncounters_getElem hgen
  obtain ⟨d, hd, hsame⟩ := hes i e he
  obtain ⟨d', hd', hsame'⟩ := hes j e' he'
  obtain ⟨hid, -, hreciprocated⟩ := Generator.fillEncounter_eq hd
  obtain ⟨hid', -, -⟩ := Generator.fillEncounter_eq hd'
  have hi : i < count := hlength ▸ (List.getElem?_eq_some_iff.mp he).1
  have hj : j < count := hlength ▸ (List.getElem?_eq_some_iff.mp he').1
  have h₁ : e.unlinked.id = d.unlinked.id := by rw [hsame]
  have h₂ : e'.unlinked.id = d'.unlinked.id := by rw [hsame']
  have h₃ : e.unlinked.reciprocated = d.unlinked.reciprocated := by rw [hsame]
  simp only [Encounter.unlinked] at h₁ h₂ h₃
  rw [h₁, h₂, h₃, hid, hid', hreciprocated]
  exact Generator.drawn_id_eq_iff hsize.le heven hfree hi hj

/-- What is sorted: the ids with the rows of the encounters. -/
theorem ingress_eq (buffer : Nat → Bool) (sort : List (Integer × Integer) → List (Integer × Integer))
    (hgen : g.fillEncounters fuel count startIndex = some es) :
    ingress g buffer sort fuel count startIndex =
      (confirmEncounters
        (ofList ((sort (es.map fun e => (bitsOf e.id, dataRow e))).map Prod.snd) [])
        (ofList ((sort (es.map fun e => (bitsOf e.id, dataRow e))).map Prod.fst) []) count).map
          fun tile => (es, tile) := by
  have hblind : (g.fillBlind es.length startIndex).length = es.length := by
    simp [Generator.fillBlind]
  have hkeys : (es.map fun e => (fieldOrder [.id]).flatMap e.toBool) =
      es.map fun e => bitsOf e.id := List.map_congr_left fun e _ => List.append_nil _
  have hdata : (es.map fun e => (fieldOrder dataFields).flatMap e.toBool) = es.map dataRow := rfl
  rw [ingress, Generator.fillShareEncounters, hgen]
  simp only [Option.bind_eq_bind, Option.bind_some, Generator.shareEncounters,
    recombine_fillIntegers _ _ hblind, hkeys, hdata, List.zip_map']
  cases confirmEncounters _ _ count <;> rfl

/-- The rows after the sort, by the numbers of their encounters. -/
structure Ordered (es : List Encounter) (count : Nat) (order : List Nat)
    (sorted : List (Integer × Integer)) : Prop where
  perm : order.Perm (List.range count)
  rows : ∀ k i, order[k]? = some i → ∃ e, es[i]? = some e ∧
    ofList (sorted.map Prod.fst) [] k = bitsOf e.id ∧
    ofList (sorted.map Prod.snd) [] k = dataRow e

theorem SortsTogether.ordered (hsort : SortsTogether sort) (hlength : es.length = count) :
    ∃ order, Ordered es count order (sort (es.map fun e => (bitsOf e.id, dataRow e))) := by
  let row (i : Nat) : Integer × Integer :=
    (es[i]?.map fun e => (bitsOf e.id, dataRow e)).getD ([], [])
  have hes : es.map (fun e => (bitsOf e.id, dataRow e)) = (List.range count).map row := by
    apply List.ext_getElem (by simp [hlength])
    intro i hi hi'
    simp [row, show i < es.length by simpa using hi]
  have hperm := hsort.perm (es.map fun e => (bitsOf e.id, dataRow e))
  have hrel : Relation.Comp (fun l l' => l = List.map row l') List.Perm
      (sort (es.map fun e => (bitsOf e.id, dataRow e))) (List.range count) := by
    rw [List.eq_map_comp_perm]
    exact hes ▸ hperm
  obtain ⟨order, hsorted, horder⟩ := hrel
  refine ⟨order, horder, fun k i hk => ?_⟩
  have hi : i < es.length := by
    have hmem := horder.subset (List.mem_of_getElem? hk)
    rwa [List.mem_range, ← hlength] at hmem
  refine ⟨es[i], List.getElem?_eq_getElem hi, ?_, ?_⟩ <;>
    simp [hsorted, ofList, List.getD_eq_getElem?_getD, hk, row, hi]

namespace Ordered

variable {order : List Nat} {sorted : List (Integer × Integer)} {k i : Nat} {e : Encounter}

theorem length_eq (h : Ordered es count order sorted) : order.length = count := by
  simpa using h.perm.length_eq

theorem inj (h : Ordered es count order sorted) {l : Nat} (hk : order[k]? = some i)
    (hl : order[l]? = some i) : k = l := by
  have hnodup : order.Nodup := h.perm.nodup_iff.mpr List.nodup_range
  have hlt := (List.getElem?_eq_some_iff.mp hk).1
  exact (List.getElem?_inj hlt hnodup).mp (hk.trans hl.symm)

theorem exists_place (h : Ordered es count order sorted) (hi : i < count) :
    ∃ k < count, order[k]? = some i := by
  obtain ⟨k, hk⟩ := List.mem_iff_getElem?.mp (h.perm.mem_iff.mpr (List.mem_range.mpr hi))
  exact ⟨k, h.length_eq ▸ (List.getElem?_eq_some_iff.mp hk).1, hk⟩

theorem exists_number (h : Ordered es count order sorted) (hk : k < count) :
    ∃ i, order[k]? = some i :=
  List.getElem?_eq_some_iff.mpr ⟨by rwa [h.length_eq], rfl⟩ |> fun hi => ⟨_, hi⟩

/-- The keys at two places are equal if and only if the encounters are a reciprocal pair. -/
theorem key_eq_iff (h : Ordered es count order sorted) (hpaired : Paired es)
    (hk : order[k]? = some i) (he : es[i]? = some e) {l j : Nat} (hl : order[l]? = some j) :
    ofList (sorted.map Prod.fst) [] l = ofList (sorted.map Prod.fst) [] k ↔
      i = j ∨ j = partner i ∧ e.reciprocated = true := by
  obtain ⟨d, hd, hkey, -⟩ := h.rows k i hk
  obtain ⟨e', he', hkey', -⟩ := h.rows l j hl
  obtain rfl : d = e := Option.some.inj (hd.symm.trans he)
  rw [hkey, hkey', bitsOf_injective.eq_iff, eq_comm, hpaired i j d e' he he']

theorem matched_eq (h : Ordered es count order sorted) (hpaired : Paired es)
    (hgrouped : Grouped (ofList (sorted.map Prod.fst) []) count) (hcount : count % 2 = 0)
    (hk : order[k]? = some i) (he : es[i]? = some e) (hi : i < count) (hkcount : k < count) :
    matched (ofList (sorted.map Prod.fst) []) count k = e.reciprocated := by
  rw [Bool.eq_iff_iff, matched_iff hgrouped hkcount]
  constructor
  · rintro ⟨l, hl, hne, heq⟩
    obtain ⟨j, hj⟩ := h.exists_number hl
    rcases (h.key_eq_iff hpaired hk he hj).mp heq with rfl | ⟨-, hreciprocated⟩
    · exact absurd (h.inj hj hk) hne
    · exact hreciprocated
  · intro hreciprocated
    obtain ⟨l, hl, hj⟩ := h.exists_place (partner_lt hcount hi)
    refine ⟨l, hl, fun heq => ?_, (h.key_eq_iff hpaired hk he hj).mpr (Or.inr ⟨rfl, hreciprocated⟩)⟩
    subst heq
    exact partner_ne i (Option.some.inj (hj.symm.trans hk))

/-- Next to a reciprocated encounter lies its partner. -/
theorem order_neighbour (h : Ordered es count order sorted) (hpaired : Paired es)
    (hsize : 2 ≤ count) (hk : order[k]? = some i) (he : es[i]? = some e) (hkcount : k < count)
    (hmatched : matched (ofList (sorted.map Prod.fst) []) count k = true) :
    order[neighbour (ofList (sorted.map Prod.fst) []) count k]? = some (partner i) := by
  have hkey := sortKey_neighbour hmatched
  obtain ⟨j, hj⟩ := h.exists_number
    (neighbour_lt (ofList (sorted.map Prod.fst) []) hkcount hsize)
  rcases (h.key_eq_iff hpaired hk he hj).mp hkey with rfl | ⟨rfl, -⟩
  · exact absurd (h.inj hj hk) (neighbour_ne k)
  · exact hj

end Ordered

/-- Every encounter of an even tile is confirmed exactly if it is reciprocated, then with the
device of its partner, and keeps its device, time and duration. -/
theorem ingress_tells (heven : startIndex.toNat % 2 = 0) (hcount : count % 2 = 0)
    (hsize : count < 2 ^ 64) (hgen : g.fillEncounters fuel count startIndex = some es)
    (hfree : Set.InjOn g.sha256 (g.idInputs count startIndex)) (hsort : SortsTogether sort)
    (buffer : Nat → Bool) :
    ∃ order : List Nat, order.Perm (List.range count) ∧ ∀ k i, order[k]? = some i →
      ∃ e tile, es[i]? = some e ∧
        ingress g buffer sort fuel count startIndex = some (es, tile) ∧ Tells es i e (tile k) := by
  have hpaired := fillEncounters_paired heven hsize hgen hfree
  obtain ⟨hlength, -⟩ := Generator.fillEncounters_getElem hgen
  obtain ⟨order, hordered⟩ := hsort.ordered hlength
  have hgrouped := hsort.grouped (es.map fun e => (bitsOf e.id, dataRow e))
  have hingress := ingress_eq buffer sort hgen
  rw [List.length_map, hlength] at hgrouped
  generalize sort (es.map fun e => (bitsOf e.id, dataRow e)) = sorted at *
  refine ⟨order, hordered.perm, fun k i hk => ?_⟩
  obtain ⟨e, he, -, hrow⟩ := hordered.rows k i hk
  have hi : i < count := hlength ▸ (List.getElem?_eq_some_iff.mp he).1
  have hkcount : k < count := hordered.length_eq ▸ (List.getElem?_eq_some_iff.mp hk).1
  have htwo : 2 ≤ count := by omega
  have hmatched := hordered.matched_eq hpaired hgrouped hcount hk he hi hkcount
  have hrows : ∀ l < count, ∃ e', es[order[l]?.getD 0]? = some e' ∧
      ofList (sorted.map Prod.snd) [] l = dataRow e' := fun l hl => by
    obtain ⟨j, hj⟩ := hordered.exists_number hl
    obtain ⟨e', he', -, hrow'⟩ := hordered.rows l j hj
    exact ⟨e', by simpa [hj] using he', hrow'⟩
  have hwide : (ofList (sorted.map Prod.snd) [] 0).length = 568 := by
    obtain ⟨e₀, -, hrow₀⟩ := hrows 0 (by omega)
    rw [hrow₀, length_dataRow]
  have hmet : deviceIdBits + deviceIdBits < (ofList (sorted.map Prod.snd) [] 0).length := by
    rw [hwide]
    decide
  obtain ⟨tile, hconfirm, htile⟩ := confirmEncounters_eq (ofList (sorted.map Prod.fst) []) htwo hmet
  obtain ⟨e', he', hrow'⟩ := hrows _
    (neighbour_lt (ofList (sorted.map Prod.fst) []) hkcount htwo)
  have hcell : tile k = confirmed 567 e.reciprocated (dataRow e) (dataRow e') := by
    rw [htile k hkcount, confirmedRow, hmatched, hwide, hrow, hrow']
  refine ⟨e, tile, he, by rw [hingress, hconfirm]; rfl, ?_⟩
  rw [hcell]
  exact
    { confirmed := getLast?_confirmed
      encountered := fun hreciprocated => by
        have hnext := hordered.order_neighbour hpaired htwo hk he hkcount
          (hmatched.trans hreciprocated)
        exact ⟨e', by simpa [hnext] using he', slice_confirmed_met⟩
      device := (slice_confirmed (by decide)).trans (slice_device e)
      time := (slice_confirmed (by decide)).trans (slice_time e)
      duration := (slice_confirmed (by decide)).trans (slice_duration e) }

end Tile

/-! ## A tile of four -/

/-- Sorting by the bits of the key. -/
def sortByKey (l : List (Integer × Integer)) : List (Integer × Integer) :=
  l.mergeSort fun a b => decide (a.1 ≤ b.1)

theorem sortByKey_sortsTogether : SortsTogether sortByKey where
  perm l := List.mergeSort_perm ..
  grouped l := by
    intro i j k hij hjk hk heq
    have hlength : (sortByKey l).length = l.length := List.length_mergeSort ..
    have hsorted : (sortByKey l).Pairwise fun a b => decide (a.1 ≤ b.1) = true :=
      List.pairwise_mergeSort (fun a b c => by simpa using le_trans)
        (fun a b => by simpa using le_total ..) l
    have hle : ∀ m n, m ≤ n → n < l.length →
        ofList ((sortByKey l).map Prod.fst) [] m ≤ ofList ((sortByKey l).map Prod.fst) [] n := by
      intro m n hmn hn
      rcases hmn.eq_or_lt with rfl | hlt
      · exact le_rfl
      · have := List.pairwise_iff_getElem.mp hsorted m n (by omega) (by omega) hlt
        simpa [ofList, show m < (sortByKey l).length by omega,
          show n < (sortByKey l).length by omega] using this
    exact le_antisymm (heq ▸ hle j k hjk hk) (hle i j hij (by omega))

/-- A hash that turns its input round, with few devices. -/
def rotating : Generator where
  sha256 ws := BitVec.ofNat 256 (Nat.ofDigits (2 ^ 64) ((ws.rotate 1).map BitVec.toNat))
  uint256 := BitVec.toNat
  reciprocationPercent := 1
  numReportingDevices := 5
  numTotalDevices := 10
  minTime := 0
  maxTime := 0xffffffff
  minDuration := 0
  maxDuration := 0xffff
  minLatitude := 0
  maxLatitude := 0xffffffff
  minLongitude := 0
  maxLongitude := 0xffffffff
  nonce := 4

/-- Of four encounters the first two are reciprocated and the others are not. -/
theorem rotating_tells : ∃ es, rotating.fillEncounters 1 4 0 = some es ∧
    es.map (·.reciprocated) = [true, true, false, false] ∧
    ∃ order : List Nat, order.Perm (List.range 4) ∧ ∀ k i, order[k]? = some i →
      ∃ e tile, es[i]? = some e ∧ ingress rotating (fun _ => false) sortByKey 1 4 0 =
        some (es, tile) ∧ Tells es i e (tile k) := by
  have hflags : (rotating.fillEncounters 1 4 0).map (·.map (·.reciprocated)) =
      some [true, true, false, false] := by decide +kernel
  obtain ⟨es, hgen, hes⟩ := Option.map_eq_some_iff.mp hflags
  have hfree : Set.InjOn rotating.sha256 (rotating.idInputs 4 0) := by
    have hids : ∀ i < 4, ∀ j < 4,
        rotating.sha256 [FieldName.id.code, rotating.own (0 + BitVec.ofNat 64 i), rotating.nonce] =
          rotating.sha256 [FieldName.id.code, rotating.own (0 + BitVec.ofNat 64 j), rotating.nonce] →
        rotating.own (0 + BitVec.ofNat 64 i) = rotating.own (0 + BitVec.ofNat 64 j) := by
      decide +kernel
    rintro _ ⟨i, hi, rfl⟩ _ ⟨j, hj, rfl⟩ heq
    rw [hids i hi j hj heq]
  exact ⟨es, hgen, hes, ingress_tells (by decide) (by decide) (by decide) hgen hfree
    sortByKey_sortsTogether _⟩

end CoVault.Ingress
