import CoVault.Encounters.Fields

/-!
# Generated encounters

All randomness comes from a hash of a field name, an index and a nonce. The encounters at an
even index and the next one belong together: both draw whether they are reciprocal from the
even index, and if they are, the odd one draws everything else from it as well, with the two
devices changed over. Shares are the encounters and a blinding, also drawn from the hash,
XORed.

A division by zero stops the program, and the loop that looks for a second device need not
end; both give no encounter. The hash is arbitrary, and so is the number a `uint256_t` has
after a hash has been written over it.
-/

namespace CoVault.Encounters

open Circuit

/-- The values of the constants. -/
def FieldName.code : FieldName → BitVec 64
  | .none => 0
  | .id => 1
  | .device => 2
  | .encountered => 3
  | .latitude => 4
  | .longitude => 5
  | .tile => 6
  | .time => 7
  | .previous => 8
  | .next => 9
  | .duration => 10
  | .confirmed => 11
  | .reciprocated => 12

/-- `((uint64_t *)hash)[k]`. -/
def word (hash : BitVec 256) (k : Nat) : BitVec 64 := hash.extractLsb' (64 * k) 64

/-- The four words of 32 bytes. -/
def words (hash : BitVec 256) : List (BitVec 64) := (List.range 4).map (word hash)

/-- `%` of unsigned numbers. -/
def modulo {w : Nat} (x m : BitVec w) : Option (BitVec w) := if m = 0 then none else some (x % m)

/-- The hash, and the arguments all generating functions pass on. -/
structure Generator where
  sha256 : List (BitVec 64) → BitVec 256
  /-- the `uint256_t` whose memory holds a hash -/
  uint256 : BitVec 256 → Nat
  reciprocationPercent : BitVec 8
  numReportingDevices : BitVec 64
  numTotalDevices : BitVec 64
  minTime : BitVec 32
  maxTime : BitVec 32
  minDuration : BitVec 16
  maxDuration : BitVec 16
  minLatitude : BitVec 32
  maxLatitude : BitVec 32
  minLongitude : BitVec 32
  maxLongitude : BitVec 32
  nonce : BitVec 64

namespace Generator

variable (g : Generator)

/-- The loop of `fillDeviceIDPair`: the first remainder that is not `index`. -/
def rehash (index devices : BitVec 64) : Nat → List (BitVec 64) → Option (BitVec 64)
  | 0, _ => none
  | fuel + 1, hashMe => do
    let remainder ← modulo (hashMe.headD 0) devices
    if remainder = index then rehash index devices fuel (words (g.sha256 hashMe))
    else some remainder

/-- `fillDeviceIDPair`: `device` and `encountered`. -/
def fillDeviceIDPair (fuel : Nat) (i j : BitVec 64) (reporting : Bool) :
    Option (BitVec 256 × BitVec 256) := do
  let index ← modulo i g.numReportingDevices
  let other ← g.rehash index (if reporting then g.numReportingDevices else g.numTotalDevices) fuel
    [j, j, j, j]
  some (g.sha256 [index], g.sha256 [other])

/-- The hash for a field, by the index in `hashMe[1]`. -/
def drawn (index : BitVec 64) (f : FieldName) : BitVec 256 := g.sha256 [f.code, index, g.nonce]

/-- `index - (index % 2)`. -/
def base (index : BitVec 64) : BitVec 64 := index - index % 2

def reciprocates (index : BitVec 64) : Bool :=
  (word (g.drawn (base index) .reciprocated) 0 % 100).toNat < g.reciprocationPercent.toNat

/-- `hashMe[1]` after the first hash. -/
def own (index : BitVec 64) : BitVec 64 :=
  if index % 2 = 1 ∧ g.reciprocates index = false then index else base index

/-- A number from `lo` on and below `hi`, in unsigned arithmetic. -/
def inRange (x lo hi : BitVec 32) : Option (BitVec 32) := (modulo x (hi - lo)).map (· + lo)

/-- The same for durations, which are promoted to signed numbers. -/
def durationInRange (x lo hi : BitVec 16) : Option (BitVec 16) :=
  let range := (hi.toNat : Int) - lo.toNat
  if range = 0 then none else some (BitVec.ofInt 16 ((x.toNat : Int).tmod range + lo.toNat))

/-- `fillEncounter`. -/
def fillEncounter (fuel : Nat) (index : BitVec 64) : Option Encounter := do
  let reciprocated := g.reciprocates index
  let own := g.own index
  let hash := g.drawn own .device
  let (first, second) ← g.fillDeviceIDPair fuel (word hash 0) (word hash 1) reciprocated
  let changed := decide (index % 2 = 1) && reciprocated
  let latitude ← inRange ((g.drawn own .latitude).setWidth 32) g.minLatitude g.maxLatitude
  let longitude ← inRange ((g.drawn own .longitude).setWidth 32) g.minLongitude g.maxLongitude
  let time ← inRange ((g.drawn own .time).setWidth 32) g.minTime g.maxTime
  let duration ← durationInRange ((g.drawn own .duration).setWidth 16) g.minDuration g.maxDuration
  some
    { id := g.drawn own .id
      device := if changed then second else first
      encountered := if changed then first else second
      latitude := latitude
      longitude := longitude
      tile := (g.drawn own .tile).setWidth 32
      time := time
      previous := g.minTime
      next := g.maxTime
      duration := duration
      confirmed := 0
      reciprocated := reciprocated }

/-- `device_key[0]`. -/
def deviceKey (e : Encounter) : Nat := g.uint256 (g.sha256 (words e.device))

/-- A new encounter and the most recent one of its device are linked. -/
def link (es : List Encounter) (mostRecent : Nat → Option Nat) (e : Encounter) : List Encounter :=
  match mostRecent (g.deviceKey e) with
  | none => es ++ [e]
  | some k =>
    es.modify k (fun r => { r with next := e.time }) ++
      [{ e with previous := (es.getD k e).time }]

/-- The loop of `fillEncounters`, with `n` encounters to go; `mostRecent` holds places in the
array. -/
def fillEncountersFrom (fuel : Nat) : Nat → BitVec 64 → List Encounter → (Nat → Option Nat) →
    Option (List Encounter)
  | 0, _, es, _ => some es
  | n + 1, index, es, mostRecent => do
    let e ← g.fillEncounter fuel index
    fillEncountersFrom fuel n (index + 1) (g.link es mostRecent e)
      (Function.update mostRecent (g.deviceKey e) (some es.length))

/-- `fillEncounters`. -/
def fillEncounters (fuel count : Nat) (startIndex : BitVec 64) : Option (List Encounter) :=
  g.fillEncountersFrom fuel count startIndex [] fun _ => none

/-! ## Shares -/

/-- The hash `fillBlind` takes for a field. -/
def blindDrawn (index : BitVec 64) (f : FieldName) : BitVec 256 :=
  g.sha256 [f.code, index, g.nonce, 7]

/-- One round of `fillBlind`. -/
def blind (index : BitVec 64) : Encounter where
  id := g.blindDrawn index .id
  device := g.blindDrawn index .device
  encountered := g.blindDrawn index .encountered
  latitude := (g.blindDrawn index .latitude).setWidth 32
  longitude := (g.blindDrawn index .longitude).setWidth 32
  tile := (g.blindDrawn index .tile).setWidth 32
  time := (g.blindDrawn index .time).setWidth 32
  previous := (g.blindDrawn index .previous).setWidth 32
  next := (g.blindDrawn index .next).setWidth 32
  duration := (g.blindDrawn index .duration).setWidth 16
  confirmed := if (g.blindDrawn index .confirmed).getLsbD 0 then 1 else 0
  reciprocated := (g.blindDrawn index .reciprocated).getLsbD 0

/-- `fillBlind`. -/
def fillBlind (count : Nat) (startIndex : BitVec 64) : List Encounter :=
  (List.range count).map fun j => g.blind (startIndex + BitVec.ofNat 64 j)

end Generator

/-- The loop over the bytes of two encounters; every byte belongs to a field. -/
def Encounter.xor (e b : Encounter) : Encounter where
  id := e.id ^^^ b.id
  device := e.device ^^^ b.device
  encountered := e.encountered ^^^ b.encountered
  latitude := e.latitude ^^^ b.latitude
  longitude := e.longitude ^^^ b.longitude
  tile := e.tile ^^^ b.tile
  time := e.time ^^^ b.time
  previous := e.previous ^^^ b.previous
  next := e.next ^^^ b.next
  duration := e.duration ^^^ b.duration
  confirmed := e.confirmed ^^^ b.confirmed
  reciprocated := e.reciprocated ^^ b.reciprocated

namespace Generator

variable (g : Generator)

/-- `shareEncounters`: `aliceShare` and `bobShare`. -/
def shareEncounters (encounters : List Encounter) (startIndex : BitVec 64) :
    List Encounter × List Encounter :=
  let bobShare := g.fillBlind encounters.length startIndex
  (List.zipWith Encounter.xor encounters bobShare, bobShare)

/-- `fillShareEncounters`: the encounters and both shares. -/
def fillShareEncounters (fuel count : Nat) (startIndex : BitVec 64) :
    Option (List Encounter × List Encounter × List Encounter) := do
  let encounters ← g.fillEncounters fuel count startIndex
  some (encounters, g.shareEncounters encounters startIndex)

end Generator

/-- `unShareEncounters`. -/
def unShareEncounters (aliceShare bobShare : List Encounter) : List Encounter :=
  List.zipWith Encounter.xor aliceShare bobShare

/-! ## What is generated -/

/-- An encounter without its links. -/
def Encounter.unlinked (e : Encounter) : Encounter := { e with previous := 0, next := 0 }

namespace Generator

variable {g : Generator} {fuel : Nat}

theorem link_unlinked (es : List Encounter) (mostRecent : Nat → Option Nat) (e : Encounter) :
    (g.link es mostRecent e).map Encounter.unlinked =
      es.map Encounter.unlinked ++ [e.unlinked] := by
  rw [link]
  split
  · simp
  · rename_i k _
    rw [List.map_append, List.map_singleton]
    refine congrArg₂ (· ++ ·) ?_ rfl
    apply List.ext_getElem (by simp)
    intro i hi hi'
    simp only [List.getElem_map, List.getElem_modify]
    split <;> rfl

theorem fillEncountersFrom_unlinked {n : Nat} {index : BitVec 64} {es out : List Encounter}
    {mostRecent : Nat → Option Nat}
    (h : g.fillEncountersFrom fuel n index es mostRecent = some out) :
    ∃ new : List Encounter, new.length = n ∧
      (∀ i e, new[i]? = some e → g.fillEncounter fuel (index + BitVec.ofNat 64 i) = some e) ∧
      out.map Encounter.unlinked = (es ++ new).map Encounter.unlinked := by
  induction n generalizing index es mostRecent with
  | zero =>
    obtain rfl : es = out := by simpa [fillEncountersFrom] using h
    exact ⟨[], rfl, by simp, by simp⟩
  | succ n ih =>
    simp only [fillEncountersFrom, Option.bind_eq_bind, Option.bind_eq_some_iff] at h
    obtain ⟨e, he, hrest⟩ := h
    obtain ⟨new, hlength, hnew, hout⟩ := ih hrest
    refine ⟨e :: new, by simp [hlength], fun i e' he' => ?_, ?_⟩
    · cases i with
      | zero =>
        obtain rfl : e = e' := by simpa using he'
        simpa using he
      | succ i =>
        have := hnew i e' (by simpa using he')
        rwa [BitVec.add_assoc, show (1 : BitVec 64) = BitVec.ofNat 64 1 from rfl,
          ← BitVec.ofNat_add, Nat.add_comm] at this
    · rw [hout, List.map_append, link_unlinked]
      simp

/-- Every encounter is a generated one, but for its links. -/
theorem fillEncounters_getElem {count : Nat} {startIndex : BitVec 64} {es : List Encounter}
    (h : g.fillEncounters fuel count startIndex = some es) :
    es.length = count ∧ ∀ i e, es[i]? = some e →
      ∃ e', g.fillEncounter fuel (startIndex + BitVec.ofNat 64 i) = some e' ∧
        e.unlinked = e'.unlinked := by
  obtain ⟨new, hlength, hnew, hout⟩ := fillEncountersFrom_unlinked h
  rw [List.nil_append] at hout
  have hsame : es.length = new.length := by simpa using congrArg List.length hout
  refine ⟨hsame.trans hlength, fun i e he => ?_⟩
  obtain ⟨hi, rfl⟩ := List.getElem?_eq_some_iff.mp he
  have hi' : i < new.length := by omega
  refine ⟨new[i], hnew i _ (List.getElem?_eq_getElem hi'), ?_⟩
  have := congrArg (·[i]?) hout
  simpa [hi, hi'] using this

theorem fillEncounter_eq {index : BitVec 64} {e : Encounter}
    (h : g.fillEncounter fuel index = some e) :
    e.id = g.drawn (g.own index) .id ∧ e.confirmed = 0 ∧ e.reciprocated = g.reciprocates index := by
  simp only [fillEncounter, Option.bind_eq_bind, Option.bind_eq_some_iff] at h
  obtain ⟨_, _, _, _, _, _, _, _, _, _, heq⟩ := h
  obtain rfl := Option.some.inj heq
  exact ⟨rfl, rfl, rfl⟩

end Generator

/-! ## Reciprocal pairs -/

/-- The place of the other encounter of a pair. -/
def partner (i : Nat) : Nat := if i % 2 = 0 then i + 1 else i - 1

namespace Generator

variable {g : Generator} {startIndex : BitVec 64}

theorem base_add (heven : startIndex.toNat % 2 = 0) {i : Nat} (hi : i < 2 ^ 64) :
    base (startIndex + BitVec.ofNat 64 i) = startIndex + BitVec.ofNat 64 (i - i % 2) := by
  apply BitVec.eq_of_toNat_eq
  have := startIndex.isLt
  simp only [base, BitVec.toNat_sub, BitVec.toNat_add, BitVec.toNat_umod, BitVec.toNat_ofNat,
    BitVec.ofNat_eq_ofNat, Nat.reducePow, Nat.reduceMod]
  omega

theorem odd_add_iff (heven : startIndex.toNat % 2 = 0) {i : Nat} :
    (startIndex + BitVec.ofNat 64 i) % 2 = 1 ↔ i % 2 = 1 := by
  rw [← BitVec.toNat_inj]
  simp only [BitVec.toNat_add, BitVec.toNat_umod, BitVec.toNat_ofNat, BitVec.ofNat_eq_ofNat,
    Nat.reducePow, Nat.reduceMod]
  omega

/-- Where the index that an encounter draws from lies behind the start. -/
def offset (g : Generator) (startIndex : BitVec 64) (i : Nat) : Nat :=
  if i % 2 = 1 ∧ g.reciprocates (startIndex + BitVec.ofNat 64 i) = false then i else i - i % 2

theorem own_add (heven : startIndex.toNat % 2 = 0) {i : Nat} (hi : i < 2 ^ 64) :
    g.own (startIndex + BitVec.ofNat 64 i) =
      startIndex + BitVec.ofNat 64 (g.offset startIndex i) := by
  simp only [own, offset, odd_add_iff heven, base_add heven hi]
  split <;> rfl

theorem reciprocates_add (heven : startIndex.toNat % 2 = 0) {i : Nat} (hi : i < 2 ^ 64) :
    g.reciprocates (startIndex + BitVec.ofNat 64 i) =
      g.reciprocates (startIndex + BitVec.ofNat 64 (i - i % 2)) := by
  have hbase : (i - i % 2) - (i - i % 2) % 2 = i - i % 2 := by omega
  rw [reciprocates, reciprocates, base_add heven hi, base_add heven (by omega), hbase]

/-- Two encounters draw from one index if and only if they are a reciprocal pair. -/
theorem own_add_eq_iff (heven : startIndex.toNat % 2 = 0) {i j : Nat} (hi : i < 2 ^ 64)
    (hj : j < 2 ^ 64) :
    g.own (startIndex + BitVec.ofNat 64 i) = g.own (startIndex + BitVec.ofNat 64 j) ↔
      i = j ∨ j = partner i ∧ g.reciprocates (startIndex + BitVec.ofNat 64 i) = true := by
  have hle : ∀ k, g.offset startIndex k ≤ k := fun k => by
    rw [offset]
    split <;> omega
  have hinj : g.own (startIndex + BitVec.ofNat 64 i) = g.own (startIndex + BitVec.ofNat 64 j) ↔
      g.offset startIndex i = g.offset startIndex j := by
    rw [own_add heven hi, own_add heven hj]
    refine ⟨fun heq => ?_, fun heq => by rw [heq]⟩
    have := congrArg BitVec.toNat (add_left_cancel heq)
    have hi' := hle i
    have hj' := hle j
    rwa [BitVec.toNat_ofNat, BitVec.toNat_ofNat, Nat.mod_eq_of_lt (by omega),
      Nat.mod_eq_of_lt (by omega)] at this
  have hsame : i - i % 2 = j - j % 2 → g.reciprocates (startIndex + BitVec.ofNat 64 i) =
      g.reciprocates (startIndex + BitVec.ofNat 64 j) := fun heq => by
    rw [reciprocates_add heven hi, reciprocates_add heven hj, heq]
  rw [hinj, offset, offset, partner]
  cases hri : g.reciprocates (startIndex + BitVec.ofNat 64 i) <;>
    cases hrj : g.reciprocates (startIndex + BitVec.ofNat 64 j) <;>
    rw [hri, hrj] at hsame <;> simp <;> grind

/-- What is hashed for the ids of a tile. -/
def idInputs (g : Generator) (count : Nat) (startIndex : BitVec 64) : Set (List (BitVec 64)) :=
  {x | ∃ i < count, x = [FieldName.id.code, g.own (startIndex + BitVec.ofNat 64 i), g.nonce]}

theorem drawn_id_eq_iff {count : Nat} (hcount : count ≤ 2 ^ 64) (heven : startIndex.toNat % 2 = 0)
    (hfree : Set.InjOn g.sha256 (g.idInputs count startIndex)) {i j : Nat} (hi : i < count)
    (hj : j < count) :
    g.drawn (g.own (startIndex + BitVec.ofNat 64 i)) .id =
        g.drawn (g.own (startIndex + BitVec.ofNat 64 j)) .id ↔
      i = j ∨ j = partner i ∧ g.reciprocates (startIndex + BitVec.ofNat 64 i) = true := by
  rw [← own_add_eq_iff heven (hi.trans_le hcount) (hj.trans_le hcount)]
  refine ⟨fun heq => ?_, fun heq => by rw [heq]⟩
  simpa using hfree ⟨i, hi, rfl⟩ ⟨j, hj, rfl⟩ heq

end Generator

/-! ## The encoding of shares -/

theorem zipWith_xor_bitsOf {w : Nat} (x y : BitVec w) :
    List.zipWith (· ^^ ·) (bitsOf (x ^^^ y)) (bitsOf y) = bitsOf x := by
  apply List.ext_getElem (by simp)
  intro i hi hi'
  simp [bitsOf]

/-- Every field of an encounter comes back from its shares. -/
theorem Encounter.zipWith_xor_toBool (e b : Encounter) (f : FieldName) :
    List.zipWith (· ^^ ·) ((e.xor b).toBool f) (b.toBool f) = e.toBool f := by
  cases f <;> simp [toBool, Encounter.xor, zipWith_xor_bitsOf]

@[simp] theorem Encounter.xor_xor (e b : Encounter) : (e.xor b).xor b = e := by
  cases e
  simp [Encounter.xor]

@[simp] theorem Generator.length_fillBlind (g : Generator) (count : Nat)
    (startIndex : BitVec 64) : (g.fillBlind count startIndex).length = count := by
  simp [fillBlind]

/-- The encounters come back from their shares. -/
theorem unShareEncounters_shareEncounters (g : Generator) (encounters : List Encounter)
    (startIndex : BitVec 64) :
    unShareEncounters (g.shareEncounters encounters startIndex).1
      (g.shareEncounters encounters startIndex).2 = encounters := by
  apply List.ext_getElem (by simp [unShareEncounters, Generator.shareEncounters])
  intro i hi hi'
  simp [unShareEncounters, Generator.shareEncounters]

end CoVault.Encounters
