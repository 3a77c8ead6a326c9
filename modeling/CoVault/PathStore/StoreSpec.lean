import CoVault.PathStore.Abort

/-!
# The records that storing leaves

Each field goes to a place of its own, so after the loop over the field names the two
integers hold the fields named, in whatever order they came. With every check
succeeding, round `k` then leaves the record of encounter `k` in cell `k`.
-/

namespace CoVault.PathStore

open Circuit Dualex Encounters Library.Slices

/-! ## Copying the fields -/

/-- A field that is copied for the lookup key has its place inside it. -/
theorem lookupOffset_bound {f : FieldName} {off : Nat} (h : lookupOffset f = some off) :
    off + f.width ≤ lookupBits := by
  cases f <;> simp_all [lookupOffset, FieldName.width, lookupBits]
  omega

theorem encryptedOffset_bound {f : FieldName} {off : Nat} (h : encryptedOffset f = some off) :
    off + f.width ≤ encryptedBits := by
  cases f <;> simp_all [encryptedOffset, FieldName.width, encryptedBits]
  all_goals omega

/-- Different fields have places beside each other. -/
theorem lookupOffset_disjoint {f g : FieldName} {off off' : Nat} (h : lookupOffset f = some off)
    (h' : lookupOffset g = some off') (hne : f ≠ g) :
    off + f.width ≤ off' ∨ off' + g.width ≤ off := by
  cases f <;> cases g <;> simp_all [lookupOffset, FieldName.width]

theorem encryptedOffset_disjoint {f g : FieldName} {off off' : Nat}
    (h : encryptedOffset f = some off) (h' : encryptedOffset g = some off') (hne : f ≠ g) :
    off + f.width ≤ off' ∨ off' + g.width ≤ off := by
  cases f <;> cases g <;> simp_all [encryptedOffset, FieldName.width]
  all_goals omega

/-- The cells of a buffer hold the fields `done` at their places. -/
structure Holds (e : Encounter) (place : FieldName → Option Nat) (n : Nat) (done : List FieldName)
    (buffer : Integer) : Prop where
  length : buffer.length = n
  field : ∀ f ∈ done, ∀ off, place f = some off → slice buffer off f.width = e.toBool f

/-- Copying one more field. -/
theorem Holds.copy {e : Encounter} {place : FieldName → Option Nat} {n : Nat}
    {done : List FieldName} {buffer : Integer} (h : Holds e place n done buffer) (f : FieldName)
    (hbound : ∀ off, place f = some off → off + f.width ≤ n)
    (hdisjoint : ∀ g off off', place g = some off → place f = some off' → g ≠ f →
      off + g.width ≤ off' ∨ off' + f.width ≤ off) :
    Holds e place n (done ++ [f]) (match place f with
      | some off => overwrite buffer off (e.toBool f)
      | none => buffer) := by
  cases hf : place f with
  | none =>
    refine ⟨h.length, fun g hg off hoff => ?_⟩
    rcases List.mem_append.mp hg with hg | hg
    · exact h.field g hg off hoff
    · obtain rfl := List.mem_singleton.mp hg
      rw [hf] at hoff
      cases hoff
  | some off' =>
    have hb := hbound off' hf
    have hlen := h.length
    refine ⟨by rw [length_overwrite (by rw [e.length_toBool, hlen]; exact hb), hlen],
      fun g hg off hoff => ?_⟩
    by_cases hgf : g = f
    · subst hgf
      obtain rfl := Option.some.inj (hoff.symm.trans hf)
      have hself : slice (overwrite buffer off (e.toBool g)) off (e.toBool g).length = e.toBool g :=
        slice_overwrite_self (by omega)
      rwa [e.length_toBool] at hself
    · have hg' : g ∈ done := by simpa [hgf] using hg
      have hd := hdisjoint g off off' hoff hf hgf
      rw [slice_overwrite_of_disjoint (by omega) (by rw [e.length_toBool]; exact hd)]
      exact h.field g hg' off hoff

/-- Both integers hold the fields copied so far. -/
structure Layout.Holds (e : Encounter) (done : List FieldName) (l : Layout) : Prop where
  i : l.i = (done.flatMap e.toBool).length
  hashMe : PathStore.Holds e lookupOffset lookupBits done l.hashMe
  encryptMe : PathStore.Holds e encryptedOffset encryptedBits done l.encryptMe

theorem Layout.Holds.foldl {e : Encounter} {input : Integer} {done : List FieldName} {l : Layout}
    (h : l.Holds e done) (fields : List FieldName)
    (hinput : input = (done ++ fields).flatMap e.toBool) :
    (fields.foldl (Layout.copy input) l).Holds e (done ++ fields) := by
  induction fields generalizing done l with
  | nil => simpa using h
  | cons f fields ih =>
    have hslice : slice input l.i f.width = e.toBool f := by
      rw [hinput, List.flatMap_append, slice_append_right (by rw [h.i]), h.i, Nat.sub_self,
        List.flatMap_cons, slice_append_left (by simp), ← e.length_toBool f, slice_length]
    have hnext : (l.copy input f).Holds e (done ++ [f]) := by
      refine ⟨by simp [Layout.copy, h.i], ?_, ?_⟩
      · simp only [Layout.copy, hslice]
        exact h.hashMe.copy f (fun _ => lookupOffset_bound)
          fun _ _ _ => lookupOffset_disjoint
      · simp only [Layout.copy, hslice]
        exact h.encryptMe.copy f (fun _ => encryptedOffset_bound)
          fun _ _ _ => encryptedOffset_disjoint
    have := ih hnext (by simpa using hinput)
    simpa using this

/-- What the lookup key is made from. -/
def lookupInput (e : Encounter) : Integer := bitsOf e.device ++ bitsOf e.time

/-- The fields a record is needed for. -/
def neededFields : List FieldName :=
  [.device, .time, .encountered, .previous, .duration, .confirmed]

/-- A list is put together from neighbouring slices. -/
theorem eq_append_of_slices (xs : Integer) {m n : Nat} (h : xs.length = m + n) :
    xs = slice xs 0 m ++ slice xs m n := by
  have hdrop : slice xs m n = xs.drop m := by rw [slice, List.take_of_length_le (by simp [h])]
  rw [hdrop, slice, List.drop_zero, List.take_append_drop]

theorem Holds.lookupInput {e : Encounter} {fields : List FieldName} {buffer : Integer}
    (h : Holds e lookupOffset lookupBits fields buffer) (hneeded : neededFields ⊆ fields) :
    buffer = lookupInput e := by
  have hdevice := h.field .device (hneeded (by simp [neededFields])) 0 rfl
  have htime := h.field .time (hneeded (by simp [neededFields])) 256 rfl
  rw [eq_append_of_slices _ (m := 256) (n := 32) h.length]
  exact congrArg₂ (· ++ ·) hdevice htime

/-- What goes into the encrypted portion. -/
def portion (e : Encounter) : Integer :=
  bitsOf e.encountered ++ (bitsOf e.previous ++ (bitsOf e.duration ++ bitsOf e.confirmed))

@[simp] theorem length_portion (e : Encounter) : (portion e).length = encryptedBits := by
  simp [portion, encryptedBits]

theorem slice_slice {xs : Integer} {off n off' n' : Nat} (h : off' + n' ≤ n) :
    slice (slice xs off n) off' n' = slice xs (off + off') n' := by
  rw [slice, slice, slice, List.drop_take, List.take_take, List.drop_drop,
    Nat.min_eq_left (by omega)]

theorem Holds.portion {e : Encounter} {fields : List FieldName} {buffer : Integer}
    (h : Holds e encryptedOffset encryptedBits fields buffer) (hneeded : neededFields ⊆ fields) :
    buffer = portion e := by
  have hencountered := h.field .encountered (hneeded (by simp [neededFields])) 0 rfl
  have hprevious := h.field .previous (hneeded (by simp [neededFields])) 256 rfl
  have hduration := h.field .duration (hneeded (by simp [neededFields])) 288 rfl
  have hconfirmed := h.field .confirmed (hneeded (by simp [neededFields])) 304 rfl
  have hlen := h.length
  rw [eq_append_of_slices _ (m := 256) (n := 56) hlen,
    eq_append_of_slices (slice buffer 256 56) (m := 32) (n := 24) (by simp [hlen]; rfl),
    eq_append_of_slices (slice (slice buffer 256 56) 32 24) (m := 16) (n := 8)
      (by simp [hlen]; rfl)]
  simp only [slice_slice (show 0 + 32 ≤ 56 by decide), slice_slice (show 32 + 24 ≤ 56 by decide),
    slice_slice (show 0 + 16 ≤ 24 by decide), slice_slice (show 16 + 8 ≤ 24 by decide)]
  exact congrArg₂ (· ++ ·) hencountered (congrArg₂ (· ++ ·) hprevious
    (congrArg₂ (· ++ ·) hduration hconfirmed))

/-! ## One round and a whole call -/

/-- A revealer between `choose_side` and `stop_eq_checker`, all of whose checks succeed. -/
structure Working (r : Revealer) : Prop where
  checks : ∀ i, r.outcome i = true
  ready : (r.eqCheckInProgress || r.readyToRequestEqCheck) = true

namespace StoreCall

variable (a : StoreCall)

/-- The record of an encounter as the storing side gets it. -/
def recordOf (e : Encounter) : StorablePathEncounter :=
  let key := ofBits 256 (a.secrets.mac a.crypto (lookupInput e))
  { key := key
    encrypted := ofBits 512 (a.crypto.aes128Ctr (a.secrets.key a.keySide) (key.setWidth 128)
      (portion e) ++ (a.secrets.mac a.crypto (portion e)).take (512 - encryptedBits)) }

theorem encrypted_recordOf (e : Encounter) : (a.recordOf e).encrypted =
    ofBits 512 (a.crypto.aes128Ctr (a.secrets.key a.keySide) ((a.recordOf e).key.setWidth 128)
      (portion e) ++ (a.secrets.mac a.crypto (portion e)).take (512 - encryptedBits)) := by
  simp only [recordOf]

theorem revealable_hash (r : Revealer) (input : Integer) :
    r.revealable [a.secrets.mac a.crypto input] 256 = a.secrets.mac a.crypto input := by
  rw [Revealer.revealable_eq_take, List.flatten_singleton, if_neg (by decide),
    List.take_of_length_le (by simp)]

theorem revealable_record (r : Revealer) {encrypted : Integer} (input : Integer)
    (h : encrypted.length = encryptedBits) :
    r.revealable [encrypted, a.secrets.mac a.crypto input] 512 =
      encrypted ++ (a.secrets.mac a.crypto input).take (512 - encryptedBits) := by
  rw [Revealer.revealable_eq_take, if_neg (by decide), List.flatten_cons, List.flatten_singleton,
    List.take_append, List.take_of_length_le (by rw [h]; decide), h]

theorem index_storing (hside : a.side = a.storingSide) (k : Nat) : a.index k = k := by
  simp [index, hside]

/-- The first half of a round opens the lookup key and leaves the portion to encrypt. -/
theorem storeKey_output (hside : a.side = a.storingSide)
    (hneeded : neededFields ⊆ fieldOrder a.fields) {st : StoreState}
    (hhash : st.hashMe.length = lookupBits) (henc : st.encryptMe.length = encryptedBits) (k : Nat)
    (e : Encounter) :
    let p := a.storeKey st k ((fieldOrder a.fields).flatMap e.toBool)
    p.1 = a.secrets.mac a.crypto (portion e) ∧
      p.2.output = Function.update st.output k { st.output k with key := (a.recordOf e).key } ∧
      p.2.hashMe = lookupInput e ∧ p.2.encryptMe = portion e := by
  have hstart : Layout.Holds e [] ⟨0, st.hashMe, st.encryptMe⟩ :=
    ⟨rfl, ⟨hhash, fun f hf => by cases hf⟩, ⟨henc, fun f hf => by cases hf⟩⟩
  have hholds := hstart.foldl (fieldOrder a.fields) rfl
  have hhashMe := hholds.hashMe.lookupInput hneeded
  have hencryptMe := hholds.encryptMe.portion hneeded
  rw [List.nil_append] at hhashMe hencryptMe
  simp only [storeKey, hhashMe, hencryptMe, a.index_storing hside]
  have hvalue : ∀ r : Revealer, (r.reveal a.crypto a.secrets a.side
      [a.secrets.mac a.crypto (lookupInput e)] 8 Side.BOTH 256).2.1 =
      some (a.secrets.mac a.crypto (lookupInput e)) := by
    intro r
    rw [Revealer.reveal_value _ _ _ _ _ _ (by rw [revealable_hash]; simp),
      revealable_hash, if_pos (Or.inl rfl)]
  simp [hvalue, recordOf]

/-- What one round leaves of the variables when all goes well on the storing side. -/
theorem storeOne_output (hside : a.side = a.storingSide)
    (hneeded : neededFields ⊆ fieldOrder a.fields) {st : StoreState}
    (hhash : st.hashMe.length = lookupBits) (henc : st.encryptMe.length = encryptedBits)
    (hwork : Working st.revealer) (k : Nat) (e : Encounter) :
    let st' := a.storeOne st k ((fieldOrder a.fields).flatMap e.toBool)
    st'.output = Function.update st.output k (a.recordOf e) ∧
      st'.hashMe.length = lookupBits ∧ st'.encryptMe.length = encryptedBits := by
  obtain ⟨hmac, houtput, hhashMe, hencryptMe⟩ := a.storeKey_output hside hneeded hhash henc k e
  obtain ⟨k1, -, k3, -, -⟩ := a.storeKey_keyRound st k ((fieldOrder a.fields).flatMap e.toBool)
  unfold storeOne storeValue
  generalize a.storeKey st k ((fieldOrder a.fields).flatMap e.toBool) = p at *
  obtain ⟨mac, st'⟩ := p
  simp only at hmac houtput hhashMe hencryptMe k1 k3
  have hok : st'.revealer.getEqCheckResults.1 = true := by
    rw [Revealer.getEqCheckResults_fst, k1, k3, hwork.ready, hwork.checks]
    rfl
  have hvalue : ∀ r : Revealer, (r.reveal a.crypto a.secrets a.side
      [a.crypto.aes128Ctr (a.secrets.key a.keySide) ((a.recordOf e).key.setWidth 128) (portion e),
        a.secrets.mac a.crypto (portion e)] 8 a.storingSide 512).2.1 =
      some (a.crypto.aes128Ctr (a.secrets.key a.keySide) ((a.recordOf e).key.setWidth 128)
        (portion e) ++ (a.secrets.mac a.crypto (portion e)).take (512 - encryptedBits)) := by
    intro r
    have hlen : (a.crypto.aes128Ctr (a.secrets.key a.keySide) ((a.recordOf e).key.setWidth 128)
        (portion e)).length = encryptedBits := by simp
    rw [Revealer.reveal_value _ _ _ _ _ _ (by
      rw [a.revealable_record _ _ hlen]; simp [encryptedBits]), a.revealable_record _ _ hlen,
      if_pos (Or.inr hside)]
  simp only [hok, if_true, a.index_storing hside, houtput, hencryptMe, hmac, hhashMe, hvalue,
    Function.update_self, Function.update_idem]
  exact ⟨rfl, by simp [lookupInput, lookupBits], by simp⟩

/-- A round leaves a working revealer. -/
theorem storeOne_working {st : StoreState} (hwork : Working st.revealer) (k : Nat)
    (input : Integer) : Working (a.storeOne st k input).revealer := by
  obtain ⟨h1, -, h3, -, -⟩ := a.storeOne_round st k input
  refine ⟨fun i => by rw [h3, hwork.checks], ?_⟩
  rw [h1, hwork.ready, hwork.checks]
  rfl

/-- Cell `k + j` ends up with the record of encounter `j`. -/
theorem storeFrom_output (hside : a.side = a.storingSide)
    (hneeded : neededFields ⊆ fieldOrder a.fields) {st : StoreState}
    (hhash : st.hashMe.length = lookupBits) (henc : st.encryptMe.length = encryptedBits)
    (hwork : Working st.revealer) (k : Nat) (encounters : List Encounter) (i : Nat) :
    (a.storeFrom st k (encounters.map fun e => (fieldOrder a.fields).flatMap e.toBool)).output i =
      if i < k then st.output i
      else match encounters[i - k]? with
        | some e => a.recordOf e
        | none => st.output i := by
  induction encounters generalizing st k with
  | nil => simp [storeFrom]
  | cons e encounters ih =>
    obtain ⟨houtput, hhash', henc'⟩ := a.storeOne_output hside hneeded hhash henc hwork k e
    rw [List.map_cons, storeFrom, ih hhash' henc' (a.storeOne_working hwork ..), houtput]
    rcases Nat.lt_trichotomy i k with hlt | rfl | hgt
    · rw [if_pos (by omega), if_pos hlt, Function.update_of_ne (by omega)]
    · simp
    · rw [if_neg (by omega), if_neg (by omega), Function.update_of_ne (by omega),
        show i - k = i - (k + 1) + 1 by omega, List.getElem?_cons_succ]

/-- The array after `store_path_encounter` on integers that `fillIntegers` made. -/
theorem storePathEncounter_output (hside : a.side = a.storingSide)
    (hneeded : neededFields ⊆ fieldOrder a.fields) {r : Revealer} (hwork : Working r)
    (output : Nat → StorablePathEncounter) (buffer : Nat → Bool) (encounters : List Encounter)
    (i : Nat) :
    (a.storePathEncounter r output (fillIntegers buffer encounters false a.fields)).output i =
      match encounters[i]? with
      | some e => a.recordOf e
      | none => output i := by
  rw [storePathEncounter, fillIntegers, if_neg (by decide),
    a.storeFrom_output hside hneeded (by simp) (by simp) hwork]
  simp

end StoreCall

end CoVault.PathStore
