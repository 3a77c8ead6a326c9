import CoVault.Encounters.Decode
import CoVault.PathStore.StoreSpec

/-!
# Three ways through the fields

`fillIntegers`, `fromIntegers` and `store_path_encounter` each walk along the list of field names
and count bits. Given the same list, they count the same: what the first writes is what the second
restores, and the third copies each field from where it was written.
-/

namespace CoVault.PathStore

open Circuit Encounters Library.Slices

variable {e : Encounter}

/-- In a round of `store_path_encounter` both integers end up with the fields that were encoded. -/
theorem StoreCall.storeKey_holds (a : StoreCall) {st : StoreState}
    (hhash : st.hashMe.length = lookupBits) (henc : st.encryptMe.length = encryptedBits) (k : Nat) :
    let st' := (a.storeKey st k ((fieldOrder a.fields).flatMap e.toBool)).2
    Holds e lookupOffset lookupBits (fieldOrder a.fields) st'.hashMe ∧
      Holds e encryptedOffset encryptedBits (fieldOrder a.fields) st'.encryptMe := by
  have hstart : Layout.Holds e [] ⟨0, st.hashMe, st.encryptMe⟩ :=
    ⟨rfl, ⟨hhash, fun f hf => by cases hf⟩, ⟨henc, fun f hf => by cases hf⟩⟩
  have hholds := hstart.foldl (fieldOrder a.fields) rfl
  exact ⟨hholds.hashMe, hholds.encryptMe⟩

/-- For every list of different field names: the encoding fits into the buffer, decoding restores
the fields named and leaves the others, and the copies for lookup key and encrypted portion are
taken from where the fields stand in the encoding. -/
theorem fields_in_step {fields : List FieldName} (hfields : fields.Nodup) :
    (∀ e : Encounter, ((fieldOrder fields).flatMap e.toBool).length ≤ bufferBits) ∧
    (∀ buffer bools encounter encounters k g,
      (fromIntegers bools encounter (fillIntegers buffer encounters false fields) false fields
        k).toBool g =
        match encounters[k]? with
        | some e => if g ∈ fieldOrder fields then e.toBool g else (encounter k).toBool g
        | none => (encounter k).toBool g) ∧
    ∀ (a : StoreCall) buffer encounters k e, a.fields = fields → encounters[k]? = some e →
      ∃ input, (fillIntegers buffer encounters false fields)[k]? = some input ∧
        ∀ st : StoreState, st.hashMe.length = lookupBits → st.encryptMe.length = encryptedBits →
          ∀ f ∈ fieldOrder fields,
            slice input (fieldPlace (fieldOrder fields) f) f.width = e.toBool f ∧
            (∀ off, lookupOffset f = some off →
              slice (a.storeKey st k input).2.hashMe off f.width =
                slice input (fieldPlace (fieldOrder fields) f) f.width) ∧
            ∀ off, encryptedOffset f = some off →
              slice (a.storeKey st k input).2.encryptMe off f.width =
                slice input (fieldPlace (fieldOrder fields) f) f.width := by
  refine ⟨length_flatMap_toBool_le (fieldOrder_nodup hfields), fun _ _ _ _ _ _ =>
    fromIntegers_fillIntegers .., ?_⟩
  rintro a buffer encounters k e rfl he
  refine ⟨(fieldOrder a.fields).flatMap e.toBool, by simp [fillIntegers, he], ?_⟩
  intro st hhash henc f hf
  obtain ⟨hlookup, hencrypted⟩ := a.storeKey_holds (e := e) hhash henc k
  have hplace := slice_fieldPlace (e := e) hf
  exact ⟨hplace, fun off hoff => (hlookup.field f hf off hoff).trans hplace.symm,
    fun off hoff => (hencrypted.field f hf off hoff).trans hplace.symm⟩

/-- An encounter of device 5 at time 9. -/
def sample : Encounter := ⟨1, 5, 6, 0, 0, 3, 9, 4, 12, 20, 1, true⟩

/-- Decoded by time and device, an encounter gets both and nothing else. -/
theorem fields_in_step_two : (fromIntegers (fun _ => true) (fun _ => sample)
    (fillIntegers (fun _ => false) [⟨0, 7, 0, 0, 0, 0, 8, 0, 0, 0, 0, false⟩] false
      [.time, .device]) false [.time, .device] 0).toBool .time = bitsOf (8 : BitVec 32) :=
  (fields_in_step (by decide : List.Nodup [FieldName.time, .device])).2.1 ..

end CoVault.PathStore
