import CoVault.Library.InOrder
import CoVault.MapReduce.ReduceLayer

/-!
# Lists on their way between processes

The nodes of the tree hand their lists over as the wires of 32-bit Integers, block by block: over
the channel of the circuit library, over a socket, or through a vector in shared memory. The lists
to be merged have to arrive in reverse order.

The channel and the byte stream of a socket keep their order. A segment of shared memory has room
for a vector of limited size; without that the sender gives up and never posts the semaphore.
-/

namespace CoVault.MapReduce.ListTransport

open Library.InOrder

/-- A block as it is in memory. -/
abbrev Block := Fin 16 → UInt8

/-- The wires of an Integer. -/
abbrev Wires := Fin hashbits → Block

variable {σ τ : Type}

/-! ## Sending -/

section Send

variable (send : Block → σ → σ) (list : List Wires)

def sendBits (x : Wires) (s : σ) : σ := sendAll send (List.ofFn x) s

def sendListReverse (s : σ) : σ :=
  (List.range list.length).foldl
    (fun s i => sendBits send (list.getD (list.length - 1 - i) default) s) s

/-- `send_list` takes every element from the same place. -/
def sendList (s : σ) : σ :=
  (List.range list.length).foldl (fun s _ => sendBits send (list.getD 0 default) s) s

end Send

/-! ## Receiving -/

/-- `receive_list`: the Integer `tmp` is filled over and over. -/
def receiveList (f : Source Block σ) : Nat → Wires → σ → Option (List Wires × σ)
  | 0, _, s => some ([], s)
  | n + 1, tmp, s => do
    let (tmp, s) ← f.receiveInto (List.finRange hashbits) tmp s
    let (rest, s) ← receiveList f n tmp s
    some (tmp :: rest, s)

/-! ## Shared memory -/

/-- The vector in a segment, and the value of the semaphore. -/
structure Segment where
  vec : List Block
  posted : Nat

/-- What a sender finds that is the first to come. -/
def Segment.fresh : Segment := ⟨[], 0⟩

/-- `vec[k] = block`, and on to the next `k`. -/
def storeBlock (x : Block) (s : List Block × Nat) : List Block × Nat := (s.1.set s.2 x, s.2 + 1)

def resize (n : Nat) (vec : List Block) : List Block := (vec ++ List.replicate n default).take n

/-- `sender`; `fits` says whether a vector of so many bytes can be allocated in the segment. -/
def sender (fits : Nat → Bool) (list : List Wires) (m : Segment) : Segment :=
  let size := list.length * hashbits
  if fits (size * blockSize) then
    ⟨(sendListReverse storeBlock list (resize size m.vec, 0)).1, m.posted + 1⟩
  else m

/-- `receiver`, which waits for the semaphore. -/
def receiver (n : Nat) (tmp : Wires) (m : Segment) : Option (List Wires) :=
  if m.posted = 0 then none
  else (receiveList (Source.cells Block) n tmp (m.vec, 0)).map Prod.fst

/-! ## What is sent, and what arrives -/

section

variable {send : Block → σ → σ} {list : List Wires}

theorem sendListReverse_eq (s : σ) :
    sendListReverse send list s = sendAll send (list.reverse.flatMap List.ofFn) s := by
  have hmap : (List.range list.length).map (fun i => list.getD (list.length - 1 - i) default) =
      list.reverse := by
    refine List.ext_getElem (by simp) fun i h h' => ?_
    have hi : i < list.length := by simpa using h
    have hlt : list.length - 1 - i < list.length := by omega
    simp [List.getElem_reverse, List.getD_eq_getElem?_getD, hlt]
  rw [← sendAll_flatMap, ← hmap, sendAll, List.foldl_map]
  rfl

theorem sendList_eq (s : σ) : sendList send list s =
    sendAll send ((List.replicate list.length (list.getD 0 default)).flatMap List.ofFn) s := by
  have hmap : (List.range list.length).map (fun _ => list.getD 0 default) =
      List.replicate list.length (list.getD 0 default) := by simp
  rw [← sendAll_flatMap, ← hmap, sendAll, List.foldl_map]
  rfl

end

theorem receiveList_eq {f : Source Block σ} {xs : List Wires} {s : σ} {rest : List Block}
    (h : f.Holds s (xs.flatMap List.ofFn ++ rest)) (tmp : Wires) :
    ∃ s', receiveList f xs.length tmp s = some (xs, s') ∧ f.Holds s' rest := by
  induction xs generalizing s tmp with
  | nil => exact ⟨s, rfl, h⟩
  | cons x xs ih =>
    rw [List.flatMap_cons, List.append_assoc] at h
    obtain ⟨t, hx, ht⟩ := Source.receiveInto_finRange h tmp
    obtain ⟨s', hxs, hs'⟩ := ih ht x
    refine ⟨s', ?_, hs'⟩
    simp only [List.length_cons, receiveList, hx, Option.bind_eq_bind, Option.bind_some, hxs]

@[simp] theorem length_flatMap_ofFn (list : List Wires) :
    (list.flatMap List.ofFn).length = list.length * hashbits := by
  simp [List.length_flatMap]

/-- Blocks are stored one behind the other. -/
theorem sendAll_storeBlock (xs stored old : List Block) (h : xs.length = old.length) :
    sendAll storeBlock xs (stored ++ old, stored.length) =
      (stored ++ xs, stored.length + xs.length) := by
  induction xs generalizing stored old with
  | nil => simp [List.length_eq_zero_iff.mp h.symm]
  | cons x xs ih =>
    obtain ⟨y, old, rfl⟩ := List.exists_cons_of_length_eq_add_one (n := xs.length) h.symm
    have hstep := ih (stored ++ [x]) old (by simpa using h)
    simp only [List.length_append, List.length_singleton, List.append_assoc,
      List.singleton_append] at hstep
    rw [sendAll_cons, storeBlock, List.set_append_right _ _ le_rfl, Nat.sub_self,
      List.set_cons_zero, hstep, List.length_cons, Nat.add_assoc, Nat.add_comm 1]

theorem sender_fresh {fits : Nat → Bool} {list : List Wires}
    (hfits : fits (list.length * hashbits * blockSize) = true) :
    sender fits list Segment.fresh = ⟨list.reverse.flatMap List.ofFn, 1⟩ := by
  have hresize : resize (list.length * hashbits) [] =
      List.replicate (list.length * hashbits) default := by simp [resize]
  have hstored := sendAll_storeBlock (list.reverse.flatMap List.ofFn) []
    (List.replicate (list.length * hashbits) default) (by simp)
  rw [List.nil_append, List.nil_append, List.length_nil] at hstored
  rw [sender, Segment.fresh]
  simp only [hfits, if_true]
  rw [sendListReverse_eq, hresize, hstored]

/-! ## The transports -/

section Transport

variable (net : Fifo Block σ) (stream : Fifo UInt8 τ) (fits : Nat → Bool) (tmp : Wires)
  (list : List Wires)

/-- `send_block` and `read_block` of a socket: the bytes of a block. -/
def socket (stream : Fifo UInt8 τ) : Fifo Block τ := stream.blocks blockSize

/-- `send_list`, then `receive_list`. -/
def overNet (s : σ) : Option (List Wires) :=
  (receiveList net.toSource list.length tmp (sendList net.send list s)).map Prod.fst

/-- `send_list_reverse`, then `receive_list`. -/
def overNetReverse (s : σ) : Option (List Wires) :=
  (receiveList net.toSource list.length tmp (sendListReverse net.send list s)).map Prod.fst

/-- `sender`, then `receiver`. -/
def overSharedMemory : Option (List Wires) :=
  receiver list.length tmp (sender fits list Segment.fresh)

/-- Every transport brings the list in the order that is meant. -/
structure Transported (s : σ) (t : τ) : Prop where
  inOrder : overNet net tmp list s = some list
  reversed : overNetReverse net tmp list s = some list.reverse
  overSocket : overNetReverse (socket stream) tmp list t = some list.reverse
  shared : overSharedMemory fits tmp list = some list.reverse

variable {net stream fits tmp list} {s : σ} {t : τ}

theorem receiveList_sendAll (h : net.Holds s []) {xs : List Wires} {n : Nat} (hn : n = xs.length) :
    (receiveList net.toSource n tmp (sendAll net.send (xs.flatMap List.ofFn) s)).map Prod.fst =
      some xs := by
  have hheld := net.holds_sendAll h (xs.flatMap List.ofFn)
  rw [List.nil_append, ← List.append_nil (xs.flatMap List.ofFn)] at hheld
  obtain ⟨s', heq, -⟩ := receiveList_eq hheld tmp
  rw [List.append_nil] at heq
  rw [hn, heq, Option.map_some]

theorem overNet_eq (h : net.Holds s []) :
    overNet net tmp list s = some (List.replicate list.length (list.getD 0 default)) := by
  rw [overNet, sendList_eq, receiveList_sendAll h (by simp)]

theorem overNetReverse_eq (h : net.Holds s []) :
    overNetReverse net tmp list s = some list.reverse := by
  rw [overNetReverse, sendListReverse_eq, receiveList_sendAll h (by simp)]

theorem overSharedMemory_eq (hfits : fits (list.length * hashbits * blockSize) = true) :
    overSharedMemory fits tmp list = some list.reverse := by
  have hheld : (Source.cells Block).Holds (list.reverse.flatMap List.ofFn, 0)
      (list.reverse.flatMap List.ofFn ++ []) := by simp [Source.cells]
  obtain ⟨s', heq, -⟩ := receiveList_eq hheld tmp
  rw [List.length_reverse] at heq
  rw [overSharedMemory, sender_fresh hfits, receiver]
  simp [heq]

/-- A sender without room leaves the semaphore alone. -/
theorem overSharedMemory_of_not_fits (hfits : fits (list.length * hashbits * blockSize) = false) :
    overSharedMemory fits tmp list = none := by
  simp [overSharedMemory, sender, hfits, receiver, Segment.fresh]

/-- The integer on the wires, with `value` for what a block stands for. -/
def integerOf (value : Block → Bool) (x : Wires) : Circuit.Integer := List.ofFn fun j => value (x j)

/-- What the layers of the reduce tree assume about their channels. -/
theorem transport_integerOf (value : Block → Bool) (beyond : Nat → Bool) (c : Channel) :
    c.transport beyond (list.map (integerOf value)) = list.reverse.map (integerOf value) := by
  rw [Channel.transport_eq, ← List.map_reverse, List.map_map]
  exact List.map_congr_left fun x _ => sentWord_of_length beyond (by simp [integerOf])

theorem overSocket_integerOf (value : Block → Bool) (beyond : Nat → Bool) (h : stream.Holds t []) :
    (overNetReverse (socket stream) tmp list t).map (List.map (integerOf value)) =
      some (Channel.socket.transport beyond (list.map (integerOf value))) := by
  have hreverse : overNetReverse (socket stream) tmp list t = some list.reverse :=
    overNetReverse_eq h
  rw [hreverse, Option.map_some, transport_integerOf]

theorem overSharedMemory_integerOf (value : Block → Bool) (beyond : Nat → Bool)
    (hfits : fits (list.length * hashbits * blockSize) = true) :
    (overSharedMemory fits tmp list).map (List.map (integerOf value)) =
      some (Channel.sharedMemory.transport beyond (list.map (integerOf value))) := by
  rw [overSharedMemory_eq hfits, Option.map_some, transport_integerOf]

/-- All transports are right just for the lists whose elements are all the same and that fit in
shared memory. -/
theorem transported_iff (hs : net.Holds s []) (ht : stream.Holds t []) :
    Transported net stream fits tmp list s t ↔
      (∀ x ∈ list, x = list.getD 0 default) ∧
        fits (list.length * hashbits * blockSize) = true := by
  have hsocket : (socket stream).Holds t [] := ht
  constructor
  · rintro ⟨hnet, -, -, hshared⟩
    rw [overNet_eq hs, Option.some.injEq, eq_comm, List.eq_replicate_iff] at hnet
    refine ⟨hnet.2, ?_⟩
    by_contra hfits
    rw [overSharedMemory_of_not_fits (by simpa using hfits)] at hshared
    cases hshared
  · rintro ⟨hsame, hfits⟩
    refine ⟨?_, overNetReverse_eq hs, overNetReverse_eq hsocket, overSharedMemory_eq hfits⟩
    rw [overNet_eq hs, Option.some.injEq, eq_comm, List.eq_replicate_iff]
    exact ⟨rfl, hsame⟩

end Transport

/-! ## Two different elements -/

/-- An Integer whose wires all carry blocks of one byte. -/
def filled (b : UInt8) : Wires := fun _ _ => b

/-- The second element arrives as the first. -/
theorem secondElement_lost :
    (Fifo.queue Block).Holds [] [] ∧ (Fifo.queue UInt8).Holds [] [] ∧
      ¬ Transported (Fifo.queue Block) (Fifo.queue UInt8) (fun n => n ≤ 4096) (filled 0)
        [filled 0, filled 1] [] [] := by
  refine ⟨rfl, rfl, fun h => ?_⟩
  have hlist := h.inOrder
  rw [overNet_eq rfl] at hlist
  revert hlist
  decide

theorem sameElements_transported :
    Transported (Fifo.queue Block) (Fifo.queue UInt8) (fun n => n ≤ 4096) (filled 0)
      [filled 1, filled 1] [] [] :=
  (transported_iff rfl rfl).mpr ⟨by simp, by decide⟩

end CoVault.MapReduce.ListTransport
