import Mathlib

/-!
# Items in order

A source gives out its items in the order in which it holds them, and a FIFO takes new items
behind those it holds. A block of items, one for each index of a finite type, goes through item
by item, whatever the place it is received into held before. So a FIFO of items is also one of
blocks.
-/

namespace CoVault.Library.InOrder

/-- `Holds s xs` says that the items still to come from `s` are `xs`. -/
structure Source (α σ : Type) where
  receive : σ → Option (α × σ)
  Holds : σ → List α → Prop
  holds_receive : ∀ {s x xs}, Holds s (x :: xs) → ∃ s', receive s = some (x, s') ∧ Holds s' xs

/-- A source that also takes items. -/
structure Fifo (α σ : Type) extends Source α σ where
  send : α → σ → σ
  holds_send : ∀ {s xs} (x : α), Holds s xs → Holds (send x s) (xs ++ [x])

variable {α σ ι : Type}

/-- One item after the other. -/
def sendAll (send : α → σ → σ) (xs : List α) (s : σ) : σ := xs.foldl (fun s x => send x s) s

@[simp] theorem sendAll_nil (send : α → σ → σ) (s : σ) : sendAll send [] s = s := rfl

@[simp] theorem sendAll_cons (send : α → σ → σ) (x : α) (xs : List α) (s : σ) :
    sendAll send (x :: xs) s = sendAll send xs (send x s) := rfl

theorem sendAll_append (send : α → σ → σ) (xs ys : List α) (s : σ) :
    sendAll send (xs ++ ys) s = sendAll send ys (sendAll send xs s) := List.foldl_append ..

/-- Blocks that are sent one after the other are sent item by item. -/
theorem sendAll_flatMap {β : Type} (send : α → σ → σ) (items : β → List α) (bs : List β) (s : σ) :
    sendAll (fun b s => sendAll send (items b) s) bs s = sendAll send (bs.flatMap items) s := by
  induction bs generalizing s with
  | nil => rfl
  | cons b bs ih => rw [sendAll_cons, ih, List.flatMap_cons, sendAll_append]

theorem Fifo.holds_sendAll (f : Fifo α σ) {s : σ} {xs : List α} (h : f.Holds s xs)
    (ys : List α) : f.Holds (sendAll f.send ys s) (xs ++ ys) := by
  induction ys generalizing s xs with
  | nil => simpa using h
  | cons y ys ih => simpa using ih (f.holds_send y h)

/-! ## Blocks of items -/

namespace Source

variable [DecidableEq ι] (f : Source α σ)

/-- The places `is` are received into, in this order; the others keep what they held. -/
def receiveInto : List ι → (ι → α) → σ → Option ((ι → α) × σ)
  | [], tmp, s => some (tmp, s)
  | i :: is, tmp, s => do
    let (x, s) ← f.receive s
    receiveInto is (Function.update tmp i x) s

variable {f}

theorem receiveInto_eq {is : List ι} {x : ι → α} {s : σ} {rest : List α}
    (h : f.Holds s (is.map x ++ rest)) (tmp : ι → α) :
    ∃ s', f.receiveInto is tmp s = some (fun i => if i ∈ is then x i else tmp i, s') ∧
      f.Holds s' rest := by
  induction is generalizing s tmp with
  | nil => exact ⟨s, by simp [receiveInto], h⟩
  | cons i is ih =>
    have hheld : f.Holds s (x i :: (is.map x ++ rest)) := h
    obtain ⟨t, hreceive, ht⟩ := f.holds_receive hheld
    obtain ⟨s', heq, hs'⟩ := ih ht (Function.update tmp i (x i))
    refine ⟨s', ?_, hs'⟩
    simp only [receiveInto, hreceive, Option.bind_eq_bind, Option.bind_some, heq]
    congr
    funext j
    by_cases hj : j = i
    · subst hj
      simp
    · simp [hj]

/-- A block is received as it was sent. -/
theorem receiveInto_finRange {k : Nat} {x : Fin k → α} {s : σ} {rest : List α}
    (h : f.Holds s (List.ofFn x ++ rest)) (tmp : Fin k → α) :
    ∃ s', f.receiveInto (List.finRange k) tmp s = some (x, s') ∧ f.Holds s' rest := by
  rw [List.ofFn_eq_map] at h
  simpa using receiveInto_eq h tmp

end Source

/-- A FIFO of items as one of blocks of `k` items. -/
def Fifo.blocks [Inhabited α] (f : Fifo α σ) (k : Nat) : Fifo (Fin k → α) σ where
  send x s := sendAll f.send (List.ofFn x) s
  receive s := f.receiveInto (List.finRange k) (fun _ => default) s
  Holds s bs := f.Holds s (bs.flatMap List.ofFn)
  holds_receive h := Source.receiveInto_finRange (by simpa using h) _
  holds_send x h := by simpa using f.holds_sendAll h (List.ofFn x)

/-- A list that is appended to. -/
def Fifo.queue (α : Type) : Fifo α (List α) where
  send x s := s ++ [x]
  receive
    | [] => none
    | x :: s => some (x, s)
  Holds s xs := s = xs
  holds_receive h := by subst h; exact ⟨_, rfl, rfl⟩
  holds_send x h := by rw [h]

/-- The cells of a list, read from a place on. -/
def Source.cells (α : Type) : Source α (List α × Nat) where
  receive s := s.1[s.2]?.map fun x => (x, s.1, s.2 + 1)
  Holds s xs := s.1.drop s.2 = xs
  holds_receive := by
    rintro ⟨cells, k⟩ x xs h
    have hlt : k < cells.length := by
      by_contra hge
      simp [List.drop_eq_nil_of_le (Nat.not_lt.mp hge)] at h
    rw [List.drop_eq_getElem_cons hlt, List.cons.injEq] at h
    refine ⟨(cells, k + 1), ?_, h.2⟩
    simp [hlt, h.1]

end CoVault.Library.InOrder
