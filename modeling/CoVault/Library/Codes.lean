import Mathlib

/-!
# Codes that delimit themselves

A word of a prefix-free code is found in front of anything: it determines what it stands for
and where it ends. In a suffix-free code the same holds behind anything. A first item that
tells how many items follow makes a code prefix-free, and so does the length of a list in
front of the list.
-/

namespace CoVault.Library.Codes

variable {α β σ : Type*}

def PrefixFreeOn (A : Set α) (code : α → List σ) : Prop :=
  ∀ ⦃x⦄, x ∈ A → ∀ ⦃y⦄, y ∈ A → ∀ ⦃rest rest' : List σ⦄,
    code x ++ rest = code y ++ rest' → x = y ∧ rest = rest'

def SuffixFreeOn (A : Set α) (code : α → List σ) : Prop :=
  ∀ ⦃x⦄, x ∈ A → ∀ ⦃y⦄, y ∈ A → ∀ ⦃before before' : List σ⦄,
    before ++ code x = before' ++ code y → x = y ∧ before = before'

variable {A : Set α} {B : Set β} {code : α → List σ} {code' : β → List σ}

theorem PrefixFreeOn.injOn (h : PrefixFreeOn A code) : A.InjOn code := fun _ hx _ hy heq =>
  (h hx hy (congrArg (· ++ []) heq)).1

/-- A word read from its end. -/
theorem suffixFreeOn_of_reverse (h : PrefixFreeOn A fun x => (code x).reverse) :
    SuffixFreeOn A code := by
  intro x hx y hy before before' heq
  have hreverse := congrArg List.reverse heq
  rw [List.reverse_append, List.reverse_append] at hreverse
  obtain ⟨hxy, hbefore⟩ := h hx hy hreverse
  exact ⟨hxy, List.reverse_injective hbefore⟩

/-- The first item tells how many items follow. -/
theorem prefixFreeOn_cons {header : α → σ} {body : α → List σ}
    (hlength : ∀ x ∈ A, ∀ y ∈ A, header x = header y → (body x).length = (body y).length)
    (hbody : ∀ x ∈ A, ∀ y ∈ A, header x = header y → body x = body y → x = y) :
    PrefixFreeOn A fun x => header x :: body x := by
  intro x hx y hy rest rest' heq
  obtain ⟨hheader, htail⟩ := List.cons.inj heq
  obtain ⟨hsame, hrest⟩ := List.append_inj htail (hlength x hx y hy hheader)
  exact ⟨hbody x hx y hy hheader hsame, hrest⟩

/-- One word behind the other. -/
theorem PrefixFreeOn.append (h : PrefixFreeOn A code) (h' : PrefixFreeOn B code') :
    PrefixFreeOn (A ×ˢ B) fun p => code p.1 ++ code' p.2 := by
  rintro ⟨x, x'⟩ ⟨hx, hx'⟩ ⟨y, y'⟩ ⟨hy, hy'⟩ rest rest' heq
  rw [List.append_assoc, List.append_assoc] at heq
  obtain ⟨rfl, hsecond⟩ := h hx hy heq
  obtain ⟨rfl, hrest⟩ := h' hx' hy' hsecond
  exact ⟨rfl, hrest⟩

/-- A list behind its length. -/
theorem PrefixFreeOn.lengthPrefixed (h : PrefixFreeOn A code) {size : Nat → α} {N : Set Nat}
    (hmaps : Set.MapsTo size N A) (hsize : Set.InjOn size N) :
    PrefixFreeOn {s : List σ | s.length ∈ N} fun s => code (size s.length) ++ s := by
  intro s hs t ht rest rest' heq
  rw [List.append_assoc, List.append_assoc] at heq
  obtain ⟨hlength, htail⟩ := h (hmaps hs) (hmaps ht) heq
  exact List.append_inj htail (hsize hs ht hlength)

/-! ## Reading -/

/-- A number of items, the one behind the other. -/
def readMany (read : List σ → Option (α × List σ)) : Nat → List σ → Option (List α × List σ)
  | 0, stream => some ([], stream)
  | n + 1, stream => do
    let (x, stream) ← read stream
    let (xs, stream) ← readMany read n stream
    some (x :: xs, stream)

section ReadMany

variable {read : List σ → Option (α × List σ)}

theorem readMany_flatMap {xs : List α}
    (h : ∀ x ∈ xs, ∀ rest, read (code x ++ rest) = some (x, rest)) (rest : List σ) :
    readMany read xs.length (xs.flatMap code ++ rest) = some (xs, rest) := by
  induction xs with
  | nil => rfl
  | cons x xs ih =>
    have hrest := ih fun y hy => h y (List.mem_cons_of_mem _ hy)
    simp only [List.length_cons, readMany, List.flatMap_cons, List.append_assoc,
      h x (List.mem_cons_self ..), hrest, Option.bind_eq_bind, Option.bind_some]

/-- What it takes from the stream, if every item takes `size`. -/
theorem length_readMany {size : Nat}
    (h : ∀ s x rest, read s = some (x, rest) → s.length = size + rest.length) :
    ∀ {n s xs rest}, readMany read n s = some (xs, rest) → s.length = n * size + rest.length := by
  intro n
  induction n with
  | zero =>
    rintro s xs rest ⟨⟩
    simp
  | succ n ih =>
    intro s xs rest hread
    obtain ⟨⟨x, s'⟩, hx, hread⟩ := Option.bind_eq_some_iff.mp hread
    obtain ⟨⟨xs', rest'⟩, hxs, heq⟩ := Option.bind_eq_some_iff.mp hread
    obtain ⟨-, rfl⟩ := Prod.mk.inj (Option.some.inj heq)
    rw [h _ _ _ hx, ih hxs, Nat.succ_mul]
    omega

end ReadMany

end CoVault.Library.Codes
