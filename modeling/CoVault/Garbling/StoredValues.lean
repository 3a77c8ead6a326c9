import CoVault.Garbling.HalfGate
import CoVault.MapReduce.PlainShares

/-!
# Garbled values in the key-value store

The ingress puts the labels of its output wires into the store, each party those that it has, and
a query puts them on wires of its own circuit, in another execution with other random blocks. What
makes this work is that `delta` is the same in all executions. Two stores of labels go through any
number of executions as one store of Booleans would.
-/

namespace CoVault.Garbling

open Library.GateCircuit

/-- The stores of the two parties, with a block at each place. -/
structure Stores (P : Type) where
  garbler : P → Block
  evaluator : P → Block

/-- One execution: what the garbler draws, the labels of `0` and the Booleans of the inputs that
are fed to it, the wires that are read from the store instead, the circuit, and the places that
are written afterwards, with the wires that go there. -/
structure Session (P : Type) where
  random : Random
  zeros : Nat → Block
  inputs : Nat → Bool
  load : Nat → Option P
  circuit : Circuit
  save : P → Option Nat

namespace Session

variable {P : Type} (t : Toolkit) (eva : Evaluator) (s : Session P)

/-- The input labels of the garbler. -/
def garblerWires (st : Stores P) (i : Nat) : Block :=
  match s.load i with
  | some p => st.garbler p
  | none => s.zeros i

/-- The input labels of the evaluator: a fed input gives it the label of its Boolean. -/
def evaluatorWires (st : Stores P) (i : Nat) : Block :=
  match s.load i with
  | some p => st.evaluator p
  | none => label (delta t) (s.zeros i) (s.inputs i)

/-- The labels that the garbler and the evaluator end with. -/
def execute (st : Stores P) : Option ((Nat → Block) × (Nat → Block)) :=
  let garbled := garble t s.random s.circuit (s.garblerWires st)
  (evaluate eva s.circuit (s.evaluatorWires t st) garbled.2).map fun out => (garbled.1, out.1)

/-- What is at a place after the labels, or Booleans, `wires` have been stored. -/
def saved {α : Type} (wires : Nat → α) (old : P → α) (p : P) : α :=
  match s.save p with
  | some i => wires i
  | none => old p

/-- The stores after the execution. -/
def run (st : Stores P) : Option (Stores P) :=
  (s.execute t eva st).map fun (zeros, labels) =>
    ⟨s.saved zeros st.garbler, s.saved labels st.evaluator⟩

/-- The Booleans on the input wires, over a store of Booleans. -/
def values (b : P → Bool) (i : Nat) : Bool :=
  match s.load i with
  | some p => b p
  | none => s.inputs i

/-- What an execution does to a store of Booleans. -/
def act (b : P → Bool) : P → Bool := s.saved (s.circuit.values (s.values b)) b

end Session

/-- Two stores of labels refine a store of Booleans. -/
def Stores.Refines {P : Type} (t : Toolkit) (st : Stores P) (b : P → Bool) : Prop :=
  ∀ p, st.evaluator p = label (delta t) (st.garbler p) (b p)

section Refinement

variable {P : Type} {t : Toolkit} {eva : Evaluator} {st : Stores P} {b : P → Bool}

/-- Every wire of an execution has the labels of its Boolean, and can be opened. -/
theorem Session.execute_refines (h : Evaluates t eva) (hst : st.Refines t b) (s : Session P) :
    ∃ zeros labels, s.execute t eva st = some (zeros, labels) ∧
      ∀ i, labels i = label (delta t) (zeros i) (s.circuit.values (s.values b) i) ∧
        s.circuit.values (s.values b) i = (getLSB (labels i) ^^ getLSB (zeros i)) := by
  have hin : ∀ i, s.evaluatorWires t st i =
      label (delta t) (s.garblerWires st i) (s.values b i) := by
    intro i
    unfold Session.evaluatorWires Session.garblerWires Session.values
    cases s.load i
    · rfl
    · exact hst _
  obtain ⟨out, hrun, hall⟩ := evaluate_labels h s.random s.circuit hin
  refine ⟨_, out, by rw [Session.execute, hrun]; rfl, fun i => ⟨hall i, ?_⟩⟩
  rw [hall i]
  exact (lsb_label ..).symm

theorem Session.run_refines (h : Evaluates t eva) (hst : st.Refines t b) (s : Session P) :
    ∃ st', s.run t eva st = some st' ∧ st'.Refines t (s.act b) := by
  obtain ⟨zeros, labels, hrun, hall⟩ := s.execute_refines h hst
  refine ⟨⟨s.saved zeros st.garbler, s.saved labels st.evaluator⟩, by rw [Session.run, hrun]; rfl,
    fun p => ?_⟩
  cases hp : s.save p with
  | none => simpa only [Session.act, Session.saved, hp] using hst p
  | some i => simpa only [Session.act, Session.saved, hp] using (hall i).1

/-- Any number of executions, one after the other. -/
theorem sessions_refine (h : Evaluates t eva) (hst : st.Refines t b) (ss : List (Session P)) :
    ∃ st', ss.foldlM (fun st s => s.run t eva st) st = some st' ∧
      st'.Refines t (ss.foldl (fun b s => s.act b) b) := by
  induction ss generalizing st b with
  | nil => exact ⟨st, rfl, hst⟩
  | cons s ss ih =>
    obtain ⟨st', hrun, hst'⟩ := s.run_refines h hst
    obtain ⟨st'', hrest, hst''⟩ := ih hst'
    exact ⟨st'', by rw [List.foldlM_cons, hrun]; exact hrest, hst''⟩

end Refinement

/-! ## A tile and its query -/

open MapReduce Circuit

/-- The values that belong to a tile. -/
inductive TileKey where
  | eid | tile | sick
  deriving DecidableEq

/-- Block `n` of the value under a key. -/
abbrev Place := TileKey × Nat

/-- `store_garbled_data`, for a tile whose sort keys and rows are on the given wires. -/
def storeGarbledWires (sortKey tile : Nat → Nat → Nat) (tileSize : Nat) : Place → Option Nat
  | (.eid, k) =>
    if k < tileSize * didbits then some (sortKey (k / didbits) (k % didbits)) else none
  | (.tile, k) =>
    if k < tileSize * tilebits then some (tile (k / tilebits) (k % tilebits)) else none
  | (.sick, k) => if k < didbits then some (tile (k / tilebits) (k % tilebits)) else none

/-- The wires of a query: the id asked for, and behind it the rows. -/
def loadGarbledWires (tileSize : Nat) (i : Nat) : Option Place :=
  if i < didbits then some (.sick, i)
  else if i < didbits + tileSize * tilebits then some (.tile, i - didbits)
  else none

/-- The output wires of the ingress hold these rows. -/
structure HoldsRows (x : Nat → Bool) (sortKey tile : Nat → Nat → Nat) (rows : List StoredRow) :
    Prop where
  sortKey : ∀ j row, rows[j]? = some row → ∀ i < didbits,
    x (sortKey j i) = row.sortKey.getLsbD i
  tile : ∀ j row, rows[j]? = some row → ∀ i < tilebits, x (tile j i) = row.data.getLsbD i

/-- The Booleans that a query begins with, over the values of the store that holds a bit for each
block. -/
def queryInputs (rows : List StoredRow) (inputs : Nat → Bool) (i : Nat) : Bool :=
  if i < didbits then (storeGarbledData rows).sick.getD i false
  else if i < didbits + rows.length * tilebits then
    (storeGarbledData rows).tile.getD (i - didbits) false
  else inputs i

section Tile

variable {x : Nat → Bool} {sortKey tile : Nat → Nat → Nat} {rows : List StoredRow}

/-- A block of the tile stands for its bit. -/
theorem HoldsRows.tile_getD (h : HoldsRows x sortKey tile rows) {k : Nat}
    (hk : k < rows.length * tilebits) :
    x (tile (k / tilebits) (k % tilebits)) = (storeGarbledData rows).tile.getD k false := by
  have hbit : k % tilebits < tilebits := Nat.mod_lt _ (by decide)
  have hrow : k / tilebits < rows.length := Nat.div_lt_of_lt_mul (by rwa [Nat.mul_comm])
  have hget := Library.Slices.getElem?_flatMap (g := fun r : StoredRow => bitsOf r.data)
    (fun r => length_bitsOf r.data) rows (j := k / tilebits) hbit
  rw [List.getElem?_eq_getElem hrow, Nat.div_add_mod' k tilebits] at hget
  rw [h.tile _ _ (List.getElem?_eq_getElem hrow) _ hbit, storeGarbledData,
    List.getD_eq_getElem?_getD, hget, ← getD_bitsOf, List.getD_eq_getElem?_getD]
  rfl

/-- The first blocks of the tile are stored as the id to ask for. -/
theorem HoldsRows.sick_getD (h : HoldsRows x sortKey tile rows) (hrows : rows ≠ []) {k : Nat}
    (hk : k < didbits) :
    x (tile (k / tilebits) (k % tilebits)) = (storeGarbledData rows).sick.getD k false := by
  have hlength : 0 < rows.length := List.length_pos_of_ne_nil hrows
  have hin : k < rows.length * tilebits := by
    have hwide : didbits < tilebits := by decide
    nlinarith
  rw [h.tile_getD hin]
  simp [storeGarbledData, List.getD_eq_getElem?_getD, List.getElem?_take_of_lt hk]

/-- What the ingress leaves under the two keys that a query reads. -/
theorem act_ingress {b : Place → Bool} {ingress : Session Place} (hrows : rows ≠ [])
    (hsave : ingress.save = storeGarbledWires sortKey tile rows.length)
    (hholds : HoldsRows (ingress.circuit.values (ingress.values b)) sortKey tile rows)
    {query : Session Place} (hload : query.load = loadGarbledWires rows.length)
    {b' : Place → Bool} (hkept : ∀ key, key ≠ .eid → ∀ k, b' (key, k) = ingress.act b (key, k)) :
    query.values b' = queryInputs rows query.inputs := by
  funext i
  rw [Session.values, hload, loadGarbledWires, queryInputs]
  by_cases hsick : i < didbits
  · rw [if_pos hsick, if_pos hsick]
    simp only [hkept .sick (by decide), Session.act, Session.saved, hsave, storeGarbledWires, hsick,
      if_true]
    exact hholds.sick_getD hrows hsick
  · rw [if_neg hsick, if_neg hsick]
    by_cases htile : i < didbits + rows.length * tilebits
    · have hin : i - didbits < rows.length * tilebits := by omega
      rw [if_pos htile, if_pos htile]
      simp only [hkept .tile (by decide), Session.act, Session.saved, hsave, storeGarbledWires, hin,
        if_true]
      exact hholds.tile_getD hin
    · rw [if_neg htile, if_neg htile]

/-- Executions that write neither key leave both as they are. -/
theorem foldl_act_of_save {ss : List (Session Place)} {p : Place}
    (hkeep : ∀ s ∈ ss, s.save p = none) (b : Place → Bool) :
    ss.foldl (fun b s => s.act b) b p = b p := by
  induction ss generalizing b with
  | nil => rfl
  | cons s ss ih =>
    rw [List.foldl_cons, ih fun s' hs' => hkeep s' (List.mem_cons_of_mem _ hs'), Session.act,
      Session.saved, hkeep s (List.mem_cons_self ..)]

/-- A tile is stored garbled, and after any executions that write neither its value nor that of the
id, a query runs on the blocks of both. Whatever its circuit is, what can be opened at the end is
what the circuit makes of the bits that were stored. -/
theorem query_stored_labels {t : Toolkit} {eva : Evaluator} (h : Evaluates t eva)
    {st : Stores Place} {b : Place → Bool} (hst : st.Refines t b) {ingress : Session Place}
    (hrows : rows ≠ []) (hsave : ingress.save = storeGarbledWires sortKey tile rows.length)
    (hholds : HoldsRows (ingress.circuit.values (ingress.values b)) sortKey tile rows)
    {ss : List (Session Place)}
    (hkeep : ∀ s ∈ ss, ∀ key, key ≠ .eid → ∀ k, s.save (key, k) = none)
    {query : Session Place} (hload : query.load = loadGarbledWires rows.length) :
    ∃ st' zeros labels,
      (ingress :: ss).foldlM (fun st s => s.run t eva st) st = some st' ∧
      query.execute t eva st' = some (zeros, labels) ∧
      ∀ i, (getLSB (labels i) ^^ getLSB (zeros i)) =
        query.circuit.values (queryInputs rows query.inputs) i := by
  obtain ⟨st', hrun, hst'⟩ := sessions_refine h hst (ingress :: ss)
  obtain ⟨zeros, labels, hexecute, hall⟩ := query.execute_refines h hst'
  refine ⟨st', zeros, labels, hrun, hexecute, fun i => ?_⟩
  rw [← (hall i).2, act_ingress hrows hsave hholds hload fun key hkey k => ?_]
  exact foldl_act_of_save (fun s hs => hkeep s hs key hkey k) _

end Tile

/-- A tile of one row, whose bits are fed to an empty circuit, and a query for it. -/
theorem query_stored_labels_row :
    let row : StoredRow := ⟨BitVec.ofNat _ 5, BitVec.ofNat _ 9, BitVec.ofNat _ 0, BitVec.ofNat _ 0⟩
    let ingress : Session Place :=
      { random := ⟨1#128, 2#128, 3#128, 4#128⟩
        zeros := BitVec.ofNat 128
        inputs := fun i =>
          if i < didbits then row.sortKey.getLsbD i else row.data.getLsbD (i - didbits)
        load := fun _ => none
        circuit := []
        save := storeGarbledWires (fun _ i => i) (fun _ i => didbits + i) 1 }
    let query : Session Place :=
      { random := ⟨5#128, 6#128, 7#128, 8#128⟩
        zeros := fun _ => 0#128
        inputs := fun _ => true
        load := loadGarbledWires 1
        circuit := [.and 0 didbits 1000]
        save := fun _ => none }
    ∃ st' zeros labels,
      [ingress].foldlM (fun st s => s.run xorToolkit (halfGateEva xorToolkit) st)
        ⟨fun _ => 0#128, fun _ => 0#128⟩ = some st' ∧
      query.execute xorToolkit (halfGateEva xorToolkit) st' = some (zeros, labels) ∧
      ∀ i, (getLSB (labels i) ^^ getLSB (zeros i)) =
        query.circuit.values (queryInputs [row] query.inputs) i := by
  intro row ingress query
  have hst : Stores.Refines xorToolkit ⟨fun _ : Place => 0#128, fun _ => 0#128⟩ fun _ => false :=
    fun _ => rfl
  have hsave : ingress.save = storeGarbledWires (fun _ i => i) (fun _ i => didbits + i)
      [row].length := rfl
  have hload : query.load = loadGarbledWires [row].length := rfl
  refine query_stored_labels (evaluates_halfGateEva xorToolkit) hst (List.cons_ne_nil _ _) hsave
    ⟨fun j r hj i hi => ?_, fun j r hj i hi => ?_⟩ (fun s hs => absurd hs List.not_mem_nil) hload
  · obtain ⟨rfl, rfl⟩ : j = 0 ∧ r = row := by
      cases j <;> simp_all
    exact if_pos hi
  · obtain ⟨rfl, rfl⟩ : j = 0 ∧ r = row := by
      cases j <;> simp_all
    simp [ingress, Session.values]

end CoVault.Garbling
