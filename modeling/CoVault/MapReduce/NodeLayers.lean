import CoVault.MapReduce.SharedMemory
import CoVault.MapReduce.Counting

/-!
# The reduce layers of one machine

Up to eight processes reduce what they have in up to three layers. Each of them makes the names of
its semaphores and segments from its own number and port, and so two processes have to come to the
same names wherever one sends and the other receives.

In whatever order the processes execute their statements, the result is that of the layers taken
one after the other.
-/

namespace CoVault.MapReduce.NodeLayers

open Circuit Library Library.Cells Library.SingleUse Library.SortNetwork SharedMemory

/-- In a layer, what the given process receives. -/
structure Transfer where
  layer : Fin 3
  receiver : Fin 8
  deriving DecidableEq

namespace Transfer

def source (c : Transfer) : Fin 8 := c.receiver + 2 ^ c.layer.val

def target (c : Transfer) : Fin 8 := c.receiver

end Transfer

/-! ## What the processes do -/

/-- The names of a process for its three layers. Where it takes no part they are empty. -/
def names (reducerPort : Nat) (id : Fin 8) : Fin 3 → Names
  | 0 =>
    let reducerPort := if id = 1 ∨ id = 3 ∨ id = 5 ∨ id = 7 then reducerPort - 1 else reducerPort
    ⟨⟨"MyNewNamedSemaphore", reducerPort⟩, ⟨"MySharedNewMemory", reducerPort⟩⟩
  | 1 =>
    if id = 0 ∨ id = 4 then
      ⟨⟨"MyNewNamedSemaphore", reducerPort + 50⟩, ⟨"MyNewSharedMemory", reducerPort + 50⟩⟩
    else if id = 2 ∨ id = 6 then
      let reducerPort := reducerPort - 2
      ⟨⟨"MyNewNamedSemaphore", reducerPort + 50⟩, ⟨"MyNewSharedMemory", reducerPort + 50⟩⟩
    else ⟨⟨"", 0⟩, ⟨"", 0⟩⟩
  | 2 =>
    if id = 0 ∨ id = 4 then
      let reducerPort := if id = 4 then reducerPort - 4 else reducerPort
      ⟨⟨"MyNewNamedSemaphore", reducerPort + 60⟩, ⟨"MyNewSharedMemory", reducerPort + 60⟩⟩
    else ⟨⟨"", 0⟩, ⟨"", 0⟩⟩

/-- The calls of `sender` and `receiver` in a process, with `LAYERS` layers on one machine; `true`
stands for `sender`. -/
def calls (layers : Nat) (id : Fin 8) : List (Bool × Transfer) :=
  (if id = 0 ∨ id = 2 ∨ id = 4 ∨ id = 6 then [(false, ⟨0, id⟩)] else [(true, ⟨0, id - 1⟩)]) ++
  (if 2 ≤ layers then
    if id = 0 ∨ id = 4 then [(false, ⟨1, id⟩)]
    else if id = 2 ∨ id = 6 then [(true, ⟨1, id - 2⟩)] else []
  else []) ++
  (if 3 ≤ layers then
    if id = 0 then [(false, ⟨2, id⟩)] else if id = 4 then [(true, ⟨2, id - 4⟩)] else []
  else [])

/-- What a process sends of its value, and what it makes of what it receives. -/
structure Payload (α β : Type*) where
  message : α → List β
  absorb : List β → α → Option α

variable {α β : Type*} (p : Payload α β) (layers n : Nat)

/-- The program of a process, if it is one of those that are started. -/
def program (id : Fin 8) : List (Op Transfer α (List β)) :=
  if id.val < n then
    (calls layers id).map fun (sends, c) => if sends then .send c p.message else .receive c p.absorb
  else []

/-- The processes are given ports one after the other. -/
def setting (basePort : Nat) (size : Nat) (fits : List β → Nat → Bool) :
    Setting (Fin 8) Transfer β where
  names id c := names (basePort + id.val) id c.layer
  size _ := size
  fits := fits

/-! ## Who meets whom -/

/-- All transfers, layer by layer. -/
def order : List Transfer :=
  ((List.finRange 3).filter fun l => l.val < layers).flatMap fun l =>
    ((List.finRange 8).filter fun r => r.val < n ∧ r.val % 2 ^ (l.val + 1) = 0).map (Transfer.mk l)

/-- In how many layers a process receives. -/
def depth (id : Fin 8) : Nat := (calls layers id).countP fun call => !call.1

section Wiring

variable {layers n}

/-- First a process receives in some layers, and then it may send in the next. -/
theorem calls_eq (hpos : 1 ≤ layers) (hle : layers ≤ 3) (id : Fin 8) :
    calls layers id = ((List.finRange 3).filter fun l => l.val < depth layers id).map
        (fun l => (false, ⟨l, id⟩)) ++
      ((List.finRange 3).filter fun l => l.val = depth layers id ∧ l.val < layers).map
        (fun l => (true, ⟨l, id - 2 ^ l.val⟩)) := by
  interval_cases layers <;> revert id <;> decide

theorem wired_calls (hpos : 1 ≤ layers) (hle : layers ≤ 3) (hn : n ≤ 8) (hdvd : 2 ^ layers ∣ n) :
    (order layers n).Nodup ∧ (∀ c ∈ order layers n, c.source ≠ c.target) ∧
    (∀ id : Fin 8, id.val < n → (calls layers id).map Prod.snd =
      (order layers n).filter fun c => decide (c.source = id ∨ c.target = id)) ∧
    (∀ id : Fin 8, n ≤ id.val → ∀ c ∈ order layers n, ¬ (c.source = id ∨ c.target = id)) ∧
    ∀ id, ∀ call ∈ calls layers id, call.1 = decide (call.2.source = id) := by
  interval_cases layers <;> interval_cases n <;>
    first | exact absurd hdvd (by decide) | decide

end Wiring

/-- Where the number of a transfer lies behind that of the first process. -/
def Transfer.offset (c : Transfer) : Nat :=
  c.receiver.val + match c.layer with
    | 0 => 0
    | 1 => 50
    | 2 => 60

theorem mem_order {c : Transfer} (h : c ∈ order layers n) : c ∈ order 3 8 := by
  obtain ⟨l, -, hc⟩ := List.mem_flatMap.mp h
  obtain ⟨r, hr, rfl⟩ := List.mem_map.mp hc
  rw [List.mem_filter, decide_eq_true_eq] at hr
  refine List.mem_flatMap.mpr ⟨l, ?_, List.mem_map.mpr ⟨r, ?_, rfl⟩⟩
  · simp
  · simp [hr.2.2]

/-- Sender and receiver come to the same names. -/
theorem names_eq (basePort : Nat) {c : Transfer} (hc : c ∈ order 3 8) {id : Fin 8}
    (hid : c.source = id ∨ c.target = id) : names (basePort + id.val) id c.layer =
      ⟨⟨"MyNewNamedSemaphore", basePort + c.offset⟩,
        ⟨if c.layer = 0 then "MySharedNewMemory" else "MyNewSharedMemory",
          basePort + c.offset⟩⟩ := by
  have hall : order 3 8 = [⟨0, 0⟩, ⟨0, 2⟩, ⟨0, 4⟩, ⟨0, 6⟩, ⟨1, 0⟩, ⟨1, 4⟩, ⟨2, 0⟩] := by decide
  rw [hall] at hc
  simp only [List.mem_cons, List.not_mem_nil, or_false] at hc
  rcases hc with rfl | rfl | rfl | rfl | rfl | rfl | rfl <;> rcases hid with rfl | rfl <;> rfl

theorem named (basePort size : Nat) (fits : List β → Nat → Bool) :
    (setting basePort size fits).Named (order layers n) Transfer.source Transfer.target := by
  refine ⟨fun c hc => ?_, fun c hc d hd hne => ?_⟩
  · have hc := mem_order layers n hc
    exact (names_eq basePort hc (.inr rfl)).trans (names_eq basePort hc (.inl rfl)).symm
  · have hc := mem_order layers n hc
    have hd := mem_order layers n hd
    have hinjective : ∀ c ∈ order 3 8, ∀ d ∈ order 3 8, d.offset = c.offset → d = c := by decide
    have hoffset : basePort + d.offset ≠ basePort + c.offset :=
      fun heq => hne (hinjective c hc d hd (Nat.add_left_cancel heq))
    simp only [setting, names_eq basePort hc (.inl rfl), names_eq basePort hd (.inl rfl)]
    exact ⟨fun heq => hoffset (congrArg Name.number heq),
      fun heq => hoffset (congrArg Name.number heq)⟩

theorem wired {layers n : Nat} (hpos : 1 ≤ layers) (hle : layers ≤ 3) (hn : n ≤ 8)
    (hdvd : 2 ^ layers ∣ n) :
    Wired (order layers n) Transfer.source Transfer.target (program p layers n) := by
  obtain ⟨hnodup, hapart, hchannels, hothers, hsends⟩ := wired_calls hpos hle hn hdvd
  refine ⟨hnodup, fun id => ?_, fun id op hop => ?_, hapart⟩
  · by_cases hid : id.val < n
    · rw [program, if_pos hid, ← hchannels id hid, List.map_map]
      refine List.map_congr_left fun ⟨sends, c⟩ _ => ?_
      cases sends <;> rfl
    · rw [program, if_neg hid, eq_comm, List.map_nil, List.filter_eq_nil_iff]
      exact fun c hc huses => hothers id (by omega) c hc (of_decide_eq_true huses)
  · by_cases hid : id.val < n
    · rw [program, if_pos hid] at hop
      obtain ⟨⟨sends, c⟩, hmem, rfl⟩ := List.mem_map.mp hop
      have hcall := hsends id _ hmem
      cases sends <;> exact hcall
    · simp [program, hid] at hop

/-! ## What comes of it -/

/-- What a process has after some layers, taken one after the other. -/
def gathered (leaves : Fin 8 → α) : Nat → Fin 8 → Option α
  | 0, id => some (leaves id)
  | l + 1, id => (gathered leaves l id).bind fun self =>
      (gathered leaves l (id + 2 ^ l)).bind fun other => p.absorb (p.message other) self

/-- What is sent in a transfer. -/
def carried (leaves : Fin 8 → α) (c : Transfer) : List β :=
  p.message ((gathered p leaves c.layer.val c.source).getD (leaves c.source))

/-- What a process has in the end. -/
def result (leaves : Fin 8 → α) (id : Fin 8) : α :=
  if id.val < n then (gathered p leaves (depth layers id) id).getD (leaves id) else leaves id

section Gathered

variable {p layers n} {leaves : Fin 8 → α} {id : Fin 8}

theorem gathered_succ {l : Nat} {v : α} (h : gathered p leaves (l + 1) id = some v) :
    ∃ self other, gathered p leaves l id = some self ∧
      gathered p leaves l (id + 2 ^ l) = some other ∧
        p.absorb (p.message other) self = some v := by
  obtain ⟨self, hself, h⟩ := Option.bind_eq_some_iff.mp h
  obtain ⟨other, hother, h⟩ := Option.bind_eq_some_iff.mp h
  exact ⟨self, other, hself, hother, h⟩

/-- Whatever is gathered at the roots has been gathered below them. -/
theorem gathered_below (hle : layers ≤ 3) (hroots : ∀ root : Fin 8, root.val < n →
      root.val % 2 ^ layers = 0 → ∃ v, gathered p leaves layers root = some v)
    {l : Nat} (hl : l ≤ layers) : ∀ id : Fin 8, id.val < n → id.val % 2 ^ l = 0 →
      ∃ v, gathered p leaves l id = some v := by
  induction hl using Nat.decreasingInduction with
  | self => exact hroots
  | of_succ k hk ih =>
    intro id hid hmod
    by_cases hsucc : id.val % 2 ^ (k + 1) = 0
    · obtain ⟨v, hv⟩ := ih id hid hsucc
      obtain ⟨self, -, hself, -⟩ := gathered_succ hv
      exact ⟨self, hself⟩
    · -- the process sends in this layer
      have hback : ∀ k < 3, ∀ id : Fin 8, id.val % 2 ^ k = 0 → id.val % 2 ^ (k + 1) ≠ 0 →
          (id - 2 ^ k).val ≤ id.val ∧ (id - 2 ^ k).val % 2 ^ (k + 1) = 0 := by decide
      obtain ⟨hlt, hroot⟩ := hback k (by omega) id hmod hsucc
      obtain ⟨v, hv⟩ := ih (id - 2 ^ k) (hlt.trans_lt hid) hroot
      obtain ⟨-, other, -, hother, -⟩ := gathered_succ hv
      exact ⟨other, by rwa [sub_add_cancel] at hother⟩

theorem depth_spec (hpos : 1 ≤ layers) (hle : layers ≤ 3) (id : Fin 8) :
    depth layers id ≤ layers ∧ id.val % 2 ^ depth layers id = 0 ∧
      (id.val % 2 ^ layers = 0 → depth layers id = layers) := by
  interval_cases layers <;> revert id <;> decide

theorem follows_receives {d : Nat} (hd : d ≤ 3) {v : α} (hv : gathered p leaves d id = some v) :
    Follows (carried p leaves) (((List.finRange 3).filter fun l => l.val < d).map
      fun l => (.receive ⟨l, id⟩ p.absorb : Op Transfer α (List β))) (leaves id) v := by
  induction d generalizing v with
  | zero =>
    have hnil : ((List.finRange 3).filter fun l => l.val < 0) = [] := by decide
    rw [hnil]
    exact Option.some.inj hv
  | succ d ih =>
    obtain ⟨self, other, hself, hother, habsorb⟩ := gathered_succ hv
    have hlast : ∀ d : Fin 3, ((List.finRange 3).filter fun l => l.val < d.val + 1) =
        ((List.finRange 3).filter fun l => l.val < d.val) ++ [d] := by decide
    rw [hlast ⟨d, by omega⟩, List.map_append]
    refine (ih (by omega) hself).append ⟨v, ?_, rfl⟩
    rw [carried, Transfer.source, hother]
    exact habsorb

/-- The layers lead every program to what is gathered at its process. -/
theorem follows_program (hpos : 1 ≤ layers) (hle : layers ≤ 3)
    (hroots : ∀ root : Fin 8, root.val < n → root.val % 2 ^ layers = 0 →
      ∃ v, gathered p leaves layers root = some v) (id : Fin 8) :
    Follows (carried p leaves) (program p layers n id) (leaves id)
      (result p layers n leaves id) := by
  by_cases hid : id.val < n
  · obtain ⟨hdepth, hmod, -⟩ := depth_spec hpos hle id
    obtain ⟨v, hv⟩ := gathered_below hle hroots hdepth id hid hmod
    rw [program, if_pos hid, result, if_pos hid, calls_eq hpos hle, List.map_append, List.map_map,
      List.map_map, hv]
    refine (follows_receives (by omega) hv).append ?_
    have hmessage : ∀ c ∈ ((List.finRange 3).filter fun l =>
        l.val = depth layers id ∧ l.val < layers).map (fun l => Transfer.mk l (id - 2 ^ l.val)),
        p.message v = carried p leaves c := by
      intro c hc
      obtain ⟨l, hl, rfl⟩ := List.mem_map.mp hc
      rw [List.mem_filter, decide_eq_true_eq] at hl
      rw [carried, Transfer.source, sub_add_cancel, hl.2.1, hv]
      rfl
    have hsends := Follows.sends hmessage
    rwa [List.map_map] at hsends
  · rw [program, if_neg hid, result, if_neg hid]
    exact rfl

end Gathered

/-! ## Every run -/

section Runs

variable [Inhabited β] {basePort size : Nat} {fits : List β → Nat → Bool} {leaves : Fin 8 → α}
  {s : Sys (Fin 8) Transfer α β}

/-- The states a machine gets into. -/
def Reachable (basePort size : Nat) (fits : List β → Nat → Bool) (leaves : Fin 8 → α)
    (s : Sys (Fin 8) Transfer α β) : Prop :=
  Transition.Reachable (Sys.Initial (setting basePort size fits) (order layers n) Transfer.source
    (program p layers n) leaves) (Sys.Step (setting basePort size fits)) s

/-- A machine whose processes have not called anything, and that nobody has used before. -/
def machine (leaves : Fin 8 → α) : Sys (Fin 8) Transfer α β :=
  ⟨fun id => ⟨program p layers n id, leaves id, .start⟩, ⟨fun _ => none, fun _ => none⟩⟩

theorem reachable_machine (basePort size : Nat) (fits : List β → Nat → Bool)
    (leaves : Fin 8 → α) :
    Reachable p layers n basePort size fits leaves (machine p layers n leaves) :=
  .start ⟨fun _ => rfl, fun _ _ => .inl rfl⟩

variable {p layers n}

theorem Reachable.right (hpos : 1 ≤ layers) (hle : layers ≤ 3) (hn : n ≤ 8) (hdvd : 2 ^ layers ∣ n)
    (hsize : ∀ v, (p.message v).length = size) (hfits : ∀ vec, fits vec (size * blockSize) = true)
    (hroots : ∀ root : Fin 8, root.val < n → root.val % 2 ^ layers = 0 →
      ∃ v, gathered p leaves layers root = some v)
    (hs : Reachable p layers n basePort size fits leaves s) :
    s.Right (setting basePort size fits) (order layers n) Transfer.source
      (result p layers n leaves) := by
  have hroom : (setting basePort size fits).Room (order layers n) (carried p leaves) := by
    refine ⟨fun c _ => hsize _, fun c _ vec => ?_⟩
    rw [carried, hsize]
    exact hfits vec
  exact (Sys.run_right (wired p hpos hle hn hdvd) (named layers n basePort size fits) hroom
    (follows_program hpos hle hroots) hs).2

omit [Inhabited β] in
/-- A root receives in all layers. -/
theorem result_root (hpos : 1 ≤ layers) (hle : layers ≤ 3) {root : Fin 8} (hroot : root.val < n)
    (hmod : root.val % 2 ^ layers = 0) {v : α} (hv : gathered p leaves layers root = some v) :
    result p layers n leaves root = v := by
  rw [result, if_pos hroot, (depth_spec hpos hle root).2.2 hmod, hv, Option.getD_some]

end Runs

theorem length_sender (beyond : Nat → Bool) (list : List Integer) :
    (sender beyond list).length = list.length * hashbits := by
  simp [sender, reversedBlocks, List.length_flatMap]

/-! ## Counters -/

section Counters

variable (tileSize : Nat) (beyond : Nat → Bool) (sick : BitVec didbits) (tiles : Fin 8 → List Tile)

/-- A process sends its counter and adds the one it receives. -/
def counterPayload : Payload (BitVec (counterBits tileSize)) Bool where
  message count := sender beyond [bitsOf count]
  absorb blocks count :=
    let counterToSum := (receiver blocks 1).headD []
    some (count + readBits _ beyond counterToSum)

def processes : Nat → Fin 8 → Process
  | 0, id => .mapper (tiles id)
  | l + 1, id => .reducer .sharedMemory (processes l id) (processes l (id + 2 ^ l))

theorem gathered_counter (l : Nat) (id : Fin 8) :
    gathered (counterPayload tileSize beyond) (fun id => (mapLoop tileSize sick (tiles id)).1)
      l id = some ((processes tiles l id).count tileSize sick fun _ => beyond) := by
  induction l generalizing id with
  | zero => rfl
  | succ l ih =>
    rw [gathered, ih, ih]
    rfl

variable {layers n tileSize beyond sick tiles} {basePort : Nat} {fits : List Bool → Nat → Bool}
  {s : Sys (Fin 8) Transfer (BitVec (counterBits tileSize)) Bool}

/-- Whatever the order of the statements, a root that is through has the counter of its tree. -/
theorem counters_added (hpos : 1 ≤ layers) (hle : layers ≤ 3) (hn : n ≤ 8) (hdvd : 2 ^ layers ∣ n)
    (hfits : ∀ vec, fits vec (hashbits * blockSize) = true)
    (hs : Reachable (counterPayload tileSize beyond) layers n basePort hashbits fits
      (fun id => (mapLoop tileSize sick (tiles id)).1) s) :
    s.Right (setting basePort hashbits fits) (order layers n) Transfer.source
      (result (counterPayload tileSize beyond) layers n
        fun id => (mapLoop tileSize sick (tiles id)).1) ∧
    ∀ root : Fin 8, root.val < n → root.val % 2 ^ layers = 0 → (s.node root).rest = [] →
      (s.node root).value = (processes tiles layers root).count tileSize sick fun _ => beyond := by
  have hlength : ∀ v, ((counterPayload tileSize beyond).message v).length = hashbits :=
    fun v => length_sender beyond [bitsOf v]
  have hright := hs.right hpos hle hn hdvd hlength hfits
    fun root _ _ => ⟨_, gathered_counter tileSize beyond sick tiles layers root⟩
  refine ⟨hright, fun root hroot hmod hend => ?_⟩
  rw [hright.value root hend]
  exact result_root hpos hle hroot hmod (gathered_counter tileSize beyond sick tiles layers root)

/-- Two processes with one tile each. -/
theorem twoCounters_added :
    (machine (counterPayload 1 fun _ => false) 1 2
      fun id => (mapLoop 1 1 [.ofEncounters [(1, BitVec.ofNat _ id.val, true)]]).1).Right
      (setting 50100 hashbits fun _ => wholeSegment) (order 1 2) Transfer.source
      (result (counterPayload 1 fun _ => false) 1 2
        fun id => (mapLoop 1 1 [.ofEncounters [(1, BitVec.ofNat _ id.val, true)]]).1) :=
  (counters_added le_rfl (by decide) (by decide) (by decide) (fun _ => by decide)
    (reachable_machine _ _ _ _ _ _ _)).1

end Counters

/-! ## Lists -/

section Lists

variable (rank : Word → Nat) (beyond : Nat → Bool) (outputSize : Nat) (leaves : Fin 8 → Nat → Word)

/-- A process sends the first `output_size` cells and merges what it receives behind them. -/
def listPayload : Payload (Nat → Word) Bool where
  message lists := sender beyond ((window lists 0 outputSize).map bitsOf)
  absorb blocks self :=
    let received := (receiver blocks outputSize).map (ofBits hashbits)
    let lists := place outputSize received self
    markAndCompact (2 * outputSize) (merge (cmpSwap rank true) 0 (2 * outputSize) lists)

def tree : Nat → Fin 8 → ReduceTree
  | 0, id => .leaf (leaves id)
  | l + 1, id => .node (tree l id) (tree l (id + 2 ^ l))

variable {rank beyond outputSize leaves}

theorem gathered_list {fits : Nat → Bool} (hfits : fits (outputSize * hashbits * blockSize) = true)
    (l : Nat) (id : Fin 8) : gathered (listPayload rank beyond outputSize) leaves l id =
      (tree leaves l id).run rank fits beyond outputSize := by
  have hlayer : ∀ self other, (listPayload rank beyond outputSize).absorb
      ((listPayload rank beyond outputSize).message other) self =
        reduceLayer rank fits beyond outputSize self other := by
    intro self other
    simp [listPayload, reduceLayer, sendReceive, hfits]
  induction l generalizing id with
  | zero => rfl
  | succ l ih =>
    rw [gathered, ih, ih]
    simp only [hlayer]
    rfl

/-- Two processes meet in a layer. -/
theorem partner (hle : layers ≤ 3) (hn : n ≤ 8) (hdvd : 2 ^ layers ∣ n) {l : Nat} (hl : l < layers)
    {id : Fin 8} (hid : id.val < n) (hmod : id.val % 2 ^ (l + 1) = 0) :
    id.val % 2 ^ l = 0 ∧ (id + 2 ^ l).val = id.val + 2 ^ l ∧ id.val + 2 ^ l < n ∧
      (id + 2 ^ l).val % 2 ^ l = 0 := by
  obtain ⟨m, rfl⟩ := (pow_dvd_pow 2 hl).trans hdvd
  have hl3 : l < 3 := by omega
  have hval : (id + 2 ^ l).val = (id.val + 2 ^ l) % 8 := by
    rw [Fin.val_add]
    interval_cases l <;> rfl
  rw [hval]
  interval_cases l <;> omega

/-- A process and those whose lists have come to it after some layers are next to each other. -/
theorem mem_union_tree (hle : layers ≤ 3) (hn : n ≤ 8) (hdvd : 2 ^ layers ∣ n) {w : Word} {l : Nat}
    (hl : l ≤ layers) {id : Fin 8} (hid : id.val < n) (hmod : id.val % 2 ^ l = 0) :
    w ∈ (tree leaves l id).union outputSize ↔ w ≠ noneWord ∧ ∃ leaf : Fin 8,
      id.val ≤ leaf.val ∧ leaf.val < id.val + 2 ^ l ∧ w ∈ window (leaves leaf) 0 outputSize := by
  induction l generalizing id with
  | zero =>
    rw [tree, ReduceTree.union, Finset.mem_erase, List.mem_toFinset]
    refine and_congr_right fun _ => ⟨fun hw => ⟨id, le_rfl, by simp, hw⟩, ?_⟩
    rintro ⟨leaf, hge, hlt, hw⟩
    obtain rfl : leaf = id := Fin.ext (by omega)
    exact hw
  | succ l ih =>
    obtain ⟨hself, hval, hother, hmod'⟩ := partner layers n hle hn hdvd hl hid hmod
    have hsplit : w ∈ (tree leaves l (id + 2 ^ l)).union outputSize ↔ _ :=
      ih (by omega) (by omega) hmod'
    rw [tree, ReduceTree.union, Finset.mem_union, ih (by omega) hid hself, hsplit, hval,
      ← and_or_left]
    refine and_congr_right fun _ => ⟨?_, ?_⟩
    · rintro (⟨leaf, hge, hlt, hw⟩ | ⟨leaf, hge, hlt, hw⟩)
      · exact ⟨leaf, hge, by omega, hw⟩
      · exact ⟨leaf, by omega, by omega, hw⟩
    · rintro ⟨leaf, hge, hlt, hw⟩
      by_cases hfirst : leaf.val < id.val + 2 ^ l
      · exact .inl ⟨leaf, hge, hfirst, hw⟩
      · exact .inr ⟨leaf, by omega, by omega, hw⟩

theorem started_tree (hle : layers ≤ 3) (hn : n ≤ 8) (hdvd : 2 ^ layers ∣ n)
    (hleaves : ∀ id : Fin 8, id.val < n → ∃ words, HoldsSet rank (leaves id) outputSize words)
    {l : Nat} (hl : l ≤ layers) {id : Fin 8} (hid : id.val < n) (hmod : id.val % 2 ^ l = 0) :
    (tree leaves l id).Started rank outputSize := by
  induction l generalizing id with
  | zero => exact hleaves id hid
  | succ l ih =>
    obtain ⟨hself, hval, hother, hmod'⟩ := partner layers n hle hn hdvd hl hid hmod
    exact ⟨ih (by omega) hid hself, ih (by omega) (by omega) hmod'⟩

variable {layers n} {basePort : Nat} {fits : List Bool → Nat → Bool}
  {s : Sys (Fin 8) Transfer (Nat → Word) Bool}

/-- Whatever the order of the statements, a root that is through has the different fingerprints of
all processes whose lists come to it. -/
theorem lists_united (hrank : WordOrder rank) (hpos : 1 ≤ layers) (hle : layers ≤ 3) (hn : n ≤ 8)
    (hdvd : 2 ^ layers ∣ n) {k : Nat} (hsize : outputSize = 2 ^ k)
    (hfits : ∀ vec, fits vec (outputSize * hashbits * blockSize) = true)
    (hleaves : ∀ id : Fin 8, id.val < n → ∃ words, HoldsSet rank (leaves id) outputSize words)
    (htree : ∀ root : Fin 8, root.val < n → root.val % 2 ^ layers = 0 →
      (tree leaves layers root).Fits outputSize)
    (hs : Reachable (listPayload rank beyond outputSize) layers n basePort (outputSize * hashbits)
      fits leaves s) :
    s.Right (setting basePort (outputSize * hashbits) fits) (order layers n) Transfer.source
      (result (listPayload rank beyond outputSize) layers n leaves) ∧
    ∀ root : Fin 8, root.val < n → root.val % 2 ^ layers = 0 → (s.node root).rest = [] →
      ∃ words, HoldsSet rank (s.node root).value (2 * outputSize) words ∧
        ∀ w, w ∈ words ↔ w ≠ noneWord ∧ ∃ leaf : Fin 8, root.val ≤ leaf.val ∧
          leaf.val < root.val + 2 ^ layers ∧ w ∈ window (leaves leaf) 0 outputSize := by
  have hlength : ∀ v, ((listPayload rank beyond outputSize).message v).length =
      outputSize * hashbits := fun v => by
    simp [listPayload, length_sender]
  have hroots : ∀ root : Fin 8, root.val < n → root.val % 2 ^ layers = 0 → ∃ lists words,
      gathered (listPayload rank beyond outputSize) leaves layers root = some lists ∧
      HoldsSet rank lists (2 * outputSize) words ∧
        words.toFinset = (tree leaves layers root).union outputSize := by
    intro root hroot hmod
    obtain ⟨lists, words, hrun, hholds, hunion⟩ :=
      treeUnites_of_layerUnites (layerUnites_of_two_pow hrank hsize (hfits [])) beyond _
        (started_tree layers n hle hn hdvd hleaves le_rfl hroot hmod) (htree root hroot hmod)
    refine ⟨lists, words, (gathered_list (hfits []) layers root).trans hrun, ?_, hunion⟩
    obtain ⟨l, rfl⟩ := Nat.exists_eq_add_of_le' hpos
    exact hholds
  have hright := hs.right hpos hle hn hdvd hlength hfits fun root hroot hmod =>
    (hroots root hroot hmod).imp fun _ h => h.choose_spec.1
  refine ⟨hright, fun root hroot hmod hend => ?_⟩
  obtain ⟨lists, words, hgathered, hholds, hunion⟩ := hroots root hroot hmod
  rw [hright.value root hend, result_root hpos hle hroot hmod hgathered]
  refine ⟨words, hholds, fun w => ?_⟩
  rw [← List.mem_toFinset, hunion]
  exact mem_union_tree layers n hle hn hdvd le_rfl hroot hmod

/-- Two processes with two fingerprints each, of which one is the same. -/
theorem twoLists_united :
    (machine (listPayload exampleRank (fun _ => false) 4) 1 2
      fun id => cellsOf (if id = 0 then [1, 2] else [1, 3])).Right
      (setting 50100 (4 * hashbits) fun _ => wholeSegment) (order 1 2) Transfer.source
      (result (listPayload exampleRank (fun _ => false) 4) 1 2
        fun id => cellsOf (if id = 0 then [1, 2] else [1, 3])) := by
  refine (lists_united exampleRank_wordOrder le_rfl (by decide) (by decide) (by decide)
    (show 4 = 2 ^ 2 from rfl) (fun _ => by decide) (fun id _ => ⟨_, cellsOf_holds ?_ ?_ ?_⟩)
    (fun root _ _ => ⟨trivial, trivial, ?_, ?_⟩) (reachable_machine _ _ _ _ _ _ _)).1
  · split_ifs <;> decide
  · split_ifs <;> decide
  · split_ifs <;> decide
  · exact Finset.card_erase_le.trans ((List.toFinset_card_le _).trans (length_window ..).le)
  · exact Finset.card_erase_le.trans ((List.toFinset_card_le _).trans (length_window ..).le)

end Lists

end CoVault.MapReduce.NodeLayers
