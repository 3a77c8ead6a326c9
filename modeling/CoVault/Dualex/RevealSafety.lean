import CoVault.Dualex.RevealInvariant

/-!
# What the two parties may rely on

Results belong to the round they are read in, nobody writes what the checker owns, and
as long as a party has something left to do some process can go on. A reveal of no bits at
all is the exception: `request_eq_check` takes its length for the default, and the checker
compares whatever the regions held before.
-/

namespace CoVault.Dualex.Reveal

open Library.GlobalOrder

variable {cfg : Config} {rounds : List Round}

namespace Sys

variable {s : Sys} {p : Party} {g : Progress} {op : Op} {rest : List Op} {c : Chan}

theorem Inv.read_isSome (h : Inv cfg rounds s) (p : Party) (c : Chan) : ∃ v, s.read p c = some v :=
  (h.sound c).inv.read_isSome _

theorem Inv.exists_modify (h : Inv cfg rounds s) (hout : (s.mem c).Outside (p.side c))
    (f : Content c → Content c) : ∃ t, s.modify p c f = some t := by
  obtain ⟨v, hv⟩ := h.read_isSome p c
  obtain ⟨m, hm⟩ := (h.sound c).inv.exists_write hout (f v)
  exact ⟨s.setMem c m, by rw [Sys.modify, hv, Option.bind_some, hm]; rfl⟩

/-- Only a swap can block. -/
theorem Inv.exists_step_of_not_swap (h : Inv cfg rounds s) (hg : Agrees cfg rounds s p g)
    (htodo : s.todo p = op :: rest) (hop : ∀ c, op ≠ .swap c) : ∃ t, s.step cfg p = some t := by
  have hruns : Runs cfg rounds p g (op :: rest) := htodo ▸ hg.runs
  have hallows := hruns.allows
  unfold Sys.step
  rw [htodo]
  cases op with
  | swap c => exact absurd rfl (hop c)
  | write c n f =>
    obtain ⟨t, ht⟩ := h.exists_modify (hg.outside htodo hallows.1 (hop c)) f
    exact ⟨t.done p rest, by simp [ht, hallows.2.2.1]⟩
  | collect r =>
    obtain ⟨b, hb⟩ := h.read_isSome p (.result r)
    simp only [hb, Option.map_some]
    exact ⟨_, rfl⟩
  | whileWanted =>
    obtain ⟨vg, hvg⟩ := h.read_isSome p (.wants .garbler)
    obtain ⟨vn, hvn⟩ := h.read_isSome p (.wants .nonGarbler)
    simp only [hvg, hvn, Option.bind_eq_bind, Option.bind_some]
    split_ifs <;> exact ⟨_, rfl⟩
  | checkEquality =>
    obtain ⟨vg, hvg⟩ := h.read_isSome p (.labels .garbler)
    obtain ⟨vn, hvn⟩ := h.read_isSome p (.labels .nonGarbler)
    obtain ⟨vb, hvb⟩ := h.read_isSome p .bools
    simp only [hvg, hvn, hvb, Option.bind_eq_bind, Option.bind_some]
    exact ⟨_, rfl⟩
  | sendResult r =>
    obtain ⟨rfl, -⟩ := hallows
    obtain ⟨t, ht⟩ := h.exists_modify (hg.outside htodo (c := .result r) rfl (hop _))
      fun _ => s.isEqual
    exact ⟨t.done .checker rest, by simp [ht]⟩

theorem step_of_advance (cfg : Config) (htodo : s.todo p = .swap c :: rest)
    (hadv : ∃ m, (s.mem c).advance (p.side c) = some m) : ∃ t, s.step cfg p = some t := by
  obtain ⟨m, hm⟩ := hadv
  unfold Sys.step
  simp only [htodo, hm, Option.map_some]
  exact ⟨_, rfl⟩

/-- The process furthest back in the global order, or the one it meets next, can go on. -/
theorem Inv.exists_step (h : Inv cfg rounds s) {p₀ : Party} (hleft : s.todo p₀ ≠ []) :
    ∃ p t, s.step cfg p = some t := by
  by_contra hstuck
  push Not at hstuck
  choose g hg using h.agrees
  have hswap : ∀ p, s.todo p ≠ [] → ∃ c rest, s.todo p = .swap c :: rest := by
    intro p hp
    obtain ⟨op, rest, htodo⟩ := List.exists_cons_of_ne_nil hp
    by_contra hop
    push Not at hop
    obtain ⟨t, ht⟩ := h.exists_step_of_not_swap (hg p) htodo fun c hc => hop c rest (hc ▸ htodo)
    exact hstuck p t ht
  have hmeet : ∀ p c rest, s.todo p = .swap c :: rest → ∃ tail,
      meetings (unroll (rounds.length - (g p).loops) (s.todo p)) = c :: tail :=
    fun p c rest htodo => ⟨_, by rw [htodo, unroll_cons (by simp), meetings_cons]; rfl⟩
  obtain ⟨c₀, rest₀, htodo₀⟩ := hswap p₀ hleft
  obtain ⟨tail₀, htail₀⟩ := hmeet p₀ c₀ rest₀ htodo₀
  obtain ⟨p, c, tail, hp, huses, hpeer⟩ :=
    exists_foremost (fun p => (hg p).runs.aligned)
      (show meetings (unroll (rounds.length - (g p₀).loops) (s.todo p₀)) ≠ [] by simp [htail₀])
  have hhead : ∀ q tail, meetings (unroll (rounds.length - (g q).loops) (s.todo q)) = c :: tail →
      ∃ rest, s.todo q = .swap c :: rest := fun q tail hq => by
    obtain ⟨c', rest, htodo⟩ := hswap q fun hnil => by simp [hnil, unroll, meetings] at hq
    obtain ⟨tail', htail'⟩ := hmeet q c' rest htodo
    exact ⟨rest, (List.cons.inj (hq.symm.trans htail')).1 ▸ htodo⟩
  obtain ⟨rest, htodo⟩ := hhead p tail hp
  obtain ⟨q, hquses, hqside⟩ := Party.exists_peer huses
  have hle := Ram.SwapPc.index_le ((s.mem c).proc (p.side c)).pc
  have hpclock := (hg p).swaps c huses
  have hqclock := (hg q).swaps c hquses
  rw [hqside] at hqclock
  have hbehind : Ram.clock ((s.mem c).proc (p.side c)) ≤ Ram.clock ((s.mem c).proc !p.side c) →
      False := fun hle => by
    obtain ⟨t, ht⟩ := step_of_advance cfg htodo ((h.sound c).inv.advance_of_behind hle)
    exact hstuck p t ht
  rcases hpeer q hquses with hlt | ⟨hsame, tail', hq⟩
  · apply hbehind
    unfold Ram.clock
    omega
  · obtain ⟨rest', htodo'⟩ := hhead q tail' hq
    rcases Nat.le_total (Ram.clock ((s.mem c).proc (p.side c)))
      (Ram.clock ((s.mem c).proc !p.side c)) with hle | hle
    · exact hbehind hle
    · have hadv : ∃ m, (s.mem c).advance (q.side c) = some m := by
        rw [hqside]
        exact (h.sound c).inv.advance_of_behind (by rwa [Bool.not_not])
      obtain ⟨t, ht⟩ := step_of_advance cfg htodo' hadv
      exact hstuck q t ht

/-- A party about to write a region the checker may own is outside `swap` there. -/
theorem Inv.get_ne (h : Inv cfg rounds s) {n : Nat} {f : Content c → Content c}
    (htodo : s.todo p = .write c n f :: rest) (hchecker : (s.mem c).Outside !p.side c) :
    ((s.mem c).proc (p.side c)).handle.get ≠ ((s.mem c).proc !p.side c).handle.get := by
  obtain ⟨g, hg⟩ := h.agrees p
  have huses := (htodo ▸ hg.runs : Runs cfg rounds p g (.write c n f :: rest)).allows.1
  exact (h.sound c).inv.get_ne (hg.outside htodo huses (by simp)) hchecker

/-- A party that has stopped has read a result for every round. -/
theorem Inv.length_results (h : Inv cfg rounds s) {r : Role} (htodo : s.todo (.dualex r) = []) :
    (s.results r).length = rounds.length := by
  obtain ⟨g, hg⟩ := h.agrees (.dualex r)
  have hdone := hg.runs.disciplined
  rw [htodo] at hdone
  exact hg.counted.trans (hdone r rfl)

/-- The contract of the reveal protocol, in every state of every interleaving: the results read
are those of the parties' own rounds, in order and in the end for every round; a party about to
write a region does not stand in the checker's; and no party is left waiting for ever. -/
theorem reveal_contract (hfits : Fits cfg rounds) (h : Reachable cfg rounds s) :
    (∀ r k b, (s.results r)[k]? = some b →
      ∃ x, rounds[k]? = some x ∧ b = cfg.isEqual k (payload cfg x)) ∧
    (∀ r, s.todo (.dualex r) = [] → (s.results r).length = rounds.length) ∧
    (∀ r c n f rest, s.todo (.dualex r) = .write c n f :: rest →
      Party.checker.uses c = true → (s.mem c).Outside (Party.checker.side c) →
      ((s.mem c).proc ((Party.dualex r).side c)).handle.get ≠
        ((s.mem c).proc (Party.checker.side c)).handle.get) ∧
    ((∃ r, s.todo (.dualex r) ≠ []) → ∃ t, Step cfg s t) := by
  have hinv := Reachable.inv hfits h
  refine ⟨hinv.results, fun r => hinv.length_results, fun r c n f rest htodo hc hout => ?_, ?_⟩
  · obtain ⟨g, hg⟩ := hinv.agrees (.dualex r)
    have huses := (htodo ▸ hg.runs : Runs cfg rounds (.dualex r) g (.write c n f :: rest)).allows.1
    have hside := Party.side_eq_not huses hc (by simp)
    rw [hside] at hout ⊢
    exact hinv.get_ne htodo hout
  · rintro ⟨r, hleft⟩
    obtain ⟨p, t, ht⟩ := hinv.exists_step hleft
    exact ⟨t, .run p ht⟩

/-! ## Two runs -/

/-- Regions full of zeros, right after `choose_side`. -/
def fresh (cfg : Config) (rounds : List Round) : Sys where
  mem := fun c =>
    { content := fun _ => match c with
        | .labels _ => fun _ => 0
        | .bools | .value => fun _ => false
        | .wants _ => ⟨false, Circuit.Side.BOTH, 0⟩
        | .result _ => false
      locked := fun m => decide (m = .a ∨ m = .b)
      proc := fun p =>
        { handle := ((Handle.construct 8).chooseSide p).2, pc := .outside, returned := 0
          handed := fun _ => (none, none), wrote := false } }
  todo := cfg.program rounds
  results := fun _ => []
  revealableBits := 0
  isEqual := false
  hashes := []

theorem fresh_initial (cfg : Config) (rounds : List Round) :
    Initial cfg rounds (fresh cfg rounds) where
  mem := fun _ => ⟨⟨rfl, rfl, rfl, rfl⟩, fun _ => ⟨⟨8, rfl⟩, rfl, rfl⟩⟩
  todo := rfl
  results := fun _ => rfl
  hashes := rfl

/-- A schedule leads to a reachable state, in which both parties have these results. -/
theorem exists_reachable (ps : List Party) {hashes : List (BitVec 256)} {results : List Bool}
    (hview : (ps.foldlM (step cfg) (fresh cfg rounds)).map
        (fun s => (s.hashes, s.results .garbler, s.results .nonGarbler)) =
      some (hashes, results, results)) :
    ∃ s, Reachable cfg rounds s ∧ s.hashes = hashes ∧ ∀ r, s.results r = results := by
  obtain ⟨s, hrun, hs⟩ := Option.map_eq_some_iff.mp hview
  simp only [Prod.mk.injEq] at hs
  refine ⟨s, .foldlM (fun _ p _ h => .run p h) (.start (fresh_initial cfg rounds)) hrun, hs.1, ?_⟩
  rintro (_ | _)
  · exact hs.2.1
  · exact hs.2.2

/-- One swap of both processes, `p` running ahead as far as it can. -/
def meet (p q : Party) : List Party := [p, p, p, p, q, q, q, p, q, p, q, q]

/-- A round whose value both parties get. -/
def oneRound : List Party :=
  let g := Party.dualex .garbler
  let n := Party.dualex .nonGarbler
  [n, n] ++ meet g n ++ [g, g, n, n] ++ meet g .checker ++ meet n .checker ++ [.checker] ++
    meet g .checker ++ meet n .checker ++ meet n .checker ++ [.checker, .checker, .checker] ++
    meet .checker g ++ meet .checker n ++ [g, n]

/-- One of two hosts, with room for a single bit. The hash keeps all bits, and of a label the lower
half counts. -/
def host (isLeft : Bool) (remote : Nat → BitVec 256) : Config where
  bits := 1
  side := if isLeft then Circuit.Side.LEFT else Circuit.Side.RIGHT
  isGarbler := isLeft
  crypto := ⟨fun m => Circuit.ofBits 256 (m ++ [true]), fun _ _ _ => false⟩
  applyLabel := fun label _ => label.setWidth 64
  remote := remote

/-- Both parties reveal the given integers to both sides. -/
def revealed (integers : List Circuit.Integer) : Round where
  integers := integers
  revealSide := Circuit.Side.BOTH
  maxRevealableBits := 0
  labels := fun _ _ => 0
  bools := fun _ => true
  value := fun _ => true

/-- The other host comes to the hash of two labels of zeros. -/
def zeroHost : Config := host true fun _ => 2 ^ 128

theorem oneBit_contract : ∃ s, Reachable zeroHost [revealed [[true]]] s ∧
    (∀ r, s.results r = [true]) ∧ ∃ x, [revealed [[true]]][0]? = some x ∧
      true = zeroHost.isEqual 0 (payload zeroHost x) := by
  obtain ⟨s, hreach, -, hresults⟩ : ∃ s, Reachable zeroHost [revealed [[true]]] s ∧
      s.hashes = [2 ^ 128] ∧ ∀ r, s.results r = [true] :=
    exists_reachable oneRound (by decide +kernel)
  exact ⟨s, hreach, hresults,
    (reveal_contract (by decide) hreach).1 .garbler 0 true (by simp [hresults])⟩

/-- A label that the two hosts have to agree on, and then two reveals of nothing. -/
def oneLabel (label : BitVec 128) : List Round :=
  [{ revealed [[true]] with labels := fun r _ => if r = .garbler then label else 0 }, revealed [],
    revealed []]

def leftHashes : List (BitVec 256) := [2 ^ 128, 2 ^ 128, 2 ^ 128]

def rightHashes : List (BitVec 256) := [2 ^ 128 + 2 ^ 64, 2 ^ 128, 2 ^ 128 + 2 ^ 64]

/-- Either host puts into its comparisons what the other one expects. -/
def leftHost : Config := host true (rightHashes.getD · 0)

def rightHost : Config := host false (leftHashes.getD · 0)

/-- In the third round nothing is revealed on either host, so there is nothing to tell apart. But
the labels of the first round, which did not match, still lie in the regions, and the check of the
third round fails again. -/
theorem nothing_contract_fails : ∃ s t,
    Reachable leftHost (oneLabel 0) s ∧ Reachable rightHost (oneLabel 1) t ∧
    (∀ k < 3, t.hashes[k]? = some (leftHost.remote k)) ∧
    (∀ k < 3, s.hashes[k]? = some (rightHost.remote k)) ∧
    (oneLabel 0)[2]? = some (revealed []) ∧ (oneLabel 1)[2]? = some (revealed []) ∧
    leftHost.hash (payload leftHost (revealed [])) =
      rightHost.hash (payload rightHost (revealed [])) ∧
    ∀ r, (s.results r)[2]? = some false ∧ (t.results r)[2]? = some false := by
  obtain ⟨s, hs, hleft, hresults⟩ : ∃ s, Reachable leftHost (oneLabel 0) s ∧
      s.hashes = leftHashes ∧ ∀ r, s.results r = [false, true, false] :=
    exists_reachable (oneRound ++ oneRound ++ oneRound) (by decide +kernel)
  obtain ⟨t, ht, hright, hresults'⟩ : ∃ t, Reachable rightHost (oneLabel 1) t ∧
      t.hashes = rightHashes ∧ ∀ r, t.results r = [false, true, false] :=
    exists_reachable (oneRound ++ oneRound ++ oneRound) (by decide +kernel)
  refine ⟨s, t, hs, ht, ?_, ?_, rfl, rfl, by decide +kernel, fun r => ?_⟩
  · rw [hright]
    decide +kernel
  · rw [hleft]
    decide +kernel
  · rw [hresults, hresults']
    exact ⟨rfl, rfl⟩

end Sys

end CoVault.Dualex.Reveal
