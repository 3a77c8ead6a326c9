import Mathlib
import CoVault.Dualex.RevealProtocol
import CoVault.Library.GlobalOrder

/-!
# The discipline of the three programs

Which content each hand-over must have is fixed beforehand by its region and number. A
program is disciplined when, whatever the interleaving, each statement comes at a point
where the process may rely on what the statement needs: it hands over only what it has
prepared, and it reads only what it has received in the current round. All three programs
are disciplined, and all of them follow one global order of hand-overs.
-/

namespace CoVault.Dualex.Reveal

open Library.GlobalOrder

/-- The side that writes; the other one only reads. -/
def Chan.writer : Chan → Bool
  | .result _ => true
  | _ => false

variable (cfg : Config) (rounds : List Round)

/-- Every round reveals at least one bit and no more than there is room for. -/
def Fits : Prop := ∀ x ∈ rounds, 0 < cfg.revealableBits x ∧ cfg.revealableBits x ≤ cfg.bits

instance : Decidable (Fits cfg rounds) := inferInstanceAs (Decidable (∀ x ∈ rounds, _))

/-- What hand-over number `k` of a pair of regions is meant to carry. -/
def Meant : (c : Chan) → Nat → Content c → Prop
  | .labels r, k, v => ∀ x, rounds[k]? = some x → ∀ i < cfg.revealableBits x, v i = x.labels r i
  | .bools, k, v => ∀ x, rounds[k]? = some x → ∀ i < cfg.revealableBits x, v i = x.bools i
  | .value, _, _ => True
  | .wants _, k, v => v.wantReveal = decide (k < rounds.length) ∧
      ∀ x, rounds[k]? = some x → v.revealableBits = cfg.revealableBits x
  | .result _, k, v => ∀ x, rounds[k]? = some x → v = cfg.isEqual k (Sys.payload cfg x)

/-- How far a process has come: hand-overs by region, whether the next one is prepared, checks
made or results collected, and tests of the loop. -/
structure Progress where
  swaps : Chan → Nat
  ready : Chan → Bool
  counted : Nat
  loops : Nat

namespace Progress

variable {cfg rounds}

def start : Progress := ⟨fun _ => 0, fun _ => false, 0, 0⟩

/-- What has to hold where a statement stands. -/
def Allows (cfg : Config) (rounds : List Round) (p : Party) (g : Progress) : Op → Prop
  | .swap c => p.uses c = true ∧ (p.side c = c.writer → g.ready c = true)
  | .write c n f => p.uses c = true ∧ p.side c = c.writer ∧ n ≤ cfg.room c ∧
      ∀ v, Meant cfg rounds c (g.swaps c) (f v)
  | .collect r => p = .dualex r ∧ g.counted < rounds.length ∧ g.swaps (.result r) = g.counted + 1
  | .whileWanted => p = .checker ∧ ∀ r, g.swaps (.wants r) = g.loops + 1
  | .checkEquality => p = .checker ∧ g.counted < rounds.length ∧ g.loops = g.counted + 1 ∧
      (∀ r, g.swaps (.labels r) = g.counted + 1) ∧ g.swaps .bools = g.counted + 1
  | .sendResult r => p = .checker ∧ g.counted = g.swaps (.result r) + 1

def after (g : Progress) : Op → Progress
  | .swap c => { g with
      swaps := Function.update g.swaps c (g.swaps c + 1), ready := Function.update g.ready c false }
  | .write c _ _ => { g with ready := Function.update g.ready c true }
  | .sendResult r => { g with ready := Function.update g.ready (.result r) true }
  | .collect _ | .checkEquality => { g with counted := g.counted + 1 }
  | .whileWanted => { g with loops := g.loops + 1 }

theorem after_swap_swaps (g : Progress) (c : Chan) :
    (g.after (.swap c)).swaps = Function.update g.swaps c (g.swaps c + 1) := rfl

theorem after_swap_ready (g : Progress) (c : Chan) :
    (g.after (.swap c)).ready = Function.update g.ready c false := rfl

/-- Every statement of a program stands where it may. -/
def Disciplined (cfg : Config) (rounds : List Round) (p : Party) : Progress → List Op → Prop
  | g, [] => ∀ r, p = .dualex r → g.counted = rounds.length
  | g, op :: rest => g.Allows cfg rounds p op ∧ (g.after op).Disciplined cfg rounds p rest

end Progress

/-! ## The loop of the checker -/

/-- The statements ahead of a process when the loop has `m` more passes to go. -/
def unroll (m : Nat) : List Op → List Op
  | [] => []
  | .whileWanted :: _ =>
    .whileWanted :: (List.replicate m (Config.checkRound ++ [.whileWanted])).flatten
  | op :: rest => op :: unroll m rest

theorem unroll_cons {op : Op} (h : op ≠ .whileWanted) (m : Nat) (ops : List Op) :
    unroll m (op :: ops) = op :: unroll m ops := by
  cases op <;> first | rfl | exact absurd rfl h

theorem unroll_of_not_mem {ops : List Op} (h : .whileWanted ∉ ops) (m : Nat) :
    unroll m ops = ops := by
  induction ops with
  | nil => rfl
  | cons op ops ih =>
    rw [List.mem_cons, not_or] at h
    rw [unroll_cons (Ne.symm h.1), ih h.2]

/-- Making a pass of the loop leaves what lies ahead as it was. -/
theorem unroll_whileWanted_succ (m : Nat) (ops : List Op) : unroll (m + 1) (.whileWanted :: ops) =
    .whileWanted :: unroll m (Config.checkRound ++ [.whileWanted]) := rfl

theorem not_mem_statements (r : Role) (f : Config.Flags) (calls : List Config.Call) :
    Op.whileWanted ∉ cfg.statements r f calls := by
  induction calls generalizing f with
  | nil => simp [Config.statements]
  | cons call calls ih =>
    cases call with
    | reveal x =>
      have hopen : Op.whileWanted ∉ cfg.openValue r x := by
        cases r <;> simp only [Config.openValue] <;> split_ifs <;> simp
      have hrequest : ∀ n, Op.whileWanted ∉ cfg.requestEqCheck r x.revealSide n := by
        cases r <;> simp [Config.requestEqCheck]
      rw [Config.statements]
      split_ifs <;> simp [hopen, hrequest, ih]
    | getEqCheckResults =>
      rw [Config.statements]
      split_ifs <;> simp [Config.getEqCheckResults, ih]
    | stopEqChecker =>
      rw [Config.statements]
      split_ifs <;> simp [Config.stopEqChecker, ih]

/-! ## All programs are disciplined -/

variable {cfg rounds}

theorem statements_calls_cons (r : Role) (x : Round) (later : List Round) :
    cfg.statements r ⟨true, false⟩ (Config.calls (x :: later)) =
      cfg.openValue r x ++ cfg.requestEqCheck r x.revealSide (cfg.revealableBits x) ++
        (Config.getEqCheckResults r ++ cfg.statements r ⟨true, false⟩ (Config.calls later)) := by
  simp [Config.calls, Config.statements]

theorem statements_calls_nil (r : Role) :
    cfg.statements r ⟨true, false⟩ (Config.calls []) = Config.stopEqChecker r := by
  simp [Config.calls, Config.statements]

theorem fill_of_lt {α : Type} {n i : Nat} (h : i < n) (new old : Nat → α) :
    Config.fill n new old i = new i := if_pos h

/-- How far a DualEx process is in its rounds: what it has sent to the checker, and what it has
collected from there. -/
structure Progress.InRound (g : Progress) (r : Role) (sent collected : Nat) : Prop where
  labels : g.swaps (.labels r) = sent
  wants : g.swaps (.wants r) = sent
  bools : r = .nonGarbler → g.swaps .bools = sent
  result : g.swaps (.result r) = collected
  counted : g.counted = collected

open Progress in
/-- Opening a value prepares what the request hands over. -/
theorem disciplined_openValue {r : Role} {x : Round} {k : Nat} (hk : rounds[k]? = some x)
    (hroom : cfg.revealableBits x ≤ cfg.bits) {later : List Op}
    (hlater : ∀ g : Progress, g.InRound r k k → g.ready (.labels r) = true →
      (r = .nonGarbler → g.ready .bools = true) → g.Disciplined cfg rounds (.dualex r) later)
    {g : Progress} (hg : g.InRound r k k) :
    g.Disciplined cfg rounds (.dualex r) (cfg.openValue r x ++ later) := by
  obtain ⟨hlabels, hwants, hbools, hresult, hcounted⟩ := hg
  have hmeant : ∀ v, Meant cfg rounds (.labels r) k
      (Config.fill (cfg.revealableBits x) (x.labels r) v) := fun v y hy i hi => by
    obtain rfl : x = y := by simpa [hk] using hy
    exact fill_of_lt hi ..
  have hmeant' : ∀ v, Meant cfg rounds .bools k
      (Config.fill (cfg.revealableBits x) x.bools v) := fun v y hy i hi => by
    obtain rfl : x = y := by simpa [hk] using hy
    exact fill_of_lt hi ..
  cases r with
  | garbler =>
    rw [Config.openValue]
    split_ifs
    · refine ⟨⟨rfl, nofun⟩, ⟨rfl, rfl, hroom, fun v => ?_⟩, hlater _ ⟨?_, ?_, nofun, ?_, ?_⟩ ?_ nofun⟩
      all_goals simp [after, hlabels, hwants, hresult, hcounted, hmeant]
    · refine ⟨⟨rfl, rfl, hroom, fun v => ?_⟩, hlater _ ⟨?_, ?_, nofun, ?_, ?_⟩ ?_ nofun⟩
      all_goals simp [after, hlabels, hwants, hresult, hcounted, hmeant]
  | nonGarbler =>
    have hbools' := hbools rfl
    rw [Config.openValue]
    split_ifs
    · refine ⟨⟨rfl, rfl, hroom, fun v => ?_⟩, ⟨rfl, rfl, hroom, fun v => trivial⟩, ⟨rfl, fun _ => ?_⟩,
        ⟨rfl, rfl, hroom, fun v => ?_⟩, hlater _ ⟨?_, ?_, fun _ => ?_, ?_, ?_⟩ ?_ fun _ => ?_⟩
      all_goals simp [after, hlabels, hwants, hbools', hresult, hcounted, hmeant, hmeant']
    · refine ⟨⟨rfl, rfl, hroom, fun v => ?_⟩, ⟨rfl, rfl, hroom, fun v => ?_⟩,
        hlater _ ⟨?_, ?_, fun _ => ?_, ?_, ?_⟩ ?_ fun _ => ?_⟩
      all_goals simp [after, hlabels, hwants, hbools', hresult, hcounted, hmeant, hmeant']

open Progress in
/-- The request hands over everything that has been prepared. -/
theorem disciplined_requestEqCheck {r : Role} {x : Round} {k : Nat} (hk : rounds[k]? = some x)
    (hpos : 0 < cfg.revealableBits x) {later : List Op}
    (hlater : ∀ g : Progress, g.InRound r (k + 1) k → g.Disciplined cfg rounds (.dualex r) later)
    {g : Progress} (hg : g.InRound r k k) (hready : g.ready (.labels r) = true)
    (hready' : r = .nonGarbler → g.ready .bools = true) :
    g.Disciplined cfg rounds (.dualex r)
      (cfg.requestEqCheck r x.revealSide (cfg.revealableBits x) ++ later) := by
  obtain ⟨hlabels, hwants, hbools, hresult, hcounted⟩ := hg
  obtain ⟨hlt, hx⟩ := List.getElem?_eq_some_iff.mp hk
  have hmeant : Meant cfg rounds (.wants r) k
      ⟨true, x.revealSide, if cfg.revealableBits x = 0 then cfg.bits else cfg.revealableBits x⟩ :=
    ⟨by simpa using hlt, fun y hy => by
      obtain rfl : x = y := by simpa [hk] using hy
      exact if_neg hpos.ne'⟩
  cases r with
  | garbler =>
    refine ⟨⟨rfl, rfl, le_rfl, fun v => ?_⟩, ⟨rfl, fun _ => ?_⟩, ⟨rfl, fun _ => ?_⟩,
      hlater _ ⟨?_, ?_, nofun, ?_, ?_⟩⟩
    all_goals simp [after, hlabels, hwants, hresult, hcounted, hready, hmeant]
  | nonGarbler =>
    have hbools' := hbools rfl
    refine ⟨⟨rfl, rfl, le_rfl, fun v => ?_⟩, ⟨rfl, fun _ => ?_⟩, ⟨rfl, fun _ => ?_⟩,
      ⟨rfl, fun _ => ?_⟩, hlater _ ⟨?_, ?_, fun _ => ?_, ?_, ?_⟩⟩
    all_goals simp [after, hlabels, hwants, hbools', hresult, hcounted, hready, hready', hmeant]

open Progress in
/-- The result is handed back before it is collected. -/
theorem disciplined_getEqCheckResults {r : Role} {k : Nat} (hk : k < rounds.length)
    {later : List Op}
    (hlater : ∀ g : Progress, g.InRound r (k + 1) (k + 1) →
      g.Disciplined cfg rounds (.dualex r) later)
    {g : Progress} (hg : g.InRound r (k + 1) k) :
    g.Disciplined cfg rounds (.dualex r) (Config.getEqCheckResults r ++ later) := by
  obtain ⟨hlabels, hwants, hbools, hresult, hcounted⟩ := hg
  refine ⟨⟨by cases r <;> rfl, fun hwrites => ?_⟩, ⟨rfl, ?_, ?_⟩,
    hlater _ ⟨?_, ?_, fun hr => ?_, ?_, ?_⟩⟩
  · cases r <;> exact absurd hwrites (by decide)
  all_goals simp_all [after]

open Progress in
theorem disciplined_statements (hfits : Fits cfg rounds) (r : Role)
    {past later : List Round} (hrounds : rounds = past ++ later) {g : Progress}
    (hg : g.InRound r past.length past.length) :
    g.Disciplined cfg rounds (.dualex r) (cfg.statements r ⟨true, false⟩ (Config.calls later)) := by
  induction later generalizing past g with
  | nil =>
    have huses : (Party.dualex r).uses (.wants r) = true := by cases r <;> rfl
    have hside : (Party.dualex r).side (.wants r) = false := by cases r <;> rfl
    rw [List.append_nil] at hrounds
    subst hrounds
    rw [statements_calls_nil]
    simp [Config.stopEqChecker, Disciplined, Allows, after, huses, hside, Chan.writer, Meant,
      Config.room, hg.wants, hg.counted]
  | cons x later ih =>
    have hk : rounds[past.length]? = some x := by simp [hrounds]
    obtain ⟨hpos, hroom⟩ := hfits x (List.mem_of_getElem? hk)
    rw [statements_calls_cons, List.append_assoc]
    refine disciplined_openValue hk hroom (fun g' hg' hready hready' => ?_) hg
    refine disciplined_requestEqCheck hk hpos (fun g' hg' => ?_) hg' hready hready'
    refine disciplined_getEqCheckResults (by simp [hrounds]) (fun g' hg' => ?_) hg'
    have hrounds' : rounds = (past ++ [x]) ++ later := by simp [hrounds]
    exact ih hrounds' (by simpa using hg')

theorem Role.forall {P : Role → Prop} : (∀ r, P r) ↔ P .garbler ∧ P .nonGarbler :=
  ⟨fun h => ⟨h _, h _⟩, fun h r => by cases r; exacts [h.1, h.2]⟩

/-- The checker stands before its test number `j`. -/
structure Progress.AtTest (g : Progress) (j : Nat) : Prop where
  wants : ∀ r, g.swaps (.wants r) = j + 1
  labels : ∀ r, g.swaps (.labels r) = j
  result : ∀ r, g.swaps (.result r) = j
  bools : g.swaps .bools = j
  counted : g.counted = j
  loops : g.loops = j

open Progress in
/-- Pass `j` of the loop keeps the discipline and leads to the next test. -/
theorem disciplined_pass {j : Nat} (hj : j < rounds.length) {later : List Op}
    (hlater : ∀ g : Progress, g.AtTest (j + 1) → g.Disciplined cfg rounds .checker later)
    {g : Progress} (hg : g.AtTest j) :
    g.Disciplined cfg rounds .checker (.whileWanted :: Config.checkRound ++ later) := by
  simp only [Config.checkRound, List.cons_append, List.nil_append]
  simp only [Disciplined, Allows, after, Party.uses, Party.side, Chan.user, Chan.writer]
  simp [Role.forall, hg.wants, hg.labels, hg.result, hg.bools, hg.counted, hg.loops, hj]
  exact hlater _ ⟨Role.forall.mpr (by simp), Role.forall.mpr (by simp), Role.forall.mpr (by simp),
    by simp, rfl, rfl⟩

open Progress in
theorem disciplined_loop (m : Nat) {j : Nat} (hj : j + m = rounds.length) {g : Progress}
    (hg : g.AtTest j) : g.Disciplined cfg rounds .checker
      (.whileWanted :: (List.replicate m (Config.checkRound ++ [.whileWanted])).flatten) := by
  induction m generalizing j g with
  | zero => simp [Disciplined, Allows, hg.wants, hg.loops]
  | succ m ih =>
    have hpass := disciplined_pass (by omega) (fun g' => ih (by omega) (g := g')) hg
    simpa [List.replicate_succ] using hpass

/-- Every process starts out with a disciplined program. -/
theorem disciplined_program (hfits : Fits cfg rounds) (p : Party) :
    Progress.start.Disciplined cfg rounds p (unroll rounds.length (cfg.program rounds p)) := by
  cases p with
  | dualex r =>
    rw [Config.program, unroll_of_not_mem (not_mem_statements cfg r _ _)]
    exact disciplined_statements hfits r (List.nil_append rounds).symm
      ⟨rfl, rfl, fun _ => rfl, rfl, rfl⟩
  | checker =>
    have hloop : Progress.Disciplined cfg rounds .checker _ _ :=
      disciplined_loop rounds.length (Nat.zero_add _)
        (g := ((Progress.start.after (.swap (.wants .garbler))).after (.swap (.wants .nonGarbler))))
        ⟨Role.forall.mpr (by simp [Progress.after, Progress.start]), fun r => by
          simp [Progress.after, Progress.start], fun r => by simp [Progress.after, Progress.start],
          by simp [Progress.after, Progress.start], rfl, rfl⟩
    simpa [Config.program, unroll, Progress.Disciplined, Progress.Allows, Party.uses,
      Party.side, Chan.user, Chan.writer] using hloop

/-! ## The global order of hand-overs -/

def Op.meeting : Op → Option Chan
  | .swap c => some c
  | _ => none

/-- The regions a program hands over, in its order. -/
def meetings (ops : List Op) : List Chan := ops.filterMap Op.meeting

@[simp] theorem meetings_append (xs ys : List Op) :
    meetings (xs ++ ys) = meetings xs ++ meetings ys := List.filterMap_append

theorem meetings_cons (op : Op) (ops : List Op) :
    meetings (op :: ops) = op.meeting.toList ++ meetings ops := by cases op <;> rfl

theorem meetings_pass : meetings (Config.checkRound ++ [.whileWanted]) =
    [.labels .garbler, .labels .nonGarbler, .bools, .result .garbler, .result .nonGarbler,
      .wants .garbler, .wants .nonGarbler] := rfl

def roundOrder (cfg : Config) (x : Round) : List Chan :=
  (if x.revealSide = Circuit.Side.BOTH ∨ cfg.side = x.revealSide then [.value] else []) ++
    [.wants .garbler, .wants .nonGarbler, .labels .garbler, .labels .nonGarbler, .bools,
      .result .garbler, .result .nonGarbler]

/-- All hand-overs of a run of the given rounds. -/
def order (cfg : Config) (rounds : List Round) : List Chan :=
  rounds.flatMap (roundOrder cfg) ++ [.wants .garbler, .wants .nonGarbler]

theorem meetings_round (r : Role) (x : Round) (n : Nat) :
    meetings (cfg.openValue r x ++ cfg.requestEqCheck r x.revealSide n) ++
        meetings (Config.getEqCheckResults r) =
      (roundOrder cfg x).filter (Party.dualex r).uses := by
  unfold Config.openValue Config.requestEqCheck roundOrder
  cases r <;> dsimp only <;> split_ifs <;> rfl

theorem meetings_statements (r : Role) (rounds : List Round) :
    meetings (cfg.statements r ⟨true, false⟩ (Config.calls rounds)) =
      (order cfg rounds).filter (Party.dualex r).uses := by
  induction rounds with
  | nil => cases r <;> rfl
  | cons x rounds ih =>
    rw [statements_calls_cons, ← List.append_assoc, meetings_append, meetings_append, meetings_round,
      ih]
    simp [order]

theorem meetings_loop (rounds : List Round) :
    Chan.wants .garbler :: .wants .nonGarbler ::
        meetings (List.replicate rounds.length (Config.checkRound ++ [.whileWanted])).flatten =
      (order cfg rounds).filter Party.checker.uses := by
  induction rounds with
  | nil => rfl
  | cons x rounds ih =>
    have hround : (roundOrder cfg x).filter Party.checker.uses =
        [.wants .garbler, .wants .nonGarbler, .labels .garbler, .labels .nonGarbler, .bools,
          .result .garbler, .result .nonGarbler] := by
      unfold roundOrder
      split_ifs <;> rfl
    rw [order, List.flatMap_cons, List.append_assoc, List.filter_append, hround]
    rw [order] at ih
    rw [← ih]
    rw [List.length_cons, List.replicate_succ, List.flatten_cons, meetings_append, meetings_pass]
    rfl

theorem meetings_program (p : Party) :
    meetings (unroll rounds.length (cfg.program rounds p)) = (order cfg rounds).filter p.uses := by
  cases p with
  | dualex r =>
    rw [Config.program, unroll_of_not_mem (not_mem_statements cfg r _ _), meetings_statements]
  | checker =>
    rw [← meetings_loop]
    simp [Config.program, unroll, meetings_cons, Op.meeting]

end CoVault.Dualex.Reveal
