import CoVault.Dualex.RevealDiscipline
import CoVault.Dualex.SwapSafety

/-!
# The invariant of the reveal protocol

It has two halves. Of each pair of regions: whatever the writer has handed over is what it was
meant to hand over. Of each process: the regions it uses have been swapped as often as its
program says, and the program still ahead of it is disciplined. A step touches one pair of
regions and one process, and leaves the halves of all others as they are.
-/

namespace CoVault.Dualex.Reveal

open Library.GlobalOrder

variable {cfg : Config} {rounds : List Round}

/-! ## One pair of regions -/

structure Sound (cfg : Config) (rounds : List Round) (c : Chan) (m : Ram (Content c)) : Prop where
  inv : m.Inv
  handed : ∀ k, k < m.entered c.writer →
    ∃ v, ((m.proc c.writer).handed k).2 = some v ∧ Meant cfg rounds c k v
  unwritten : 0 < (m.proc !c.writer).returned → (m.proc !c.writer).wrote = false

namespace Sound

variable {c : Chan} {m m' : Ram (Content c)}

theorem initial (h : m.Initial) : Sound cfg rounds c m where
  inv := h.inv
  handed := fun k hk => by simp [Ram.entered, (h.2 c.writer).2] at hk
  unwritten := fun hpos => by simp [(h.2 !c.writer).2.2] at hpos

/-- A writer may start its swap once it has prepared what the region is to hold. -/
theorem advance (h : Sound cfg rounds c m) {b : Bool} (hadv : m.advance b = some m')
    (hready : b = c.writer → m.Outside b → ∀ v, m.read b = some v →
      Meant cfg rounds c (m.proc b).returned v) : Sound cfg rounds c m' := by
  have hinv : m'.Inv := Ram.Step.inv h.inv (.advance b hadv)
  have hstill := h.inv.proc_not_of_advance hadv
  have hcases := h.inv.advance_cases hadv
  by_cases hb : b = c.writer
  · subst hb
    refine ⟨hinv, fun k hk => ?_, hstill ▸ h.unwritten⟩
    rcases hcases with ⟨hout, hin, hret, -, hhand⟩ | ⟨hin, hin', hret, -, hhand⟩ |
      ⟨hin, hout, hret, -, hhand⟩
    · rw [hhand]
      by_cases hlast : k = (m.proc c.writer).returned
      · obtain ⟨v, hv⟩ := h.inv.read_isSome c.writer
        exact ⟨v, by simp [hlast, hv], hlast ▸ hready rfl hout v hv⟩
      · rw [Function.update_of_ne hlast]
        refine h.handed k ?_
        unfold Ram.Outside at hin hout
        simp only [Ram.entered, hin, hout, if_true, if_false, hret] at hk ⊢
        omega
    · rw [hhand]
      refine h.handed k ?_
      unfold Ram.Outside at hin hin'
      simpa only [Ram.entered, hin, hin', if_false, hret] using hk
    · rw [hhand]
      refine h.handed k ?_
      unfold Ram.Outside at hin hout
      simpa only [Ram.entered, hin, hout, if_true, if_false, hret] using hk
  · have hb : b = !c.writer := Bool.eq_not.mpr hb
    subst hb
    rw [Bool.not_not] at hstill
    refine ⟨hinv, fun k hk => ?_, fun hpos => ?_⟩
    · rw [Ram.entered, hstill] at hk
      exact hstill ▸ h.handed k hk
    · rcases hcases with ⟨-, -, hret, hwrote, -⟩ | ⟨-, -, hret, hwrote, -⟩ | ⟨-, -, -, hwrote, -⟩
      · exact hwrote ▸ h.unwritten (hret ▸ hpos)
      · exact hwrote ▸ h.unwritten (hret ▸ hpos)
      · exact hwrote

theorem write (h : Sound cfg rounds c m) {v : Content c} (hw : m.write c.writer v = some m') :
    Sound cfg rounds c m' := by
  obtain ⟨-, hproc, hstill, -, -⟩ := h.inv.write_spec hw
  refine ⟨Ram.Step.inv h.inv (.write _ v hw), fun k hk => ?_, hstill ▸ h.unwritten⟩
  rw [Ram.entered, hproc] at hk
  rw [hproc]
  exact h.handed k hk

/-- The reader finds what the writer was meant to hand over. -/
theorem received (h : Sound cfg rounds c m) (hout : m.Outside !c.writer) {k : Nat}
    (hk : (m.proc !c.writer).returned = k + 1) :
    ∃ v, m.read (!c.writer) = some v ∧ Meant cfg rounds c k v := by
  have hentered := h.inv.returned_le_entered !c.writer
  have hover := (h.inv.takes_over hout hk).2 (h.unwritten (by omega))
  rw [Bool.not_not] at hentered hover
  rw [hover]
  exact h.handed k (by omega)

end Sound

/-! ## One process -/

/-- The statements ahead of a process keep the discipline and the global order. -/
structure Runs (cfg : Config) (rounds : List Round) (p : Party) (g : Progress) (ops : List Op) :
    Prop where
  disciplined : g.Disciplined cfg rounds p (unroll (rounds.length - g.loops) ops)
  aligned : Aligned (order cfg rounds) p.uses g.swaps
    (meetings (unroll (rounds.length - g.loops) ops))

namespace Runs

variable {p : Party} {g : Progress} {op : Op} {rest : List Op}

theorem start (hfits : Fits cfg rounds) (p : Party) :
    Runs cfg rounds p Progress.start (cfg.program rounds p) where
  disciplined := disciplined_program hfits p
  aligned := by
    have h : Aligned (order cfg rounds) p.uses Progress.start.swaps _ := .start fun _ _ => rfl
    rwa [← meetings_program] at h

theorem allows (h : Runs cfg rounds p g (op :: rest)) : g.Allows cfg rounds p op := by
  have hd := h.disciplined
  cases op <;> exact hd.1

theorem next (h : Runs cfg rounds p g (op :: rest)) (hop : op ≠ .whileWanted) :
    Runs cfg rounds p (g.after op) rest := by
  obtain ⟨hd, ha⟩ := h
  have hloops : (g.after op).loops = g.loops := by
    cases op <;> first | rfl | exact absurd rfl hop
  rw [unroll_cons hop] at hd ha
  refine ⟨hloops ▸ hd.2, ?_⟩
  rw [hloops]
  cases op with
  | swap c =>
    refine ha.next (c := c) fun d _ => ?_
    by_cases hd : d = c
    · subst hd
      simp [Progress.after]
    · simp [Progress.after, hd]
  | whileWanted => exact absurd rfl hop
  | _ => exact ha

/-- The loop goes on for as many passes as there are rounds. -/
theorem pass (h : Runs cfg rounds p g (.whileWanted :: rest)) (hlt : g.loops < rounds.length) :
    Runs cfg rounds p (g.after .whileWanted) (Config.checkRound ++ [.whileWanted]) := by
  obtain ⟨hd, ha⟩ := h
  have hm : rounds.length - g.loops = (rounds.length - (g.loops + 1)) + 1 := by omega
  rw [hm, unroll_whileWanted_succ] at hd ha
  exact ⟨hd.2, ha⟩

theorem leave (h : Runs cfg rounds p g (.whileWanted :: rest)) (hle : rounds.length ≤ g.loops) :
    Runs cfg rounds p (g.after .whileWanted) [] := by
  obtain ⟨hd, ha⟩ := h
  rw [Nat.sub_eq_zero_of_le hle] at hd ha
  exact ⟨hd.2, ha⟩

end Runs

namespace Sys

/-- Checks made by the checker, or results collected by a party. -/
def counted (s : Sys) : Party → Nat
  | .dualex r => (s.results r).length
  | .checker => s.hashes.length

structure Agrees (cfg : Config) (rounds : List Round) (s : Sys) (p : Party) (g : Progress) :
    Prop where
  swaps : ∀ c, p.uses c = true → ((s.mem c).proc (p.side c)).returned = g.swaps c
  inside : ∀ c, p.uses c = true → ¬ (s.mem c).Outside (p.side c) →
    ∃ rest, s.todo p = .swap c :: rest
  ready : ∀ c, p.uses c = true → p.side c = c.writer → g.ready c = true →
    (s.mem c).Outside (p.side c) → ∀ v, s.read p c = some v → Meant cfg rounds c (g.swaps c) v
  counted : s.counted p = g.counted
  bits : p = .checker → ∀ j x, g.loops = j + 1 → rounds[j]? = some x →
    s.revealableBits = cfg.revealableBits x
  runs : Runs cfg rounds p g (s.todo p)

structure Inv (cfg : Config) (rounds : List Round) (s : Sys) : Prop where
  sound : ∀ c, Sound cfg rounds c (s.mem c)
  agrees : ∀ p, ∃ g, Agrees cfg rounds s p g
  isEqual : ∀ k x, s.hashes.length = k + 1 → rounds[k]? = some x →
    s.isEqual = cfg.isEqual k (payload cfg x)
  results : ∀ r k b, (s.results r)[k]? = some b →
    ∃ x, rounds[k]? = some x ∧ b = cfg.isEqual k (payload cfg x)

end Sys

/-! ## What a step leaves alone -/

theorem Party.side_eq_not {p q : Party} {c : Chan} (hp : p.uses c = true) (hq : q.uses c = true)
    (hne : q ≠ p) : q.side c = !p.side c := by
  refine Bool.eq_not.mpr fun hside => hne ?_
  have hp' : c.user (p.side c) = p := of_decide_eq_true hp
  have hq' : c.user (q.side c) = q := of_decide_eq_true hq
  rw [← hq', hside, hp']

theorem Party.exists_peer {p : Party} {c : Chan} (hp : p.uses c = true) :
    ∃ q : Party, q.uses c = true ∧ q.side c = !p.side c := by
  have huser : ∀ b, (c.user b).uses c = true ∧ (c.user b).side c = b := by
    rintro (_ | _) <;> rcases c with (_ | _) | _ | _ | (_ | _) | (_ | _) <;> exact ⟨rfl, rfl⟩
  exact ⟨c.user !p.side c, huser _⟩

namespace Sys

@[simp] theorem setMem_mem_self (s : Sys) (c : Chan) (m : Ram (Content c)) :
    (s.setMem c m).mem c = m := Function.update_self ..

theorem setMem_mem_of_ne (s : Sys) {c d : Chan} (m : Ram (Content c)) (h : d ≠ c) :
    (s.setMem c m).mem d = s.mem d := Function.update_of_ne h ..

@[simp] theorem setMem_todo (s : Sys) (c : Chan) (m : Ram (Content c)) :
    (s.setMem c m).todo = s.todo := rfl

@[simp] theorem done_mem (s : Sys) (p : Party) (rest : List Op) : (s.done p rest).mem = s.mem := rfl

@[simp] theorem done_todo_self (s : Sys) (p : Party) (rest : List Op) :
    (s.done p rest).todo p = rest := Function.update_self ..

theorem done_todo_of_ne (s : Sys) {p q : Party} (rest : List Op) (h : q ≠ p) :
    (s.done p rest).todo q = s.todo q := Function.update_of_ne h ..

variable {s t : Sys} {p q : Party} {g : Progress} {op : Op} {rest : List Op} {c : Chan}

/-- Another process acts: what has to be left alone. -/
theorem Agrees.frame (h : Agrees cfg rounds s q g)
    (hmem : ∀ c, q.uses c = true → (t.mem c).proc (q.side c) = (s.mem c).proc (q.side c) ∧
      ((s.mem c).Outside (q.side c) → t.read q c = s.read q c))
    (htodo : t.todo q = s.todo q) (hcounted : t.counted q = s.counted q)
    (hbits : q = .checker → t.revealableBits = s.revealableBits) : Agrees cfg rounds t q g where
  swaps := fun c hc => by rw [(hmem c hc).1, h.swaps c hc]
  inside := fun c hc hin => by
    rw [Ram.Outside, (hmem c hc).1] at hin
    rw [htodo]
    exact h.inside c hc hin
  ready := fun c hc hw hr hout v hv => by
    rw [Ram.Outside, (hmem c hc).1] at hout
    exact h.ready c hc hw hr hout v ((hmem c hc).2 hout ▸ hv)
  counted := hcounted.trans h.counted
  bits := fun hq => hbits hq ▸ h.bits hq
  runs := htodo ▸ h.runs

/-- Memory of one pair of regions changes as seen from the side of `p` only. -/
theorem Agrees.frame_setMem (h : Agrees cfg rounds s q g) (hp : p.uses c = true) (hne : q ≠ p)
    {m : Ram (Content c)} (hproc : m.proc (!p.side c) = (s.mem c).proc !p.side c)
    (hread : (s.mem c).Outside (!p.side c) → m.read (!p.side c) = (s.mem c).read !p.side c) :
    Agrees cfg rounds (s.setMem c m) q g := by
  refine h.frame (fun d hd => ?_) rfl (by cases q <;> rfl) (fun _ => rfl)
  by_cases hdc : d = c
  · subst hdc
    rw [read, read, setMem_mem_self, Party.side_eq_not hp hd hne]
    exact ⟨hproc, hread⟩
  · rw [read, read, setMem_mem_of_ne _ _ hdc]
    exact ⟨rfl, fun _ => rfl⟩

theorem Agrees.frame_done (h : Agrees cfg rounds s q g) (hne : q ≠ p) :
    Agrees cfg rounds (s.done p rest) q g :=
  h.frame (fun _ _ => ⟨rfl, fun _ => rfl⟩) (done_todo_of_ne s rest hne) (by cases q <;> rfl)
    fun _ => rfl

/-- A process is inside no swap but the one it stands before. -/
theorem Agrees.outside (h : Agrees cfg rounds s p g) (htodo : s.todo p = op :: rest)
    (hc : p.uses c = true) (hop : op ≠ .swap c) : (s.mem c).Outside (p.side c) := by
  by_contra hin
  obtain ⟨rest', hrest⟩ := h.inside c hc hin
  exact hop (List.cons.inj (htodo.symm.trans hrest)).1

/-- A statement that touches no memory is behind the process. -/
theorem Agrees.done (h : Agrees cfg rounds s p g) (htodo : s.todo p = op :: rest)
    (hop : ∀ c, op ≠ .swap c) {g' : Progress} (hmem : t.mem = s.mem) (hswaps : g'.swaps = g.swaps)
    (hready : g'.ready = g.ready) (hcounted : t.counted p = g'.counted)
    (hbits : p = .checker → ∀ j x, g'.loops = j + 1 → rounds[j]? = some x →
      t.revealableBits = cfg.revealableBits x)
    (hruns : Runs cfg rounds p g' (t.todo p)) : Agrees cfg rounds t p g' where
  swaps := fun c hc => by rw [hmem, hswaps, h.swaps c hc]
  inside := fun c hc hin => absurd (hmem ▸ h.outside htodo hc (hop c)) hin
  ready := fun c hc hw hr hout v hv => by
    rw [read, hmem] at hv
    rw [hswaps]
    exact h.ready c hc hw (hready ▸ hr) (hmem ▸ hout) v hv
  counted := hcounted
  bits := hbits
  runs := hruns

/-! ## Every step keeps the invariant -/

/-- All processes but the one that acts are taken care of. -/
theorem forall_agrees (h : ∀ q, q ≠ p → ∃ g, Agrees cfg rounds t q g)
    (hp : ∃ g, Agrees cfg rounds t p g) (q : Party) : ∃ g, Agrees cfg rounds t q g := by
  by_cases hq : q = p
  · exact hq ▸ hp
  · exact h q hq

theorem sound_setMem (h : ∀ d, Sound cfg rounds d (s.mem d)) {m : Ram (Content c)}
    (hm : Sound cfg rounds c m) (d : Chan) : Sound cfg rounds d ((s.setMem c m).mem d) := by
  by_cases hd : d = c
  · subst hd
    rwa [setMem_mem_self]
  · rw [setMem_mem_of_ne _ _ hd]
    exact h d

/-- In the middle of a swap the process stands where it stood. -/
theorem Agrees.swapping (hg : Agrees cfg rounds s p g) (htodo : s.todo p = .swap c :: rest)
    {m : Ram (Content c)} (hpc : (m.proc (p.side c)).pc ≠ .outside)
    (hreturned : (m.proc (p.side c)).returned = ((s.mem c).proc (p.side c)).returned) :
    Agrees cfg rounds (s.setMem c m) p g := by
  have hothers : ∀ d, p.uses d = true → d ≠ c → (s.mem d).Outside (p.side d) := fun d hd hdc =>
    hg.outside htodo hd fun heq => hdc (Op.swap.inj heq).symm
  refine ⟨fun d hd => ?_, fun d hd hin => ?_, fun d hd hw hr hout v hv => ?_, ?_, hg.bits, hg.runs⟩
  · by_cases hdc : d = c
    · subst hdc
      rw [setMem_mem_self, hreturned, hg.swaps d hd]
    · rw [setMem_mem_of_ne _ _ hdc, hg.swaps d hd]
  · by_cases hdc : d = c
    · exact ⟨rest, hdc ▸ htodo⟩
    · rw [setMem_mem_of_ne _ _ hdc] at hin
      exact absurd (hothers d hd hdc) hin
  · by_cases hdc : d = c
    · subst hdc
      rw [setMem_mem_self] at hout
      exact absurd hout hpc
    · rw [read, setMem_mem_of_ne _ _ hdc] at hv
      exact hg.ready d hd hw hr (hothers d hd hdc) v hv
  · rw [← hg.counted]
    cases p <;> rfl

/-- With the last statement of a swap it has the swap behind it. -/
theorem Agrees.swapped (hg : Agrees cfg rounds s p g) (htodo : s.todo p = .swap c :: rest)
    {m : Ram (Content c)} (hpc : (m.proc (p.side c)).pc = .outside)
    (hreturned : (m.proc (p.side c)).returned = ((s.mem c).proc (p.side c)).returned + 1) :
    Agrees cfg rounds ((s.setMem c m).done p rest) p (g.after (.swap c)) := by
  have hothers : ∀ d, p.uses d = true → d ≠ c → (s.mem d).Outside (p.side d) := fun d hd hdc =>
    hg.outside htodo hd fun heq => hdc (Op.swap.inj heq).symm
  refine ⟨fun d hd => ?_, fun d hd hin => ?_, fun d hd hw hr hout v hv => ?_, ?_, hg.bits, ?_⟩
  · by_cases hdc : d = c
    · subst hdc
      rw [done_mem, setMem_mem_self, hreturned, hg.swaps d hd, Progress.after_swap_swaps,
        Function.update_self]
    · rw [done_mem, setMem_mem_of_ne _ _ hdc, hg.swaps d hd]
      exact (Function.update_of_ne hdc ..).symm
  · by_cases hdc : d = c
    · subst hdc
      rw [done_mem, setMem_mem_self] at hin
      exact absurd hpc hin
    · rw [done_mem, setMem_mem_of_ne _ _ hdc] at hin
      exact absurd (hothers d hd hdc) hin
  · by_cases hdc : d = c
    · subst hdc
      rw [Progress.after_swap_ready, Function.update_self] at hr
      cases hr
    · rw [read, done_mem, setMem_mem_of_ne _ _ hdc] at hv
      rw [Progress.after_swap_ready, Function.update_of_ne hdc] at hr
      rw [Progress.after_swap_swaps, Function.update_of_ne hdc]
      exact hg.ready d hd hw hr (hothers d hd hdc) v hv
  · exact (by cases p <;> rfl : _ = s.counted p).trans hg.counted
  · rw [done_todo_self]
    exact (htodo ▸ hg.runs : Runs cfg rounds p g (.swap c :: rest)).next (by simp)

/-- A statement of a swap, whether or not it is the last one. -/
theorem Inv.swap (h : Inv cfg rounds s) (htodo : s.todo p = .swap c :: rest)
    {m : Ram (Content c)} (hm : (s.mem c).advance (p.side c) = some m) :
    Inv cfg rounds
      (if (m.proc (p.side c)).pc = .outside then (s.setMem c m).done p rest else s.setMem c m) := by
  obtain ⟨g, hg⟩ := h.agrees p
  obtain ⟨huses, hready⟩ := (htodo ▸ hg.runs : Runs cfg rounds p g (.swap c :: rest)).allows
  have hmem := h.sound c
  have hsound : Sound cfg rounds c m := hmem.advance hm fun hw hout v hv => by
    rw [hg.swaps c huses]
    exact hg.ready c huses hw (hready hw) hout v hv
  have hothers : ∀ q, q ≠ p → ∃ g, Agrees cfg rounds (s.setMem c m) q g := fun q hq => by
    obtain ⟨g', hg'⟩ := h.agrees q
    refine ⟨g', hg'.frame_setMem huses hq (hmem.inv.proc_not_of_advance hm) fun _ => ?_⟩
    rw [Ram.read, Ram.read, hmem.inv.proc_not_of_advance hm, hmem.inv.content_of_advance hm]
  split_ifs with hpc
  · have hreturned : (m.proc (p.side c)).returned = ((s.mem c).proc (p.side c)).returned + 1 := by
      rcases hmem.inv.advance_cases hm with ⟨-, hin, -⟩ | ⟨-, hin, -⟩ | ⟨-, -, hret, -⟩
      · exact absurd hpc hin
      · exact absurd hpc hin
      · exact hret
    refine ⟨sound_setMem h.sound hsound, forall_agrees (p := p) (fun q hq => ?_)
      ⟨_, hg.swapped htodo hpc hreturned⟩, h.isEqual, h.results⟩
    obtain ⟨g', hg'⟩ := hothers q hq
    exact ⟨g', hg'.frame_done hq⟩
  · have hreturned : (m.proc (p.side c)).returned = ((s.mem c).proc (p.side c)).returned := by
      rcases hmem.inv.advance_cases hm with ⟨-, -, hret, -⟩ | ⟨-, -, hret, -⟩ | ⟨-, hout, -⟩
      · exact hret
      · exact hret
      · exact absurd hout hpc
    exact ⟨sound_setMem h.sound hsound,
      forall_agrees (p := p) hothers ⟨g, hg.swapping htodo hpc hreturned⟩, h.isEqual, h.results⟩

/-- A writer puts into its region what it is meant to hand over next. -/
theorem Inv.modify (h : Inv cfg rounds s) (htodo : s.todo p = op :: rest)
    (hop : ∀ d, op ≠ .swap d) (hloop : op ≠ .whileWanted) {f : Content c → Content c}
    (huses : p.uses c = true) (hside : p.side c = c.writer)
    (hafter : ∀ g : Progress, g.after op = { g with ready := Function.update g.ready c true })
    (hmeant : ∀ g, Agrees cfg rounds s p g → ∀ v, Meant cfg rounds c (g.swaps c) (f v))
    (hst : s.modify p c f = some t) : Inv cfg rounds (t.done p rest) := by
  obtain ⟨g, hg⟩ := h.agrees p
  obtain ⟨v, -, hst⟩ := Option.bind_eq_some_iff.mp hst
  obtain ⟨m, hm, rfl⟩ := Option.map_eq_some_iff.mp hst
  have hmem := h.sound c
  obtain ⟨hout, hproc, hstill, hread, hpeer⟩ := hmem.inv.write_spec hm
  have houtside : ∀ d, p.uses d = true → (s.mem d).Outside (p.side d) := fun d hd =>
    hg.outside htodo hd (hop d)
  have hsound : Sound cfg rounds c m := by
    rw [hside] at hm
    exact hmem.write hm
  refine ⟨sound_setMem h.sound hsound, forall_agrees (p := p) (fun q hq => ?_) ⟨g.after op, ?_⟩,
    h.isEqual, h.results⟩
  · obtain ⟨g', hg'⟩ := h.agrees q
    exact ⟨g', (hg'.frame_setMem huses hq hstill hpeer).frame_done hq⟩
  · refine ⟨fun d hd => ?_, fun d hd hin => ?_, fun d hd hw hr _ w hv => ?_, ?_, ?_, ?_⟩
    · rw [hafter, done_mem]
      by_cases hdc : d = c
      · subst hdc
        rw [setMem_mem_self, hproc]
        exact hg.swaps d hd
      · rw [setMem_mem_of_ne _ _ hdc]
        exact hg.swaps d hd
    · refine absurd ?_ hin
      rw [done_mem]
      by_cases hdc : d = c
      · subst hdc
        rw [setMem_mem_self, Ram.Outside, hproc]
        exact hout
      · rw [setMem_mem_of_ne _ _ hdc]
        exact houtside d hd
    · simp only [hafter] at hr ⊢
      rw [read, done_mem] at hv
      by_cases hdc : d = c
      · subst hdc
        rw [setMem_mem_self, hread, Option.some.injEq] at hv
        exact hv ▸ hmeant g hg _
      · rw [setMem_mem_of_ne _ _ hdc] at hv
        rw [Function.update_of_ne hdc] at hr
        exact hg.ready d hd hw hr (houtside d hd) w hv
    · rw [hafter]
      exact (by cases p <;> rfl : _ = s.counted p).trans hg.counted
    · rw [hafter]
      exact hg.bits
    · rw [done_todo_self]
      exact (htodo ▸ hg.runs : Runs cfg rounds p g (op :: rest)).next hloop

/-- A reader that stands before another statement has in its region what was meant for it. -/
theorem Inv.received (h : Inv cfg rounds s) (hg : Agrees cfg rounds s p g)
    (htodo : s.todo p = op :: rest) (hop : ∀ d, op ≠ .swap d) (huses : p.uses c = true)
    (hside : p.side c = !c.writer) {k : Nat} (hk : g.swaps c = k + 1) :
    ∃ v, s.read p c = some v ∧ Meant cfg rounds c k v := by
  have hout := hg.outside htodo huses (hop c)
  have hret := (hg.swaps c huses).trans hk
  rw [read, hside]
  rw [hside] at hout hret
  exact (h.sound c).received hout hret

theorem Inv.collect (h : Inv cfg rounds s) {r : Role} (htodo : s.todo p = .collect r :: rest)
    {b : Bool} (hb : s.read p (.result r) = some b) :
    Inv cfg rounds
      ({ s with results := Function.update s.results r (s.results r ++ [b]) }.done p rest) := by
  obtain ⟨g, hg⟩ := h.agrees p
  have hruns : Runs cfg rounds p g (.collect r :: rest) := htodo ▸ hg.runs
  obtain ⟨rfl, hlt, hk⟩ := hruns.allows
  obtain ⟨v, hv, hmeant⟩ :=
    h.received hg htodo (by simp) (by cases r <;> rfl) (by cases r <;> rfl) hk
  have hvb : v = b := Option.some.inj (hv.symm.trans hb)
  have hlen : (s.results r).length = g.counted := hg.counted
  refine ⟨h.sound, forall_agrees (p := .dualex r) (fun q hq => ?_) ⟨g.after (.collect r), ?_⟩,
    h.isEqual, fun r' k b' hb' => ?_⟩
  · obtain ⟨g', hg'⟩ := h.agrees q
    refine ⟨g', (hg'.frame_done hq).frame (fun _ _ => ⟨rfl, fun _ => rfl⟩) rfl ?_ fun _ => rfl⟩
    cases q with
    | dualex r' =>
      have hne : r' ≠ r := fun heq => hq (heq ▸ rfl)
      simp [counted, Sys.done, hne]
    | checker => rfl
  · refine hg.done htodo (by simp) rfl rfl rfl ?_ (by simp) ?_
    · simp [counted, Sys.done, Progress.after, hlen]
    · rw [done_todo_self]
      exact hruns.next (by simp)
  · by_cases hr : r' = r
    · subst hr
      simp only [Sys.done, Function.update_self] at hb'
      rcases lt_trichotomy k g.counted with hlt' | rfl | hgt
      · rw [List.getElem?_append_left (by omega)] at hb'
        exact h.results r' k b' hb'
      · rw [← hlen, List.getElem?_concat_length, Option.some.injEq] at hb'
        obtain ⟨x, hx⟩ : ∃ x, rounds[g.counted]? = some x := ⟨_, List.getElem?_eq_getElem hlt⟩
        exact ⟨x, hx, by rw [← hb', ← hvb]; exact hmeant x hx⟩
      · rw [List.getElem?_eq_none (by simp; omega)] at hb'
        cases hb'
    · simp only [Sys.done, Function.update_of_ne hr] at hb'
      exact h.results r' k b' hb'

/-- The test of the loop: it goes on exactly while there are rounds left. -/
theorem Inv.whileWanted (h : Inv cfg rounds s) (htodo : s.todo p = .whileWanted :: rest)
    {vg vn : RevealRequest} (hvg : s.read p (.wants .garbler) = some vg)
    (hvn : s.read p (.wants .nonGarbler) = some vn) :
    Inv cfg rounds (if vg.wantReveal && vn.wantReveal then
      { s with revealableBits := vg.revealableBits }.done p (Config.checkRound ++ [Op.whileWanted])
      else s.done p []) := by
  obtain ⟨g, hg⟩ := h.agrees p
  have hruns : Runs cfg rounds p g (.whileWanted :: rest) := htodo ▸ hg.runs
  obtain ⟨rfl, hk⟩ := hruns.allows
  have hreceived : ∀ r v, s.read .checker (.wants r) = some v →
      Meant cfg rounds (.wants r) g.loops v := fun r v hv => by
    obtain ⟨w, hw, hmeant⟩ := h.received hg htodo (by simp) rfl rfl (hk r)
    exact Option.some.inj (hw.symm.trans hv) ▸ hmeant
  obtain ⟨hgw, hgbits⟩ := hreceived .garbler vg hvg
  obtain ⟨hnw, -⟩ := hreceived .nonGarbler vn hvn
  have hothers : ∀ ops q, q ≠ Party.checker → ∃ g, Agrees cfg rounds (s.done .checker ops) q g :=
    fun ops q hq => by
      obtain ⟨g', hg'⟩ := h.agrees q
      exact ⟨g', hg'.frame_done hq⟩
  have htest : (vg.wantReveal && vn.wantReveal) = true ↔ g.loops < rounds.length := by
    rw [hgw, hnw, Bool.and_self, decide_eq_true_eq]
  split_ifs with hpass
  · refine ⟨h.sound, forall_agrees (p := .checker) (fun q hq => ?_) ⟨g.after .whileWanted, ?_⟩,
      h.isEqual, h.results⟩
    · obtain ⟨g', hg'⟩ := hothers (Config.checkRound ++ [Op.whileWanted]) q hq
      exact ⟨g', hg'.frame (fun _ _ => ⟨rfl, fun _ => rfl⟩) rfl (by cases q <;> rfl)
        fun hc => absurd hc hq⟩
    · refine hg.done htodo (by simp) rfl rfl rfl hg.counted (fun _ j x hj hx => ?_) ?_
      · obtain rfl : j = g.loops := (Nat.succ.inj hj).symm
        exact hgbits x hx
      · rw [done_todo_self]
        exact hruns.pass (htest.mp hpass)
  · refine ⟨h.sound, forall_agrees (p := .checker) (hothers []) ⟨g.after .whileWanted, ?_⟩,
      h.isEqual, h.results⟩
    refine hg.done htodo (by simp) rfl rfl rfl hg.counted (fun _ j x hj hx => ?_) ?_
    · obtain rfl : j = g.loops := (Nat.succ.inj hj).symm
      exact absurd (htest.mpr (List.getElem?_eq_some_iff.mp hx).1) hpass
    · rw [done_todo_self]
      exact hruns.leave (Nat.not_lt.mp fun hlt => hpass (htest.mpr hlt))

theorem hashMe_congr (cfg : Config)
    {labels labels' : Role → Nat → BitVec 128} {bools bools' : Nat → Bool} {n : Nat}
    (hlabels : ∀ r, ∀ i < n, labels r i = labels' r i) (hbools : ∀ i < n, bools i = bools' i) :
    cfg.hashMe labels bools n = cfg.hashMe labels' bools' n := by
  have happly : ∀ r, cfg.applyLabels (labels r) bools n = cfg.applyLabels (labels' r) bools' n :=
    fun r => List.map_congr_left fun i hi => by
      rw [hlabels r i (List.mem_range.mp hi), hbools i (List.mem_range.mp hi)]
  rw [Config.hashMe, Config.hashMe, happly, happly]

/-- The check is about the round it belongs to. -/
theorem Inv.checkEquality (h : Inv cfg rounds s) (htodo : s.todo p = .checkEquality :: rest)
    {vg vn : Nat → BitVec 128} {vb : Nat → Bool} (hvg : s.read p (.labels .garbler) = some vg)
    (hvn : s.read p (.labels .nonGarbler) = some vn) (hvb : s.read p .bools = some vb)
    {labels : Role → Nat → BitVec 128} (hlg : labels .garbler = vg)
    (hln : labels .nonGarbler = vn) :
    Inv cfg rounds ({ s with
      isEqual := cfg.isEqual s.hashes.length (cfg.hashMe labels vb s.revealableBits)
      hashes := s.hashes ++ [cfg.hash (cfg.hashMe labels vb s.revealableBits)] }.done p rest) := by
  obtain ⟨g, hg⟩ := h.agrees p
  have hruns : Runs cfg rounds p g (.checkEquality :: rest) := htodo ▸ hg.runs
  obtain ⟨rfl, hlt, hloops, hklabels, hkbools⟩ := hruns.allows
  have hchecks : s.hashes.length = g.counted := hg.counted
  have hlabels : ∀ r, Meant cfg rounds (.labels r) g.counted (labels r) := fun r => by
    obtain ⟨v, hv, hmeant⟩ := h.received hg htodo (by simp) rfl rfl (hklabels r)
    cases r with
    | garbler => exact hlg ▸ Option.some.inj (hv.symm.trans hvg) ▸ hmeant
    | nonGarbler => exact hln ▸ Option.some.inj (hv.symm.trans hvn) ▸ hmeant
  obtain ⟨v, hv, hbools⟩ := h.received hg htodo (by simp) rfl rfl hkbools
  obtain rfl := Option.some.inj (hv.symm.trans hvb)
  refine ⟨h.sound, forall_agrees (p := .checker) (fun q hq => ?_) ⟨g.after .checkEquality, ?_⟩,
    fun k x hk hx => ?_, h.results⟩
  · obtain ⟨g', hg'⟩ := h.agrees q
    refine ⟨g', (hg'.frame_done hq).frame (fun _ _ => ⟨rfl, fun _ => rfl⟩) rfl ?_ fun _ => rfl⟩
    cases q with
    | dualex r => rfl
    | checker => exact absurd rfl hq
  · have hcounted : ∀ hash, (s.hashes ++ [hash]).length = g.counted + 1 := fun hash => by
      rw [List.length_append, hchecks, List.length_singleton]
    refine hg.done htodo (by simp) rfl rfl rfl (hcounted _) hg.bits ?_
    rw [done_todo_self]
    exact hruns.next (by simp)
  · obtain rfl : k = s.hashes.length := by
      simpa [Sys.done] using hk.symm
    rw [hchecks] at hx
    have hbits := hg.bits rfl g.counted x hloops hx
    change cfg.isEqual s.hashes.length _ = _
    rw [payload, hbits, hashMe_congr cfg (fun r i hi => hlabels r x hx i hi) (hbools x hx)]

theorem Inv.step (h : Inv cfg rounds s) (hst : s.step cfg p = some t) : Inv cfg rounds t := by
  obtain ⟨g, hg⟩ := h.agrees p
  unfold Sys.step at hst
  split at hst
  · cases hst
  · rename_i c rest htodo
    obtain ⟨m, hm, rfl⟩ := Option.map_eq_some_iff.mp hst
    exact h.swap htodo hm
  · rename_i c n f rest htodo
    obtain ⟨-, hst⟩ := Option.ite_none_right_eq_some.mp hst
    obtain ⟨u, hu, rfl⟩ := Option.map_eq_some_iff.mp hst
    have hallows := fun g (hg : Agrees cfg rounds s p g) =>
      (htodo ▸ hg.runs : Runs cfg rounds p g (.write c n f :: rest)).allows
    exact h.modify htodo (by simp) (by simp) (hallows g hg).1 (hallows g hg).2.1 (fun _ => rfl)
      (fun g hg => (hallows g hg).2.2.2) hu
  · rename_i r rest htodo
    obtain ⟨b, hb, rfl⟩ := Option.map_eq_some_iff.mp hst
    exact h.collect htodo hb
  · rename_i rest htodo
    obtain ⟨vg, hvg, hst⟩ := Option.bind_eq_some_iff.mp hst
    obtain ⟨vn, hvn, hst⟩ := Option.bind_eq_some_iff.mp hst
    have hinv := h.whileWanted htodo hvg hvn
    split_ifs at hst hinv <;> exact Option.some.inj hst ▸ hinv
  · rename_i rest htodo
    obtain ⟨vg, hvg, hst⟩ := Option.bind_eq_some_iff.mp hst
    obtain ⟨vn, hvn, hst⟩ := Option.bind_eq_some_iff.mp hst
    obtain ⟨vb, hvb, hst⟩ := Option.bind_eq_some_iff.mp hst
    exact Option.some.inj hst ▸ h.checkEquality htodo hvg hvn hvb rfl rfl
  · rename_i r rest htodo
    obtain ⟨u, hu, rfl⟩ := Option.map_eq_some_iff.mp hst
    obtain ⟨rfl, -⟩ := (htodo ▸ hg.runs : Runs cfg rounds p g (.sendResult r :: rest)).allows
    refine h.modify htodo (by simp) (by simp) rfl rfl (fun _ => rfl) (fun g hg v x hx => ?_) hu
    obtain ⟨-, hk⟩ := (htodo ▸ hg.runs : Runs cfg rounds .checker g (.sendResult r :: rest)).allows
    exact h.isEqual _ x (hg.counted.trans hk) hx

theorem Initial.inv (hfits : Fits cfg rounds) (h : Initial cfg rounds s) :
    Inv cfg rounds s where
  sound := fun c => .initial (h.mem c)
  agrees := fun p => ⟨Progress.start,
    { swaps := fun c _ => ((h.mem c).2 _).2.2
      inside := fun c _ hin => absurd ((h.mem c).2 _).2.1 hin
      ready := fun _ _ _ hr => by cases hr
      counted := by cases p <;> simp [counted, h.results, h.hashes, Progress.start]
      bits := fun _ _ _ hj => by cases hj
      runs := h.todo ▸ .start hfits p }⟩
  isEqual := fun k _ hk => by simp [h.hashes] at hk
  results := fun r k b hb => by simp [h.results r] at hb

theorem Reachable.inv (hfits : Fits cfg rounds)
    (h : Reachable cfg rounds s) : Inv cfg rounds s := by
  have h0 : ∀ s, Initial cfg rounds s → Inv cfg rounds s := fun _ => Initial.inv hfits
  have hstep : ∀ s t, Inv cfg rounds s → Step cfg s t → Inv cfg rounds t := fun s t hs hst => by
    obtain ⟨p, hst⟩ := hst
    exact hs.step hst
  exact Library.Transition.Reachable.invariant h0 hstep h

end Sys

end CoVault.Dualex.Reveal
