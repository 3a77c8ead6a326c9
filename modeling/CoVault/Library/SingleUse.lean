import Mathlib
import CoVault.Library.GlobalOrder
import CoVault.Library.Transition

/-!
# Networks whose channels are used once

Every channel carries one message from one process to another. What a process sends depends on
what it has received and on nothing else, so it does not matter in which order the processes take
their steps: if the programs go together for some messages, these are the messages of every run.
If all programs follow one list of the channels, no run gets stuck.
-/

namespace CoVault.Library.SingleUse

open GlobalOrder Transition

variable {ι κ α β : Type*}

/-- What a process does next. It may not be able to go on with what it receives. -/
inductive Op (κ α β : Type*) where
  | send (c : κ) (message : α → β)
  | receive (c : κ) (absorb : β → α → Option α)

namespace Op

def channel : Op κ α β → κ
  | send c _ => c
  | receive c _ => c

def isSend : Op κ α β → Bool
  | send .. => true
  | receive .. => false

end Op

structure Proc (κ α β : Type*) where
  rest : List (Op κ α β)
  value : α

/-- The processes, and the messages that have been sent and not received. -/
structure Net (ι κ α β : Type*) where
  proc : ι → Proc κ α β
  held : κ → Option β

/-- Process `i` has a channel before it. -/
def Ahead (rest : ι → List (Op κ α β)) (i : ι) (c : κ) : Prop := c ∈ (rest i).map Op.channel

namespace Net

variable [DecidableEq ι] [DecidableEq κ]

def step (s : Net ι κ α β) (i : ι) : Option (Net ι κ α β) :=
  match (s.proc i).rest with
  | [] => none
  | .send c message :: rest =>
    some ⟨Function.update s.proc i ⟨rest, (s.proc i).value⟩,
      Function.update s.held c (some (message (s.proc i).value))⟩
  | .receive c absorb :: rest =>
    (s.held c).bind fun message => (absorb message (s.proc i).value).map fun value =>
      ⟨Function.update s.proc i ⟨rest, value⟩, Function.update s.held c none⟩

def Step (s t : Net ι κ α β) : Prop := ∃ i, s.step i = some t

/-- Nothing has been sent. -/
structure Initial (prog : ι → List (Op κ α β)) (start : ι → α) (s : Net ι κ α β) : Prop where
  proc : ∀ i, s.proc i = ⟨prog i, start i⟩
  held : ∀ c, s.held c = none

end Net

/-- The processes meet over the channels of a list, each once, and every program follows it. -/
structure Wired [DecidableEq ι] (order : List κ) (source target : κ → ι)
    (prog : ι → List (Op κ α β)) : Prop where
  nodup : order.Nodup
  channels : ∀ i, (prog i).map Op.channel =
    order.filter fun c => decide (source c = i ∨ target c = i)
  sends : ∀ i, ∀ op ∈ prog i, op.isSend = decide (source op.channel = i)
  apart : ∀ c ∈ order, source c ≠ target c

/-- A program leads from one value to another if the channels carry these messages. -/
def Follows (carried : κ → β) : List (Op κ α β) → α → α → Prop
  | [], v, w => v = w
  | .send c message :: rest, v, w => message v = carried c ∧ Follows carried rest v w
  | .receive c absorb :: rest, v, w =>
    ∃ v', absorb (carried c) v = some v' ∧ Follows carried rest v' w

theorem Follows.append {carried : κ → β} {xs ys : List (Op κ α β)} {u v w : α}
    (hxs : Follows carried xs u v) (hys : Follows carried ys v w) :
    Follows carried (xs ++ ys) u w := by
  induction xs generalizing u with
  | nil =>
    obtain rfl : u = v := hxs
    exact hys
  | cons op xs ih =>
    cases op with
    | send c message => exact ⟨hxs.1, ih hxs.2⟩
    | receive c absorb =>
      obtain ⟨u', hu', hxs⟩ := hxs
      exact ⟨u', hu', ih hxs⟩

theorem Follows.sends {carried : κ → β} {message : α → β} {v : α} {cs : List κ}
    (h : ∀ c ∈ cs, message v = carried c) :
    Follows carried (cs.map fun c => .send c message) v v := by
  induction cs with
  | nil => exact rfl
  | cons c cs ih =>
    exact ⟨h c (List.mem_cons_self ..), ih fun d hd => h d (List.mem_cons_of_mem _ hd)⟩

/-! ## Where the processes stand -/

section Programs

variable [DecidableEq ι] {order : List κ} {source target : κ → ι}
  {prog rest : ι → List (Op κ α β)} {i j : ι} {c d : κ} {op : Op κ α β} {tail : List (Op κ α β)}

theorem Ahead.update_iff (hnodup : ((rest i).map Op.channel).Nodup) (hrest : rest i = op :: tail) :
    Ahead (Function.update rest i tail) j d ↔ Ahead rest j d ∧ ¬ (j = i ∧ d = op.channel) := by
  unfold Ahead
  by_cases hj : j = i
  · subst hj
    rw [hrest, List.map_cons, List.nodup_cons] at hnodup
    rw [Function.update_self, hrest, List.map_cons, List.mem_cons]
    constructor
    · exact fun hd => ⟨.inr hd, fun ⟨_, heq⟩ => hnodup.1 (heq ▸ hd)⟩
    · rintro ⟨rfl | hd, hne⟩
      · exact absurd ⟨rfl, rfl⟩ hne
      · exact hd
  · rw [Function.update_of_ne hj]
    simp [hj]

namespace Wired

variable (h : Wired order source target prog)

include h

theorem suffix_nodup (hsuffix : rest i <:+ prog i) : ((rest i).map Op.channel).Nodup := by
  have hall : ((prog i).map Op.channel).Nodup := h.channels i ▸ h.nodup.filter _
  exact hall.sublist (hsuffix.sublist.map _)

theorem mem_of_ahead (hsuffix : rest i <:+ prog i) (hc : Ahead rest i c) :
    c ∈ order ∧ (source c = i ∨ target c = i) := by
  have hmem : c ∈ (prog i).map Op.channel := (hsuffix.sublist.map _).subset hc
  rw [h.channels i, List.mem_filter] at hmem
  exact ⟨hmem.1, of_decide_eq_true hmem.2⟩

/-- Who sends on the channel in front. -/
theorem source_iff (hsuffix : rest i <:+ prog i) (hrest : rest i = op :: tail) :
    op.isSend = true ↔ source op.channel = i := by
  have hmem : op ∈ prog i := hsuffix.subset (hrest ▸ List.mem_cons_self ..)
  rw [h.sends i op hmem, decide_eq_true_eq]

theorem target_of_receive (hsuffix : rest i <:+ prog i) (hrest : rest i = op :: tail)
    (hop : op.isSend = false) : target op.channel = i := by
  have hahead : Ahead rest i op.channel := by simp [Ahead, hrest]
  have hsource := (h.source_iff hsuffix hrest).not.mp (by simp [hop])
  exact (h.mem_of_ahead hsuffix hahead).2.resolve_left hsource

/-- The programs that are left lie in the one list of channels. -/
theorem aligned [DecidableEq κ] (hsuffix : rest i <:+ prog i) :
    ∃ done, Aligned order (fun c => decide (source c = i ∨ target c = i)) done
        ((rest i).map Op.channel) ∧
      ∀ c ∈ order, (source c = i ∨ target c = i) → (done c = 0 ↔ Ahead rest i c) := by
  obtain ⟨front, hfront⟩ := hsuffix
  have hsplit := h.channels i
  rw [← hfront, List.map_append, eq_comm, List.filter_eq_append_iff] at hsplit
  obtain ⟨pre, post, horder, hpre, hpost⟩ := hsplit
  refine ⟨pre.count, ⟨pre, post, horder, hpost.symm, fun c _ => rfl⟩, fun c hc huses => ?_⟩
  rw [List.count_eq_zero, Ahead, ← hpost, List.mem_filter, and_iff_left (decide_eq_true huses)]
  rw [horder, List.mem_append] at hc
  have hdisjoint := List.disjoint_of_nodup_append (horder ▸ h.nodup)
  exact ⟨hc.resolve_left, fun hmem hmem' => hdisjoint hmem' hmem⟩

end Wired

end Programs

/-! ## One run -/

section Run

variable [DecidableEq ι] {order : List κ} {source target : κ → ι}
  {prog : ι → List (Op κ α β)} {carried : κ → β} {final : ι → α} {s t : Net ι κ α β} {i : ι}

/-- What is ahead of the processes. -/
def Net.rest (s : Net ι κ α β) (i : ι) : List (Op κ α β) := (s.proc i).rest

/-- The messages are those the programs go together for, and nothing is received before it has been
sent. -/
structure Net.Inv (order : List κ) (source target : κ → ι) (prog : ι → List (Op κ α β))
    (carried : κ → β) (final : ι → α) (s : Net ι κ α β) : Prop where
  suffix : ∀ i, s.rest i <:+ prog i
  follows : ∀ i, Follows carried (s.rest i) (s.proc i).value (final i)
  sentFirst : ∀ c ∈ order, Ahead s.rest (source c) c → Ahead s.rest (target c) c
  held : ∀ c ∈ order, ∀ m, s.held c = some m ↔
    ¬ Ahead s.rest (source c) c ∧ Ahead s.rest (target c) c ∧ m = carried c

theorem Net.Initial.inv (h : Wired order source target prog) {start : ι → α}
    (hfollows : ∀ i, Follows carried (prog i) (start i) (final i)) (hs : s.Initial prog start) :
    s.Inv order source target prog carried final := by
  have hrest : s.rest = prog := funext fun i => by rw [Net.rest, hs.proc]
  have hahead : ∀ c ∈ order, ∀ i, source c = i ∨ target c = i → Ahead s.rest i c := by
    intro c hc i huses
    rw [hrest, Ahead, h.channels i, List.mem_filter]
    exact ⟨hc, decide_eq_true huses⟩
  refine ⟨fun i => hrest ▸ List.suffix_rfl, fun i => ?_,
    fun c hc _ => hahead c hc _ (.inr rfl), fun c hc m => ?_⟩
  · rw [hrest, hs.proc]
    exact hfollows i
  · simp [hs.held, hahead c hc _ (.inl rfl)]

/-- A process has taken a step, and the programs of the others are as they were. -/
theorem Net.rest_update {tail : List (Op κ α β)} {value : α}
    (hproc : t.proc = Function.update s.proc i ⟨tail, value⟩) :
    t.rest = Function.update s.rest i tail := by
  funext j
  by_cases hj : j = i
  · subst hj
    simp [Net.rest, hproc]
  · simp [Net.rest, hproc, hj]

/-- The front of a program is taken off, and the value goes along. -/
theorem Net.Inv.advance (hs : s.Inv order source target prog carried final)
    (h : Wired order source target prog) {op : Op κ α β} {tail : List (Op κ α β)} {value : α}
    (hrest : s.rest i = op :: tail)
    (hproc : t.proc = Function.update s.proc i ⟨tail, value⟩)
    (hvalue : Follows carried tail value (final i)) :
    (∀ j, t.rest j <:+ prog j) ∧ (∀ j, Follows carried (t.rest j) (t.proc j).value (final j)) ∧
      ∀ j d, Ahead t.rest j d ↔ Ahead s.rest j d ∧ ¬ (j = i ∧ d = op.channel) := by
  have htail := Net.rest_update hproc
  refine ⟨fun j => ?_, fun j => ?_, fun j d => ?_⟩
  · by_cases hj : j = i
    · subst hj
      rw [htail, Function.update_self]
      exact (List.suffix_cons op tail).trans (hrest ▸ hs.suffix j)
    · rw [htail, Function.update_of_ne hj]
      exact hs.suffix j
  · by_cases hj : j = i
    · subst hj
      rw [htail, hproc, Function.update_self, Function.update_self]
      exact hvalue
    · rw [htail, hproc, Function.update_of_ne hj, Function.update_of_ne hj]
      exact hs.follows j
  · rw [htail]
    exact Ahead.update_iff (h.suffix_nodup (hs.suffix i)) hrest

variable [DecidableEq κ]

theorem Net.step_send {c : κ} {message : α → β} {tail : List (Op κ α β)}
    (hrest : s.rest i = .send c message :: tail) :
    s.step i = some ⟨Function.update s.proc i ⟨tail, (s.proc i).value⟩,
      Function.update s.held c (some (message (s.proc i).value))⟩ := by
  rw [Net.rest] at hrest
  simp only [Net.step, hrest]

theorem Net.step_receive {c : κ} {absorb : β → α → Option α} {tail : List (Op κ α β)} {m : β}
    {value : α} (hrest : s.rest i = .receive c absorb :: tail) (hm : s.held c = some m)
    (hvalue : absorb m (s.proc i).value = some value) :
    s.step i = some ⟨Function.update s.proc i ⟨tail, value⟩, Function.update s.held c none⟩ := by
  rw [Net.rest] at hrest
  simp [Net.step, hrest, hm, hvalue]

theorem Net.step_cases (hstep : s.step i = some t) :
    ∃ c tail value, t.proc = Function.update s.proc i ⟨tail, value⟩ ∧
      ((∃ message, s.rest i = .send c message :: tail ∧ value = (s.proc i).value ∧
          t.held = Function.update s.held c (some (message value))) ∨
        ∃ absorb m, s.rest i = .receive c absorb :: tail ∧ s.held c = some m ∧
          absorb m (s.proc i).value = some value ∧ t.held = Function.update s.held c none) := by
  unfold Net.step at hstep
  split at hstep
  · cases hstep
  next c message tail hrest =>
    obtain rfl := Option.some.inj hstep
    exact ⟨c, tail, _, rfl, .inl ⟨message, hrest, rfl, rfl⟩⟩
  next c absorb tail hrest =>
    obtain ⟨m, hm, hstep⟩ := Option.bind_eq_some_iff.mp hstep
    obtain ⟨value, hvalue, rfl⟩ := Option.map_eq_some_iff.mp hstep
    exact ⟨c, tail, value, rfl, .inr ⟨absorb, m, hrest, hm, hvalue, rfl⟩⟩

namespace Net.Inv

variable (h : Wired order source target prog) (hs : s.Inv order source target prog carried final)

include h hs

theorem step (hstep : s.step i = some t) : t.Inv order source target prog carried final := by
  obtain ⟨c, tail, value, hproc, ⟨message, hrest, rfl, hheld⟩ |
    ⟨absorb, m, hrest, hm, hvalue, hheld⟩⟩ := Net.step_cases hstep
  · have hfollows := hs.follows i
    rw [hrest] at hfollows
    obtain ⟨hsuffix, hfollows', hahead⟩ := hs.advance h hrest hproc hfollows.2
    have hsource : source c = i := (h.source_iff (hs.suffix i) hrest).mp rfl
    have hfront : Ahead s.rest i c := by simp [Ahead, hrest, Op.channel]
    have hc : c ∈ order := (h.mem_of_ahead (hs.suffix i) hfront).1
    have htarget : target c ≠ i := hsource ▸ (h.apart c hc).symm
    refine ⟨hsuffix, hfollows', fun d hd hdahead => ?_, fun d hd m => ?_⟩
    · rw [hahead] at hdahead ⊢
      refine ⟨hs.sentFirst d hd hdahead.1, fun hboth => ?_⟩
      obtain ⟨htarget', rfl⟩ := hboth
      exact htarget htarget'
    · by_cases hdc : d = c
      · subst hdc
        have hreceiver := hs.sentFirst d hd (hsource ▸ hfront)
        rw [hheld, Function.update_self, hfollows.1, hahead, hahead]
        simp [hsource, htarget, hreceiver, Op.channel, eq_comm]
      · rw [hheld, Function.update_of_ne hdc, hahead, hahead]
        simp [hs.held d hd m, hdc, Op.channel]
  · obtain ⟨v', hv', hfollows⟩ : ∃ v', absorb (carried c) (s.proc i).value = some v' ∧
        Follows carried tail v' (final i) := by
      have hfollows := hs.follows i
      rwa [hrest] at hfollows
    have hfront : Ahead s.rest i c := by simp [Ahead, hrest, Op.channel]
    have hc : c ∈ order := (h.mem_of_ahead (hs.suffix i) hfront).1
    obtain ⟨hsent, hreceiver, rfl⟩ := (hs.held c hc m).mp hm
    obtain rfl : v' = value := Option.some.inj (hv'.symm.trans hvalue)
    obtain ⟨hsuffix, hfollows', hahead⟩ := hs.advance h hrest hproc hfollows
    have htarget : target c = i := h.target_of_receive (hs.suffix i) hrest rfl
    refine ⟨hsuffix, hfollows', fun d hd hdahead => ?_, fun d hd m => ?_⟩
    · rw [hahead] at hdahead ⊢
      refine ⟨hs.sentFirst d hd hdahead.1, fun hboth => ?_⟩
      obtain ⟨-, rfl⟩ := hboth
      exact hsent hdahead.1
    · by_cases hdc : d = c
      · subst hdc
        rw [hheld, Function.update_self, hahead, hahead]
        simp [htarget, Op.channel]
      · rw [hheld, Function.update_of_ne hdc, hahead, hahead]
        simp [hs.held d hd m, hdc, Op.channel]

/-- As long as a program is left, some process can go on. -/
theorem exists_step {j : ι} (hj : s.rest j ≠ []) : ∃ i t, s.step i = some t := by
  choose done haligned hdone using fun i => h.aligned (hs.suffix i)
  have hchannels : (s.rest j).map Op.channel ≠ [] := by simpa using hj
  obtain ⟨i, c, tail, hfront, huses, hothers⟩ := exists_foremost haligned hchannels
  obtain ⟨op, ops, hrest, rfl, -⟩ := List.map_eq_cons_iff.mp hfront
  have hahead : Ahead s.rest i op.channel := by simp [Ahead, hrest]
  have hc := (h.mem_of_ahead (hs.suffix i) hahead).1
  cases op with
  | send c message => exact ⟨i, _, Net.step_send hrest⟩
  | receive c absorb =>
    have htarget := h.target_of_receive (hs.suffix i) hrest rfl
    have hbefore := hothers (source c) (decide_eq_true (.inl rfl))
    simp only [Op.channel] at *
    rw [(hdone i c hc (.inr htarget)).mpr hahead] at hbefore
    rcases hbefore with hsent | ⟨-, tail', htail'⟩
    · have hsent : ¬ Ahead s.rest (source c) c := fun hnot =>
        hsent.ne' ((hdone _ c hc (.inl rfl)).mpr hnot)
      have hheld := (hs.held c hc _).mpr ⟨hsent, htarget ▸ hahead, rfl⟩
      have hfollows := hs.follows i
      rw [hrest] at hfollows
      obtain ⟨v, hv, -⟩ := hfollows
      exact ⟨i, _, Net.step_receive hrest hheld hv⟩
    · obtain ⟨op, ops', hrest', hop, -⟩ := List.map_eq_cons_iff.mp htail'
      have hsend := (h.source_iff (hs.suffix _) hrest').mpr (by rw [hop])
      cases op with
      | send c message => exact ⟨_, _, Net.step_send hrest'⟩
      | receive c absorb => cases hsend

end Net.Inv

end Run

end CoVault.Library.SingleUse
