import CoVault.PathQuery.Flow

/-!
# What the flow query counts

The two passes list every encounter that qualifies under its time, and nothing else inside the
window. On such a list the filters stand for two growing sets, so the walk through the list is
compared with one over sets; as the list is sorted, whoever is in the first set at an encounter
was met by a source device before.
-/

namespace CoVault.PathQuery

open Circuit Encounters

/-! ## The collected list -/

/-- The visits of the given encounters of the devices, among dummies. -/
def Collected (ahead : Track → List Encounter) (ts : List Track) (vs : List Visit) : Prop :=
  (∀ v ∈ vs, v.fetchDummy = true ∨
    ∃ t ∈ ts, ∃ e ∈ ahead t, ∃ nonce, v = visitOf t.device.id nonce e) ∧
  ∀ t ∈ ts, ∀ e ∈ ahead t, ∃ nonce, visitOf t.device.id nonce e ∈ vs

theorem visits_collected {perDevice : Nat} {call : ShuffleCall} {ts : List Track}
    {vss : List (List Visit)} (h : List.Forall₂ (Visits perDevice call) ts vss) :
    vss.flatten.length = perDevice * ts.length ∧ Collected (·.recent call) ts vss.flatten := by
  induction h with
  | nil => simp [Collected]
  | @cons t vs ts vss hvs _ ih =>
    obtain ⟨hlength, hsound, hcomplete⟩ := ih
    obtain ⟨hvs, nonce, dummies, rfl, hdummies⟩ := hvs
    refine ⟨?_, fun v hv => ?_, fun t' ht' e he => ?_⟩
    · rw [List.flatten_cons, List.length_append, hlength, hvs, List.length_cons, Nat.mul_succ,
        Nat.add_comm]
    · rw [List.flatten_cons, List.mem_append, List.mem_append] at hv
      rcases hv with (hv | hv) | hv
      · obtain ⟨e, he, rfl⟩ := List.mem_map.mp hv
        exact .inr ⟨t, by simp, e, he, nonce, rfl⟩
      · exact .inl (hdummies v hv)
      · refine (hsound v hv).imp_right fun ⟨t', ht', hrest⟩ => ?_
        exact ⟨t', List.mem_cons_of_mem t ht', hrest⟩
    · rw [List.flatten_cons]
      rcases List.mem_cons.mp ht' with rfl | ht'
      · exact ⟨nonce, by simp only [List.mem_append, List.mem_map]; exact .inl (.inl ⟨e, he, rfl⟩)⟩
      · obtain ⟨nonce', hmem⟩ := hcomplete t' ht' e he
        exact ⟨nonce', List.mem_append_right _ hmem⟩

namespace FlowCall

variable {q : FlowCall} {fetch : Fetch} {sort : List TimedEntry → List TimedEntry}
  {tracks : Given → List Track}

theorem foldl_device_eq {isSource : Bool} (vss : List (List Visit)) (list : List TimedEntry) :
    vss.foldl (q.pass isSource).device list =
      list ++ vss.flatten.map (q.timedEntry isSource) := by
  have hvisit : ∀ (vs : List Visit) (list : List TimedEntry),
      vs.foldl (q.pass isSource).visit list = list ++ vs.map (q.timedEntry isSource) := by
    intro vs
    induction vs with
    | nil => simp
    | cons v vs ih => intro list; rw [List.foldl_cons, ih]; simp [pass]
  induction vss generalizing list with
  | nil => simp
  | cons vs vss ih =>
    rw [List.foldl_cons, ih, Pass.device, hvisit, List.flatten_cons, List.map_append]
    exact List.append_assoc ..

/-- A pass appends one element for every visit. -/
theorem walks_collected {isSource : Bool} {perDevice : Nat} {calls : List ShuffleCall}
    {ts : List Track} {list list' : List TimedEntry}
    (hwalks : Walks perDevice (q.pass isSource) calls ts list list')
    (hstored : ∀ t ∈ ts, t.Stored fetch perDevice calls) :
    ∃ vs, list' = list ++ vs.map (q.timedEntry isSource) ∧
      vs.length = perDevice * ts.length * calls.length ∧ Collected (·.events) ts vs := by
  induction hwalks with
  | @nil ts list =>
    refine ⟨[], by simp, by simp, by simp, fun t ht e he => ?_⟩
    obtain ⟨call, hcall, -⟩ := (hstored t ht).covered e he
    simp at hcall
  | @cons call calls ts vss list list' hvss _ ih =>
    obtain ⟨hlength, hsound, hcomplete⟩ := visits_collected hvss
    obtain ⟨vs, rfl, hlength', hsound', hcomplete'⟩ := ih fun t ht => by
      obtain ⟨t, hmem, rfl⟩ := List.mem_map.mp ht
      exact (hstored t hmem).advance
    refine ⟨vss.flatten ++ vs, ?_, ?_, fun v hv => ?_, fun t ht e he => ?_⟩
    · rw [foldl_device_eq, List.map_append, List.append_assoc]
    · rw [List.length_append, hlength, hlength', List.length_map, List.length_cons, Nat.mul_succ,
        Nat.add_comm]
    · rcases List.mem_append.mp hv with hv | hv
      · refine (hsound v hv).imp_right fun ⟨t, ht, e, he, hrest⟩ => ?_
        exact ⟨t, ht, e, List.mem_of_mem_filter he, hrest⟩
      · refine (hsound' v hv).imp_right fun ⟨_, ht, e, he, hrest⟩ => ?_
        obtain ⟨t, hmem, rfl⟩ := List.mem_map.mp ht
        exact ⟨t, hmem, e, List.mem_of_mem_filter he, hrest⟩
    · by_cases hwithin : Track.within call e = true
      · obtain ⟨nonce, hmem⟩ := hcomplete t ht e (List.mem_filter.mpr ⟨he, hwithin⟩)
        exact ⟨nonce, List.mem_append_left _ hmem⟩
      · obtain ⟨nonce, hmem⟩ := hcomplete' (t.advance call) (List.mem_map_of_mem ht) e
          (List.mem_filter.mpr ⟨he, by simpa using hwithin⟩)
        exact ⟨nonce, List.mem_append_right _ hmem⟩

/-- The element under which an encounter that qualifies is listed. -/
def entryOf (g : Given) (t : Track) (e : Encounter) : TimedEntry :=
  (e.time, ⟨e.encountered, t.device.id, decide (g = .source)⟩)

/-- What the two passes leave behind: inside the window there are the encounters that qualify. -/
structure Listed (q : FlowCall) (tracks : Given → List Track) (list : List TimedEntry) : Prop where
  small : ∀ x ∈ list, Small x.1
  sound : ∀ x ∈ list, q.inTimeRange x.1 = true →
    ∃ g, ∃ t ∈ tracks g, ∃ e ∈ t.events, q.qualifies e = true ∧ x = entryOf g t e
  complete : ∀ g, ∀ t ∈ tracks g, ∀ e ∈ t.events, q.qualifies e = true → entryOf g t e ∈ list

theorem inTimeRange_sinkEndTime (q : FlowCall) : q.inTimeRange q.sinkEndTime = false := by
  have hself : less q.sinkEndTime q.sinkEndTime = false := by simp [less, geq]
  rw [inTimeRange, hself, Bool.and_false]

theorem Relies.inTimeRange_iff (h : q.Relies fetch sort tracks) {time : BitVec 32}
    (hsmall : Small time) : q.inTimeRange time = true ↔
      q.sourceStartTime.toNat < time.toNat ∧ time.toNat < q.sinkEndTime.toNat := by
  rw [inTimeRange, Bool.and_eq_true, less_iff h.window.1 hsmall, less_iff hsmall h.window.2]

theorem Relies.small (h : q.Relies fetch sort tracks) {g : Given} {t : Track} (ht : t ∈ tracks g)
    {e : Encounter} (he : e ∈ t.events) : Small e.time :=
  (h.stored g t ht).small.2 e he

/-- An encounter is listed inside the window if and only if it qualifies. -/
theorem Relies.timedEntry_visitOf (h : q.Relies fetch sort tracks) {g : Given} {t : Track}
    (ht : t ∈ tracks g) {e : Encounter} (he : e ∈ t.events) (nonce : BitVec 256) :
    (q.timedEntry (decide (g = .source)) (visitOf t.device.id nonce e) = entryOf g t e ∨
      (q.timedEntry (decide (g = .source)) (visitOf t.device.id nonce e)).1 = q.sinkEndTime) ∧
    (q.inTimeRange (q.timedEntry (decide (g = .source)) (visitOf t.device.id nonce e)).1 = true ↔
      q.qualifies e = true) := by
  have hlong : geq q.minimumDuration (recordOf e).duration =
      !decide (q.minimumDuration.toNat < e.duration.toNat) := by
    have hiff := geq_iff h.durations.1 (h.durations.2 g t ht e he)
    exact Bool.eq_iff_iff.mpr (hiff.trans (by simp))
  have hqualifies : q.qualifies e = true ↔
      (!geq q.minimumDuration (recordOf e).duration && (recordOf e).isConfirmed) = true ∧
        q.inTimeRange e.time = true := by
    rw [h.inTimeRange_iff (h.small ht he), hlong]
    simp only [qualifies, Bool.not_not, Bool.and_eq_true, decide_eq_true_eq]
    tauto
  by_cases hrecord :
      (!geq q.minimumDuration (recordOf e).duration && (recordOf e).isConfirmed) = true
  · have hentry : q.timedEntry (decide (g = .source)) (visitOf t.device.id nonce e) =
        entryOf g t e := by
      simp only [timedEntry, visitOf, Bool.not_false, Bool.true_and]
      rw [if_pos hrecord]
      rfl
    rw [hentry, hqualifies]
    exact ⟨.inl rfl, by simp [hrecord, entryOf]⟩
  · have htime : (q.timedEntry (decide (g = .source)) (visitOf t.device.id nonce e)).1 =
        q.sinkEndTime := by
      simp only [timedEntry, visitOf, Bool.not_false, Bool.true_and]
      exact if_neg hrecord
    rw [htime, hqualifies, inTimeRange_sinkEndTime]
    exact ⟨.inr rfl, by simp [hrecord]⟩

theorem Relies.listed (h : q.Relies fetch sort tracks) (vs : Given → List Visit)
    (hvs : ∀ g, Collected (·.events) (tracks g) (vs g)) :
    q.Listed tracks ((vs .source).map (q.timedEntry true) ++ (vs .sink).map (q.timedEntry false)) := by
  have hmem : ∀ x, x ∈ (vs .source).map (q.timedEntry true) ++ (vs .sink).map (q.timedEntry false) ↔
      ∃ g, ∃ v ∈ vs g, q.timedEntry (decide (g = .source)) v = x := by
    intro x
    rw [List.mem_append, List.mem_map, List.mem_map]
    constructor
    · rintro (hx | hx)
      · exact ⟨.source, hx⟩
      · exact ⟨.sink, hx⟩
    · rintro ⟨g, hx⟩
      cases g
      · exact .inl hx
      · exact .inr hx
  have hdummy : ∀ b (v : Visit), v.fetchDummy = true → (q.timedEntry b v).1 = q.sinkEndTime := by
    intro b v hv
    simp [timedEntry, hv]
  refine ⟨fun x hx => ?_, fun x hx hin => ?_, fun g t ht e he hqualifies => ?_⟩
  · obtain ⟨g, v, hv, rfl⟩ := (hmem x).mp hx
    rcases (hvs g).1 v hv with hv | ⟨t, ht, e, he, nonce, rfl⟩
    · exact hdummy _ v hv ▸ h.window.2
    · rcases (h.timedEntry_visitOf ht he nonce).1 with heq | heq
      · exact heq ▸ h.small ht he
      · exact heq ▸ h.window.2
  · obtain ⟨g, v, hv, rfl⟩ := (hmem x).mp hx
    rcases (hvs g).1 v hv with hv | ⟨t, ht, e, he, nonce, rfl⟩
    · simp [hdummy _ v hv, inTimeRange_sinkEndTime] at hin
    · obtain ⟨hentry, hiff⟩ := h.timedEntry_visitOf ht he nonce
      refine ⟨g, t, ht, e, he, hiff.mp hin, hentry.resolve_right fun htime => ?_⟩
      simp [htime, inTimeRange_sinkEndTime] at hin
  · obtain ⟨nonce, hv⟩ := (hvs g).2 t ht e he
    obtain ⟨hentry, hiff⟩ := h.timedEntry_visitOf ht he nonce
    refine (hmem _).mpr ⟨g, _, hv, hentry.resolve_right fun htime => ?_⟩
    have hin := hiff.mpr hqualifies
    simp [htime, inTimeRange_sinkEndTime] at hin

/-! ## The walk over sets -/

/-- The devices met by source devices so far, and the sink devices counted so far. -/
structure Seen where
  encountered : Finset (BitVec 256)
  infected : Finset (BitVec 256)

/-- The device met goes into the first set. -/
def learns (q : FlowCall) (x : TimedEntry) : Prop :=
  q.inTimeRange x.1 = true ∧ x.2.isSource = true ∧ x.2.encountered ∉ q.ids .sink ∧
    (q.includeDirectSourceToSinkEdges = true ∨ x.2.encountered ∉ q.ids .source)

/-- The device itself goes into the second set. -/
def infects (q : FlowCall) (s : Seen) (x : TimedEntry) : Prop :=
  q.inTimeRange x.1 = true ∧ x.2.isSource = false ∧ x.2.encountered ∈ s.encountered

instance (q : FlowCall) (x : TimedEntry) : Decidable (q.learns x) :=
  inferInstanceAs (Decidable (_ ∧ _))

instance (q : FlowCall) (s : Seen) (x : TimedEntry) : Decidable (q.infects s x) :=
  inferInstanceAs (Decidable (_ ∧ _))

def see (q : FlowCall) (s : Seen) (x : TimedEntry) : Seen where
  encountered := if q.learns x then insert x.2.encountered s.encountered else s.encountered
  infected := if q.infects s x then insert x.2.device s.infected else s.infected

/-- What the first set starts with. -/
def seenFirst (q : FlowCall) : Seen :=
  ⟨if q.includeDirectSourceToSinkEdges then (q.ids .source).toFinset else ∅, ∅⟩

/-- What has been put into the filters are the sets, the filler apart, and the count is that of the
second. -/
structure Shows (l : Logged) (a : Seen) : Prop where
  met : ∀ v, v ≠ filler → (v ∈ l.met ↔ v ∈ a.encountered)
  infected : ∀ v, v ∈ l.infected ↔ v = filler ∨ v ∈ a.infected
  noFiller : filler ∉ a.infected
  count : l.state.outputCount = BitVec.ofNat 32 a.infected.card

theorem shows_first (q : FlowCall) : Shows q.logStart q.seenFirst := by
  refine ⟨fun v _ => ?_, fun v => ?_, ?_, rfl⟩
  · unfold logStart seenFirst
    split_ifs <;> simp
  · simp [logStart, seenFirst]
  · simp [seenFirst]

section Answers

variable {l : Logged} {x : TimedEntry} {a : Seen} (h : q.AnswersRightly l x)

include h

/-- The value that goes into the first filter. -/
theorem AnswersRightly.metAt_eq : q.metAt x = if q.learns x then x.2.encountered else filler := by
  have hcontains : ∀ g, q.inTimeRange x.1 = true →
      ((q.setFilter g).contains x.2.encountered = true ↔ x.2.encountered ∈ q.ids g) :=
    fun g hin => by simp [h.given hin g]
  unfold metAt
  by_cases hdirect : q.includeDirectSourceToSinkEdges = true
  · rw [if_pos hdirect]
    refine if_congr ?_ rfl rfl
    cases hin : q.inTimeRange x.1
    · simp [learns, hin]
    · simp [learns, hin, hdirect, ← hcontains _ hin]
  · rw [if_neg hdirect]
    refine if_congr ?_ rfl rfl
    cases hin : q.inTimeRange x.1
    · simp [learns, hin]
    · simp only [learns, hin, hdirect, ← hcontains _ hin, Bool.and_true, Bool.and_eq_true]
      simp
      tauto

/-- The value that goes into the second filter. -/
theorem AnswersRightly.infectedAt_eq (hs : Shows l a)
    (hx : q.inTimeRange x.1 = true → x.2.encountered ≠ filler) :
    q.infectedAt (q.logThrough l x).state.encounteredFilter x =
      if q.infects a x then x.2.device else filler := by
  simp only [infectedAt]
  cases hin : q.inTimeRange x.1
  · simp [infects, hin]
  · cases hsource : x.2.isSource
    · have hnot : ¬ q.learns x := fun hl => by simp [hl.2.1] at hsource
      have hmet : x.2.encountered ∈ (q.logThrough l x).met ↔ x.2.encountered ∈ a.encountered := by
        simp [logThrough, h.metAt_eq, hnot, hx hin, hs.met]
      rw [h.met hin]
      simp [infects, hin, hsource, hmet]
    · simp [infects, hsource]

/-- One element does to the filters what it does to the sets. -/
theorem AnswersRightly.shows (hs : Shows l a)
    (hx : q.inTimeRange x.1 = true → x.2.encountered ≠ filler ∧ x.2.device ≠ filler) :
    Shows (q.logThrough l x) (q.see a x) := by
  have hmet := h.metAt_eq
  have hinfected := h.infectedAt_eq hs fun hin => (hx hin).1
  have hanswer := h.infected
  simp only [hinfected] at hanswer
  have hlogged : (q.logThrough l x).infected =
      l.infected ++ [if q.infects a x then x.2.device else filler] :=
    congrArg (fun v => l.infected ++ [v]) hinfected
  have hcount : (q.logThrough l x).state.outputCount =
      if (if q.infects a x then x.2.device else filler) ∈ l.infected then l.state.outputCount
      else l.state.outputCount + 1 := by
    have hstep : (q.logThrough l x).state.outputCount =
        if (l.state.alreadyInfectedFilter.containsAndInsert
          (q.infectedAt (q.logThrough l x).state.encounteredFilter x)).1 then l.state.outputCount
        else l.state.outputCount + 1 := rfl
    rw [hstep, hinfected, hanswer]
    simp only [decide_eq_true_eq]
  refine ⟨fun v hv => ?_, fun v => ?_, ?_, ?_⟩
  · by_cases hl : q.learns x <;> simp [logThrough, see, hmet, hl, hs.met v hv, hv, or_comm]
  · rw [hlogged]
    by_cases hi : q.infects a x <;> simp [see, hi, hs.infected, or_comm, or_left_comm]
  · by_cases hi : q.infects a x
    · simpa [see, hi, hs.noFiller] using Ne.symm (hx hi.1).2
    · simpa [see, hi] using hs.noFiller
  · rw [hcount]
    by_cases hi : q.infects a x
    · by_cases hmem : x.2.device ∈ a.infected
      · simp [see, hi, hs.infected, hmem, hs.count]
      · simp [see, hi, hs.infected, hmem, hs.count, (hx hi.1).2, BitVec.ofNat_add]
    · simp [see, hi, hs.infected, hs.count]

end Answers

/-- Where the filters answer rightly all along, they go with the sets. -/
theorem shows_foldl {list : List TimedEntry} {l : Logged} {a : Seen}
    (hlist : ∀ x ∈ list, q.inTimeRange x.1 = true → x.2.encountered ≠ filler ∧ x.2.device ≠ filler)
    (hexact : ∀ i (hi : i < list.length),
      q.AnswersRightly ((list.take i).foldl q.logThrough l) list[i]) (hs : Shows l a) :
    Shows (list.foldl q.logThrough l) (list.foldl q.see a) := by
  induction list generalizing l a with
  | nil => exact hs
  | cons x list ih =>
    have hfirst : q.AnswersRightly l x := hexact 0 (Nat.zero_lt_succ _)
    exact ih (fun y hy => hlist y (List.mem_cons_of_mem x hy))
      (fun i hi => hexact (i + 1) (Nat.succ_lt_succ hi))
      (hfirst.shows hs (hlist x (List.mem_cons_self ..)))

/-- The log does not change the walk. -/
theorem state_foldl_logThrough (q : FlowCall) (list : List TimedEntry) (l : Logged) :
    (list.foldl q.logThrough l).state = list.foldl q.walkThrough l.state := by
  induction list generalizing l with
  | nil => rfl
  | cons x list ih => exact ih (q.logThrough l x)

/-! ## What the sets hold -/

theorem mem_foldl_encountered (q : FlowCall) (list : List TimedEntry) (a : Seen) (v : BitVec 256) :
    v ∈ (list.foldl q.see a).encountered ↔
      v ∈ a.encountered ∨ ∃ x ∈ list, q.learns x ∧ x.2.encountered = v := by
  induction list generalizing a with
  | nil => simp
  | cons x list ih =>
    rw [List.foldl_cons, ih, List.exists_mem_cons_iff, ← or_assoc]
    refine or_congr_left ?_
    by_cases hl : q.learns x <;> simp [see, hl, or_comm, eq_comm]

/-- Whoever is counted is counted at some element, after which the others come. -/
theorem mem_foldl_infected (q : FlowCall) (list : List TimedEntry) (a : Seen) (v : BitVec 256) :
    v ∈ (list.foldl q.see a).infected ↔ v ∈ a.infected ∨ ∃ before x after,
      list = before ++ x :: after ∧ q.infects (before.foldl q.see a) x ∧ x.2.device = v := by
  induction list generalizing a with
  | nil => simp
  | cons x list ih =>
    rw [List.foldl_cons, ih]
    have hfirst : v ∈ (q.see a x).infected ↔ v ∈ a.infected ∨ (q.infects a x ∧ x.2.device = v) := by
      by_cases hi : q.infects a x <;> simp [see, hi, or_comm, eq_comm]
    rw [hfirst, or_assoc]
    refine or_congr_right ?_
    constructor
    · rintro (hx | ⟨before, y, after, rfl, hy⟩)
      · exact ⟨[], x, list, rfl, hx⟩
      · exact ⟨x :: before, y, after, rfl, hy⟩
    · rintro ⟨before, y, after, hlist, hy⟩
      cases before with
      | nil =>
        obtain ⟨rfl, rfl⟩ := List.cons.inj hlist
        exact .inl hy
      | cons z before =>
        obtain ⟨rfl, rfl⟩ := List.cons.inj hlist
        exact .inr ⟨before, y, after, rfl, hy⟩

theorem Relies.inTimeRange_of_qualifies (h : q.Relies fetch sort tracks) {g : Given} {t : Track}
    (ht : t ∈ tracks g) {e : Encounter} (he : e ∈ t.events) (hqualifies : q.qualifies e = true) :
    q.inTimeRange e.time = true := by
  rw [h.inTimeRange_iff (h.small ht he)]
  simp only [qualifies, Bool.and_eq_true, decide_eq_true_eq] at hqualifies
  exact ⟨hqualifies.1.2, hqualifies.2⟩

/-- At the encounter of a sink device, the device met is in the first set if and only if the
encounter is an exposure: whatever stands before it is earlier. -/
theorem Relies.encountered_iff (h : q.Relies fetch sort tracks) {list : List TimedEntry}
    (hlisted : q.Listed tracks list) (hsorted : list.Pairwise fun a b => a.1.toNat ≤ b.1.toNat)
    {before after : List TimedEntry} {t : Track} (ht : t ∈ tracks .sink) {e : Encounter}
    (he : e ∈ t.events) (hlist : list = before ++ entryOf .sink t e :: after) :
    e.encountered ∈ (before.foldl q.see q.seenFirst).encountered ↔
      q.exposed (tracks .source) e = true := by
  have hfirst : e.encountered ∈ q.seenFirst.encountered ↔
      q.includeDirectSourceToSinkEdges = true ∧ e.encountered ∈ q.ids .source := by
    unfold seenFirst
    split_ifs with hdirect <;> simp [hdirect]
  rw [mem_foldl_encountered, hfirst]
  simp only [exposed, Bool.or_eq_true, Bool.and_eq_true, decide_eq_true_eq, List.any_eq_true,
    Bool.not_eq_true', List.contains_eq_mem, decide_eq_false_iff_not]
  subst hlist
  obtain ⟨-, hafter, hbefore⟩ := List.pairwise_append.mp hsorted
  constructor
  · rintro (hdirect | ⟨y, hy, ⟨hin, hsource, hsink, hdirect⟩, hmet⟩)
    · exact .inr hdirect
    · obtain ⟨g, t', ht', e', he', hqualifies, rfl⟩ :=
        hlisted.sound y (List.mem_append_left _ hy) hin
      have hg : g = .source := by simpa [entryOf] using hsource
      subst hg
      have hle : e'.time.toNat ≤ e.time.toNat := hbefore _ hy (entryOf .sink t e) (by simp)
      simp only [entryOf] at hsink hdirect hmet
      rw [hmet] at hsink hdirect
      have hne : e'.time.toNat ≠ e.time.toNat := fun heq =>
        h.distinct t' ht' t ht e' he' e he (BitVec.eq_of_toNat_eq heq)
      by_cases hids : e.encountered ∈ q.ids .source
      · exact .inr ⟨hdirect.resolve_right fun hnot => hnot hids, hids⟩
      · exact .inl ⟨⟨⟨t', ht', e', he', ⟨hqualifies, hmet⟩, by omega⟩, hids⟩, hsink⟩
  · rintro (⟨⟨⟨t', ht', e', he', ⟨hqualifies, hmet⟩, hlt⟩, hsource⟩, hsink⟩ | hdirect)
    · refine .inr ⟨entryOf .source t' e', ?_, ⟨?_, rfl, ?_, .inr ?_⟩, hmet⟩
      · rcases List.mem_append.mp (hlisted.complete .source t' ht' e' he' hqualifies) with hy | hy
        · exact hy
        · rcases List.mem_cons.mp hy with heq | hy
          · simp [entryOf] at heq
          · have hle : e.time.toNat ≤ e'.time.toNat := (List.pairwise_cons.mp hafter).1 _ hy
            omega
      · exact h.inTimeRange_of_qualifies ht' he' hqualifies
      · simpa only [entryOf, hmet] using hsink
      · simpa only [entryOf, hmet] using hsource
    · exact .inl hdirect

/-- After the walk through a sorted list the second set holds the devices to be counted. -/
theorem Relies.infected_eq (h : q.Relies fetch sort tracks) {list : List TimedEntry}
    (hlisted : q.Listed tracks list) (hsorted : list.Pairwise fun a b => a.1.toNat ≤ b.1.toNat) :
    (list.foldl q.see q.seenFirst).infected = q.reached tracks := by
  ext v
  rw [mem_foldl_infected]
  simp only [reached, List.mem_toFinset, List.mem_map, List.mem_filter, List.any_eq_true,
    Bool.and_eq_true, seenFirst, Finset.notMem_empty, false_or]
  constructor
  · rintro ⟨before, x, after, hlist, ⟨hin, hsink, hmet⟩, rfl⟩
    obtain ⟨g, t, ht, e, he, hqualifies, rfl⟩ := hlisted.sound x (by simp [hlist]) hin
    have hg : g = .sink := by
      cases g
      · simp [entryOf] at hsink
      · rfl
    subst hg
    exact ⟨t, ⟨ht, e, he, hqualifies,
      (h.encountered_iff hlisted hsorted ht he hlist).mp hmet⟩, rfl⟩
  · rintro ⟨t, ⟨ht, e, he, hqualifies, hexposed⟩, rfl⟩
    obtain ⟨before, after, hlist⟩ :=
      List.append_of_mem (hlisted.complete .sink t ht e he hqualifies)
    exact ⟨before, entryOf .sink t e, after, hlist, ⟨h.inTimeRange_of_qualifies ht he hqualifies,
      rfl, (h.encountered_iff hlisted hsorted ht he hlist).mpr hexposed⟩, rfl⟩

theorem Listed.perm {list list' : List TimedEntry} (h : q.Listed tracks list)
    (hperm : list'.Perm list) : q.Listed tracks list' where
  small := fun x hx => h.small x (hperm.mem_iff.mp hx)
  sound := fun x hx => h.sound x (hperm.mem_iff.mp hx)
  complete := fun g t ht e he hqualifies => hperm.mem_iff.mpr (h.complete g t ht e he hqualifies)

/-- Nobody listed inside the window has the filler as id. -/
theorem Relies.listed_ne_filler (h : q.Relies fetch sort tracks) {list : List TimedEntry}
    (hlisted : q.Listed tracks list) : ∀ x ∈ list, q.inTimeRange x.1 = true →
      x.2.encountered ≠ filler ∧ x.2.device ≠ filler := by
  intro x hx hin
  obtain ⟨g, t, ht, e, he, -, rfl⟩ := hlisted.sound x hx hin
  exact ⟨(h.noFiller g t ht).2 e he, (h.noFiller g t ht).1⟩

theorem reached_card_le (q : FlowCall) (tracks : Given → List Track) :
    (q.reached tracks).card ≤ (tracks .sink).length := by
  refine (List.toFinset_card_le _).trans ?_
  rw [List.length_map]
  exact List.length_filter_le ..

theorem Relies.length_tracks (h : q.Relies fetch sort tracks) (g : Given) :
    (tracks g).length = (q.devices g).length := by
  rw [← h.devices g, List.length_map]

/-- The encounter of a device with device `4`. -/
def meeting (id : BitVec 256) (time : BitVec 32) : Encounter :=
  { id := 0, device := id, encountered := 4, latitude := 0, longitude := 0, tile := 0, time := time
    previous := 5, next := 0, duration := 7, confirmed := 1, reciprocated := true }

/-- Source device `2` meets device `4` at time `20`, sink device `3` at time `25`. -/
def meetings : Given → List Track
  | .source => [⟨⟨2, 20⟩, [meeting 2 20], 5⟩]
  | .sink => [⟨⟨3, 25⟩, [meeting 3 25], 5⟩]

def twoMeetings : FlowCall where
  sourceStartTime := 10
  sinkEndTime := 30
  minimumDuration := 3
  devices g := (meetings g).map (·.device)
  shuffles := [⟨0, 10, 0⟩]
  encountersPerDevicePerShuffle := 2
  totalEncountersToWalkThrough := 0
  encounteredFilterNElements := 10
  alreadyInfectedFilterNElements := 0
  includeDirectSourceToSinkEdges := false
  filterType := ⟨8, 1, fun _ => 8⟩

/-! ## Six encounters -/

/-- A device meets another one. -/
def meets (id other : BitVec 256) (time previous : BitVec 32) : Encounter :=
  { meeting id time with encountered := other, previous := previous }

/-- Source device `2` meets five devices, among them device `4` at time `20`. Sink device `3` meets
device `4` at time `25`. -/
def sixMeetings : Given → List Track
  | .source => [⟨⟨2, 24⟩, [meets 2 12 24 22, meets 2 9 22 20, meets 2 4 20 18, meets 2 8 18 16,
      meets 2 5 16 5], 5⟩]
  | .sink => [⟨⟨3, 25⟩, [meets 3 4 25 5], 5⟩]

/-- Four cells for each expected element: not enough to tell all devices from each other. -/
def amongSix : FlowCall where
  sourceStartTime := 10
  sinkEndTime := 30
  minimumDuration := 3
  devices g := (sixMeetings g).map (·.device)
  shuffles := [⟨0, 10, 0⟩]
  encountersPerDevicePerShuffle := 5
  totalEncountersToWalkThrough := 0
  encounteredFilterNElements := 2
  alreadyInfectedFilterNElements := 0
  includeDirectSourceToSinkEdges := false
  filterType := ⟨8, 1, fun n => 4 * n⟩

/-- A store that holds the encounters and dummies. -/
def fetchSix : Fetch := fun _ id time _ fetchDummy =>
  some (if fetchDummy then ⟨0, 0, 0, 0⟩ else
    ((sixMeetings .source ++ sixMeetings .sink).flatMap (·.events)).find?
      (fun e => decide (e.device = id ∧ e.time = time)) |>.elim ⟨0, 0, 0, 0⟩ recordOf)

def sortByTime : List TimedEntry → List TimedEntry :=
  List.insertionSort fun a b => a.1.toNat ≤ b.1.toNat

theorem sortByTime_sorted (list : List TimedEntry) : (sortByTime list).Perm list ∧
    (sortByTime list).Pairwise fun a b => a.1.toNat ≤ b.1.toNat := by
  have htotal : Std.Total fun a b : TimedEntry => a.1.toNat ≤ b.1.toNat :=
    ⟨fun a b => Nat.le_total a.1.toNat b.1.toNat⟩
  have htrans : IsTrans TimedEntry fun a b => a.1.toNat ≤ b.1.toNat :=
    ⟨fun a b c => Nat.le_trans⟩
  exact ⟨List.perm_insertionSort _ _, List.pairwise_insertionSort _ _⟩

theorem amongSix_answers : ∀ list ∈ amongSix.elements fetchSix sortByTime,
    ∀ i : Fin list.length, amongSix.AnswersRightly
      ((list.take i).foldl amongSix.logThrough amongSix.logStart) list[i] := by
  decide +kernel

theorem amongSix_fetched : ∀ g, ∀ t ∈ sixMeetings g, ∀ e ∈ t.events, ∀ shuffle nonce,
    fetchSix shuffle t.device.id e.time nonce false = some (recordOf e) := by
  intro g t ht e he shuffle nonce
  have hall : ∀ g ∈ [Given.source, Given.sink], ∀ t ∈ sixMeetings g, ∀ e ∈ t.events,
      fetchSix 0 t.device.id e.time 0 false = some (recordOf e) := by decide +kernel
  exact hall g (by cases g <;> simp) t ht e he

theorem amongSix_relies : amongSix.Relies fetchSix sortByTime sixMeetings where
  devices g := rfl
  stored g t ht := by
    have hstored : Linked t.last t.device.previous t.events ∧
        t.events.Pairwise (fun a b => b.time.toNat < a.time.toNat) ∧
        (∀ e ∈ t.events, 10 < e.time.toNat ∧ Small e.time) ∧ t.last = 5 ∧ t.events.length ≤ 5 := by
      cases g <;> obtain rfl := List.mem_singleton.mp ht <;>
        simp [Linked, meets, meeting, Circuit.Small]
    obtain ⟨hlinked, hdecreasing, hsmall, hlast, hlength⟩ := hstored
    exact
      { linked := hlinked
        decreasing := hdecreasing
        small := ⟨by simp [hlast, Circuit.Small], fun e he => (hsmall e he).2⟩
        started := by simp [amongSix, hlast, Circuit.Small]
        covered := fun e he => by simpa [amongSix, Track.within] using (hsmall e he).1
        fetched := fun _ _ _ _ e he _ _ => amongSix_fetched g t ht e he _
        dummies := by simp [fetchSix]
        few := fun _ _ _ _ => Nat.le_trans List.countP_le_length (by simpa [amongSix]) }
  distinct := by simp [sixMeetings, meets, meeting]
  window := by decide
  durations := ⟨by decide, fun g => by cases g <;> simp [sixMeetings, meets, meeting, Circuit.Small]⟩
  noFiller g := by cases g <;> simp [sixMeetings, meets, meeting, filler]
  exact list hlist i hi := amongSix_answers list hlist ⟨i, hi⟩
  whole := rfl
  sorted list := ⟨(sortByTime_sorted list).1, fun _ => (sortByTime_sorted list).2⟩

end FlowCall

end CoVault.PathQuery
