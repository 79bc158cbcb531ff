import Colock.Parking.Token

/-! `Parker::park_until` and the waits that were woken: its loop looks at `should_wakeup` only
after a sleep, so a call that begins at its deadline gives up a wake it already has. -/
namespace Colock.Parking
open Transition
variable {P : Type*}

structure Reports (log : List (Event P)) (w : Wait) (result : Bool) : Prop where
  woken : result = true → Woken log w.parker
  timedOut : result = false → (∃ r ∈ w.readings, w.deadline ≤ r) ∧ false ∈ w.moments
  completed : w.moments.head? = some true → result = true

/-- The flag was down when the call began, or the first reading was before the deadline. -/
def InTime (w : Wait) : Prop :=
  w.moments.head? = some false ∨ ∃ r, w.readings.head? = some r ∧ r < w.deadline

def Pc.timed? : Pc P → Option (Nat × Nat)
  | .readClock i deadline | .parkTimeout i deadline | .loadTimed i deadline => some (i, deadline)
  | _ => none

def Pc.looks : Pc P → Bool
  | .readClock _ _ => true
  | _ => false

structure Waiting (s : State P) (p : P) (w : Wait) (i d : Nat) : Prop where
  parker : w.parker = i
  deadline : w.deadline = d
  began : w.moments ≠ []
  steady : w.moments.head? = some true → false ∉ w.moments ∧ s.flag i = true
  ahead : ∀ r ∈ w.readings, r < d
  slept : (s.pc p).looks = false → w.readings ≠ []
  seen : (s.pc p).looks = true → w.readings ≠ [] → false ∈ w.moments

theorem parker?_of_timed? {c : Pc P} {i d : Nat} (h : c.timed? = some (i, d)) :
    c.parker? = some i := by
  cases c <;> simp_all [Pc.timed?, Pc.parker?]

namespace Waiting
variable {s t : State P} {p : P} {w : Wait} {i d : Nat}

theorem head_observe (h : Waiting s p w i d) :
    (w.observe s).moments.head? = w.moments.head? := by
  obtain ⟨b, bs, hbs⟩ := List.exists_cons_of_ne_nil h.began
  simp [hbs]

theorem steady_observe (h : Waiting s p w i d) (hhead : w.moments.head? = some true) :
    false ∉ (w.observe s).moments := by
  obtain ⟨hmoments, hflag⟩ := h.steady hhead
  simp [h.parker, hmoments, hflag]

theorem observe (h : Waiting s p w i d) (hflag : s.flag i = true → t.flag i = true)
    (hslept : (t.pc p).looks = false → w.readings ≠ [])
    (hseen : (t.pc p).looks = true → w.readings ≠ [] → false ∈ w.moments ∨ s.flag i = false) :
    Waiting t p (w.observe s) i d where
  parker := h.parker
  deadline := h.deadline
  began := by simp
  steady hhead := by
    rw [h.head_observe] at hhead
    exact ⟨h.steady_observe hhead, hflag (h.steady hhead).2⟩
  ahead := h.ahead
  slept := hslept
  seen hlooks hread := by
    rcases hseen hlooks hread with hold | hdown
    · simp [hold]
    · simp [h.parker, hdown]

theorem sleeps (h : Waiting s p w i d) (hflag : t.flag = s.flag) (hlooks : (t.pc p).looks = false)
    (hlt : s.now < d) : Waiting t p ((w.observe s).read s.now) i d where
  parker := h.parker
  deadline := h.deadline
  began := by simp
  steady hhead := by
    have hhead' := h.head_observe.symm.trans hhead
    exact ⟨h.steady_observe hhead', hflag ▸ (h.steady hhead').2⟩
  ahead r hr := by
    rcases List.mem_append.mp hr with hr | hr
    · exact h.ahead r hr
    · rwa [List.mem_singleton.mp hr]
  slept _ := by simp
  seen ht := by simp [hlooks] at ht

end Waiting

theorem waiting_begins {s t : State P} {p : P} {i d : Nat} (hflag : t.flag = s.flag)
    (hpc : t.pc p = .readClock i d) : Waiting t p ⟨i, d, [], [s.flag i]⟩ i d where
  parker := rfl
  deadline := rfl
  began := by simp
  steady hhead := by simp_all
  ahead := by simp
  slept hlooks := by simp [hpc, Pc.looks] at hlooks
  seen _ hread := absurd rfl hread

section Ends
variable {s : State P} {p : P} {w : Wait} {i d : Nat} {log : List (Event P)}

theorem reports_timesOut (h : Waiting s p w i d) (hlooks : (s.pc p).looks = true)
    (hle : d ≤ s.now) :
    Reports log ((w.observe s).read s.now) false ↔ InTime ((w.observe s).read s.now) := by
  have hhead : ((w.observe s).read s.now).moments.head? = w.moments.head? := h.head_observe
  have hlate : ∃ r ∈ ((w.observe s).read s.now).readings, w.deadline ≤ r :=
    ⟨s.now, by simp, h.deadline ▸ hle⟩
  constructor
  · intro hreports
    obtain ⟨b, bs, hbs⟩ := List.exists_cons_of_ne_nil h.began
    have hfirst : w.moments.head? = some b := by rw [hbs]; rfl
    cases b with
    | false => exact .inl (hhead.trans hfirst)
    | true => exact absurd (hreports.completed (hhead.trans hfirst)) Bool.false_ne_true
  · rintro (hdown | ⟨r, hr, hlt⟩)
    · refine ⟨by simp, fun _ => ⟨hlate, List.mem_of_mem_head? hdown⟩, fun hup => ?_⟩
      exact absurd (hdown.symm.trans hup) (by simp)
    · have hread : w.readings ≠ [] := by
        intro hnil
        obtain rfl : s.now = r := by simpa [hnil] using hr
        exact absurd (h.deadline ▸ hlt : s.now < d) (by omega)
      have hseen : false ∈ (w.observe s).moments :=
        List.mem_append_left _ (h.seen hlooks hread)
      refine ⟨by simp, fun _ => ⟨hlate, hseen⟩, fun hup => ?_⟩
      exact absurd hseen (h.steady_observe (hhead.symm.trans hup))

theorem reports_timedEnds (h : Waiting s p w i d) (hlooks : (s.pc p).looks = false)
    (hlog : Woken log i) : Reports log (w.observe s) true ↔ InTime (w.observe s) := by
  obtain ⟨r, rs, hrs⟩ := List.exists_cons_of_ne_nil (h.slept hlooks)
  have hfirst : r < w.deadline := h.deadline ▸ h.ahead r (by simp [hrs])
  refine iff_of_true ⟨fun _ => h.parker ▸ hlog, by simp, fun _ => rfl⟩ (.inr ⟨r, ?_, hfirst⟩)
  simp [hrs]

end Ends

def Waits (s : State P × History P) : Prop :=
  ∀ p i d, (s.1.pc p).timed? = some (i, d) → Waiting s.1 p (s.2.wait p) i d

variable [DecidableEq P]

/-- The flag of a parker stays up while its thread is in a call on it. -/
theorem step_keeps_flag {s t : State P} {l : P × Act P} (hs : Sound s) (h : step s l = some t) {p : P}
    {i : Nat} (hp : (s.pc p).parker? = some i) (hi : s.flag i = true) : t.flag i = true := by
  have huse := hs.parks p i hp
  cases step_cases h with
  | newParker q j hpc hj | newTaskParker q j hpc hj =>
    have hij : i ≠ j := by
      rintro rfl
      simp [hj] at huse
    simpa [hij] using hi
  | preparePark q j hpc hj =>
    have hij : i ≠ j := by
      rintro rfl
      rcases hj with hj | hj
      · obtain rfl : p = q := by simpa [huse] using hj
        simp [hpc, Pc.parker?] at hp
      · simp [huse] at hj
    simpa [hij] using hi
  | store q w j =>
    by_cases hij : i = j <;> simp [hij, hi]
  | _ => exact hi

theorem noteWait_of_ne {s : State P} {p q : P} {a : Act P} {wait : P → Wait} (hq : q ≠ p) :
    noteWait s (p, a) wait q = (wait q).observe s := by
  cases a with
  | next => cases hpc : s.pc p <;> simp [noteWait, hpc, hq]
  | _ => simp [noteWait, hq]

theorem waiting_step {s t : State P} {p : P} {a : Act P} {wait : P → Wait}
    (hw : ∀ i d, (s.pc p).timed? = some (i, d) → Waiting s p (wait p) i d)
    (h : step s (p, a) = some t) {i d : Nat} (hp : (t.pc p).timed? = some (i, d)) :
    Waiting t p (noteWait s (p, a) wait p) i d := by
  cases step_cases h with
  | parkUntil p j timeout =>
    obtain ⟨rfl, rfl⟩ : j = i ∧ timeout = d := by simpa [Pc.timed?] using hp
    simpa [noteWait] using waiting_begins (s := s) (t := s.goto p _) rfl (by simp)
  | parkFor p j duration =>
    obtain ⟨rfl, rfl⟩ : j = i ∧ s.now + duration = d := by
      simpa [Pc.timed?] using hp
    simpa [noteWait] using waiting_begins (s := s) (t := s.goto p _) rfl (by simp)
  | timedSleeps p j e hpc hlt =>
    obtain ⟨rfl, rfl⟩ : j = i ∧ e = d := by simpa [Pc.timed?] using hp
    have hold := hw j e (by rw [hpc]; rfl)
    simpa [noteWait, hpc] using hold.sleeps (t := s.goto p (.parkTimeout j e)) rfl
      (by simp [Pc.looks]) hlt
  | timedUnparked p j e hpc | timedSpurious p j e hpc =>
    obtain ⟨rfl, rfl⟩ : j = i ∧ e = d := by simpa [Pc.timed?] using hp
    have hold := hw j e (by rw [hpc]; rfl)
    have hread := hold.slept (by rw [hpc]; rfl)
    simp only [noteWait, hpc]
    exact hold.observe id (fun _ => hread) fun hlooks => by simp [Pc.looks] at hlooks
  | timedAgain p j e hpc hflag =>
    obtain ⟨rfl, rfl⟩ : j = i ∧ e = d := by simpa [Pc.timed?] using hp
    have hold := hw j e (by rw [hpc]; rfl)
    simp only [noteWait, hpc]
    exact hold.observe id (fun hlooks => by simp [Pc.looks] at hlooks) fun _ _ => .inr hflag
  | unparkThread p u | tick p k =>
    have hold := hw i d hp
    exact hold.observe id hold.slept fun hlooks hread => .inl (hold.seen hlooks hread)
  | _ => simp_all [Pc.timed?]

theorem waits_step {s t : State P × History P} {l : P × Act P} (hs : Sound s.1) (hw : Waits s)
    (h : recorded step note s l = some t) : Waits t := by
  obtain ⟨hstep, hnote⟩ := recorded_eq h
  obtain ⟨p, a⟩ := l
  have hwait : t.2.wait = noteWait s.1 (p, a) s.2.wait := by rw [hnote]; rfl
  intro q i d hq
  by_cases hqp : q = p
  · subst hqp
    rw [hwait]
    exact waiting_step (hw q) hstep hq
  · have hpc := step_pc hstep hqp
    rw [hpc] at hq
    have hold := hw q i d hq
    rw [hwait, noteWait_of_ne hqp]
    refine hold.observe (step_keeps_flag hs hstep (parker?_of_timed? hq)) ?_ fun hlooks hread => ?_
    · rw [hpc]
      exact hold.slept
    · rw [hpc] at hlooks
      exact .inl (hold.seen hlooks hread)

theorem event_answered {s : State P} {l : P × Act P} {wait : P → Wait} {p : P} {w : Wait}
    {result : Bool} (h : eventOf s (noteWait s l wait) l = some (.answered p w result)) :
    ∃ i d, s.pc p = .readClock i d ∧ d ≤ s.now ∧ w = ((wait p).observe s).read s.now ∧
        result = false ∨
      s.pc p = .loadTimed i d ∧ s.flag i = true ∧ w = (wait p).observe s ∧ result = true := by
  obtain ⟨q, a⟩ := l
  cases a with
  | next =>
    cases hpc : s.pc q with
    | readClock i d =>
      simp only [eventOf, noteWait, hpc, Option.ite_none_right_eq_some, Option.some.injEq,
        Event.answered.injEq, Function.update_self] at h
      obtain ⟨hle, rfl, rfl, rfl⟩ := h
      exact ⟨i, d, .inl ⟨hpc, by omega, rfl, rfl⟩⟩
    | loadTimed i d =>
      simp only [eventOf, noteWait, hpc, Option.ite_none_right_eq_some, Option.some.injEq,
        Event.answered.injEq] at h
      obtain ⟨hflag, rfl, rfl, rfl⟩ := h
      exact ⟨i, d, .inr ⟨hpc, hflag, rfl, rfl⟩⟩
    | _ => simp [eventOf, hpc] at h
  | _ => simp [eventOf] at h

/-- Whoever leaves `park_until` does so by one of its two exits, and its answer is logged. -/
theorem park_until_exit {s t : State P} {p : P} {a : Act P} {i d : Nat}
    (h : step s (p, a) = some t) (hp : (s.pc p).timed? = some (i, d))
    (ht : (t.pc p).timed? ≠ some (i, d)) :
    t.pc p = .out ∧ ∃ result, (s.pc p = if result then .loadTimed i d else .readClock i d) ∧
      ∀ wait, eventOf s wait (p, a) = some (.answered p (wait p) result) := by
  cases step_cases h with
  | timesOut p j e hpc hle =>
    obtain ⟨rfl, rfl⟩ : j = i ∧ e = d := by simpa [hpc, Pc.timed?] using hp
    exact ⟨by simp, false, hpc, fun wait => by simp [eventOf, hpc, Nat.sub_eq_zero_of_le hle]⟩
  | timedEnds p j e hpc hflag =>
    obtain ⟨rfl, rfl⟩ : j = i ∧ e = d := by simpa [hpc, Pc.timed?] using hp
    exact ⟨by simp, true, hpc, fun wait => by simp [eventOf, hpc, hflag]⟩
  | _ => simp_all [Pc.timed?]

structure Timely (s : State P × History P) : Prop where
  logged : Logged s
  waits : Waits s
  answered : ∀ post pre p w result, s.2.log = post ++ .answered p w result :: pre →
    (Reports pre w result ↔ InTime w)

theorem Timely.step {s t : State P × History P} {l : P × Act P} (hs : Timely s)
    (h : recorded step note s l = some t) : Timely t := by
  obtain ⟨-, hnote⟩ := recorded_eq h
  refine ⟨hs.logged.step h, waits_step hs.logged.sound hs.waits h, ?_⟩
  intro post pre p w result hlog
  rw [hnote] at hlog
  rcases note_split hlog with ⟨rfl, he⟩ | ⟨post', hold⟩
  · obtain ⟨i, d, ⟨hpc, hle, rfl, rfl⟩ | ⟨hpc, hflag, rfl, rfl⟩⟩ := event_answered he
    · exact reports_timesOut (hs.waits p i d (by rw [hpc]; rfl)) (by rw [hpc]; rfl) hle
    · exact reports_timedEnds (hs.waits p i d (by rw [hpc]; rfl)) (by rw [hpc]; rfl)
        (hs.logged.flag i hflag)
  · exact hs.answered post' pre p w result hold

omit [DecidableEq P] in
theorem timely_start : Timely (start : State P × History P) where
  logged := logged_start
  waits p i d hp := by simp [start, init, Pc.timed?] at hp
  answered := by simp [start, History.empty]

theorem reach_timely {s : State P × History P}
    (h : Reach (recorded step note) anyStep start s) : Timely s :=
  h.invariant timely_start fun _ _ _ hs _ ht => hs.step ht

theorem logs_answer {s u : State P × History P} {p : P} {i d : Nat} {l : P × Act P}
    (hp : (s.1.pc p).timed? = some (i, d)) (h : recorded step note s l = some u)
    (hu : (u.1.pc p).timed? ≠ some (i, d)) :
    ∃ result, (s.1.pc p = if result then .loadTimed i d else .readClock i d) ∧
      u.2.log = .answered p (u.2.wait p) result :: s.2.log := by
  obtain ⟨hstep, hnote⟩ := recorded_eq h
  obtain ⟨q, a⟩ := l
  by_cases hpq : p = q
  · subst q
    obtain ⟨-, result, hexit, hevent⟩ := park_until_exit hstep hp hu
    refine ⟨result, hexit, ?_⟩
    rw [hnote]
    simp [note, hevent]
  · rw [step_pc hstep hpq] at hu
    exact absurd hp hu

/-- `park_until` reports a wake as it should exactly when the flag was down as the call began
or the first reading was before the deadline; and no call ends without a report, of a wake when
it leaves by its look at the flag and of a timeout when it leaves by a reading of the clock. -/
theorem park_until_reports_iff {s : State P × History P}
    (h : Reach (recorded step note) anyStep start s) :
    (∀ post pre p w result, s.2.log = post ++ .answered p w result :: pre →
      (Reports pre w result ↔ InTime w)) ∧
    ∀ p i d, (s.1.pc p).timed? = some (i, d) → ∀ l u, recorded step note s l = some u →
      (u.1.pc p).timed? ≠ some (i, d) →
      ∃ result, (s.1.pc p = if result then .loadTimed i d else .readClock i d) ∧
        u.2.log = .answered p (u.2.wait p) result :: s.2.log :=
  ⟨(reach_timely h).answered, fun _ _ _ hp _ _ hu => logs_answer hp hu⟩

/-- The flag is looked at once, and stored between that and the last reading. -/
def wokenLate : List (Bool × Act Bool) :=
  [(false, .newParker 0), (false, .waker 0), (false, .parkUntil 0 5), (false, .next),
    (false, .tick 6), (false, .spurious), (false, .next),
    (true, .wake ⟨some 0, .thread false⟩), (true, .next), (false, .next)]

theorem park_until_reports_iff_wokenLate : ∃ s : State Bool × History Bool,
    Reach (recorded step note) anyStep start s ∧
      s.2.log =
        [.answered false ⟨0, 5, [0, 6], List.replicate 7 false ++ [true]⟩ false, .stored 0] ∧
      ∀ post pre p w result, s.2.log = post ++ .answered p w result :: pre →
        (Reports pre w result ↔ InTime w) := by
  have hrun : Reach (recorded step note) anyStep start _ :=
    run_reach (meets_any _ wokenLate) rfl
  exact ⟨_, hrun, rfl, (park_until_reports_iff hrun).1⟩

def wokenBefore : List (Bool × Act Bool) :=
  [(false, .newParker 0), (false, .preparePark 0), (false, .waker 0),
    (true, .wake ⟨some 0, .thread false⟩), (true, .next), (true, .next),
    (false, .tick 5), (false, .parkFor 0 0), (false, .next)]

theorem park_until_drops_wake : ∃ s : State Bool × History Bool,
    Reach (recorded step note) anyStep start s ∧
      s.2.log = [.answered false ⟨0, 5, [5], [true, true]⟩ false, .stored 0, .prepared 0] ∧
      ¬ Reports ([.stored 0, .prepared 0] : List (Event Bool)) ⟨0, 5, [5], [true, true]⟩ false := by
  have hrun : Reach (recorded step note) anyStep start _ :=
    run_reach (meets_any _ wokenBefore) rfl
  refine ⟨_, hrun, rfl, fun hreports => ?_⟩
  exact absurd (hreports.timedOut rfl).2 (by decide)

end Colock.Parking
