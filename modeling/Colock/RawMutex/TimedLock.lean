import Colock.RawMutex.Exclusion

/-! `try_lock_for` and `try_lock_until` with the clock that `lock_inner` reads: each wait of a
timed call asks its `Timeout` for an instant, and `park_until` compares that one with the
clock before it sleeps. -/
namespace Colock.TimedLock
open Transition RawMutex
variable {P : Type*} [DecidableEq P]

inductive Timeout
  | duration (d : Nat)
  | instant (deadline : Nat)
  deriving DecidableEq

/-- `to_instant` at a reading of the clock. -/
def Timeout.toInstant (now : Nat) : Timeout → Nat
  | .duration d => now + d
  | .instant deadline => deadline

def Timeout.isDuration : Timeout → Bool
  | .duration _ => true
  | .instant _ => false

/-- The loop of `park_until`: about to read the clock, or asleep in `park_timeout`. -/
inductive Wait
  | outside
  | look (deadline : Nat)
  | asleep (deadline : Nat)
  deriving DecidableEq

def Wait.deadline : Wait → Option Nat
  | .outside => none
  | .look deadline | .asleep deadline => some deadline

structure State (P : Type*) where
  raw : RawMutex.State P
  now : Nat
  timeout : P → Timeout
  wait : P → Wait

def init : State P := ⟨RawMutex.init, 0, fun _ => .instant 0, fun _ => .outside⟩

inductive Act (P : Type*)
  | tick (k : Nat)
  | tryLockFor (p : P) (d : Nat)
  | tryLockUntil (p : P) (deadline : Nat)
  | raw (p : P) (a : RawMutex.Act)
  deriving DecidableEq

def shouldWakeup (s : RawMutex.State P) (p : P) : Bool := (s.node p).any s.flag

def State.startTimed (s : State P) (p : P) (timeout : Timeout) : Option (State P) :=
  (RawMutex.step s.raw (p, .start (.lockInner true))).map fun raw =>
    { s with raw, timeout := Function.update s.timeout p timeout }

def State.leaveWait (s : State P) (p : P) (a : RawMutex.Act) : Option (State P) :=
  (RawMutex.step s.raw (p, a)).map fun raw =>
    { s with raw, wait := Function.update s.wait p .outside }

def State.setWait (s : State P) (p : P) (w : Wait) : State P :=
  { s with wait := Function.update s.wait p w }

/-- `parker.park_until(timeout.to_instant())`. The flag is read only after a sleep, which may
be over at any moment. -/
def parkUntil (s : State P) (p : P) : Option (State P) :=
  match s.wait p with
  | .outside => some (s.setWait p (.look ((s.timeout p).toInstant s.now)))
  | .look deadline =>
    if deadline ≤ s.now then s.leaveWait p .timeout else some (s.setWait p (.asleep deadline))
  | .asleep deadline =>
    if shouldWakeup s.raw p then s.leaveWait p .next else some (s.setWait p (.look deadline))

def step (s : State P) : Act P → Option (State P)
  | .tick k => some { s with now := s.now + k }
  | .tryLockFor p d => s.startTimed p (.duration d)
  | .tryLockUntil p deadline => s.startTimed p (.instant deadline)
  | .raw p a =>
    if a = .next ∧ s.raw.pc p = .park true then parkUntil s p
    else if a = .timeout ∨ a = .start (.lockInner true) then none
    else (RawMutex.step s.raw (p, a)).map fun raw => { s with raw }

/-- What the running timed call of a party has done: the readings its waits began at, the
deadlines they got, and the readings it went to sleep at. -/
structure Waits (P : Type*) where
  readings : P → List Nat
  deadlines : P → List Nat
  slept : P → List Nat

def blank : Waits P := ⟨fun _ => [], fun _ => [], fun _ => []⟩

def Waits.clear (h : Waits P) (p : P) : Waits P :=
  ⟨Function.update h.readings p [], Function.update h.deadlines p [],
    Function.update h.slept p []⟩

def noteWait (s : State P) (l : Act P) (h : Waits P) : Waits P :=
  match l with
  | .tick _ => h
  | .tryLockFor p _ | .tryLockUntil p _ => h.clear p
  | .raw p a =>
    if a = .next ∧ s.raw.pc p = .park true then
      match s.wait p with
      | .outside =>
        { h with
          readings := Function.update h.readings p (s.now :: h.readings p)
          deadlines :=
            Function.update h.deadlines p ((s.timeout p).toInstant s.now :: h.deadlines p) }
      | .look deadline =>
        if deadline ≤ s.now then h
        else { h with slept := Function.update h.slept p (s.now :: h.slept p) }
      | .asleep _ => h
    else h

/-- Each timed call waits against one deadline and sleeps only before it. -/
def OneDeadline (h : Waits P) : Prop :=
  ∀ p, ∃ deadline, (∀ x ∈ h.deadlines p, x = deadline) ∧ ∀ r ∈ h.slept p, r < deadline

/-- When a call of `try_lock_for` waits again, the clock still shows what it showed at the
earlier waits of the call. -/
def ClockStands (s : State P × Waits P) : Act P → Prop
  | .raw p .next =>
    s.1.raw.pc p = .park true → s.1.wait p = .outside → (s.1.timeout p).isDuration = true →
      ∀ r ∈ s.2.readings p, r = s.1.now
  | _ => True

inductive StepOf (s : State P) : Act P → State P → Prop
  | tick (k : Nat) : StepOf s (.tick k) { s with now := s.now + k }
  | tryLockFor (p : P) (d : Nat) (raw : RawMutex.State P)
      (h : RawMutex.step s.raw (p, .start (.lockInner true)) = some raw) :
      StepOf s (.tryLockFor p d)
        { s with raw, timeout := Function.update s.timeout p (.duration d) }
  | tryLockUntil (p : P) (deadline : Nat) (raw : RawMutex.State P)
      (h : RawMutex.step s.raw (p, .start (.lockInner true)) = some raw) :
      StepOf s (.tryLockUntil p deadline)
        { s with raw, timeout := Function.update s.timeout p (.instant deadline) }
  | begins (p : P) (hpc : s.raw.pc p = .park true) (hwait : s.wait p = .outside) :
      StepOf s (.raw p .next) (s.setWait p (.look ((s.timeout p).toInstant s.now)))
  | timesOut (p : P) (deadline : Nat) (raw : RawMutex.State P) (hpc : s.raw.pc p = .park true)
      (hwait : s.wait p = .look deadline) (hle : deadline ≤ s.now)
      (h : RawMutex.step s.raw (p, .timeout) = some raw) :
      StepOf s (.raw p .next) { s with raw, wait := Function.update s.wait p .outside }
  | sleeps (p : P) (deadline : Nat) (hpc : s.raw.pc p = .park true)
      (hwait : s.wait p = .look deadline) (hlt : s.now < deadline) :
      StepOf s (.raw p .next) (s.setWait p (.asleep deadline))
  | wakes (p : P) (deadline : Nat) (raw : RawMutex.State P) (hpc : s.raw.pc p = .park true)
      (hwait : s.wait p = .asleep deadline) (hflag : shouldWakeup s.raw p = true)
      (h : RawMutex.step s.raw (p, .next) = some raw) :
      StepOf s (.raw p .next) { s with raw, wait := Function.update s.wait p .outside }
  | looksAgain (p : P) (deadline : Nat) (hpc : s.raw.pc p = .park true)
      (hwait : s.wait p = .asleep deadline) (hflag : shouldWakeup s.raw p = false) :
      StepOf s (.raw p .next) (s.setWait p (.look deadline))
  | raw (p : P) (a : RawMutex.Act) (raw : RawMutex.State P)
      (hpc : ¬ (a = .next ∧ s.raw.pc p = .park true)) (ha : a ≠ .timeout)
      (h : RawMutex.step s.raw (p, a) = some raw) : StepOf s (.raw p a) { s with raw }

theorem step_cases {s t : State P} {l : Act P} (h : step s l = some t) : StepOf s l t := by
  cases l with
  | tick k => exact Option.some.inj h ▸ .tick k
  | tryLockFor p d =>
    obtain ⟨raw, hraw, rfl⟩ := Option.map_eq_some_iff.mp h
    exact .tryLockFor p d raw hraw
  | tryLockUntil p deadline =>
    obtain ⟨raw, hraw, rfl⟩ := Option.map_eq_some_iff.mp h
    exact .tryLockUntil p deadline raw hraw
  | raw p a =>
    simp only [step] at h
    split at h
    · next hp =>
      obtain ⟨rfl, hpc⟩ := hp
      cases hwait : s.wait p with
      | outside =>
        simp only [parkUntil, hwait, Option.some.injEq] at h
        exact h ▸ .begins p hpc hwait
      | look deadline =>
        simp only [parkUntil, hwait] at h
        split at h
        · next hle =>
          obtain ⟨raw, hraw, rfl⟩ := Option.map_eq_some_iff.mp h
          exact .timesOut p deadline raw hpc hwait hle hraw
        · next hlt => exact Option.some.inj h ▸ .sleeps p deadline hpc hwait (by omega)
      | asleep deadline =>
        simp only [parkUntil, hwait] at h
        split at h
        · next hflag =>
          obtain ⟨raw, hraw, rfl⟩ := Option.map_eq_some_iff.mp h
          exact .wakes p deadline raw hpc hwait hflag hraw
        · next hflag =>
          exact Option.some.inj h ▸ .looksAgain p deadline hpc hwait (by simpa using hflag)
    · next hpc =>
      split at h
      · cases h
      · next ha =>
        obtain ⟨raw, hraw, rfl⟩ := Option.map_eq_some_iff.mp h
        exact .raw p a raw hpc (fun hto => ha (.inl hto)) hraw

/-- What a step does to the mutex is a step of the mutex, or nothing: every run here is a run of
`RawMutex`. -/
theorem raw_reach {s : State P} (h : Reach step anyStep init s) :
    Reach RawMutex.step anyStep RawMutex.init s.raw := by
  refine h.simulate State.raw (I := fun _ => True) trivial (fun _ _ _ _ _ _ => trivial) ?_
  intro s l t _ _ hstep
  cases step_cases hstep with
  | tick k => exact .refl
  | begins p => exact .refl
  | sleeps p => exact .refl
  | looksAgain p => exact .refl
  | tryLockFor p d raw hraw => exact .single trivial hraw
  | tryLockUntil p deadline raw hraw => exact .single trivial hraw
  | timesOut p deadline raw hpc hwait hle hraw => exact .single trivial hraw
  | wakes p deadline raw hpc hwait hflag hraw => exact .single trivial hraw
  | raw p a raw hpc ha hraw => exact .single trivial hraw

structure Timed (pc : Pc P) (w : Wait) (timeout : Timeout)
    (readings deadlines slept : List Nat) : Prop where
  parked : w ≠ .outside → pc = .park true
  current : ∀ deadline, w.deadline = some deadline → deadline ∈ deadlines
  computed : deadlines = readings.map fun now => timeout.toInstant now
  same : ∀ x ∈ deadlines, ∀ y ∈ deadlines, x = y
  slept : ∀ r ∈ slept, ∃ x ∈ deadlines, r < x

def AllTimed (s : State P × Waits P) : Prop :=
  ∀ p, Timed (s.1.raw.pc p) (s.1.wait p) (s.1.timeout p) (s.2.readings p) (s.2.deadlines p)
    (s.2.slept p)

section timed
omit [DecidableEq P]
variable {pc : Pc P} {w : Wait} {timeout : Timeout} {readings deadlines slept : List Nat}

theorem Timed.fresh (pc : Pc P) (timeout : Timeout) : Timed pc .outside timeout [] [] [] := by
  constructor <;> simp [Wait.deadline]

theorem Timed.leave (h : Timed pc w timeout readings deadlines slept) (pc' : Pc P) :
    Timed pc' .outside timeout readings deadlines slept :=
  { h with parked := fun hw => absurd rfl hw, current := by simp [Wait.deadline] }

theorem Timed.begins {now : Nat} (h : Timed pc w timeout readings deadlines slept)
    (hpc : pc = .park true) (hstands : timeout.isDuration = true → ∀ r ∈ readings, r = now) :
    Timed pc (.look (timeout.toInstant now)) timeout (now :: readings)
      (timeout.toInstant now :: deadlines) slept := by
  have hagain : ∀ x ∈ deadlines, x = timeout.toInstant now := by
    intro x hx
    rw [h.computed] at hx
    obtain ⟨r, hr, rfl⟩ := List.mem_map.mp hx
    cases timeout with
    | duration d => rw [hstands rfl r hr]
    | instant deadline => rfl
  refine ⟨fun _ => hpc, ?_, by simp [← h.computed], ?_, ?_⟩
  · intro deadline hd
    cases hd
    exact List.mem_cons_self
  · intro x hx y hy
    have heq : ∀ z ∈ timeout.toInstant now :: deadlines, z = timeout.toInstant now := by
      simpa using hagain
    rw [heq x hx, heq y hy]
  · intro r hr
    obtain ⟨x, hx, hlt⟩ := h.slept r hr
    exact ⟨x, List.mem_cons_of_mem _ hx, hlt⟩

theorem Timed.sleeps {now deadline : Nat}
    (h : Timed pc (.look deadline) timeout readings deadlines slept) (hlt : now < deadline) :
    Timed pc (.asleep deadline) timeout readings deadlines (now :: slept) := by
  refine { h with parked := fun _ => h.parked (by simp), current := h.current, slept := ?_ }
  intro r hr
  rcases List.mem_cons.mp hr with rfl | hr
  · exact ⟨deadline, h.current deadline rfl, hlt⟩
  · exact h.slept r hr

theorem Timed.looksAgain {deadline : Nat}
    (h : Timed pc (.asleep deadline) timeout readings deadlines slept) :
    Timed pc (.look deadline) timeout readings deadlines slept :=
  { h with parked := fun _ => h.parked (by simp), current := h.current }

theorem allTimed_init : AllTimed ((init : State P), blank) := fun _ => .fresh _ _

theorem AllTimed.oneDeadline {s : State P × Waits P} (hs : AllTimed s) : OneDeadline s.2 := by
  intro p
  cases hd : s.2.deadlines p with
  | nil =>
    refine ⟨0, by simp, fun r hr => ?_⟩
    obtain ⟨x, hx, -⟩ := (hs p).slept r hr
    simp [hd] at hx
  | cons deadline rest =>
    have hmem : deadline ∈ s.2.deadlines p := hd ▸ List.mem_cons_self
    have heq : ∀ x ∈ s.2.deadlines p, x = deadline := fun x hx => (hs p).same x hx _ hmem
    refine ⟨deadline, hd ▸ heq, fun r hr => ?_⟩
    obtain ⟨x, hx, hlt⟩ := (hs p).slept r hr
    rwa [heq x hx] at hlt

theorem AllTimed.of_idle {s : State P × Waits P} (hs : AllTimed s) {p : P}
    (hpc : s.1.raw.pc p = .idle) : s.1.wait p = .outside := by
  by_contra hw
  have hpark := (hs p).parked hw
  simp [hpc] at hpark

end timed

theorem AllTimed.start {s : State P × Waits P} (hs : AllTimed s) {p : P} {a : RawMutex.Act}
    {raw : RawMutex.State P} (timeout : Timeout) (hpc : s.1.raw.pc p = .idle)
    (hraw : RawMutex.step s.1.raw (p, a) = some raw) :
    AllTimed ({ s.1 with raw, timeout := Function.update s.1.timeout p timeout }, s.2.clear p) := by
  intro q
  by_cases hq : q = p
  · subst q
    simpa [Waits.clear, hs.of_idle hpc] using Timed.fresh (raw.pc p) timeout
  · simpa [Waits.clear, hq, step_others hraw hq] using hs q

theorem AllTimed.leaveWait {s : State P × Waits P} (hs : AllTimed s) {p : P} {a : RawMutex.Act}
    {raw : RawMutex.State P} (hraw : RawMutex.step s.1.raw (p, a) = some raw) :
    AllTimed ({ s.1 with raw, wait := Function.update s.1.wait p .outside }, s.2) := by
  intro q
  by_cases hq : q = p
  · subst q
    simpa using (hs p).leave (raw.pc p)
  · simpa [hq, step_others hraw hq] using hs q

theorem allTimed_step {s t : State P} {h : Waits P} {l : Act P} (hs : AllTimed (s, h))
    (hok : ClockStands (s, h) l) (hstep : step s l = some t) :
    AllTimed (t, noteWait s l h) := by
  cases step_cases hstep with
  | tick k => exact hs
  | tryLockFor p d raw hraw =>
    cases RawMutex.step_cases hraw with
    | start c hpc => exact hs.start (.duration d) hpc hraw
  | tryLockUntil p deadline raw hraw =>
    cases RawMutex.step_cases hraw with
    | start c hpc => exact hs.start (.instant deadline) hpc hraw
  | begins p hpc hwait =>
    intro q
    simp only [noteWait, hpc, hwait, and_self, if_true, State.setWait]
    by_cases hq : q = p
    · subst q
      simpa using (hs p).begins hpc (hok hpc hwait)
    · simpa [hq] using hs q
  | timesOut p deadline raw hpc hwait hle hraw =>
    simpa [noteWait, hpc, hwait, hle] using hs.leaveWait hraw
  | wakes p deadline raw hpc hwait hflag hraw =>
    simpa [noteWait, hpc, hwait] using hs.leaveWait hraw
  | sleeps p deadline hpc hwait hlt =>
    intro q
    have hnot : ¬ deadline ≤ s.now := by omega
    simp only [noteWait, hpc, hwait, hnot, and_self, if_true, if_false, State.setWait]
    by_cases hq : q = p
    · subst q
      have hp := hs p
      simp only [hwait] at hp
      simpa using hp.sleeps hlt
    · simpa [hq] using hs q
  | looksAgain p deadline hpc hwait hflag =>
    intro q
    simp only [noteWait, hpc, hwait, and_self, if_true, State.setWait]
    by_cases hq : q = p
    · subst q
      have hp := hs p
      simp only [hwait] at hp
      simpa using hp.looksAgain
    · simpa [hq] using hs q
  | raw p a raw hpc ha hraw =>
    intro q
    simp only [noteWait, hpc, if_false]
    by_cases hq : q = p
    · subst q
      have hwait : s.wait p = .outside := by
        by_contra hw
        have hpark : s.raw.pc p = .park true := (hs p).parked hw
        cases a with
        | next => exact hpc ⟨rfl, hpark⟩
        | timeout => exact ha rfl
        | _ => simp [RawMutex.step, hpark] at hraw
      have hp := (hs p).leave (raw.pc p)
      rwa [← hwait] at hp
    · simpa [step_others hraw hq] using hs q

theorem deadlines_begins {s : State P} {p : P} (h : Waits P) (hpc : s.raw.pc p = .park true)
    (hwait : s.wait p = .outside) : (noteWait s (.raw p .next) h).deadlines p =
      (s.timeout p).toInstant s.now :: h.deadlines p := by
  simp [noteWait, hpc, hwait]

theorem AllTimed.stands_of {s : State P} {h : Waits P} {l : Act P} (hs : AllTimed (s, h))
    (hone : OneDeadline (noteWait s l h)) : ClockStands (s, h) l := by
  cases l with
  | raw p a =>
    cases a with
    | next =>
      intro (hpc : s.raw.pc p = .park true) (hwait : s.wait p = .outside) hduration r hr
      obtain ⟨deadline, hall, -⟩ := hone p
      rw [deadlines_begins h hpc hwait, List.forall_mem_cons] at hall
      cases htimeout : s.timeout p with
      | duration d =>
        have hold : r + d ∈ h.deadlines p := by
          rw [(hs p).computed]
          exact List.mem_map.mpr ⟨r, hr, by simp [htimeout, Timeout.toInstant]⟩
        have hnew := hall.1
        have hsame := hall.2 _ hold
        simp only [htimeout, Timeout.toInstant] at hnew
        change r = s.now
        omega
      | instant deadline => simp [htimeout, Timeout.isDuration] at hduration
    | _ => trivial
  | _ => trivial

/-! ### `try_lock_until` of the same deadline -/

/-- The same state, had the running timed call of `p` been given `timeout`. -/
def State.retime (s : State P) (p : P) (timeout : Timeout) : State P :=
  { s with timeout := Function.update s.timeout p timeout }

def Act.starts (p : P) : Act P → Bool
  | .tryLockFor q _ | .tryLockUntil q _ => q = p
  | _ => false

@[simp] theorem retime_fields (s : State P) (p : P) (timeout : Timeout) :
    (s.retime p timeout).raw = s.raw ∧ (s.retime p timeout).now = s.now ∧
      (s.retime p timeout).timeout = Function.update s.timeout p timeout ∧
      (s.retime p timeout).wait = s.wait :=
  ⟨rfl, rfl, rfl, rfl⟩

theorem leaveWait_retime (s : State P) (p q : P) (timeout : Timeout) (a : RawMutex.Act) :
    (s.retime p timeout).leaveWait q a = (s.leaveWait q a).map fun t => t.retime p timeout := by
  simp [State.leaveWait, State.retime, Option.map_map, Function.comp_def]

theorem setWait_retime (s : State P) (p q : P) (timeout : Timeout) (w : Wait) :
    (s.retime p timeout).setWait q w = (s.setWait q w).retime p timeout := rfl

theorem parkUntil_retime {s : State P} {p q : P} {timeout : Timeout}
    (hbegins : q = p → s.wait p = .outside →
      timeout.toInstant s.now = (s.timeout p).toInstant s.now) :
    parkUntil (s.retime p timeout) q = (parkUntil s q).map fun t => t.retime p timeout := by
  cases hwait : s.wait q with
  | outside =>
    have hsame : (Function.update s.timeout p timeout q).toInstant s.now =
        (s.timeout q).toInstant s.now := by
      by_cases hq : q = p
      · subst q
        simpa using hbegins rfl hwait
      · simp [hq]
    simp only [parkUntil, retime_fields, hwait, hsame, setWait_retime, Option.map_some]
  | look deadline =>
    simp only [parkUntil, retime_fields, hwait, leaveWait_retime, setWait_retime]
    split <;> rfl
  | asleep deadline =>
    simp only [parkUntil, retime_fields, hwait, leaveWait_retime, setWait_retime]
    split <;> rfl

theorem step_retime {s : State P} {p : P} {timeout : Timeout} {l : Act P}
    (hl : l.starts p = false)
    (hbegins : l = .raw p .next → s.raw.pc p = .park true → s.wait p = .outside →
      timeout.toInstant s.now = (s.timeout p).toInstant s.now) :
    step (s.retime p timeout) l = (step s l).map fun t => t.retime p timeout := by
  cases l with
  | tick k => rfl
  | tryLockFor q d | tryLockUntil q deadline =>
    have hq : p ≠ q := by simpa [Act.starts, eq_comm] using hl
    simp [step, State.startTimed, State.retime, Option.map_map, Function.comp_def,
      Function.update_comm hq]
  | raw q a =>
    by_cases hpark : a = .next ∧ s.raw.pc q = .park true
    · simp only [step, retime_fields, if_pos hpark]
      obtain ⟨rfl, hpc⟩ := hpark
      exact parkUntil_retime fun hq hwait => hbegins (by rw [hq]) (hq ▸ hpc) hwait
    · simp only [step, retime_fields, if_neg hpark]
      split
      · rfl
      · simp [State.retime, Option.map_map, Function.comp_def]

theorem mem_deadlines_note (s : State P) {p : P} {l : Act P} (h : Waits P)
    (hl : l.starts p = false) {deadline : Nat} (hd : deadline ∈ h.deadlines p) :
    deadline ∈ (noteWait s l h).deadlines p := by
  cases l with
  | tick k => exact hd
  | tryLockFor q d | tryLockUntil q d =>
    have hq : p ≠ q := by simpa [Act.starts, eq_comm] using hl
    simpa [noteWait, Waits.clear, hq] using hd
  | raw q a =>
    simp only [noteWait]
    split
    · split
      · by_cases hq : p = q
        · subst q
          simp [hd]
        · simpa [hq] using hd
      · split <;> exact hd
      · exact hd
    · exact hd

theorem mem_deadlines_run {x y : State P × Waits P} {p : P} {ls : List (Act P)}
    (hls : ∀ l ∈ ls, l.starts p = false) (h : run (recorded step noteWait) x ls = some y)
    {deadline : Nat} (hd : deadline ∈ x.2.deadlines p) : deadline ∈ y.2.deadlines p := by
  induction ls generalizing x with
  | nil =>
    cases h
    exact hd
  | cons l ls ih =>
    obtain ⟨z, hz, h⟩ := Option.bind_eq_some_iff.mp h
    obtain ⟨-, hnote⟩ := recorded_eq hz
    refine ih (fun m hm => hls m (List.mem_cons_of_mem _ hm)) h ?_
    rw [hnote]
    exact mem_deadlines_note x.1 x.2 (hls l List.mem_cons_self) hd

/-- A call whose deadlines are all equal runs as one that was given that instant. -/
theorem run_retime {x y : State P × Waits P} {p : P} {ls : List (Act P)} {deadline : Nat}
    (hls : ∀ l ∈ ls, l.starts p = false) (h : run (recorded step noteWait) x ls = some y)
    (hd : ∀ z ∈ y.2.deadlines p, z = deadline) :
    run step (x.1.retime p (.instant deadline)) ls = some (y.1.retime p (.instant deadline)) := by
  induction ls generalizing x with
  | nil =>
    cases h
    rfl
  | cons l ls ih =>
    obtain ⟨z, hz, h⟩ := Option.bind_eq_some_iff.mp h
    obtain ⟨hstep, hnote⟩ := recorded_eq hz
    have hrest : ∀ m ∈ ls, m.starts p = false := fun m hm => hls m (List.mem_cons_of_mem _ hm)
    have hstep' : step (x.1.retime p (.instant deadline)) l =
        some (z.1.retime p (.instant deadline)) := by
      rw [step_retime (hls l List.mem_cons_self), hstep, Option.map_some]
      intro hl hpc hwait
      have hmem : (x.1.timeout p).toInstant x.1.now ∈ z.2.deadlines p := by
        rw [hnote, hl, deadlines_begins x.2 hpc hwait]
        exact List.mem_cons_self
      exact (hd _ (mem_deadlines_run hrest h hmem)).symm
    simp only [run, hstep', Option.bind_some]
    exact ih hrest h

theorem startTimed_retime (s : State P) (p : P) (timeout timeout' : Timeout) :
    s.startTimed p timeout' = (s.startTimed p timeout).map fun t => t.retime p timeout' := by
  simp [State.startTimed, State.retime, Option.map_map, Function.comp_def]

/-- In a run each timed call waits against one deadline, and sleeps only before it, if and only
if the clock stands still from the first wait of a call of `try_lock_for` to its last one. Then
the call runs as `try_lock_until` with that deadline. -/
theorem one_deadline {s : State P × Waits P} {ls : List (Act P)}
    (h : run (recorded step noteWait) (init, blank) ls = some s) :
    (Visits (recorded step noteWait) (fun x => OneDeadline x.2) (init, blank) ls ↔
      Meets (recorded step noteWait) ClockStands (init, blank) ls) ∧
    (Meets (recorded step noteWait) ClockStands (init, blank) ls →
      ∀ p d before after, ls = before ++ .tryLockFor p d :: after →
        (∀ l ∈ after, l.starts p = false) →
        ∃ deadline, (∀ x ∈ s.2.deadlines p, x = deadline) ∧
          run step init (before ++ .tryLockUntil p deadline :: after) =
            some (s.1.retime p (.instant deadline))) := by
  constructor
  · refine visits_iff_meets (I := AllTimed) (fun _ => AllTimed.oneDeadline) ?_ ?_
      allTimed_init (meets_any _ _) h
    · rintro ⟨s, w⟩ l ⟨t, w'⟩ hs - hok hstep
      obtain ⟨hstep, rfl⟩ := recorded_eq hstep
      exact allTimed_step hs hok hstep
    · rintro ⟨s, w⟩ l ⟨t, w'⟩ hs - hno hstep hone
      obtain ⟨hstep, rfl⟩ := recorded_eq hstep
      exact hno (hs.stands_of hone)
  · intro hm p d before after hls hafter
    have hone : OneDeadline s.2 := by
      have hinv : AllTimed s := (run_reach hm h).invariant allTimed_init ?_
      · exact hinv.oneDeadline
      · intro ⟨s, w⟩ l ⟨t, w'⟩ hs hok hstep
        obtain ⟨hstep, rfl⟩ := recorded_eq hstep
        exact allTimed_step hs hok hstep
    subst ls
    rw [run_append] at h
    obtain ⟨x, hbefore, h⟩ := Option.bind_eq_some_iff.mp h
    obtain ⟨y, hstart, h⟩ := Option.bind_eq_some_iff.mp h
    obtain ⟨hstart, -⟩ := recorded_eq hstart
    obtain ⟨deadline, hall, -⟩ := hone p
    refine ⟨deadline, hall, ?_⟩
    have hstart' : step x.1 (.tryLockUntil p deadline) =
        some (y.1.retime p (.instant deadline)) :=
      (startTimed_retime x.1 p (.duration d) (.instant deadline)).trans
        (congrArg (Option.map _) hstart)
    rw [run_append, recorded_run hbefore, Option.bind_some]
    simp only [run, hstart', Option.bind_some]
    exact run_retime hafter h hall

instance (s : State P × Waits P) (l : Act P) : Decidable (ClockStands s l) :=
  match l with
  | .raw p .next =>
    inferInstanceAs (Decidable (s.1.raw.pc p = .park true → s.1.wait p = .outside →
      (s.1.timeout p).isDuration = true → ∀ r ∈ s.2.readings p, r = s.1.now))
  | .tick _ | .tryLockFor _ _ | .tryLockUntil _ _ => isTrue trivial
  | .raw _ (.start _) | .raw _ (.release _) | .raw _ .timeout | .raw _ .dropFuture => isTrue trivial

def nexts (p : P) (n : Nat) : List (Act P) := List.replicate n (.raw p .next)

def barged (p q : P) (timed : Act P) (late : Nat) : List (Act P) :=
  .raw p (.start .tryLock) :: nexts p 1 ++ timed :: (nexts q 10 ++
    .raw p (.release .unlock) :: nexts p 6 ++ .raw p (.start .tryLock) :: nexts p 1 ++
    nexts q 11 ++ .tick late :: nexts q 2)

theorem one_deadline_barged : ∃ s : State (Fin 2) × Waits (Fin 2),
    s.2.deadlines 1 = [5, 5] ∧
    run (recorded step noteWait) (init, blank) (barged 0 1 (.tryLockFor 1 5) 0) = some s ∧
    Visits (recorded step noteWait) (fun x => OneDeadline x.2)
      ((init : State (Fin 2)), (blank : Waits (Fin 2))) (barged 0 1 (.tryLockFor 1 5) 0) ∧
    run step init (barged 0 1 (.tryLockUntil 1 5) 0) = some (s.1.retime 1 (.instant 5)) := by
  have hr : ((run (restrict (recorded step noteWait) ClockStands)
      ((init : State (Fin 2)), (blank : Waits (Fin 2))) (barged 0 1 (.tryLockFor 1 5) 0)).map
        fun s => s.2.deadlines 1) = some [5, 5] := by decide
  obtain ⟨s, hs, ho⟩ := Option.map_eq_some_iff.mp hr
  obtain ⟨hm, hrun⟩ := restrict_run_meets hs
  obtain ⟨hexact, huntil⟩ := one_deadline hrun
  obtain ⟨deadline, hall, hsame⟩ := huntil hm 1 5 _ _ rfl (by decide)
  obtain rfl : 5 = deadline := hall 5 (by simp [ho])
  exact ⟨s, ho, hrun, hexact.mpr hm, hsame⟩

/-- The second wait of a call of `try_lock_for` may get a later deadline than the first, and the
call goes back to sleep when the clock has passed the first one. -/
theorem deadline_moves :
    (¬ ∀ s : State (Fin 2) × Waits (Fin 2),
      Reach (recorded step noteWait) anyStep (init, blank) s → OneDeadline s.2) ∧
    ¬ ∀ s : State (Fin 2) × Waits (Fin 2),
      Reach (recorded step noteWait) anyStep (init, blank) s →
      ∀ p, ∀ first ∈ (s.2.deadlines p).getLast?, ∀ r ∈ s.2.slept p, r < first := by
  have hr : ((run (recorded step noteWait) ((init : State (Fin 2)), (blank : Waits (Fin 2)))
      (barged 0 1 (.tryLockFor 1 5) 6)).map fun s => (s.2.deadlines 1, s.2.slept 1)) =
        some ([11, 5], [6, 0]) := by decide
  obtain ⟨s, hs, ho⟩ := Option.map_eq_some_iff.mp hr
  simp only [Prod.mk.injEq] at ho
  obtain ⟨hdeadlines, hslept⟩ := ho
  have hreach := run_reach (meets_any _ _) hs
  constructor
  · intro h
    obtain ⟨deadline, hall, -⟩ := h s hreach 1
    have hfirst := hall 5 (by simp [hdeadlines])
    have hsecond := hall 11 (by simp [hdeadlines])
    omega
  · intro h
    have hlt := h s hreach 1 5 (by simp [hdeadlines]) 6 (by simp [hslept])
    omega

end Colock.TimedLock
