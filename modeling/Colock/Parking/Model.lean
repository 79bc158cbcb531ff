import Colock.Lib.Transition
import Colock.Parking.Waker

/-! Threads that make parkers, hand out wakers and park, one atomic access a step. Under
them is `std::thread`: a token for each thread, which `unpark` sets and `park` takes. -/
namespace Colock.Parking
open Transition
variable {P : Type*}

inductive Use (P : Type*)
  | thread (p : P)
  | task
  deriving DecidableEq

/-- The next access of a thread. `load` and `park` are the loop of `Parker::park`; `readClock`,
`parkTimeout` and `loadTimed` that of `park_until`, where a thread that is about to read the
clock has `should_wakeup = false` in its local variable; `store` and `unpark` are
`Waker::wake`. -/
inductive Pc (P : Type*)
  | out
  | load (i : Nat)
  | park (i : Nat)
  | readClock (i deadline : Nat)
  | parkTimeout (i deadline : Nat)
  | loadTimed (i deadline : Nat)
  | store (w : Waker P)
  | unpark (w : Waker P)
  deriving DecidableEq

def Pc.parker? : Pc P → Option Nat
  | .load i | .park i | .readClock i _ | .parkTimeout i _ | .loadTimed i _ => some i
  | _ => none

def Pc.waker? : Pc P → Option (Waker P)
  | .store w | .unpark w => some w
  | _ => none

/-- `flag` is `should_wakeup` of a parker; a parker without a use has not been made yet.
`wakers` are those made and not called. -/
structure State (P : Type*) where
  token : P → Bool
  use : Nat → Option (Use P)
  flag : Nat → Bool
  wakers : List (Waker P)
  now : Nat
  pc : P → Pc P

def init : State P := ⟨fun _ => false, fun _ => none, fun _ => false, [], 0, fun _ => .out⟩

/-- `next` is the next access of a thread that is in one of the functions; `spurious` is a
return of `park` or `park_timeout` without the token, at the end of the time or before.
`unparkThread` is an `unpark` by other code, `tick` moves the clock on. -/
inductive Act (P : Type*)
  | newParker (i : Nat)
  | newTaskParker (i : Nat)
  | preparePark (i : Nat)
  | waker (i : Nat)
  | asyncWaker (i cx : Nat)
  | newTaskUnattached (cx : Nat)
  | park (i : Nat)
  | parkUntil (i timeout : Nat)
  | parkFor (i duration : Nat)
  | wake (w : Waker P)
  | next
  | spurious
  | unparkThread (t : P)
  | tick (k : Nat)
  deriving DecidableEq

variable [DecidableEq P]

namespace State

def goto (s : State P) (p : P) (c : Pc P) : State P := { s with pc := Function.update s.pc p c }

def setToken (s : State P) (p : P) (b : Bool) : State P :=
  { s with token := Function.update s.token p b }

def setFlag (s : State P) (i : Nat) (b : Bool) : State P :=
  { s with flag := Function.update s.flag i b }

def make (s : State P) (i : Nat) (u : Use P) : State P :=
  { s with use := Function.update s.use i (some u), flag := Function.update s.flag i false }

def handOut (s : State P) (w : Waker P) : State P := { s with wakers := w :: s.wakers }

end State

section Fields
variable (s : State P) (p : P)

@[simp] theorem goto_fields (c : Pc P) : (s.goto p c).token = s.token ∧
    (s.goto p c).use = s.use ∧ (s.goto p c).flag = s.flag ∧ (s.goto p c).wakers = s.wakers ∧
      (s.goto p c).now = s.now ∧ (s.goto p c).pc = Function.update s.pc p c :=
  ⟨rfl, rfl, rfl, rfl, rfl, rfl⟩

@[simp] theorem setToken_fields (b : Bool) :
    (s.setToken p b).token = Function.update s.token p b ∧ (s.setToken p b).use = s.use ∧
      (s.setToken p b).flag = s.flag ∧ (s.setToken p b).wakers = s.wakers ∧
      (s.setToken p b).now = s.now ∧ (s.setToken p b).pc = s.pc :=
  ⟨rfl, rfl, rfl, rfl, rfl, rfl⟩

omit [DecidableEq P] in
@[simp] theorem setFlag_fields (i : Nat) (b : Bool) :
    (s.setFlag i b).token = s.token ∧ (s.setFlag i b).use = s.use ∧
      (s.setFlag i b).flag = Function.update s.flag i b ∧ (s.setFlag i b).wakers = s.wakers ∧
      (s.setFlag i b).now = s.now ∧ (s.setFlag i b).pc = s.pc :=
  ⟨rfl, rfl, rfl, rfl, rfl, rfl⟩

omit [DecidableEq P] in
@[simp] theorem make_fields (i : Nat) (u : Use P) :
    (s.make i u).token = s.token ∧ (s.make i u).use = Function.update s.use i (some u) ∧
      (s.make i u).flag = Function.update s.flag i false ∧ (s.make i u).wakers = s.wakers ∧
      (s.make i u).now = s.now ∧ (s.make i u).pc = s.pc :=
  ⟨rfl, rfl, rfl, rfl, rfl, rfl⟩

omit [DecidableEq P] in
@[simp] theorem handOut_fields (w : Waker P) :
    (s.handOut w).token = s.token ∧ (s.handOut w).use = s.use ∧ (s.handOut w).flag = s.flag ∧
      (s.handOut w).wakers = w :: s.wakers ∧ (s.handOut w).now = s.now ∧
      (s.handOut w).pc = s.pc :=
  ⟨rfl, rfl, rfl, rfl, rfl, rfl⟩

end Fields

/-- A call by a thread that is in none of the functions. A thread parks on its own parkers,
and the wakers it makes for them notify it. -/
def call (s : State P) (p : P) : Act P → Option (State P)
  | .newParker i => if s.use i = none then some (s.make i (.thread p)) else none
  | .newTaskParker i => if s.use i = none then some (s.make i .task) else none
  | .preparePark i =>
    if s.use i = some (.thread p) ∨ s.use i = some .task then some (s.setFlag i false) else none
  | .waker i =>
    if s.use i = some (.thread p) then some (s.handOut ⟨some i, .thread p⟩) else none
  | .asyncWaker i cx =>
    if s.use i = some .task then some (s.handOut ⟨some i, .task cx⟩) else none
  | .newTaskUnattached cx => some (s.handOut ⟨none, .task cx⟩)
  | .park i => if s.use i = some (.thread p) then some (s.goto p (.load i)) else none
  | .parkUntil i timeout =>
    if s.use i = some (.thread p) then some (s.goto p (.readClock i timeout)) else none
  | .parkFor i duration =>
    if s.use i = some (.thread p) then some (s.goto p (.readClock i (s.now + duration))) else none
  | .wake w =>
    if w ∈ s.wakers then some ({ s with wakers := s.wakers.erase w }.goto p (.store w)) else none
  | .next | .spurious | .unparkThread _ | .tick _ => none

def next (s : State P) (p : P) : Option (State P) :=
  match s.pc p with
  | .out => none
  | .load i => some (s.goto p (if s.flag i then .out else .park i))
  | .park i => if s.token p then some ((s.setToken p false).goto p (.load i)) else none
  | .readClock i deadline =>
    let diff := deadline - s.now
    some (s.goto p (if diff = 0 then .out else .parkTimeout i deadline))
  | .parkTimeout i deadline =>
    if s.token p then some ((s.setToken p false).goto p (.loadTimed i deadline)) else none
  | .loadTimed i deadline => some (s.goto p (if s.flag i then .out else .readClock i deadline))
  | .store w =>
    match w.parker with
    | some i => some ((s.setFlag i true).goto p (.unpark w))
    | none => some (s.goto p (.unpark w))
  | .unpark w =>
    match w.inner with
    | .thread t => some ((s.setToken t true).goto p .out)
    | .task _ => some (s.goto p .out)

def step (s : State P) : P × Act P → Option (State P)
  | (p, .next) => next s p
  | (p, .spurious) =>
    match s.pc p with
    | .park i => some (s.goto p (.load i))
    | .parkTimeout i deadline => some (s.goto p (.loadTimed i deadline))
    | _ => none
  | (_, .unparkThread t) => some (s.setToken t true)
  | (_, .tick k) => some { s with now := s.now + k }
  | (p, a) => if s.pc p = .out then call s p a else none

inductive StepOf (s : State P) : P × Act P → State P → Prop
  | newParker (p : P) (i : Nat) (hpc : s.pc p = .out) (hi : s.use i = none) :
      StepOf s (p, .newParker i) (s.make i (.thread p))
  | newTaskParker (p : P) (i : Nat) (hpc : s.pc p = .out) (hi : s.use i = none) :
      StepOf s (p, .newTaskParker i) (s.make i .task)
  | preparePark (p : P) (i : Nat) (hpc : s.pc p = .out)
      (hi : s.use i = some (.thread p) ∨ s.use i = some .task) :
      StepOf s (p, .preparePark i) (s.setFlag i false)
  | waker (p : P) (i : Nat) (hpc : s.pc p = .out) (hi : s.use i = some (.thread p)) :
      StepOf s (p, .waker i) (s.handOut ⟨some i, .thread p⟩)
  | asyncWaker (p : P) (i cx : Nat) (hpc : s.pc p = .out) (hi : s.use i = some .task) :
      StepOf s (p, .asyncWaker i cx) (s.handOut ⟨some i, .task cx⟩)
  | newTaskUnattached (p : P) (cx : Nat) (hpc : s.pc p = .out) :
      StepOf s (p, .newTaskUnattached cx) (s.handOut ⟨none, .task cx⟩)
  | park (p : P) (i : Nat) (hpc : s.pc p = .out) (hi : s.use i = some (.thread p)) :
      StepOf s (p, .park i) (s.goto p (.load i))
  | parkUntil (p : P) (i timeout : Nat) (hpc : s.pc p = .out) (hi : s.use i = some (.thread p)) :
      StepOf s (p, .parkUntil i timeout) (s.goto p (.readClock i timeout))
  | parkFor (p : P) (i duration : Nat) (hpc : s.pc p = .out) (hi : s.use i = some (.thread p)) :
      StepOf s (p, .parkFor i duration) (s.goto p (.readClock i (s.now + duration)))
  | wake (p : P) (w : Waker P) (hpc : s.pc p = .out) (hw : w ∈ s.wakers) :
      StepOf s (p, .wake w) ({ s with wakers := s.wakers.erase w }.goto p (.store w))
  | parkEnds (p : P) (i : Nat) (hpc : s.pc p = .load i) (hflag : s.flag i = true) :
      StepOf s (p, .next) (s.goto p .out)
  | sleeps (p : P) (i : Nat) (hpc : s.pc p = .load i) (hflag : s.flag i = false) :
      StepOf s (p, .next) (s.goto p (.park i))
  | unparked (p : P) (i : Nat) (hpc : s.pc p = .park i) (htoken : s.token p = true) :
      StepOf s (p, .next) ((s.setToken p false).goto p (.load i))
  | timesOut (p : P) (i deadline : Nat) (hpc : s.pc p = .readClock i deadline)
      (hle : deadline ≤ s.now) : StepOf s (p, .next) (s.goto p .out)
  | timedSleeps (p : P) (i deadline : Nat) (hpc : s.pc p = .readClock i deadline)
      (hlt : s.now < deadline) : StepOf s (p, .next) (s.goto p (.parkTimeout i deadline))
  | timedUnparked (p : P) (i deadline : Nat) (hpc : s.pc p = .parkTimeout i deadline)
      (htoken : s.token p = true) :
      StepOf s (p, .next) ((s.setToken p false).goto p (.loadTimed i deadline))
  | timedEnds (p : P) (i deadline : Nat) (hpc : s.pc p = .loadTimed i deadline)
      (hflag : s.flag i = true) : StepOf s (p, .next) (s.goto p .out)
  | timedAgain (p : P) (i deadline : Nat) (hpc : s.pc p = .loadTimed i deadline)
      (hflag : s.flag i = false) : StepOf s (p, .next) (s.goto p (.readClock i deadline))
  | store (p : P) (w : Waker P) (i : Nat) (hpc : s.pc p = .store w) (hw : w.parker = some i) :
      StepOf s (p, .next) ((s.setFlag i true).goto p (.unpark w))
  | storeNone (p : P) (w : Waker P) (hpc : s.pc p = .store w) (hw : w.parker = none) :
      StepOf s (p, .next) (s.goto p (.unpark w))
  | unpark (p t : P) (w : Waker P) (hpc : s.pc p = .unpark w) (hw : w.inner = .thread t) :
      StepOf s (p, .next) ((s.setToken t true).goto p .out)
  | wakeTask (p : P) (w : Waker P) (cx : Nat) (hpc : s.pc p = .unpark w)
      (hw : w.inner = .task cx) : StepOf s (p, .next) (s.goto p .out)
  | spurious (p : P) (i : Nat) (hpc : s.pc p = .park i) :
      StepOf s (p, .spurious) (s.goto p (.load i))
  | timedSpurious (p : P) (i deadline : Nat) (hpc : s.pc p = .parkTimeout i deadline) :
      StepOf s (p, .spurious) (s.goto p (.loadTimed i deadline))
  | unparkThread (p t : P) : StepOf s (p, .unparkThread t) (s.setToken t true)
  | tick (p : P) (k : Nat) : StepOf s (p, .tick k) { s with now := s.now + k }

theorem call_cases {s t : State P} {p : P} {a : Act P} (hpc : s.pc p = .out)
    (h : call s p a = some t) : StepOf s (p, a) t := by
  cases a <;> simp only [call, Option.ite_none_right_eq_some, Option.some.injEq, reduceCtorEq] at h
  case newParker i => exact h.2 ▸ .newParker p i hpc h.1
  case newTaskParker i => exact h.2 ▸ .newTaskParker p i hpc h.1
  case preparePark i => exact h.2 ▸ .preparePark p i hpc h.1
  case waker i => exact h.2 ▸ .waker p i hpc h.1
  case asyncWaker i cx => exact h.2 ▸ .asyncWaker p i cx hpc h.1
  case newTaskUnattached cx => exact h ▸ .newTaskUnattached p cx hpc
  case park i => exact h.2 ▸ .park p i hpc h.1
  case parkUntil i timeout => exact h.2 ▸ .parkUntil p i timeout hpc h.1
  case parkFor i duration => exact h.2 ▸ .parkFor p i duration hpc h.1
  case wake w => exact h.2 ▸ .wake p w hpc h.1

theorem next_cases {s t : State P} {p : P} (h : next s p = some t) : StepOf s (p, .next) t := by
  cases hpc : s.pc p with
  | out => simp [next, hpc] at h
  | load i =>
    cases hflag : s.flag i <;> simp only [next, hpc, hflag, Option.some.injEq] at h
    · exact h ▸ .sleeps p i hpc hflag
    · exact h ▸ .parkEnds p i hpc hflag
  | park i =>
    simp only [next, hpc, Option.ite_none_right_eq_some, Option.some.injEq] at h
    exact h.2 ▸ .unparked p i hpc h.1
  | readClock i deadline =>
    simp only [next, hpc, Option.some.injEq] at h
    by_cases hdiff : deadline - s.now = 0
    · rw [if_pos hdiff] at h
      exact h ▸ .timesOut p i deadline hpc (by omega)
    · rw [if_neg hdiff] at h
      exact h ▸ .timedSleeps p i deadline hpc (by omega)
  | parkTimeout i deadline =>
    simp only [next, hpc, Option.ite_none_right_eq_some, Option.some.injEq] at h
    exact h.2 ▸ .timedUnparked p i deadline hpc h.1
  | loadTimed i deadline =>
    cases hflag : s.flag i <;> simp only [next, hpc, hflag, Option.some.injEq] at h
    · exact h ▸ .timedAgain p i deadline hpc hflag
    · exact h ▸ .timedEnds p i deadline hpc hflag
  | store w =>
    cases hw : w.parker <;> simp only [next, hpc, hw, Option.some.injEq] at h
    · exact h ▸ .storeNone p w hpc hw
    · exact h ▸ .store p w _ hpc hw
  | unpark w =>
    cases hw : w.inner <;> simp only [next, hpc, hw, Option.some.injEq] at h
    · exact h ▸ .unpark p _ w hpc hw
    · exact h ▸ .wakeTask p w _ hpc hw

theorem step_cases {s t : State P} {l : P × Act P} (h : step s l = some t) : StepOf s l t := by
  obtain ⟨p, a⟩ := l
  cases a with
  | next => exact next_cases h
  | spurious =>
    cases hpc : s.pc p <;> simp only [step, hpc, Option.some.injEq, reduceCtorEq] at h
    · exact h ▸ .spurious p _ hpc
    · exact h ▸ .timedSpurious p _ _ hpc
  | unparkThread t => exact Option.some.inj h ▸ .unparkThread p t
  | tick k => exact Option.some.inj h ▸ .tick p k
  | _ =>
    simp only [step, Option.ite_none_right_eq_some] at h
    exact call_cases h.1 h.2

/-! ### The record of a run -/

/-- A call of `park_until`: the readings of the clock and the values of `should_wakeup` since
it began, in the order of time. -/
structure Wait where
  parker : Nat
  deadline : Nat
  readings : List Nat
  moments : List Bool
  deriving DecidableEq

/-- `stored` and `prepared` are the writes to `should_wakeup`, `returned` the end of a `park` and
`answered` that of a `park_until`. -/
inductive Event (P : Type*)
  | stored (i : Nat)
  | prepared (i : Nat)
  | returned (p : P) (i : Nat)
  | answered (p : P) (w : Wait) (result : Bool)
  deriving DecidableEq

structure History (P : Type*) where
  log : List (Event P)
  wait : P → Wait

def History.empty : History P := ⟨[], fun _ => ⟨0, 0, [], []⟩⟩

def Wait.observe (s : State P) (w : Wait) : Wait :=
  { w with moments := w.moments ++ [s.flag w.parker] }

def Wait.read (now : Nat) (w : Wait) : Wait := { w with readings := w.readings ++ [now] }

section Wait
variable (s : State P) (w : Wait) (now : Nat)

omit [DecidableEq P] in
@[simp] theorem observe_fields : (w.observe s).parker = w.parker ∧
    (w.observe s).deadline = w.deadline ∧ (w.observe s).readings = w.readings ∧
      (w.observe s).moments = w.moments ++ [s.flag w.parker] :=
  ⟨rfl, rfl, rfl, rfl⟩

@[simp] theorem read_fields : (w.read now).parker = w.parker ∧
    (w.read now).deadline = w.deadline ∧ (w.read now).readings = w.readings ++ [now] ∧
      (w.read now).moments = w.moments :=
  ⟨rfl, rfl, rfl, rfl⟩

end Wait

def noteWait (s : State P) (l : P × Act P) (wait : P → Wait) : P → Wait :=
  let observed := fun q => (wait q).observe s
  match l with
  | (p, .parkUntil i timeout) => Function.update observed p ⟨i, timeout, [], [s.flag i]⟩
  | (p, .parkFor i duration) => Function.update observed p ⟨i, s.now + duration, [], [s.flag i]⟩
  | (p, .next) =>
    match s.pc p with
    | .readClock _ _ => Function.update observed p ((observed p).read s.now)
    | _ => observed
  | _ => observed

def eventOf (s : State P) (wait : P → Wait) : P × Act P → Option (Event P)
  | (_, .preparePark i) => some (.prepared i)
  | (p, .next) =>
    match s.pc p with
    | .load i => if s.flag i then some (.returned p i) else none
    | .readClock _ deadline =>
      if deadline - s.now = 0 then some (.answered p (wait p) false) else none
    | .loadTimed i _ => if s.flag i then some (.answered p (wait p) true) else none
    | .store w => w.parker.map .stored
    | _ => none
  | _ => none

def note (s : State P) (l : P × Act P) (h : History P) : History P :=
  ⟨(eventOf s (noteWait s l h.wait) l).toList ++ h.log, noteWait s l h.wait⟩

/-- A wake has stored `should_wakeup` of the parker since it was last cleared. -/
def Woken (log : List (Event P)) (i : Nat) : Prop :=
  ∃ mid old, log = mid ++ .stored i :: old ∧ .prepared i ∉ mid

end Colock.Parking
