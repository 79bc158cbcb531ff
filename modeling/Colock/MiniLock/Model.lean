import Colock.MiniLock.Word
import Colock.Parking.Waker
import Colock.Lib.Transition

/-! `RawMiniLock` as a step machine over any number of threads. One step is one access to
the head word, to a field of a node or to the flag of a parker. -/
namespace Colock.MiniLock
open Transition
variable {T : Type*} [DecidableEq T]

structure Node (T : Type*) where
  next : Word
  waker : Option (Waker T)
  deriving DecidableEq

/-- The next operation of a thread. The nodes and parkers in it are the ones on its stack
frame; in `spin` stand the last head seen and the counter of the `SpinWait`. `fault` is a
panic or an access to a node or parker that is not there. -/
inductive Pc (T : Type*)
  | out
  | lock
  | spin (head : Word) (counter : Nat)
  | newParker
  | preparePark (parker : Nat)
  | newNode (parker : Nat)
  | assertNext (node : Addr) (parker : Nat)
  | pushOrLock (node : Addr) (parker : Nat) (head : Word)
  | push (node : Addr) (parker : Nat) (head : Word)
  | park (node : Addr) (parker : Nat)
  | dropFrame (node : Addr) (parker : Nat) (locked : Bool)
  | tryLock (head : Word)
  | held
  | assertLocked
  | unlock
  | pop
  | popLoad
  | popNext (head : Word)
  | popHead (head : Word) (node : Addr) (next : Word)
  | takeWaker (node : Addr)
  | clear (node : Addr) (waker : Waker T)
  | wake (node : Addr) (waker : Waker T)
  | unpark
  | fault
  deriving DecidableEq

/-- What happened to the waiters: a node was pushed, popped, or its parker was woken; and
`contended`, a round of `unlock` whose `compare_exchange(LOCKED_BIT, 0)` failed. -/
inductive Event
  | push (node : Addr)
  | pop (node : Addr)
  | wake (node : Addr)
  | contended
  deriving DecidableEq

/-- `node` and `parker` tell what stands at an address, `none` for nothing. The log, newest
first, and `woken`, the threads that have come out of `park` and have neither got the lock
nor pushed again, record the run; no step reads them. -/
structure State (T : Type*) where
  head : Word
  node : Addr → Option (Node T)
  parker : Nat → Option Bool
  pc : T → Pc T
  log : List (T × Event)
  woken : T → Bool

def init : State T where
  head := 0
  node := fun _ => none
  parker := fun _ => none
  pc := fun _ => .out
  log := []
  woken := fun _ => false

def State.goto (s : State T) (t : T) (c : Pc T) : State T :=
  { s with pc := Function.update s.pc t c }

@[simp, grind =] theorem State.goto_pc (s : State T) (t : T) (c : Pc T) : (s.goto t c).pc t = c :=
  Function.update_self ..

/-- A step of a thread; the address of a new node or parker is any that is free. -/
inductive Act
  | lock
  | tryLock
  | unlock
  | newParker (p : Nat)
  | newNode (a : Addr)
  | step
  deriving DecidableEq

/-- `NUM_SPINS + NUM_YIELDS` of `SpinWait<3, 3>`. -/
def maxSpins : Nat := 3 + 3

def State.locked (s : State T) (t : T) (h : Word) (c : Pc T) : State T :=
  { s with head := h ||| lockedBit, woken := Function.update s.woken t false }.goto t c

def next (s : State T) (t : T) : Option (State T) :=
  match s.pc t with
  | .lock =>
    some (if s.head = 0 then s.locked t 0 .held else s.goto t (.spin s.head 0))
  | .spin head counter =>
    some (if counter < maxSpins then
      if s.head = head &&& ptrMask then s.locked t head .held
      else s.goto t (.spin s.head (counter + 1))
    else s.goto t .newParker)
  | .preparePark p =>
    some (if (s.parker p).isSome then
      { s with parker := Function.update s.parker p (some false) }.goto t (.newNode p)
    else s.goto t .fault)
  | .assertNext a p =>
    some (match s.node a with
    | some n => s.goto t (if n.next = 0 then .pushOrLock a p 0 else .fault)
    | none => s.goto t .fault)
  | .pushOrLock a p head =>
    some (if getFlag head then
      match s.node a with
      | some n =>
        { s with node := Function.update s.node a (some { n with next := getPtr head }) }.goto t
          (.push a p head)
      | none => s.goto t .fault
    else if s.head = head then s.locked t head (.dropFrame a p true)
    else s.goto t (.pushOrLock a p s.head))
  | .push a p head =>
    some (if s.head = head then
      { s with
        head := a.asUsizePtr ||| lockedBit
        log := (t, .push a) :: s.log
        woken := Function.update s.woken t false }.goto t (.park a p)
    else s.goto t (.pushOrLock a p s.head))
  | .park a p =>
    -- `thread::park` may return at any time; what counts is the load of `should_wakeup`
    some (match s.parker p with
    | some true => { s with woken := Function.update s.woken t true }.goto t (.dropFrame a p false)
    | some false => s
    | none => s.goto t .fault)
  | .dropFrame a p locked =>
    some ({ s with
      node := Function.update s.node a none
      parker := Function.update s.parker p none }.goto t (if locked then .held else .lock))
  | .tryLock head =>
    some (if getFlag head then s.goto t .out
    else if s.head = head then s.locked t head .held
    else s.goto t (.tryLock s.head))
  | .assertLocked => some (s.goto t (if getFlag s.head then .unlock else .fault))
  | .unlock =>
    some (if s.head = lockedBit then { s with head := 0 }.goto t .out
    else { s with log := (t, .contended) :: s.log }.goto t .pop)
  | .pop => some (s.goto t (if getFlag s.head then .popLoad else .fault))
  | .popLoad => some (s.goto t (.popNext s.head))
  | .popNext head =>
    some (if head = lockedBit then s.goto t .unlock
    else
      match (asRef (getPtr head)).bind fun a => (s.node a).map fun n => (a, n) with
      | some (a, n) => s.goto t (.popHead head a n.next)
      | none => s.goto t .fault)
  | .popHead head a next =>
    some (if s.head = head then
      { s with head := next ||| lockedBit, log := (t, .pop a) :: s.log }.goto t (.takeWaker a)
    else s.goto t (.popNext s.head))
  | .takeWaker a =>
    some (match s.node a with
    | some n =>
      { s with node := Function.update s.node a (some { n with waker := none }) }.goto t
        (match n.waker with
        | some w => .clear a w
        | none => .unlock)
    | none => s.goto t .fault)
  | .clear a w => some ({ s with head := s.head &&& ptrMask }.goto t (.wake a w))
  | .wake a w =>
    some (match w.parker with
    | none => s.goto t .unpark
    | some p =>
      if (s.parker p).isSome then
        { s with
          parker := Function.update s.parker p (some true)
          log := (t, .wake a) :: s.log }.goto t .unpark
      else s.goto t .fault)
  | .unpark => some (s.goto t .out)
  | .out | .held | .newParker | .newNode _ | .fault => none

def step (s : State T) : T × Act → Option (State T)
  | (t, .lock) => if s.pc t = .out then some (s.goto t .lock) else none
  | (t, .tryLock) => if s.pc t = .out then some (s.goto t (.tryLock 0)) else none
  | (t, .unlock) => if s.pc t = .held then some (s.goto t .assertLocked) else none
  | (t, .newParker p) =>
    if s.pc t = .newParker ∧ s.parker p = none then
      some ({ s with parker := Function.update s.parker p (some false) }.goto t (.preparePark p))
    else none
  | (t, .newNode a) =>
    match s.pc t with
    | .newNode p =>
      if s.node a = none then
        some ({ s with
          node := Function.update s.node a (some ⟨0, some ⟨some p, .thread t⟩⟩) }.goto t
            (.assertNext a p))
      else none
    | _ => none
  | (t, .step) => next s t

inductive StepOf (s : State T) (t : T) : Act → State T → Prop
  | lock (hpc : s.pc t = .out) : StepOf s t .lock (s.goto t .lock)
  | tryLock (hpc : s.pc t = .out) : StepOf s t .tryLock (s.goto t (.tryLock 0))
  | unlock (hpc : s.pc t = .held) : StepOf s t .unlock (s.goto t .assertLocked)
  | newParker (p : Nat) (hpc : s.pc t = .newParker) (hfree : s.parker p = none) :
      StepOf s t (.newParker p)
        ({ s with parker := Function.update s.parker p (some false) }.goto t (.preparePark p))
  | newNode (a : Addr) (p : Nat) (hpc : s.pc t = .newNode p) (hfree : s.node a = none) :
      StepOf s t (.newNode a) ({ s with
        node := Function.update s.node a (some ⟨0, some ⟨some p, .thread t⟩⟩) }.goto t
          (.assertNext a p))
  | faults : StepOf s t .step (s.goto t .fault)
  | lockTaken (hpc : s.pc t = .lock) (hhead : s.head = 0) :
      StepOf s t .step (s.locked t 0 .held)
  | lockFailed (hpc : s.pc t = .lock) (hhead : s.head ≠ 0) :
      StepOf s t .step (s.goto t (.spin s.head 0))
  | spinTaken (head : Word) (counter : Nat) (hpc : s.pc t = .spin head counter)
      (hmax : counter < maxSpins) (hhead : s.head = head &&& ptrMask) :
      StepOf s t .step (s.locked t head .held)
  | spinAgain (head : Word) (counter : Nat) (hpc : s.pc t = .spin head counter)
      (hmax : counter < maxSpins) (hhead : s.head ≠ head &&& ptrMask) :
      StepOf s t .step (s.goto t (.spin s.head (counter + 1)))
  | spinEnds (head : Word) (counter : Nat) (hpc : s.pc t = .spin head counter)
      (hmax : maxSpins ≤ counter) : StepOf s t .step (s.goto t .newParker)
  | preparePark (p : Nat) (hpc : s.pc t = .preparePark p) (hlive : (s.parker p).isSome) :
      StepOf s t .step
        ({ s with parker := Function.update s.parker p (some false) }.goto t (.newNode p))
  | assertNext (a : Addr) (p : Nat) (n : Node T) (hpc : s.pc t = .assertNext a p)
      (hn : s.node a = some n) (hnext : n.next = 0) :
      StepOf s t .step (s.goto t (.pushOrLock a p 0))
  | setNext (a : Addr) (p : Nat) (head : Word) (n : Node T) (hpc : s.pc t = .pushOrLock a p head)
      (hf : getFlag head = true) (hn : s.node a = some n) :
      StepOf s t .step ({ s with
        node := Function.update s.node a (some { n with next := getPtr head }) }.goto t
          (.push a p head))
  | queuedTaken (a : Addr) (p : Nat) (head : Word) (hpc : s.pc t = .pushOrLock a p head)
      (hf : getFlag head = false) (hhead : s.head = head) :
      StepOf s t .step (s.locked t head (.dropFrame a p true))
  | queuedFailed (a : Addr) (p : Nat) (head : Word) (hpc : s.pc t = .pushOrLock a p head)
      (hf : getFlag head = false) (hhead : s.head ≠ head) :
      StepOf s t .step (s.goto t (.pushOrLock a p s.head))
  | push (a : Addr) (p : Nat) (hpc : s.pc t = .push a p s.head) :
      StepOf s t .step ({ s with
        head := a.asUsizePtr ||| lockedBit
        log := (t, .push a) :: s.log
        woken := Function.update s.woken t false }.goto t (.park a p))
  | pushFailed (a : Addr) (p : Nat) (head : Word) (hpc : s.pc t = .push a p head)
      (hhead : s.head ≠ head) :
      StepOf s t .step (s.goto t (.pushOrLock a p s.head))
  | parkEnds (a : Addr) (p : Nat) (hpc : s.pc t = .park a p) (hp : s.parker p = some true) :
      StepOf s t .step
        ({ s with woken := Function.update s.woken t true }.goto t (.dropFrame a p false))
  | parkAgain (a : Addr) (p : Nat) (hpc : s.pc t = .park a p) (hp : s.parker p = some false) :
      StepOf s t .step s
  | dropFrame (a : Addr) (p : Nat) (locked : Bool) (hpc : s.pc t = .dropFrame a p locked) :
      StepOf s t .step ({ s with
        node := Function.update s.node a none
        parker := Function.update s.parker p none }.goto t (if locked then .held else .lock))
  | tryFailed (head : Word) (hpc : s.pc t = .tryLock head) (hf : getFlag head = true) :
      StepOf s t .step (s.goto t .out)
  | tryTaken (head : Word) (hpc : s.pc t = .tryLock head) (hf : getFlag head = false)
      (hhead : s.head = head) : StepOf s t .step (s.locked t head .held)
  | tryAgain (head : Word) (hpc : s.pc t = .tryLock head) (hf : getFlag head = false)
      (hhead : s.head ≠ head) : StepOf s t .step (s.goto t (.tryLock s.head))
  | assertLocked (hpc : s.pc t = .assertLocked) (hf : getFlag s.head = true) :
      StepOf s t .step (s.goto t .unlock)
  | unlocked (hpc : s.pc t = .unlock) (hhead : s.head = lockedBit) :
      StepOf s t .step ({ s with head := 0 }.goto t .out)
  | contended (hpc : s.pc t = .unlock) (hhead : s.head ≠ lockedBit) :
      StepOf s t .step ({ s with log := (t, .contended) :: s.log }.goto t .pop)
  | pop (hpc : s.pc t = .pop) (hf : getFlag s.head = true) :
      StepOf s t .step (s.goto t .popLoad)
  | popLoad (hpc : s.pc t = .popLoad) : StepOf s t .step (s.goto t (.popNext s.head))
  | popNone (hpc : s.pc t = .popNext lockedBit) : StepOf s t .step (s.goto t .unlock)
  | popNext (head : Word) (a : Addr) (n : Node T) (hpc : s.pc t = .popNext head)
      (hhead : head ≠ lockedBit) (hptr : asRef (getPtr head) = some a)
      (hn : s.node a = some n) : StepOf s t .step (s.goto t (.popHead head a n.next))
  | popHead (a : Addr) (next : Word) (hpc : s.pc t = .popHead s.head a next) :
      StepOf s t .step ({ s with
        head := next ||| lockedBit
        log := (t, .pop a) :: s.log }.goto t (.takeWaker a))
  | popFailed (head : Word) (a : Addr) (next : Word) (hpc : s.pc t = .popHead head a next)
      (hhead : s.head ≠ head) : StepOf s t .step (s.goto t (.popNext s.head))
  | takeWaker (a : Addr) (n : Node T) (hpc : s.pc t = .takeWaker a) (hn : s.node a = some n) :
      StepOf s t .step
        ({ s with node := Function.update s.node a (some { n with waker := none }) }.goto t
          (match n.waker with
          | some w => .clear a w
          | none => .unlock))
  | clear (a : Addr) (w : Waker T) (hpc : s.pc t = .clear a w) :
      StepOf s t .step ({ s with head := s.head &&& ptrMask }.goto t (.wake a w))
  | wakeNone (a : Addr) (w : Waker T) (hpc : s.pc t = .wake a w) (hw : w.parker = none) :
      StepOf s t .step (s.goto t .unpark)
  | wake (a : Addr) (w : Waker T) (p : Nat) (hpc : s.pc t = .wake a w) (hw : w.parker = some p)
      (hlive : (s.parker p).isSome) :
      StepOf s t .step ({ s with
        parker := Function.update s.parker p (some true)
        log := (t, .wake a) :: s.log }.goto t .unpark)
  | unpark (hpc : s.pc t = .unpark) : StepOf s t .step (s.goto t .out)

theorem next_cases {s s' : State T} {t : T} (h : next s t = some s') : StepOf s t .step s' := by
  cases hpc : s.pc t with
  | out | held | newParker | newNode p | fault => simp [next, hpc] at h
  | lock =>
    simp only [next, hpc, Option.some.injEq] at h
    subst s'
    split
    · next hhead => exact .lockTaken hpc hhead
    · next hhead => exact .lockFailed hpc hhead
  | spin head counter =>
    simp only [next, hpc, Option.some.injEq] at h
    subst s'
    split
    · next hmax =>
      split
      · next hhead => exact .spinTaken head counter hpc hmax hhead
      · next hhead => exact .spinAgain head counter hpc hmax hhead
    · next hmax => exact .spinEnds head counter hpc (by omega)
  | preparePark p =>
    simp only [next, hpc, Option.some.injEq] at h
    subst s'
    split
    · next hlive => exact .preparePark p hpc hlive
    · exact .faults
  | assertNext a p =>
    simp only [next, hpc, Option.some.injEq] at h
    subst s'
    split
    · next n hn =>
      split
      · next hnext => exact .assertNext a p n hpc hn hnext
      · exact .faults
    · exact .faults
  | pushOrLock a p head =>
    simp only [next, hpc, Option.some.injEq] at h
    subst s'
    split
    · next hf =>
      split
      · next n hn => exact .setNext a p head n hpc hf hn
      · exact .faults
    · next hf =>
      have hf : getFlag head = false := by simpa using hf
      split
      · next hhead => exact .queuedTaken a p head hpc hf hhead
      · next hhead => exact .queuedFailed a p head hpc hf hhead
  | push a p head =>
    simp only [next, hpc, Option.some.injEq] at h
    subst s'
    split
    · next hhead => exact .push a p (by rw [hpc, hhead])
    · next hhead => exact .pushFailed a p head hpc hhead
  | park a p =>
    simp only [next, hpc, Option.some.injEq] at h
    subst s'
    split
    · next hp => exact .parkEnds a p hpc hp
    · next hp => exact .parkAgain a p hpc hp
    · exact .faults
  | dropFrame a p locked =>
    simp only [next, hpc, Option.some.injEq] at h
    exact h ▸ .dropFrame a p locked hpc
  | tryLock head =>
    simp only [next, hpc, Option.some.injEq] at h
    subst s'
    split
    · next hf => exact .tryFailed head hpc hf
    · next hf =>
      have hf : getFlag head = false := by simpa using hf
      split
      · next hhead => exact .tryTaken head hpc hf hhead
      · next hhead => exact .tryAgain head hpc hf hhead
  | assertLocked =>
    simp only [next, hpc, Option.some.injEq] at h
    subst s'
    split
    · next hf => exact .assertLocked hpc hf
    · exact .faults
  | unlock =>
    simp only [next, hpc, Option.some.injEq] at h
    subst s'
    split
    · next hhead => exact .unlocked hpc hhead
    · next hhead => exact .contended hpc hhead
  | pop =>
    simp only [next, hpc, Option.some.injEq] at h
    subst s'
    split
    · next hf => exact .pop hpc hf
    · exact .faults
  | popLoad =>
    simp only [next, hpc, Option.some.injEq] at h
    exact h ▸ .popLoad hpc
  | popNext head =>
    simp only [next, hpc, Option.some.injEq] at h
    subst s'
    split
    · next hhead => exact .popNone (by rw [hpc, hhead])
    · next hhead =>
      split
      · next a n hfound =>
        obtain ⟨b, hptr, hn⟩ := Option.bind_eq_some_iff.mp hfound
        obtain ⟨m, hm, hpair⟩ := Option.map_eq_some_iff.mp hn
        cases hpair
        exact .popNext head a n hpc hhead hptr hm
      · exact .faults
  | popHead head a x =>
    simp only [next, hpc, Option.some.injEq] at h
    subst s'
    split
    · next hhead => exact .popHead a x (by rw [hpc, hhead])
    · next hhead => exact .popFailed head a x hpc hhead
  | takeWaker a =>
    simp only [next, hpc, Option.some.injEq] at h
    subst s'
    split
    · next n hn => exact .takeWaker a n hpc hn
    · exact .faults
  | clear a w =>
    simp only [next, hpc, Option.some.injEq] at h
    exact h ▸ .clear a w hpc
  | wake a w =>
    simp only [next, hpc, Option.some.injEq] at h
    subst s'
    split
    · next hw => exact .wakeNone a w hpc hw
    · next p hw =>
      split
      · next hlive => exact .wake a w p hpc hw hlive
      · exact .faults
  | unpark =>
    simp only [next, hpc, Option.some.injEq] at h
    exact h ▸ .unpark hpc

theorem step_cases {s s' : State T} {t : T} {k : Act} (h : step s (t, k) = some s') :
    StepOf s t k s' := by
  cases k with
  | step => exact next_cases h
  | lock =>
    simp only [step, Option.ite_none_right_eq_some, Option.some.injEq] at h
    obtain ⟨hpc, rfl⟩ := h
    exact .lock hpc
  | tryLock =>
    simp only [step, Option.ite_none_right_eq_some, Option.some.injEq] at h
    obtain ⟨hpc, rfl⟩ := h
    exact .tryLock hpc
  | unlock =>
    simp only [step, Option.ite_none_right_eq_some, Option.some.injEq] at h
    obtain ⟨hpc, rfl⟩ := h
    exact .unlock hpc
  | newParker p =>
    simp only [step, Option.ite_none_right_eq_some, Option.some.injEq] at h
    obtain ⟨⟨hpc, hfree⟩, rfl⟩ := h
    exact .newParker p hpc hfree
  | newNode a =>
    simp only [step] at h
    split at h
    · next p hpc =>
      simp only [Option.ite_none_right_eq_some, Option.some.injEq] at h
      obtain ⟨hfree, rfl⟩ := h
      exact .newNode a p hpc hfree
    · cases h

end Colock.MiniLock
