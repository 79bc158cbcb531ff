import Colock.Parking.Waker
import Colock.RawMutex.Word
import Colock.Lib.Transition

/-! `RawMutex` and `RawMutexPoller` as a step machine over any number of parties. One step
is one atomic operation on `state`, one operation on the queue inside its lock, taking or
releasing that lock, or one wake-up. The look at `is_on_list` in `Node::drop`, which takes no lock,
comes before or after an operation on the queue and never inside one; what it may meet inside a
removal is the subject of `IntrusiveList.DropRace`. A party is a thread or a future; every
interleaving of their steps is a run. `debug_assert!` is compiled out. -/
namespace Colock.RawMutex
open Transition
variable {P : Type*} [DecidableEq P]

/-- The calls that acquire. `timed` tells whether `lock_inner` got a timeout, `cx` names the
task waker a future is polled with. -/
inductive Call
  | tryLock
  | lockInner (timed : Bool)
  | poll (cx : Nat)
  deriving DecidableEq

def Call.isPoll : Call → Bool
  | .poll _ => true
  | _ => false

/-- The calls that release; `bump` unlocks and locks again. -/
inductive Release
  | unlock
  | bump
  | unlockFair
  deriving DecidableEq

/-- Why a node is dropped: an iteration of `lock_inner` ends, `lock_inner` returns, `poll`
replaces the node of the last poll, or the future is dropped (with or without the lock). -/
inductive Leave
  | retry (timed : Bool)
  | success
  | timeout
  | renew (cx : Nat)
  | future (held : Bool)
  deriving DecidableEq

inductive After
  | pushed (c : Call)
  | aborted (c : Call)
  | dropped (k : Leave)
  | released (r : Release)
  deriving DecidableEq

/-- The next operation of a party. `idle` and `holding` are outside every call. -/
inductive Pc (P : Type*)
  | idle
  | holding
  | cas (c : Call) (expected : Word)
  | prepare (timed : Bool)
  | lockPush (c : Call)
  | loadState (c : Call)
  | sleepCas (c : Call) (current : Word)
  | pushHead (c : Call)
  | park (timed : Bool)
  | fairLoad (timed : Bool)
  | fairClear
  | dropNode (k : Leave)
  | lockDrop (k : Leave)
  | removeNode (k : Leave)
  | bumpLoad
  | fetchUnlock (r : Release)
  | lockPop (r : Release)
  | popTail (r : Release)
  | mark (e : Entry P) (numWaiting : Nat)
  | onEmpty
  | wake (r : Release) (e : Entry P) (numWaiting : Nat)
  | clearWait (r : Release)
  | unlockQueue (a : After)
  deriving DecidableEq

/-- `flag i` is `should_wakeup` of the parker made together with node `i`. `woken` is an
auxiliary variable: the party's node has been popped, and since then it has neither acquired
the lock, nor queued itself again, nor left. -/
structure State (P : Type*) where
  word : Word
  queue : List (Entry P)
  qlock : Option P
  fresh : Nat
  flag : Nat → Bool
  pc : P → Pc P
  node : P → Option Nat
  woken : P → Bool

def init : State P where
  word := unlocked
  queue := []
  qlock := none
  fresh := 0
  flag := fun _ => false
  pc := fun _ => .idle
  node := fun _ => none
  woken := fun _ => false

def Leave.owns : Leave → Bool
  | .success => true
  | .future held => held
  | _ => false

/-- The party is between a successful acquisition and the operation that gives the lock up. -/
def Pc.owns : Pc P → Bool
  | .holding | .bumpLoad | .fetchUnlock _ | .mark _ _ | .onEmpty => true
  | .lockPop r | .popTail r => r == .unlockFair
  | .dropNode k | .lockDrop k | .removeNode k | .unlockQueue (.dropped k) => k.owns
  | .unlockQueue (.aborted _) => true
  | _ => false

/-! ### The operations on the state word -/

/-- Where a failed `try_lock` leaves each caller. -/
def tryFailed : Call → Pc P
  | .tryLock => .idle
  | .lockInner timed => .prepare timed
  | .poll cx => .dropNode (.renew cx)

/-- The loop test of `should_sleep`. -/
def sleepNext (c : Call) (w : Word) : Pc P :=
  if w = lockedBit ||| waitBit then .pushHead c else .sleepCas c w

def afterRelease : Release → Pc P
  | .unlock | .unlockFair => .idle
  | .bump => .cas (.lockInner false) unlocked

/-- One atomic operation of a party on `state`: its next operation and the new word. The
first `compare_exchange` of `try_lock` is the one of its loop with `UNLOCKED` expected. -/
def atomic : Pc P → Word → Option (Pc P × Word)
  | .cas c expected, w =>
    if w = expected then some (.holding, expected ||| lockedBit)
    else if locked w then some (tryFailed c, w) else some (.cas c w, w)
  | .loadState c, w => some (sleepNext c w, w)
  | .sleepCas c current, w =>
    if locked current then
      if w = lockedBit then some (sleepNext c lockedBit, lockedBit ||| waitBit)
      else some (sleepNext c w, w)
    else if w = current then some (.unlockQueue (.aborted c), current ||| lockedBit)
    else some (sleepNext c w, w)
  | .fairLoad timed, w => some (if fair w then .fairClear else .dropNode (.retry timed), w)
  | .fairClear, w => some (.dropNode .success, w &&& ~~~fairBit)
  | .bumpLoad, w => some (if w = lockedBit ||| waitBit then .fetchUnlock .bump else .holding, w)
  | .fetchUnlock r, w => some (if waiting w then .lockPop r else afterRelease r, w &&& ~~~lockedBit)
  | .mark e n, w =>
    some (.wake .unlockFair e n, if n = 0 then w ^^^ (waitBit ||| fairBit) else w ||| fairBit)
  | .onEmpty, w => some (.unlockQueue (.released .unlockFair), w &&& ~~~lockedBit)
  | .clearWait r, w => some (.unlockQueue (.released r), w &&& ~~~waitBit)
  | _, _ => none

/-! ### The operations on the queue, the nodes and the parkers -/

def State.goto (s : State P) (p : P) (c : Pc P) : State P :=
  { s with pc := Function.update s.pc p c }

/-- An atomic operation on the word; a party that acquires is no longer a woken waiter. -/
def State.commit (s : State P) (p : P) (c : Pc P) (w : Word) : State P :=
  { s with
    word := w
    pc := Function.update s.pc p c
    woken := if c.owns then Function.update s.woken p false else s.woken }

/-- `Parker::new`, `prepare_park` and `make_node`. -/
def State.newNode (s : State P) (p : P) : State P :=
  { s with
    node := Function.update s.node p (some s.fresh)
    flag := Function.update s.flag s.fresh false
    fresh := s.fresh + 1 }

/-- The node and its parker go out of scope; whoever leaves is no longer a woken waiter. -/
def State.freeNode (s : State P) (p : P) (leaves : Bool) : State P :=
  { s with
    node := Function.update s.node p none
    woken := if leaves then Function.update s.woken p false else s.woken }

def State.isOnList (s : State P) (p : P) : Bool :=
  s.queue.any fun e => s.node p == some e.id

/-- What follows once the old node is off the list. -/
def State.finish (s : State P) (p : P) : Leave → State P
  | .retry timed => (s.freeNode p false).goto p (.cas (.lockInner timed) unlocked)
  | .success => (s.freeNode p false).goto p .holding
  | .timeout => (s.freeNode p true).goto p .idle
  | .renew cx => (s.newNode p).goto p (.lockPush (.poll cx))
  | .future held => (s.freeNode p true).goto p (if held then .holding else .idle)

/-- The waker a waiter puts in its node: `parker.waker()`, or an unattached task waker. -/
def Call.waker (p : P) (i : Nat) : Call → Waker P
  | .poll cx => ⟨none, .task cx⟩
  | _ => ⟨some i, .thread p⟩

def State.push (s : State P) (p : P) (i : Nat) (c : Call) : State P :=
  { s with
    queue := ⟨i, p, c.waker p i⟩ :: s.queue
    woken := Function.update s.woken p false }

def State.remove (s : State P) (p : P) : State P :=
  { s with queue := s.queue.filter fun e => s.node p != some e.id }

/-- `pop_tail` took `e`, whose owner now is a woken waiter unless it owns the lock. -/
def State.popped (s : State P) (e : Entry P) : State P :=
  { s with
    queue := s.queue.dropLast
    woken := Function.update s.woken e.owner (!(s.pc e.owner).owns) }

/-- `Waker::wake`: the store to `should_wakeup`. Parking may return spuriously, so the
`unpark` that follows changes nothing here. -/
def State.signal (s : State P) (e : Entry P) : State P :=
  match e.data.parker with
  | some i => { s with flag := Function.update s.flag i true }
  | none => s

def State.release (s : State P) (p : P) : After → State P
  | .pushed (.lockInner timed) => { s with qlock := none }.goto p (.park timed)
  | .pushed _ => { s with qlock := none }.goto p .idle
  | .aborted (.lockInner _) => { s with qlock := none }.goto p (.dropNode .success)
  | .aborted _ => { s with qlock := none }.goto p .holding
  | .dropped k => { s with qlock := none }.finish p k
  | .released r => { s with qlock := none }.goto p (afterRelease r)

def State.acquire (s : State P) (p : P) (c : Pc P) : Option (State P) :=
  match s.qlock with
  | none => some ({ s with qlock := some p }.goto p c)
  | some _ => none

section fields
variable {P : Type*} (s : State P) (p : P)

@[simp] theorem remove_fields :
    (s.remove p).word = s.word ∧ (s.remove p).qlock = s.qlock ∧ (s.remove p).fresh = s.fresh ∧
      (s.remove p).flag = s.flag ∧ (s.remove p).pc = s.pc ∧ (s.remove p).node = s.node ∧
      (s.remove p).woken = s.woken :=
  ⟨rfl, rfl, rfl, rfl, rfl, rfl, rfl⟩

@[simp] theorem signal_fields (e : Entry P) :
    (s.signal e).word = s.word ∧ (s.signal e).queue = s.queue ∧ (s.signal e).qlock = s.qlock ∧
      (s.signal e).fresh = s.fresh ∧ (s.signal e).pc = s.pc ∧ (s.signal e).node = s.node ∧
      (s.signal e).woken = s.woken := by
  unfold State.signal
  split <;> exact ⟨rfl, rfl, rfl, rfl, rfl, rfl, rfl⟩

variable [DecidableEq P]

@[simp] theorem goto_fields (c : Pc P) :
    (s.goto p c).word = s.word ∧ (s.goto p c).queue = s.queue ∧ (s.goto p c).qlock = s.qlock ∧
      (s.goto p c).fresh = s.fresh ∧ (s.goto p c).flag = s.flag ∧
      (s.goto p c).pc = Function.update s.pc p c ∧ (s.goto p c).node = s.node ∧
      (s.goto p c).woken = s.woken :=
  ⟨rfl, rfl, rfl, rfl, rfl, rfl, rfl, rfl⟩

@[simp] theorem commit_fields (c : Pc P) (w : Word) :
    (s.commit p c w).word = w ∧ (s.commit p c w).queue = s.queue ∧
      (s.commit p c w).qlock = s.qlock ∧ (s.commit p c w).fresh = s.fresh ∧
      (s.commit p c w).flag = s.flag ∧ (s.commit p c w).pc = Function.update s.pc p c ∧
      (s.commit p c w).node = s.node :=
  ⟨rfl, rfl, rfl, rfl, rfl, rfl, rfl⟩

@[simp] theorem newNode_fields :
    (s.newNode p).word = s.word ∧ (s.newNode p).queue = s.queue ∧
      (s.newNode p).qlock = s.qlock ∧ (s.newNode p).pc = s.pc ∧ (s.newNode p).woken = s.woken :=
  ⟨rfl, rfl, rfl, rfl, rfl⟩

@[simp] theorem freeNode_fields (leaves : Bool) :
    (s.freeNode p leaves).word = s.word ∧ (s.freeNode p leaves).queue = s.queue ∧
      (s.freeNode p leaves).qlock = s.qlock ∧ (s.freeNode p leaves).fresh = s.fresh ∧
      (s.freeNode p leaves).flag = s.flag ∧ (s.freeNode p leaves).pc = s.pc :=
  ⟨rfl, rfl, rfl, rfl, rfl, rfl⟩

@[simp] theorem push_fields (i : Nat) (c : Call) :
    (s.push p i c).word = s.word ∧ (s.push p i c).qlock = s.qlock ∧
      (s.push p i c).fresh = s.fresh ∧ (s.push p i c).flag = s.flag ∧
      (s.push p i c).pc = s.pc ∧ (s.push p i c).node = s.node :=
  ⟨rfl, rfl, rfl, rfl, rfl, rfl⟩

@[simp] theorem popped_fields (e : Entry P) :
    (s.popped e).word = s.word ∧ (s.popped e).qlock = s.qlock ∧ (s.popped e).fresh = s.fresh ∧
      (s.popped e).flag = s.flag ∧ (s.popped e).pc = s.pc ∧ (s.popped e).node = s.node :=
  ⟨rfl, rfl, rfl, rfl, rfl, rfl⟩

@[simp] theorem finish_fields (k : Leave) :
    (s.finish p k).word = s.word ∧ (s.finish p k).queue = s.queue ∧
      (s.finish p k).qlock = s.qlock := by
  cases k <;> exact ⟨rfl, rfl, rfl⟩

@[simp] theorem release_fields (a : After) :
    (s.release p a).word = s.word ∧ (s.release p a).queue = s.queue ∧
      (s.release p a).qlock = none := by
  cases a with
  | pushed c | aborted c => cases c <;> exact ⟨rfl, rfl, rfl⟩
  | dropped k => exact finish_fields { s with qlock := none } p k
  | released r => exact ⟨rfl, rfl, rfl⟩

end fields

def queueStep (s : State P) (p : P) : Option (State P) :=
  match s.pc p with
  | .prepare timed => some ((s.newNode p).goto p (.lockPush (.lockInner timed)))
  | .lockPush c => s.acquire p (.loadState c)
  | .pushHead c => (s.node p).map fun i => (s.push p i c).goto p (.unlockQueue (.pushed c))
  | .park timed =>
    (s.node p).bind fun i => if s.flag i then some (s.goto p (.fairLoad timed)) else none
  | .dropNode k => some (if s.isOnList p then s.goto p (.lockDrop k) else s.finish p k)
  | .lockDrop k => s.acquire p (.removeNode k)
  | .removeNode k => some ((s.remove p).goto p (.unlockQueue (.dropped k)))
  | .lockPop r => s.acquire p (.popTail r)
  | .popTail r =>
    match s.queue.getLast? with
    | none => some (s.goto p (if r = .unlockFair then .onEmpty else .unlockQueue (.released r)))
    | some e =>
      some ((s.popped e).goto p
        (if r = .unlockFair then .mark e (s.queue.length - 1) else .wake r e (s.queue.length - 1)))
  | .wake r e n =>
    some ((s.signal e).goto p
      (if r ≠ .unlockFair ∧ n = 0 then .clearWait r else .unlockQueue (.released r)))
  | .unlockQueue a => some (s.release p a)
  | _ => none

/-- What a party does next. Inside a call there is one next operation, but a timed wait may
also end by its timeout, at any moment. -/
inductive Act
  | next
  | start (c : Call)
  | release (r : Release)
  | timeout
  | dropFuture
  deriving DecidableEq

def Release.enter : Release → Pc P
  | .unlock => .fetchUnlock .unlock
  | .bump => .bumpLoad
  | .unlockFair => .lockPop .unlockFair

/-- A party with a node outside every call is a future between two polls, or one that is
kept alive after it returned `Ready`; it makes no blocking call. -/
def step (s : State P) : P × Act → Option (State P)
  | (p, .next) =>
    match atomic (s.pc p) s.word with
    | some (c, w) => some (s.commit p c w)
    | none => queueStep s p
  | (p, .start c) =>
    if s.pc p = .idle ∧ (s.node p = none ∨ c.isPoll) then
      some (s.goto p (.cas c unlocked)) else none
  | (p, .release r) =>
    if s.pc p = .holding ∧ (s.node p = none ∨ r ≠ .bump) then some (s.goto p r.enter) else none
  | (p, .timeout) =>
    if s.pc p = .park true then some (s.goto p (.dropNode .timeout)) else none
  | (p, .dropFuture) =>
    if s.pc p = .idle ∧ s.node p ≠ none then some (s.goto p (.dropNode (.future false)))
    else if s.pc p = .holding ∧ s.node p ≠ none then some (s.goto p (.dropNode (.future true)))
    else none

end Colock.RawMutex
