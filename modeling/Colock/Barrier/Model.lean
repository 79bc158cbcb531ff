import Colock.Parking.Waker
import Colock.Lib.Transition

/-! `Barrier` and `BarrierPoller` as a step machine over any number of parties. One step is
one operation under the list lock, taking or releasing it, one wake-up, or one of the
operations of a call outside it. The look at `is_on_list` in `Node::drop`, which takes no lock, comes
before or after an operation on the list and never inside one. -/
namespace Colock.Barrier
open Transition
variable {P : Type*} [DecidableEq P]

/-- Whether a thread waits, or a task polls with the task waker `cx`. -/
inductive Call
  | wait
  | poll (cx : Nat)
  deriving DecidableEq

/-- Why a node is dropped: `poll` makes a new one, `wait` returns, or the future is dropped. -/
inductive Leave
  | renew (cx : Nat)
  | returns (leader : Bool)
  | future
  deriving DecidableEq

/-- The next operation of a party; `out` is outside every call. `wake`, `popHead` and
`pushHead` are the two branches of `lock_inner`. -/
inductive Pc (P : Type*)
  | out
  | check (cx : Nat)
  | newParker (c : Call)
  | lockList (c : Call)
  | count (c : Call)
  | pushHead (c : Call)
  | popHead (c : Call)
  | wake (c : Call) (e : Entry P)
  | unlockList (c : Call) (shouldSleep : Bool)
  | park
  | dropNode (k : Leave)
  | lockDrop (k : Leave)
  | removeNode (k : Leave)
  | unlockDrop (k : Leave)
  deriving DecidableEq

/-- `parker` names the parker that stands where the party keeps its parker, on its frame or
in its poller, and `flag i` is `should_wakeup` of parker `i`. A node has the number of the
parker it is made with. `result` is what the last call returned, `none` for `Pending`. -/
structure State (P : Type*) where
  queue : List (Entry P)
  lock : Option P
  fresh : Nat
  flag : Nat → Bool
  pc : P → Pc P
  node : P → Option Nat
  parker : P → Option Nat
  result : P → Option Bool

def init : State P where
  queue := []
  lock := none
  fresh := 0
  flag := fun _ => false
  pc := fun _ => .out
  node := fun _ => none
  parker := fun _ => none
  result := fun _ => none

def State.goto (s : State P) (p : P) (c : Pc P) : State P :=
  { s with pc := Function.update s.pc p c }

def State.returns (s : State P) (p : P) (r : Option Bool) : State P :=
  { s with pc := Function.update s.pc p .out, result := Function.update s.result p r }

/-- `Parker::new` and `make_node`; a poller puts the new parker where the old one was. -/
def State.newParker (s : State P) (p : P) : State P :=
  { s with
    parker := Function.update s.parker p (some s.fresh)
    node := Function.update s.node p (some s.fresh)
    flag := Function.update s.flag s.fresh false
    fresh := s.fresh + 1 }

def Call.waker (p : P) (i : Nat) : Call → Waker P
  | .wait => ⟨some i, .thread p⟩
  | .poll cx => ⟨some i, .task cx⟩

def State.push (s : State P) (p : P) (i : Nat) (c : Call) : State P :=
  { s with queue := ⟨i, p, c.waker p i⟩ :: s.queue }

def State.remove (s : State P) (p : P) : State P :=
  { s with queue := s.queue.filter fun e => s.node p != some e.id }

/-- `Waker::wake`: the store goes to the place its parker was made at, whichever parker is
there by now. -/
def State.signal (s : State P) (e : Entry P) : State P :=
  match s.parker e.owner with
  | some i => { s with flag := Function.update s.flag i true }
  | none => s

def State.isOnList (s : State P) (p : P) : Bool :=
  s.queue.any fun e => s.node p == some e.id

/-- What follows once the node is off the list. The parker is dropped after it. -/
def State.finish (s : State P) (p : P) : Leave → State P
  | .renew cx => { s with node := Function.update s.node p none }.goto p (.newParker (.poll cx))
  | .returns leader =>
    { s with
      node := Function.update s.node p none
      parker := Function.update s.parker p none }.returns p (some leader)
  | .future =>
    { s with
      node := Function.update s.node p none
      parker := Function.update s.parker p none }.returns p none

def State.acquire (s : State P) (p : P) (c : Pc P) : Option (State P) :=
  match s.lock with
  | none => some ({ s with lock := some p }.goto p c)
  | some _ => none

def State.release (s : State P) (p : P) : Call → Bool → State P
  | .wait, shouldSleep =>
    { s with lock := none }.goto p (if shouldSleep then .park else .dropNode (.returns true))
  | .poll _, shouldSleep =>
    { s with lock := none }.returns p (if shouldSleep then none else some true)

def next (target : Nat) (s : State P) (p : P) : Option (State P) :=
  match s.pc p with
  | .check cx =>
    some (if (s.parker p).map s.flag = some true then s.returns p (some false)
      else s.goto p (.dropNode (.renew cx)))
  | .newParker c => some ((s.newParker p).goto p (.lockList c))
  | .lockList c => s.acquire p (.count c)
  | .count c => some (s.goto p (if s.queue.length = target - 1 then .popHead c else .pushHead c))
  | .pushHead c => (s.node p).map fun i => (s.push p i c).goto p (.unlockList c true)
  | .popHead c =>
    match s.queue with
    | [] => some (s.goto p (.unlockList c false))
    | e :: queue => some ({ s with queue := queue }.goto p (.wake c e))
  | .wake c e => some ((s.signal e).goto p (.popHead c))
  | .unlockList c shouldSleep => some (s.release p c shouldSleep)
  | .park =>
    (s.parker p).bind fun i =>
      if s.flag i then some (s.goto p (.dropNode (.returns false))) else none
  | .dropNode k => some (if s.isOnList p then s.goto p (.lockDrop k) else s.finish p k)
  | .lockDrop k => s.acquire p (.removeNode k)
  | .removeNode k => some ((s.remove p).goto p (.unlockDrop k))
  | .unlockDrop k => some ({ s with lock := none }.finish p k)
  | .out => none

inductive Act
  | next
  | wait
  | poll (cx : Nat)
  | dropFuture
  deriving DecidableEq

/-- A party that has a node or a parker outside every call is a future. -/
def step (target : Nat) (s : State P) : P × Act → Option (State P)
  | (p, .next) => next target s p
  | (p, .wait) =>
    if s.pc p = .out ∧ s.node p = none ∧ s.parker p = none then
      some (if target = 0 then s.returns p (some true) else s.goto p (.newParker .wait)) else none
  | (p, .poll cx) =>
    if s.pc p = .out then
      some (if target = 0 then s.returns p (some true) else s.goto p (.check cx)) else none
  | (p, .dropFuture) =>
    if s.pc p = .out ∧ (s.node p ≠ none ∨ s.parker p ≠ none) then
      some (s.goto p (.dropNode .future)) else none

section fields
variable (s : State P) (p : P)

@[simp] theorem goto_fields (c : Pc P) :
    (s.goto p c).queue = s.queue ∧ (s.goto p c).lock = s.lock ∧ (s.goto p c).fresh = s.fresh ∧
      (s.goto p c).flag = s.flag ∧ (s.goto p c).pc = Function.update s.pc p c ∧
      (s.goto p c).node = s.node ∧ (s.goto p c).parker = s.parker ∧
      (s.goto p c).result = s.result :=
  ⟨rfl, rfl, rfl, rfl, rfl, rfl, rfl, rfl⟩

@[simp] theorem returns_fields (r : Option Bool) :
    (s.returns p r).queue = s.queue ∧ (s.returns p r).lock = s.lock ∧
      (s.returns p r).fresh = s.fresh ∧ (s.returns p r).flag = s.flag ∧
      (s.returns p r).pc = Function.update s.pc p .out ∧ (s.returns p r).node = s.node ∧
      (s.returns p r).parker = s.parker ∧ (s.returns p r).result = Function.update s.result p r :=
  ⟨rfl, rfl, rfl, rfl, rfl, rfl, rfl, rfl⟩

omit [DecidableEq P] in
@[simp] theorem push_fields (i : Nat) (c : Call) :
    (s.push p i c).lock = s.lock ∧ (s.push p i c).fresh = s.fresh ∧
      (s.push p i c).flag = s.flag ∧ (s.push p i c).pc = s.pc ∧ (s.push p i c).node = s.node ∧
      (s.push p i c).parker = s.parker :=
  ⟨rfl, rfl, rfl, rfl, rfl, rfl⟩

omit [DecidableEq P] in
@[simp] theorem remove_fields :
    (s.remove p).lock = s.lock ∧ (s.remove p).fresh = s.fresh ∧ (s.remove p).flag = s.flag ∧
      (s.remove p).pc = s.pc ∧ (s.remove p).node = s.node ∧ (s.remove p).parker = s.parker :=
  ⟨rfl, rfl, rfl, rfl, rfl, rfl⟩

omit [DecidableEq P] in
@[simp] theorem signal_fields (e : Entry P) :
    (s.signal e).queue = s.queue ∧ (s.signal e).lock = s.lock ∧ (s.signal e).fresh = s.fresh ∧
      (s.signal e).pc = s.pc ∧ (s.signal e).node = s.node ∧ (s.signal e).parker = s.parker := by
  unfold State.signal
  split <;> exact ⟨rfl, rfl, rfl, rfl, rfl, rfl⟩

@[simp] theorem newParker_fields :
    (s.newParker p).queue = s.queue ∧ (s.newParker p).lock = s.lock ∧
      (s.newParker p).pc = s.pc :=
  ⟨rfl, rfl, rfl⟩

@[simp] theorem finish_fields (k : Leave) :
    (s.finish p k).queue = s.queue ∧ (s.finish p k).lock = s.lock ∧
      (s.finish p k).fresh = s.fresh ∧ (s.finish p k).flag = s.flag ∧
      (s.finish p k).node = Function.update s.node p none := by
  cases k <;> exact ⟨rfl, rfl, rfl, rfl, rfl⟩

theorem finish_others (k : Leave) (q : P) (h : q ≠ p) :
    (s.finish p k).pc q = s.pc q ∧ (s.finish p k).parker q = s.parker q := by
  cases k <;> simp [State.finish, h]

end fields

theorem acquire_eq {s t : State P} {p : P} {c : Pc P} (h : s.acquire p c = some t) :
    s.lock = none ∧ t = { s with lock := some p }.goto p c := by
  unfold State.acquire at h
  split at h
  · next hl => exact ⟨hl, (Option.some.inj h).symm⟩
  · cases h

theorem release_others (s : State P) (p : P) (c : Call) (b : Bool) (q : P) (h : q ≠ p) :
    (s.release p c b).pc q = s.pc q := by
  cases c <;> simp [State.release, h]

inductive StepOf (target : Nat) (s : State P) (p : P) : Act → State P → Prop
  | free (a : Act) (h0 : target = 0) (hpc : s.pc p = .out) : StepOf target s p a (s.returns p (some true))
  | wait (h0 : target ≠ 0) (hpc : s.pc p = .out) (hnode : s.node p = none)
      (hparker : s.parker p = none) : StepOf target s p .wait (s.goto p (.newParker .wait))
  | poll (cx : Nat) (h0 : target ≠ 0) (hpc : s.pc p = .out) :
      StepOf target s p (.poll cx) (s.goto p (.check cx))
  | dropFuture (hpc : s.pc p = .out) (hfuture : s.node p ≠ none ∨ s.parker p ≠ none) :
      StepOf target s p .dropFuture (s.goto p (.dropNode .future))
  | ready (cx : Nat) (hpc : s.pc p = .check cx) (hflag : (s.parker p).map s.flag = some true) :
      StepOf target s p .next (s.returns p (some false))
  | renew (cx : Nat) (hpc : s.pc p = .check cx) (hflag : (s.parker p).map s.flag ≠ some true) :
      StepOf target s p .next (s.goto p (.dropNode (.renew cx)))
  | newParker (c : Call) (hpc : s.pc p = .newParker c) :
      StepOf target s p .next ((s.newParker p).goto p (.lockList c))
  | lockList (c : Call) (hpc : s.pc p = .lockList c) (hl : s.lock = none) :
      StepOf target s p .next ({ s with lock := some p }.goto p (.count c))
  | full (c : Call) (hpc : s.pc p = .count c) (hlen : s.queue.length = target - 1) :
      StepOf target s p .next (s.goto p (.popHead c))
  | room (c : Call) (hpc : s.pc p = .count c) (hlen : s.queue.length ≠ target - 1) :
      StepOf target s p .next (s.goto p (.pushHead c))
  | pushHead (c : Call) (i : Nat) (hpc : s.pc p = .pushHead c) (hnode : s.node p = some i) :
      StepOf target s p .next ((s.push p i c).goto p (.unlockList c true))
  | emptied (c : Call) (hpc : s.pc p = .popHead c) (hq : s.queue = []) :
      StepOf target s p .next (s.goto p (.unlockList c false))
  | popHead (c : Call) (e : Entry P) (queue : List (Entry P)) (hpc : s.pc p = .popHead c)
      (hq : s.queue = e :: queue) :
      StepOf target s p .next ({ s with queue := queue }.goto p (.wake c e))
  | wake (c : Call) (e : Entry P) (hpc : s.pc p = .wake c e) :
      StepOf target s p .next ((s.signal e).goto p (.popHead c))
  | unlockList (c : Call) (shouldSleep : Bool) (hpc : s.pc p = .unlockList c shouldSleep) :
      StepOf target s p .next (s.release p c shouldSleep)
  | park (i : Nat) (hpc : s.pc p = .park) (hparker : s.parker p = some i)
      (hflag : s.flag i = true) : StepOf target s p .next (s.goto p (.dropNode (.returns false)))
  | dropLinked (k : Leave) (hpc : s.pc p = .dropNode k) (hon : s.isOnList p = true) :
      StepOf target s p .next (s.goto p (.lockDrop k))
  | dropOff (k : Leave) (hpc : s.pc p = .dropNode k) (hoff : s.isOnList p = false) :
      StepOf target s p .next (s.finish p k)
  | lockDrop (k : Leave) (hpc : s.pc p = .lockDrop k) (hl : s.lock = none) :
      StepOf target s p .next ({ s with lock := some p }.goto p (.removeNode k))
  | removeNode (k : Leave) (hpc : s.pc p = .removeNode k) :
      StepOf target s p .next ((s.remove p).goto p (.unlockDrop k))
  | unlockDrop (k : Leave) (hpc : s.pc p = .unlockDrop k) :
      StepOf target s p .next ({ s with lock := none }.finish p k)

theorem step_cases {target : Nat} {s t : State P} {p : P} {a : Act}
    (h : step target s (p, a) = some t) : StepOf target s p a t := by
  cases a with
  | wait =>
    simp only [step, Option.ite_none_right_eq_some, Option.some.injEq] at h
    obtain ⟨⟨hpc, hnode, hparker⟩, rfl⟩ := h
    split
    · next h0 => exact .free _ h0 hpc
    · next h0 => exact .wait h0 hpc hnode hparker
  | poll cx =>
    simp only [step, Option.ite_none_right_eq_some, Option.some.injEq] at h
    obtain ⟨hpc, rfl⟩ := h
    split
    · next h0 => exact .free _ h0 hpc
    · next h0 => exact .poll cx h0 hpc
  | dropFuture =>
    simp only [step, Option.ite_none_right_eq_some, Option.some.injEq] at h
    obtain ⟨⟨hpc, hfuture⟩, rfl⟩ := h
    exact .dropFuture hpc hfuture
  | next =>
    simp only [step] at h
    cases hpc : s.pc p with
    | out => simp [next, hpc] at h
    | check cx =>
      simp only [next, hpc, Option.some.injEq] at h
      subst t
      split
      · next hflag => exact .ready cx hpc hflag
      · next hflag => exact .renew cx hpc hflag
    | newParker c =>
      simp only [next, hpc, Option.some.injEq] at h
      exact h ▸ .newParker c hpc
    | lockList c =>
      simp only [next, hpc] at h
      obtain ⟨hl, rfl⟩ := acquire_eq h
      exact .lockList c hpc hl
    | count c =>
      simp only [next, hpc, Option.some.injEq] at h
      subst t
      split
      · next hlen => exact .full c hpc hlen
      · next hlen => exact .room c hpc hlen
    | pushHead c =>
      simp only [next, hpc, Option.map_eq_some_iff] at h
      obtain ⟨i, hnode, rfl⟩ := h
      exact .pushHead c i hpc hnode
    | popHead c =>
      simp only [next, hpc] at h
      split at h
      · next hq => exact Option.some.inj h ▸ .emptied c hpc hq
      · next e queue hq => exact Option.some.inj h ▸ .popHead c e queue hpc hq
    | wake c e =>
      simp only [next, hpc, Option.some.injEq] at h
      exact h ▸ .wake c e hpc
    | unlockList c b =>
      simp only [next, hpc, Option.some.injEq] at h
      exact h ▸ .unlockList c b hpc
    | park =>
      simp only [next, hpc, Option.bind_eq_some_iff, Option.ite_none_right_eq_some,
        Option.some.injEq] at h
      obtain ⟨i, hparker, hflag, rfl⟩ := h
      exact .park i hpc hparker hflag
    | dropNode k =>
      simp only [next, hpc, Option.some.injEq] at h
      subst t
      split
      · next hon => exact .dropLinked k hpc hon
      · next hoff => exact .dropOff k hpc (by simpa using hoff)
    | lockDrop k =>
      simp only [next, hpc] at h
      obtain ⟨hl, rfl⟩ := acquire_eq h
      exact .lockDrop k hpc hl
    | removeNode k =>
      simp only [next, hpc, Option.some.injEq] at h
      exact h ▸ .removeNode k hpc
    | unlockDrop k =>
      simp only [next, hpc, Option.some.injEq] at h
      exact h ▸ .unlockDrop k hpc

theorem step_others {target : Nat} {s t : State P} {p q : P} {a : Act}
    (h : step target s (p, a) = some t) (hq : q ≠ p) :
    t.pc q = s.pc q ∧ t.parker q = s.parker q := by
  cases step_cases h with
  | unlockList c b => exact ⟨release_others s p c b q hq, by cases c <;> rfl⟩
  | dropOff k => exact finish_others s p k q hq
  | unlockDrop k => exact finish_others { s with lock := none } p k q hq
  | newParker c => simp [State.newParker, hq]
  | _ => simp [hq]

/-- The call of `p` ends in this step with the answer `leader`. -/
def Answers (s t : State P) (p : P) (leader : Bool) : Prop :=
  s.pc p ≠ .out ∧ t.pc p = .out ∧ t.result p = some leader

instance (s t : State P) (p : P) (leader : Bool) : Decidable (Answers s t p leader) :=
  inferInstanceAs (Decidable (_ ∧ _))

end Colock.Barrier
