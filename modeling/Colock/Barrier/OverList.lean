import Colock.Barrier.OverMiniLock
import Colock.Barrier.WellFormed
import Colock.IntrusiveList.WaitQueue

/-! `Barrier` with its queue on the heap. The number of nodes in the header decides who leads, and a
leader takes the nodes from the head until the links end. Each function of the list is one step here,
and so is the look at `is_on_list` in `Node::drop`, which does not take the lock of the list. -/
namespace Colock.Barrier
open Transition LockImpl Program IntrusiveList
variable {P : Type} [DecidableEq P]

/-- `queue` of `state` is not used, and `heap` stores the nodes. -/
structure OnHeap (P : Type) where
  state : State P
  heap : Mem Nat Unit (Entry P)

def State.unqueued (s : State P) : State P := { s with queue := [] }

namespace OnHeap

def start : OnHeap P := ⟨init, Mem.empty⟩

def makeNode (x : OnHeap P) (p : P) (c : Call) : Mem Nat Unit (Entry P) :=
  x.heap.alloc x.state.fresh (Node.new ⟨x.state.fresh, p, c.waker p x.state.fresh⟩)

def freeNode (x : OnHeap P) (p : P) : Mem Nat Unit (Entry P) :=
  match x.state.node p with
  | some i => x.heap.free i
  | none => x.heap

def finish (x : OnHeap P) (p : P) (k : Leave) : OnHeap P := ⟨x.state.finish p k, x.freeNode p⟩

def pushHead (dbg : Bool) (x : OnHeap P) (p : P) (c : Call) (i : Nat) : Option (OnHeap P) :=
  match exec perform (IntrusiveList.pushHead dbg () i) x.heap with
  | some (.ok _, m) => some ⟨((x.state.push p i c).goto p (.unlockList c true)).unqueued, m⟩
  | _ => none

/-- The whole of `pop_head` is one step. -/
def popHead (dbg : Bool) (x : OnHeap P) (p : P) (c : Call) : Option (OnHeap P) :=
  (exec perform (IntrusiveList.popHead dbg ()) x.heap).map fun r =>
    match r.1 with
    | none => ⟨x.state.goto p (.unlockList c false), r.2⟩
    | some e => ⟨x.state.goto p (.wake c e), r.2⟩

/-- `Node::drop` reads the flag in the node before it takes the lock. -/
def dropNode (x : OnHeap P) (p : P) (k : Leave) (i : Nat) : Option (OnHeap P) :=
  (exec perform (load i (·.isOnList)) x.heap).map fun r =>
    if r.1 then ⟨x.state.goto p (.lockDrop k), r.2⟩ else finish ⟨x.state, r.2⟩ p k

def removeNode (dbg : Bool) (x : OnHeap P) (p : P) (k : Leave) (i : Nat) : Option (OnHeap P) :=
  (exec perform (IntrusiveList.removeNode dbg () i) x.heap).map fun r =>
    ⟨x.state.goto p (.unlockDrop k), r.2⟩

def next (dbg : Bool) (target : Nat) (x : OnHeap P) (p : P) : Option (OnHeap P) :=
  match x.state.pc p, x.state.node p with
  | .newParker c, _ => some ⟨(x.state.newParker p).goto p (.lockList c), x.makeNode p c⟩
  | .count c, _ =>
    some ⟨x.state.goto p (if (x.heap.list ()).count = target - 1 then .popHead c else .pushHead c),
      x.heap⟩
  | .pushHead c, some i => x.pushHead dbg p c i
  | .popHead c, _ => x.popHead dbg p c
  | .dropNode k, some i => x.dropNode p k i
  | .dropNode k, none => some (x.finish p k)
  | .removeNode k, some i => x.removeNode dbg p k i
  | .unlockDrop k, _ => some (finish ⟨{ x.state with lock := none }, x.heap⟩ p k)
  | _, _ => (Barrier.next target x.state p).map (⟨·, x.heap⟩)

def step (dbg : Bool) (target : Nat) (x : OnHeap P) : P × Act → Option (OnHeap P)
  | (p, .next) => x.next dbg target p
  | l => (Barrier.step target x.state l).map (⟨·, x.heap⟩)

end OnHeap

def Pc.pushing : Pc P → Option Call
  | .lockList c | .count c | .pushHead c => some c
  | _ => none

def State.made (s : State P) (p : P) : Option (Waker P) :=
  (s.pc p).pushing.bind fun c => (s.node p).map (c.waker p)

structure OnHeap.Agrees (x : OnHeap P) (s : State P) : Prop where
  state : x.state = s.unqueued
  stores : Stores x.heap s.queue s.node s.made s.fresh

omit [DecidableEq P] in
theorem OnHeap.Agrees.pc {x : OnHeap P} {s : State P} (h : x.Agrees s) (p : P) :
    x.state.pc p = s.pc p := by
  rw [h.state]
  rfl

omit [DecidableEq P] in
theorem OnHeap.Agrees.node {x : OnHeap P} {s : State P} (h : x.Agrees s) (p : P) :
    x.state.node p = s.node p := by
  rw [h.state]
  rfl

def Pc.touches : Pc P → Bool
  | .newParker _ | .count _ | .pushHead _ | .popHead _ | .dropNode _ | .removeNode _
  | .unlockDrop _ => true
  | _ => false

omit [DecidableEq P] in
theorem unqueued_fields (s : State P) :
    s.unqueued.lock = s.lock ∧ s.unqueued.fresh = s.fresh ∧ s.unqueued.flag = s.flag ∧
      s.unqueued.pc = s.pc ∧ s.unqueued.node = s.node ∧ s.unqueued.parker = s.parker ∧
      s.unqueued.result = s.result :=
  ⟨rfl, rfl, rfl, rfl, rfl, rfl, rfl⟩

theorem next_unqueued (target : Nat) (s : State P) {p : P} (h : (s.pc p).touches = false) :
    next target s.unqueued p = (next target s p).map State.unqueued := by
  cases hpc : s.pc p with
  | check cx =>
    simp only [next, unqueued_fields, hpc]
    split <;> rfl
  | lockList _ | lockDrop _ =>
    cases hl : s.lock with
    | none => simp [next, unqueued_fields, hpc, State.acquire, hl]; rfl
    | some q => simp [next, unqueued_fields, hpc, State.acquire, hl]
  | wake c e =>
    cases hparker : s.parker e.owner <;> simp [next, unqueued_fields, hpc, State.signal, hparker] <;> rfl
  | unlockList c b =>
    cases c <;> simp [next, unqueued_fields, hpc, State.release] <;> rfl
  | park =>
    cases hparker : s.parker p with
    | none => simp [next, unqueued_fields, hpc, hparker]
    | some i =>
      by_cases hflag : s.flag i = true
      · simp [next, unqueued_fields, hpc, hparker, hflag]
        rfl
      · simp [next, unqueued_fields, hpc, hparker, hflag]
  | out => simp [next, unqueued_fields, hpc]
  | _ => simp [hpc, Pc.touches] at h

theorem step_unqueued (target : Nat) (s : State P) {p : P} {a : Act}
    (h : a = .next → (s.pc p).touches = false) :
    step target s.unqueued (p, a) = (step target s (p, a)).map State.unqueued := by
  cases a with
  | next => exact next_unqueued target s (h rfl)
  | wait | poll cx =>
    simp only [step, unqueued_fields]
    split
    · split <;> rfl
    · rfl
  | dropFuture =>
    simp only [step, unqueued_fields]
    split <;> rfl

theorem step_untouched {target : Nat} {s t : State P} {p : P} {a : Act}
    (h : step target s (p, a) = some t) (hp : a = .next → (s.pc p).touches = false) :
    t.queue = s.queue ∧ t.node = s.node ∧ t.fresh = s.fresh ∧
      ∀ c, (t.pc p).pushing = some c → (s.pc p).pushing = some c := by
  have htouches : ∀ c : Pc P, s.pc p = c → a = .next → c.touches = false := fun c hc ha => hc ▸ hp ha
  cases step_cases h with
  | newParker _ hpc | full _ hpc | room _ hpc | pushHead _ _ hpc | emptied _ hpc | popHead _ _ _ hpc
  | dropLinked _ hpc | dropOff _ hpc | removeNode _ hpc | unlockDrop _ hpc =>
    have hfalse := htouches _ hpc rfl
    simp [Pc.touches] at hfalse
  | lockList c hpc => simp [hpc, Pc.pushing]
  | unlockList c b hpc => cases c <;> cases b <;> simp [State.release, Pc.pushing]
  | _ => simp [Pc.pushing]

theorem OnHeap.Agrees.plain {target : Nat} {x : OnHeap P} {s : State P} (h : x.Agrees s) {p : P}
    {a : Act} (hp : a = .next → (s.pc p).touches = false) :
    Option.Rel Agrees ((Barrier.step target x.state (p, a)).map (⟨·, x.heap⟩))
      (Barrier.step target s (p, a)) := by
  rw [h.state, step_unqueued target s hp]
  cases hs : Barrier.step target s (p, a) with
  | none => exact .none
  | some t =>
    obtain ⟨hqueue, hnode, hfresh, hpushing⟩ := step_untouched hs hp
    refine .some ⟨rfl, ?_⟩
    rw [hqueue, hnode, hfresh]
    refine h.stores.mono fun q w hw => ?_
    simp only [State.made, hnode, Option.bind_eq_some_iff] at hw ⊢
    obtain ⟨c, hc, hw⟩ := hw
    refine ⟨c, ?_, hw⟩
    by_cases hq : q = p
    · exact hq ▸ hpushing c (hq ▸ hc)
    · rwa [(step_others hs hq).1] at hc

theorem OnHeap.Agrees.goto {x : OnHeap P} {s : State P} (h : x.Agrees s) (p : P) {c : Pc P}
    (hc : ∀ call, c.pushing = some call → (s.pc p).pushing = some call) :
    Agrees ⟨x.state.goto p c, x.heap⟩ (s.goto p c) := by
  refine ⟨by rw [h.state]; rfl, h.stores.mono fun q w hw => ?_⟩
  by_cases hq : q = p
  · subst q
    simp only [State.made, goto_fields, Function.update_self, Option.bind_eq_some_iff] at hw ⊢
    obtain ⟨call, hcall, hw⟩ := hw
    exact ⟨call, hc call hcall, hw⟩
  · simpa [State.made, hq] using hw

theorem OnHeap.Agrees.finish {x : OnHeap P} {s : State P} (h : x.Agrees s) (hs : WellFormed s) {p : P}
    (hoff : s.Off p) (k : Leave) : (x.finish p k).Agrees (s.finish p k) := by
  have hnode : x.state.node p = s.node p := h.node p
  have hmine : ∀ q i, s.node q = some i → s.node p = some i → q = p := fun q i hq hi =>
    hs.parker_inj q p i (hs.node_parker q i hq) (hs.node_parker p i hi)
  have hfree : Stores (x.freeNode p) s.queue (Function.update s.node p none)
      (Function.update s.made p none) s.fresh := by
    cases hi : s.node p with
    | none =>
      have hmade : s.made p = none := by simp [State.made, hi]
      have hsame : Function.update s.node p none = s.node := by simp [← hi]
      have hsame' : Function.update s.made p none = s.made := by simp [← hmade]
      simpa [OnHeap.freeNode, hnode, hi, hsame, hsame'] using h.stores
    | some i =>
      have hout : i ∉ s.queue.map Entry.id := by
        intro hmem
        obtain ⟨e, he, rfl⟩ := List.mem_map.mp hmem
        exact hoff e he (hmine _ _ (hs.linked e he) hi)
      simpa [OnHeap.freeNode, hnode, hi] using h.stores.free hi hout fun q hq => hmine q i hq hi
  refine ⟨?_, ?_⟩
  · change x.state.finish p k = _
    rw [h.state]
    cases k <;> rfl
  · simp only [OnHeap.finish, finish_fields]
    refine hfree.mono fun q w hw => ?_
    by_cases hq : q = p
    · subst q
      simp [State.made] at hw
    · have hpc := (finish_others s p k q hq).1
      simpa [State.made, hpc, hq] using hw

theorem OnHeap.Agrees.newParker {x : OnHeap P} {s : State P} (h : x.Agrees s) (p : P) (c : Call) :
    Agrees ⟨(x.state.newParker p).goto p (.lockList c), x.makeNode p c⟩
      ((s.newParker p).goto p (.lockList c)) := by
  refine ⟨by rw [h.state]; rfl, ?_⟩
  have hmake := h.stores.make p (c.waker p s.fresh)
  have hfresh : x.state.fresh = s.fresh := by rw [h.state]; rfl
  simp only [OnHeap.makeNode, hfresh]
  refine hmake.mono fun q w hw => ?_
  by_cases hq : q = p
  · subst q
    simpa [State.made, State.newParker, Pc.pushing] using hw
  · simpa [State.made, State.newParker, hq] using hw

theorem OnHeap.Agrees.pushHead {x : OnHeap P} {s : State P} (h : x.Agrees s) (dbg : Bool) {p : P}
    {c : Call} {i : Nat} (hpc : s.pc p = .pushHead c) (hi : s.node p = some i) :
    ∃ y, x.pushHead dbg p c i = some y ∧ y.Agrees ((s.push p i c).goto p (.unlockList c true)) := by
  have hmade : s.made p = some (c.waker p i) := by simp [State.made, hpc, hi, Pc.pushing]
  obtain ⟨m, hexec, hstores⟩ := h.stores.pushHead dbg hi hmade
  have hpush : x.pushHead dbg p c i =
      some ⟨((x.state.push p i c).goto p (.unlockList c true)).unqueued, m⟩ := by
    simp only [OnHeap.pushHead, hexec]
  refine ⟨_, hpush, ?_, hstores.mono fun q w hw => ?_⟩
  · rw [h.state]
    rfl
  · by_cases hq : q = p
    · simp [State.made, hq, Pc.pushing] at hw
    · simpa [State.made, hq] using hw

theorem OnHeap.Agrees.popHead {target : Nat} {x : OnHeap P} {s : State P} (h : x.Agrees s)
    (dbg : Bool) {p : P} {c : Call} (hpc : s.pc p = .popHead c) :
    Option.Rel Agrees (x.popHead dbg p c) (Barrier.step target s (p, .next)) := by
  cases hq : s.queue with
  | nil =>
    have hs : Barrier.step target s (p, .next) = some (s.goto p (.unlockList c false)) := by
      simp [Barrier.step, Barrier.next, hpc, hq]
    have hexec := (hq ▸ h.stores).popAt_nil dbg .head
    rw [hs, OnHeap.popHead, IntrusiveList.popHead, hexec]
    exact .some (h.goto p fun call hcall => by cases hcall)
  | cons e queue =>
    have hs : Barrier.step target s (p, .next) = some ({ s with queue := queue }.goto p (.wake c e)) := by
      simp [Barrier.step, Barrier.next, hpc, hq]
    have htake : s.queue = insertAt .head e queue := hq
    obtain ⟨m, hexec, hstores⟩ := h.stores.popAt dbg .head htake
    have hpopped : Agrees ⟨x.state, m⟩ { s with queue := queue } := ⟨h.state, hstores⟩
    rw [hs, OnHeap.popHead, IntrusiveList.popHead, hexec]
    exact .some (hpopped.goto p fun call hcall => by cases hcall)

theorem OnHeap.Agrees.dropNode {x : OnHeap P} {s : State P} (h : x.Agrees s) (hs : WellFormed s)
    {p : P} {k : Leave} {i : Nat} (hi : s.node p = some i) : ∃ y, x.dropNode p k i = some y ∧
      y.Agrees (if s.isOnList p then s.goto p (.lockDrop k) else s.finish p k) := by
  have hflag : s.isOnList p = s.queue.any fun e => i == e.id := by simp [State.isOnList, hi]
  refine ⟨_, by rw [OnHeap.dropNode, h.stores.isOnList hi, Option.map_some], ?_⟩
  rw [← hflag]
  split
  · exact h.goto p fun call hcall => by cases hcall
  · next hoff => exact h.finish hs (hs.off_of_isOnList (by simpa using hoff)) k

theorem OnHeap.Agrees.removeNode {x : OnHeap P} {s : State P} (h : x.Agrees s) (dbg : Bool) {p : P}
    {k : Leave} {i : Nat} (hi : s.node p = some i) : ∃ y, x.removeNode dbg p k i = some y ∧
      y.Agrees ((s.remove p).goto p (.unlockDrop k)) := by
  obtain ⟨m, hexec, hstores⟩ := h.stores.removeNode dbg hi
  refine ⟨_, by rw [OnHeap.removeNode, hexec, Option.map_some], ?_⟩
  have hremoved : Agrees ⟨x.state, m⟩ (s.remove p) := by
    refine ⟨h.state, ?_⟩
    have hqueue : (s.remove p).queue = s.queue.filter fun e => some i != some e.id := by
      simp [State.remove, hi]
    rw [hqueue]
    exact hstores
  exact hremoved.goto p fun call hcall => by cases hcall

theorem OnHeap.next_plain (dbg : Bool) {target : Nat} {x : OnHeap P} {p : P}
    (h : (x.state.pc p).touches = false) :
    x.next dbg target p = (Barrier.step target x.state (p, .next)).map (⟨·, x.heap⟩) := by
  unfold OnHeap.next
  split <;> simp_all [Pc.touches, Barrier.step]

/-- The barrier on the heap goes on where the one with the abstract queue does, and in the same
way. -/
theorem OnHeap.Agrees.step {x : OnHeap P} {s : State P} (h : x.Agrees s) (hs : WellFormed s)
    (dbg : Bool) (target : Nat) (l : P × Act) :
    Option.Rel Agrees (x.step dbg target l) (Barrier.step target s l) := by
  obtain ⟨p, a⟩ := l
  cases a with
  | next =>
    change Option.Rel Agrees (x.next dbg target p) _
    cases hpc : s.pc p with
    | newParker c =>
      have hstep : Barrier.step target s (p, .next) = some ((s.newParker p).goto p (.lockList c)) := by
        simp [Barrier.step, Barrier.next, hpc]
      simp only [OnHeap.next, h.pc, hpc, hstep]
      exact .some (h.newParker p c)
    | count c =>
      have hstep : Barrier.step target s (p, .next) =
          some (s.goto p (if s.queue.length = target - 1 then .popHead c else .pushHead c)) := by
        simp [Barrier.step, Barrier.next, hpc]
      simp only [OnHeap.next, h.pc, hpc, hstep, h.stores.count]
      refine .some (h.goto p fun call hcall => ?_)
      split at hcall
      · cases hcall
      · simpa [hpc, Pc.pushing] using hcall
    | pushHead c =>
      cases hi : s.node p with
      | none =>
        have hnone : ∀ t : State P, t.pc p = .pushHead c → t.node p = none →
            Barrier.next target t p = none := by
          intro t htpc hti
          simp [Barrier.next, htpc, hti]
        have hx := hnone x.state ((h.pc p).trans hpc) ((h.node p).trans hi)
        have hstep : Barrier.step target s (p, .next) = none := hnone s hpc hi
        simp only [OnHeap.next, h.pc, h.node, hpc, hi, hx, hstep]
        exact .none
      | some i =>
        have hstep : Barrier.step target s (p, .next) =
            some ((s.push p i c).goto p (.unlockList c true)) := by
          simp [Barrier.step, Barrier.next, hpc, hi]
        obtain ⟨y, hy, hagrees⟩ := h.pushHead dbg hpc hi
        simp only [OnHeap.next, h.pc, h.node, hpc, hi, hy, hstep]
        exact .some hagrees
    | popHead c =>
      simp only [OnHeap.next, h.pc, hpc]
      exact h.popHead dbg hpc
    | dropNode k =>
      have hstep : Barrier.step target s (p, .next) =
          some (if s.isOnList p then s.goto p (.lockDrop k) else s.finish p k) := by
        simp [Barrier.step, Barrier.next, hpc]
      cases hi : s.node p with
      | none =>
        have hoff : s.isOnList p = false := by simp [State.isOnList, hi]
        simp only [OnHeap.next, h.pc, h.node, hpc, hi, hstep, hoff]
        exact .some (h.finish hs (hs.off_of_isOnList hoff) k)
      | some i =>
        obtain ⟨y, hy, hagrees⟩ := h.dropNode hs (k := k) hi
        simp only [OnHeap.next, h.pc, h.node, hpc, hi, hy, hstep]
        exact .some hagrees
    | removeNode k =>
      have hremove : ∀ t : State P, t.pc p = .removeNode k →
          Barrier.next target t p = some ((t.remove p).goto p (.unlockDrop k)) := by
        intro t htpc
        simp [Barrier.next, htpc]
      have hstep : Barrier.step target s (p, .next) = _ := hremove s hpc
      cases hi : s.node p with
      | none =>
        have hsame : ∀ t : State P, t.node p = none → t.remove p = t := by
          intro t hti
          have hqueue : (t.queue.filter fun e => none != some e.id) = t.queue :=
            List.filter_eq_self.mpr fun _ _ => rfl
          simp [State.remove, hti, hqueue]
        have hx := hremove x.state ((h.pc p).trans hpc)
        rw [hsame x.state ((h.node p).trans hi)] at hx
        simp only [OnHeap.next, h.pc, h.node, hpc, hi, hx, hstep, hsame s hi]
        exact .some (h.goto p fun call hcall => by cases hcall)
      | some i =>
        obtain ⟨y, hy, hagrees⟩ := h.removeNode dbg (k := k) hi
        simp only [OnHeap.next, h.pc, h.node, hpc, hi, hy, hstep]
        exact .some hagrees
    | unlockDrop k =>
      have hstep : Barrier.step target s (p, .next) = some ({ s with lock := none }.finish p k) := by
        simp [Barrier.step, Barrier.next, hpc]
      have hoff : s.Off p := hs.off p (by rw [hpc]; rfl)
      obtain ⟨hagrees, hstores⟩ := h.finish hs hoff k
      simp only [OnHeap.next, h.pc, hpc, hstep]
      refine .some ⟨?_, ?_⟩
      · change { x.state with lock := none }.finish p k = _
        rw [h.state]
        cases k <;> rfl
      · cases k <;> exact hstores
    | _ =>
      have hplain : (s.pc p).touches = false := by rw [hpc]; rfl
      rw [OnHeap.next_plain dbg (by rw [h.pc]; exact hplain)]
      exact h.plain fun _ => hplain
  | _ => exact h.plain (by simp)

omit [DecidableEq P] in
theorem OnHeap.agrees_start : (OnHeap.start : OnHeap P).Agrees init :=
  ⟨rfl, stores_empty.mono fun p w hw => by simp [State.made, init, Pc.pushing] at hw⟩

theorem OnHeap.related (dbg : Bool) (target : Nat) (x : OnHeap P) (s : State P) (l : P × Act)
    (h : x.Agrees s ∧ WellFormed s) :
    Option.Rel (fun x s => x.Agrees s ∧ WellFormed s) (x.step dbg target l)
      (Barrier.step target s l) := by
  have hstep := h.1.step h.2 dbg target l
  generalize hs : Barrier.step target s l = t at hstep
  generalize x.step dbg target l = y at hstep
  cases hstep with
  | none => exact .none
  | some hagrees => exact .some ⟨hagrees, step_wellFormed h.2 hs⟩

/-! ### Over `MiniLock` -/

theorem OnHeap.finish_frame (x : OnHeap P) (p : P) (k : Leave) :
    (x.finish p k).state.lock = x.state.lock ∧
      ∀ q, q ≠ p → (x.finish p k).state.pc q = x.state.pc q :=
  ⟨(finish_fields x.state p k).2.1, fun q hq => (finish_others x.state p k q hq).1⟩

theorem step_lock {target : Nat} {s t : State P} {p : P} {a : Act}
    (h : step target s (p, a) = some t) (hw : (s.pc p).wish = .nothing) : t.lock = s.lock :=
  (barrier target).nothing (s := s) hw h

theorem OnHeap.next_frame {dbg : Bool} {target : Nat} {x y : OnHeap P} {p : P}
    (h : x.next dbg target p = some y) : (∀ q, q ≠ p → y.state.pc q = x.state.pc q) ∧
      ((x.state.pc p).wish = .nothing → y.state.lock = x.state.lock) := by
  unfold OnHeap.next at h
  split at h
  · obtain rfl := Option.some.inj h
    exact ⟨fun q hq => by simp [hq], fun _ => by simp⟩
  · obtain rfl := Option.some.inj h
    exact ⟨fun q hq => by simp [hq], fun _ => by simp⟩
  · unfold OnHeap.pushHead at h
    split at h
    · obtain rfl := Option.some.inj h
      exact ⟨fun q hq => by simp [unqueued_fields, hq], fun _ => by simp [unqueued_fields]⟩
    · cases h
  · obtain ⟨⟨data, m⟩, -, rfl⟩ := Option.map_eq_some_iff.mp h
    cases data with
    | none => exact ⟨fun q hq => by simp [hq], fun _ => by simp⟩
    | some e => exact ⟨fun q hq => by simp [hq], fun _ => by simp⟩
  · obtain ⟨⟨on, m⟩, -, rfl⟩ := Option.map_eq_some_iff.mp h
    cases on with
    | true => exact ⟨fun q hq => by simp [hq], fun _ => by simp⟩
    | false =>
      obtain ⟨hlock, hpc⟩ := finish_frame ⟨x.state, m⟩ p (by assumption)
      exact ⟨hpc, fun _ => hlock⟩
  · obtain rfl := Option.some.inj h
    obtain ⟨hlock, hpc⟩ := x.finish_frame p (by assumption)
    exact ⟨hpc, fun _ => hlock⟩
  · obtain ⟨⟨u, m⟩, -, rfl⟩ := Option.map_eq_some_iff.mp h
    exact ⟨fun q hq => by simp [hq], fun _ => by simp⟩
  · next hpc =>
    obtain rfl := Option.some.inj h
    refine ⟨fun q hq => ?_, fun hw => by simp [hpc, Pc.wish] at hw⟩
    exact (finish_frame ⟨{ x.state with lock := none }, x.heap⟩ p _).2 q hq
  · obtain ⟨t, ht, rfl⟩ := Option.map_eq_some_iff.mp h
    have hs : Barrier.step target x.state (p, .next) = some t := ht
    exact ⟨fun q hq => (step_others hs hq).1, step_lock hs⟩

theorem OnHeap.step_frame {dbg : Bool} {target : Nat} {x y : OnHeap P} {p : P} {a : Act}
    (h : x.step dbg target (p, a) = some y) : (∀ q, q ≠ p → y.state.pc q = x.state.pc q) ∧
      ((x.state.pc p).wish = .nothing → y.state.lock = x.state.lock) := by
  cases a with
  | next => exact next_frame h
  | _ =>
    obtain ⟨t, ht, rfl⟩ := Option.map_eq_some_iff.mp h
    exact ⟨fun q hq => (step_others ht hq).1, step_lock ht⟩

def onHeap (dbg : Bool) (target : Nat) : Client P (OnHeap P) Act where
  step := OnHeap.step dbg target
  lock x := x.state.lock
  wish x p := (x.state.pc p).wish
  sync := .next
  nothing hw hs := (OnHeap.step_frame hs).2 hw
  acquire := by
    intro x p hw hlock
    obtain ⟨t, ht, htaken⟩ := (barrier target).acquire (s := x.state) hw hlock
    have hplain : (x.state.pc p).touches = false := by
      rcases wish_acquire hw with ⟨c, hpc⟩ | ⟨k, hpc⟩ <;> rw [hpc] <;> rfl
    have hnext : x.step dbg target (p, .next) = some ⟨t, x.heap⟩ := by
      have hraw : Barrier.step target x.state (p, .next) = some t := ht
      rw [OnHeap.step, OnHeap.next_plain dbg hplain, hraw]
      rfl
    exact ⟨_, hnext, htaken⟩
  release := by
    intro x p hw hlock
    rcases wish_release hw with ⟨c, b, hpc⟩ | ⟨k, hpc⟩
    · obtain ⟨t, ht, hgiven⟩ := (barrier target).release (s := x.state) hw hlock
      have hnext : x.step dbg target (p, .next) = some ⟨t, x.heap⟩ := by
        have hraw : Barrier.step target x.state (p, .next) = some t := ht
        rw [OnHeap.step, OnHeap.next_plain dbg (by rw [hpc]; rfl), hraw]
        rfl
      exact ⟨_, hnext, hgiven⟩
    · refine ⟨_, by simp only [OnHeap.step, OnHeap.next, hpc]; rfl, ?_⟩
      exact (OnHeap.finish_frame ⟨{ x.state with lock := none }, x.heap⟩ p k).1
  others := by
    intro x p q a y hs hpq
    rw [(OnHeap.step_frame hs).1 p hpq]

/-- The barrier with its queue on the heap does in every run what the barrier with the abstract queue
does, and can do whatever that one can: `push_head`, `pop_head`, `remove_node` and the look at the
flag in `Node::drop` never panic when each is one step, a leader takes what was linked up and nothing
else, and the nodes linked up on the heap are the queue, from either end. Over `MiniLock` too it does
nothing else. (A node may be dropped inside a `pop_head`: that race is the subject of
`IntrusiveList.DropRace`.) -/
theorem barrier_on_heap (dbg : Bool) (target : Nat) :
    (∀ ls : List (P × Act),
      Option.Rel (fun (x : OnHeap P) s => x.state = s.unqueued ∧ Shows x.heap s.queue)
        (run (OnHeap.step dbg target) OnHeap.start ls) (run (step target) init ls)) ∧
    ∀ x, Reach ((onHeap dbg target).over MiniLock.miniLock) anyStep (OnHeap.start, MiniLock.init) x →
      ∃ s : State P, Reach (step target) anyStep init s ∧ x.1.state = s.unqueued ∧
        Shows x.1.heap s.queue ∧ ∀ p, s.lock = some p ↔ (x.2.pc p).phase.has = true := by
  have hrelated := fun x s l h => OnHeap.related (P := P) dbg target x s l h
  have hstart : (OnHeap.start : OnHeap P).Agrees init ∧ WellFormed (init : State P) :=
    ⟨OnHeap.agrees_start, wellFormed_init⟩
  refine ⟨fun ls => rel_imp ?_ (run_rel hrelated hstart ls), fun x hx => ?_⟩
  · rintro y s ⟨hagrees, -⟩
    exact ⟨hagrees.state, hagrees.stores.shows⟩
  · obtain ⟨s, hs, ⟨hagrees, -⟩, hlock⟩ := over_related (C := onHeap dbg target) hrelated hstart rfl hx
    refine ⟨s, hs, hagrees.state, hagrees.stores.shows, fun p => ?_⟩
    have hsame : s.lock = x.1.state.lock := by rw [hagrees.state]; rfl
    rw [hsame]
    exact hlock p

def leadsThree (p q r : P) : List (P × Act) :=
  (p, .wait) :: List.replicate 5 (p, .next) ++ (q, .wait) :: List.replicate 5 (q, .next) ++
    (r, .wait) :: List.replicate 4 (r, .next)

theorem barrier_on_heap_leadsThree : ∃ (x : OnHeap (Fin 3)) (s : State (Fin 3)),
    run (OnHeap.step true 3) OnHeap.start (leadsThree 0 1 2) = some x ∧
      run (step 3) init (leadsThree 0 1 2) = some s ∧ s.queue.map Entry.id = [0] ∧
      Shows x.heap s.queue := by
  have hr : ((run (step 3) (init : State (Fin 3)) (leadsThree 0 1 2)).map fun s =>
      s.queue.map Entry.id) = some [0] := by decide
  obtain ⟨s, hs, hids⟩ := Option.map_eq_some_iff.mp hr
  have hrel := (barrier_on_heap true 3).1 (leadsThree (0 : Fin 3) 1 2)
  rw [hs] at hrel
  generalize hx : run (OnHeap.step true 3) OnHeap.start (leadsThree (0 : Fin 3) 1 2) = y at hrel
  cases hrel with
  | some h => exact ⟨_, s, rfl, hs, hids, h.2⟩

end Colock.Barrier
