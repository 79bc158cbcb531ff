import Colock.IntrusiveList.WaitQueue
import Colock.RawMutex.OverMiniLock
import Colock.RawMutex.WellFormed

/-! `RawMutex` with its queue on the heap: the nodes of the parties, the links between them and the
flags in them. The machine that works on the heap does what the machine with the abstract queue does.
Each function of the list is one step here, and so is the look at `is_on_list` in `Node::drop`, which
does not take the lock of the list. Such a look that falls inside a pop is the subject of
`IntrusiveList.DropRace`. -/
namespace Colock.RawMutex
open Transition LockImpl Program IntrusiveList
variable {P : Type} [DecidableEq P]

/-- `queue` of `state` is not used, and `heap` stores the nodes. The data in a node names the node
and its owner beside the waker. -/
structure OnHeap (P : Type) where
  state : State P
  heap : Mem Nat Unit (Entry P)

def State.unqueued (s : State P) : State P := { s with queue := [] }

namespace OnHeap

def start : OnHeap P := ⟨init, Mem.empty⟩

def makeNode (x : OnHeap P) (p : P) (c : Call) : Mem Nat Unit (Entry P) :=
  x.heap.alloc x.state.fresh (Node.new ⟨x.state.fresh, p, c.waker p x.state.fresh⟩)

def freeNode (x : OnHeap P) (p : P) : OnHeap P :=
  match x.state.node p with
  | some i => { x with heap := x.heap.free i }
  | none => x

def finish (x : OnHeap P) (p : P) (k : Leave) : OnHeap P where
  state := x.state.finish p k
  heap := match k with
    | .renew cx => (x.freeNode p).makeNode p (.poll cx)
    | _ => (x.freeNode p).heap

def pushHead (dbg : Bool) (x : OnHeap P) (p : P) (c : Call) (i : Nat) : Option (OnHeap P) :=
  match exec perform (IntrusiveList.pushHead dbg () i) x.heap with
  | some (.ok _, m) => some ⟨((x.state.push p i c).goto p (.unlockQueue (.pushed c))).unqueued, m⟩
  | _ => none

/-- The whole of `pop_tail` is one step. -/
def popTail (dbg : Bool) (x : OnHeap P) (p : P) (r : Release) : Option (OnHeap P) :=
  match exec perform (IntrusiveList.popTail dbg ()) x.heap with
  | some (none, m) =>
    some ⟨x.state.goto p (if r = .unlockFair then .onEmpty else .unlockQueue (.released r)), m⟩
  | some (some e, m) =>
    let n := (m.list ()).count
    some ⟨(x.state.popped e).goto p (if r = .unlockFair then .mark e n else .wake r e n), m⟩
  | none => none

/-- `Node::drop` reads the flag in the node before it takes the lock. -/
def dropNode (x : OnHeap P) (p : P) (k : Leave) (i : Nat) : Option (OnHeap P) :=
  (exec perform (load i (·.isOnList)) x.heap).map fun r =>
    if r.1 then ⟨x.state.goto p (.lockDrop k), r.2⟩ else finish ⟨x.state, r.2⟩ p k

def removeNode (dbg : Bool) (x : OnHeap P) (p : P) (k : Leave) (i : Nat) : Option (OnHeap P) :=
  (exec perform (IntrusiveList.removeNode dbg () i) x.heap).map fun r =>
    ⟨x.state.goto p (.unlockQueue (.dropped k)), r.2⟩

def next (dbg : Bool) (x : OnHeap P) (p : P) : Option (OnHeap P) :=
  match x.state.pc p, x.state.node p with
  | .prepare timed, _ =>
    some ⟨(x.state.newNode p).goto p (.lockPush (.lockInner timed)), x.makeNode p (.lockInner timed)⟩
  | .pushHead c, some i => x.pushHead dbg p c i
  | .popTail r, _ => x.popTail dbg p r
  | .dropNode k, some i => x.dropNode p k i
  | .dropNode k, none => some (x.finish p k)
  | .removeNode k, some i => x.removeNode dbg p k i
  | .unlockQueue (.dropped k), _ => some (finish ⟨{ x.state with qlock := none }, x.heap⟩ p k)
  | _, _ => (step x.state (p, .next)).map (⟨·, x.heap⟩)

def step (dbg : Bool) (x : OnHeap P) : P × Act → Option (OnHeap P)
  | (p, .next) => x.next dbg p
  | l => (RawMutex.step x.state l).map (⟨·, x.heap⟩)

end OnHeap

def Pc.pushing : Pc P → Option Call
  | .lockPush c | .loadState c | .sleepCas c _ | .pushHead c => some c
  | _ => none

def State.made (s : State P) (p : P) : Option (Waker P) :=
  (s.pc p).pushing.bind fun c => (s.node p).map (c.waker p)

structure OnHeap.Agrees (x : OnHeap P) (s : State P) : Prop where
  state : x.state = s.unqueued
  stores : Stores x.heap s.queue s.node s.made s.fresh

def Pc.touches : Pc P → Bool
  | .prepare _ | .pushHead _ | .popTail _ | .dropNode _ | .removeNode _ | .unlockQueue (.dropped _) => true
  | _ => false

omit [DecidableEq P] in
theorem unqueued_fields (s : State P) :
    s.unqueued.word = s.word ∧ s.unqueued.qlock = s.qlock ∧ s.unqueued.fresh = s.fresh ∧
      s.unqueued.flag = s.flag ∧ s.unqueued.pc = s.pc ∧ s.unqueued.node = s.node ∧
      s.unqueued.woken = s.woken :=
  ⟨rfl, rfl, rfl, rfl, rfl, rfl, rfl⟩

theorem queueStep_unqueued (s : State P) {p : P} (h : (s.pc p).touches = false) :
    queueStep s.unqueued p = (queueStep s p).map State.unqueued := by
  cases hpc : s.pc p with
  | park timed =>
    cases hnode : s.node p with
    | none => simp [queueStep, unqueued_fields, hpc, hnode]
    | some i =>
      by_cases hflag : s.flag i = true
      · simp [queueStep, unqueued_fields, hpc, hnode, hflag]
        rfl
      · simp [queueStep, unqueued_fields, hpc, hnode, hflag]
  | lockPush _ | lockDrop _ | lockPop _ =>
    cases hl : s.qlock with
    | none => simp [queueStep, unqueued_fields, hpc, State.acquire, hl]; rfl
    | some q => simp [queueStep, unqueued_fields, hpc, State.acquire, hl]
  | wake r e n =>
    cases hparker : e.data.parker <;> simp [queueStep, unqueued_fields, hpc, State.signal, hparker] <;> rfl
  | unlockQueue a =>
    cases a with
    | pushed c | aborted c => cases c <;> simp [queueStep, unqueued_fields, hpc, State.release] <;> rfl
    | dropped k => simp [hpc, Pc.touches] at h
    | released r => simp [queueStep, unqueued_fields, hpc, State.release]; rfl
  | prepare _ | pushHead _ | popTail _ | dropNode _ | removeNode _ => simp [hpc, Pc.touches] at h
  | _ => simp [queueStep, unqueued_fields, hpc]

theorem step_unqueued (s : State P) {p : P} {a : Act}
    (h : a = .next → (s.pc p).touches = false) :
    step s.unqueued (p, a) = (step s (p, a)).map State.unqueued := by
  cases a with
  | next =>
    simp only [step, unqueued_fields]
    split
    · rfl
    · exact queueStep_unqueued s (h rfl)
  | start c | release r =>
    simp only [step, unqueued_fields]
    split <;> rfl
  | timeout =>
    simp only [step, unqueued_fields]
    split <;> rfl
  | dropFuture =>
    simp only [step, unqueued_fields]
    split
    · rfl
    · split <;> rfl

omit [DecidableEq P] in
theorem Flow.pushing {w : Word} {a : Act} {c c' : Pc P} (h : Flow w a c c')
    (hc : a = .next → c.touches = false) {call : Call} (hcall : c'.pushing = some call) :
    c.pushing = some call := by
  have hdropped : ∀ k, a = .next → c = .unlockQueue (.dropped k) → False := by
    rintro k ha rfl
    simpa [Pc.touches] using hc ha
  cases h with
  | dropped k => exact (hdropped k rfl rfl).elim
  | released r | fetchAlone r => cases r <;> simp [afterRelease, Pc.pushing] at hcall
  | _ => simp_all [Pc.pushing, Pc.touches]

theorem made_step {s t : State P} {p : P} {a : Act} (h : step s (p, a) = some t)
    (hp : a = .next → (s.pc p).touches = false) (hnode : t.node = s.node) {q : P} {w : Waker P}
    (hw : t.made q = some w) : s.made q = some w := by
  simp only [State.made, hnode, Option.bind_eq_some_iff] at hw ⊢
  obtain ⟨c, hc, hw⟩ := hw
  refine ⟨c, ?_, hw⟩
  by_cases hq : q = p
  · subst q
    exact (step_flow h).pushing hp hc
  · rwa [step_others h hq] at hc

theorem step_untouched {s t : State P} {p : P} {a : Act} (h : step s (p, a) = some t)
    (hp : a = .next → (s.pc p).touches = false) :
    t.queue = s.queue ∧ t.node = s.node ∧ t.fresh = s.fresh := by
  cases step_cases h with
  | prepare _ hpc | pushHead _ _ hpc | popNone _ hpc | popTail _ _ hpc | dropLinked _ hpc
  | dropOff _ hpc | removeNode _ hpc =>
    have htouches := hp rfl
    simp [hpc, Pc.touches] at htouches
  | unlockQueue b hpc =>
    cases b with
    | dropped k =>
      have htouches := hp rfl
      simp [hpc, Pc.touches] at htouches
    | pushed c | aborted c => cases c <;> simp [State.release]
    | released r => simp [State.release]
  | _ => simp

theorem OnHeap.Agrees.plain {x : OnHeap P} {s : State P} (h : x.Agrees s) {p : P} {a : Act}
    (hp : a = .next → (s.pc p).touches = false) :
    Option.Rel Agrees ((RawMutex.step x.state (p, a)).map (⟨·, x.heap⟩)) (RawMutex.step s (p, a)) := by
  rw [h.state, step_unqueued s hp]
  cases hs : RawMutex.step s (p, a) with
  | none => exact .none
  | some t =>
    obtain ⟨hqueue, hnode, hfresh⟩ := step_untouched hs hp
    refine .some ⟨rfl, ?_⟩
    rw [hqueue, hnode, hfresh]
    exact h.stores.mono fun q w hw => made_step hs hp hnode hw

theorem OnHeap.Agrees.freeNode {x : OnHeap P} {s : State P} (h : x.Agrees s) (hs : Shape s) {p : P}
    (hoff : s.Off p) : (x.freeNode p).state = s.unqueued ∧
      Stores (x.freeNode p).heap s.queue (Function.update s.node p none)
        (Function.update s.made p none) s.fresh := by
  have hnode : x.state.node p = s.node p := by rw [h.state]; rfl
  cases hi : s.node p with
  | none =>
    have hmade : s.made p = none := by simp [State.made, hi]
    have hsame : Function.update s.node p none = s.node := by simp [← hi]
    have hsame' : Function.update s.made p none = s.made := by simp [← hmade]
    rw [hi] at hnode
    simpa [OnHeap.freeNode, hnode, hsame, hsame'] using ⟨h.state, h.stores⟩
  | some i =>
    rw [hi] at hnode
    have hout : i ∉ s.queue.map Entry.id := by
      rintro hmem
      obtain ⟨e, he, rfl⟩ := List.mem_map.mp hmem
      exact hoff e he (hs.node_inj _ _ _ (hs.linked e he) hi)
    have hfree := h.stores.free hi hout fun q hq => hs.node_inj _ _ _ hq hi
    simpa [OnHeap.freeNode, hnode] using ⟨h.state, hfree⟩

theorem OnHeap.Agrees.finish {x : OnHeap P} {s : State P} (h : x.Agrees s) (hs : Shape s) {p : P}
    (hoff : s.Off p) (k : Leave) : (x.finish p k).Agrees (s.finish p k) := by
  obtain ⟨hstate, hfree⟩ := h.freeNode hs hoff
  have hfinish : (x.finish p k).state = (s.finish p k).unqueued := by
    change x.state.finish p k = _
    rw [h.state]
    cases k <;> rfl
  refine ⟨hfinish, ?_⟩
  have hothers : ∀ {t : State P} {q : P} {w : Waker P}, q ≠ p → t.pc q = s.pc q →
      t.node q = s.node q → t.made q = some w → s.made q = some w := by
    intro t q w _ hpc hnode hw
    simpa [State.made, hpc, hnode] using hw
  cases k with
  | renew cx =>
    have hmake := hfree.make p ((Call.poll cx).waker p s.fresh)
    rw [Function.update_idem, Function.update_idem] at hmake
    have hfresh : (x.freeNode p).state.fresh = s.fresh := by rw [hstate]; rfl
    simp only [OnHeap.finish, OnHeap.makeNode, hfresh]
    refine hmake.mono fun q w hw => ?_
    by_cases hq : q = p
    · subst q
      simpa [State.made, State.finish, State.newNode, Pc.pushing] using hw
    · simpa [hq] using hothers hq (by simp [State.finish, hq]) (by simp [State.finish, State.newNode, hq]) hw
  | _ =>
    refine hfree.mono fun q w hw => ?_
    by_cases hq : q = p
    · subst q
      simp [State.made, State.finish, State.freeNode] at hw
    · simpa [hq] using hothers hq (by simp [State.finish, hq]) (by simp [State.finish, State.freeNode, hq]) hw

theorem OnHeap.Agrees.prepare {x : OnHeap P} {s : State P} (h : x.Agrees s) (p : P) (timed : Bool) :
    Agrees ⟨(x.state.newNode p).goto p (.lockPush (.lockInner timed)), x.makeNode p (.lockInner timed)⟩
      ((s.newNode p).goto p (.lockPush (.lockInner timed))) := by
  refine ⟨by rw [h.state]; rfl, ?_⟩
  have hmake := h.stores.make p ((Call.lockInner timed).waker p s.fresh)
  have hfresh : x.state.fresh = s.fresh := by rw [h.state]; rfl
  simp only [OnHeap.makeNode, hfresh]
  refine hmake.mono fun q w hw => ?_
  by_cases hq : q = p
  · subst q
    simpa [State.made, State.newNode, Pc.pushing] using hw
  · simpa [State.made, State.newNode, hq] using hw

theorem OnHeap.Agrees.pushHead {x : OnHeap P} {s : State P} (h : x.Agrees s) (dbg : Bool) {p : P}
    {c : Call} {i : Nat} (hpc : s.pc p = .pushHead c) (hi : s.node p = some i) :
    ∃ y, x.pushHead dbg p c i = some y ∧
      y.Agrees ((s.push p i c).goto p (.unlockQueue (.pushed c))) := by
  have hmade : s.made p = some (c.waker p i) := by simp [State.made, hpc, hi, Pc.pushing]
  obtain ⟨m, hexec, hstores⟩ := h.stores.pushHead dbg hi hmade
  have hpush : x.pushHead dbg p c i =
      some ⟨((x.state.push p i c).goto p (.unlockQueue (.pushed c))).unqueued, m⟩ := by
    simp only [OnHeap.pushHead, hexec]
  refine ⟨_, hpush, ?_, hstores.mono fun q w hw => ?_⟩
  · rw [h.state]
    rfl
  · by_cases hq : q = p
    · simp [State.made, hq, Pc.pushing] at hw
    · simpa [State.made, hq] using hw

theorem OnHeap.Agrees.popTail {x : OnHeap P} {s : State P} (h : x.Agrees s) (dbg : Bool) {p : P}
    {r : Release} (hpc : s.pc p = .popTail r) :
    Option.Rel Agrees (x.popTail dbg p r) (RawMutex.step s (p, .next)) := by
  have hmade : ∀ {t : State P} {c : Pc P} {q : P} {w : Waker P}, t.pc = s.pc → t.node = s.node →
      c.pushing = none → (t.goto p c).made q = some w → s.made q = some w := by
    intro t c q w htpc htnode hc hw
    by_cases hq : q = p
    · simp [State.made, hq, hc] at hw
    · simpa [State.made, hq, htpc, htnode] using hw
  cases he : s.queue.getLast? with
  | none =>
    have hnil : s.queue = [] := List.getLast?_eq_none_iff.mp he
    have hexec := (hnil ▸ h.stores).popAt_nil dbg .tail
    have hs : RawMutex.step s (p, .next) =
        some (s.goto p (if r = .unlockFair then .onEmpty else .unlockQueue (.released r))) := by
      simp [RawMutex.step, queueStep, hpc, atomic, he]
    rw [hs, OnHeap.popTail, IntrusiveList.popTail, hexec]
    refine .some ⟨by rw [h.state]; rfl, h.stores.mono fun q w hw => hmade rfl rfl ?_ hw⟩
    split <;> rfl
  | some e =>
    have htake : s.queue = insertAt .tail e s.queue.dropLast :=
      (List.dropLast_append_getLast? e he).symm
    obtain ⟨m, hexec, hstores⟩ := h.stores.popAt dbg .tail htake
    have hs : RawMutex.step s (p, .next) = some ((s.popped e).goto p
        (if r = .unlockFair then .mark e (s.queue.length - 1)
          else .wake r e (s.queue.length - 1))) := by
      simp [RawMutex.step, queueStep, hpc, atomic, he]
    have hcount : (m.list ()).count = s.queue.length - 1 := by simp [hstores.count]
    rw [hs, OnHeap.popTail, IntrusiveList.popTail, hexec]
    simp only [hcount]
    refine .some ⟨by rw [h.state]; rfl, hstores.mono fun q w hw => hmade rfl rfl ?_ hw⟩
    split <;> rfl

theorem OnHeap.Agrees.goto {x : OnHeap P} {s : State P} (h : x.Agrees s) (p : P) {c : Pc P}
    (hc : c.pushing = none) : Agrees ⟨x.state.goto p c, x.heap⟩ (s.goto p c) := by
  refine ⟨by rw [h.state]; rfl, h.stores.mono fun q w hw => ?_⟩
  by_cases hq : q = p
  · simp [State.made, hq, hc] at hw
  · simpa [State.made, hq] using hw

theorem OnHeap.Agrees.dropNode {x : OnHeap P} {s : State P} (h : x.Agrees s) (hs : Shape s) {p : P}
    {k : Leave} {i : Nat} (hi : s.node p = some i) : ∃ y, x.dropNode p k i = some y ∧
      y.Agrees (if s.isOnList p then s.goto p (.lockDrop k) else s.finish p k) := by
  have hflag : s.isOnList p = s.queue.any fun e => i == e.id := by simp [State.isOnList, hi]
  refine ⟨_, by rw [OnHeap.dropNode, h.stores.isOnList hi, Option.map_some], ?_⟩
  rw [← hflag]
  split
  · exact h.goto p rfl
  · next hoff => exact h.finish hs (off_of_isOnList hs (by simpa using hoff)) k

theorem OnHeap.Agrees.removeNode {x : OnHeap P} {s : State P} (h : x.Agrees s) (dbg : Bool) {p : P}
    {k : Leave} {i : Nat} (hi : s.node p = some i) : ∃ y, x.removeNode dbg p k i = some y ∧
      y.Agrees ((s.remove p).goto p (.unlockQueue (.dropped k))) := by
  obtain ⟨m, hexec, hstores⟩ := h.stores.removeNode dbg hi
  refine ⟨_, by rw [OnHeap.removeNode, hexec, Option.map_some], ?_⟩
  have hremoved : Agrees ⟨x.state, m⟩ (s.remove p) := by
    refine ⟨h.state, ?_⟩
    have hqueue : (s.remove p).queue = s.queue.filter fun e => some i != some e.id := by
      simp [State.remove, hi]
    rw [hqueue]
    exact hstores
  exact hremoved.goto p rfl

omit [DecidableEq P] in
theorem OnHeap.Agrees.pc {x : OnHeap P} {s : State P} (h : x.Agrees s) (p : P) :
    x.state.pc p = s.pc p := by
  rw [h.state]
  rfl

omit [DecidableEq P] in
theorem OnHeap.Agrees.node {x : OnHeap P} {s : State P} (h : x.Agrees s) (p : P) :
    x.state.node p = s.node p := by
  rw [h.state]
  rfl

theorem OnHeap.next_plain (dbg : Bool) {x : OnHeap P} {p : P} (h : (x.state.pc p).touches = false) :
    x.next dbg p = (RawMutex.step x.state (p, .next)).map (⟨·, x.heap⟩) := by
  unfold OnHeap.next
  split <;> simp_all [Pc.touches]

/-- The machine on the heap goes on where the one with the abstract queue does, and in the same
way. -/
theorem OnHeap.Agrees.step {x : OnHeap P} {s : State P} (h : x.Agrees s) (hs : WellFormed s)
    (dbg : Bool) (l : P × Act) : Option.Rel Agrees (x.step dbg l) (RawMutex.step s l) := by
  obtain ⟨p, a⟩ := l
  cases a with
  | next =>
    change Option.Rel Agrees (x.next dbg p) _
    cases hpc : s.pc p with
    | prepare timed =>
      have hstep : RawMutex.step s (p, .next) =
          some ((s.newNode p).goto p (.lockPush (.lockInner timed))) := by
        simp [RawMutex.step, queueStep, hpc, atomic]
      simp only [OnHeap.next, h.pc, hpc, hstep]
      exact .some (h.prepare p timed)
    | pushHead c =>
      cases hi : s.node p with
      | none =>
        have hnone : ∀ t : State P, t.pc p = .pushHead c → t.node p = none →
            RawMutex.step t (p, .next) = none := by
          intro t htpc hti
          simp [RawMutex.step, queueStep, htpc, hti, atomic]
        have hx := hnone x.state ((h.pc p).trans hpc) ((h.node p).trans hi)
        simp only [OnHeap.next, h.pc, h.node, hpc, hi, hx, hnone s hpc hi]
        exact .none
      | some i =>
        have hstep : RawMutex.step s (p, .next) =
            some ((s.push p i c).goto p (.unlockQueue (.pushed c))) := by
          simp [RawMutex.step, queueStep, hpc, atomic, hi]
        obtain ⟨y, hy, hagrees⟩ := h.pushHead dbg hpc hi
        simp only [OnHeap.next, h.pc, h.node, hpc, hi, hy, hstep]
        exact .some hagrees
    | popTail r =>
      simp only [OnHeap.next, h.pc, hpc]
      exact h.popTail dbg hpc
    | dropNode k =>
      have hstep : RawMutex.step s (p, .next) =
          some (if s.isOnList p then s.goto p (.lockDrop k) else s.finish p k) := by
        simp [RawMutex.step, queueStep, hpc, atomic]
      cases hi : s.node p with
      | none =>
        have hoff : s.isOnList p = false := by simp [State.isOnList, hi]
        simp only [OnHeap.next, h.pc, h.node, hpc, hi, hstep, hoff]
        exact .some (h.finish hs.toShape (off_of_isOnList hs.toShape hoff) k)
      | some i =>
        obtain ⟨y, hy, hagrees⟩ := h.dropNode hs.toShape (k := k) hi
        simp only [OnHeap.next, h.pc, h.node, hpc, hi, hy, hstep]
        exact .some hagrees
    | removeNode k =>
      have hremove : ∀ t : State P, t.pc p = .removeNode k →
          RawMutex.step t (p, .next) = some ((t.remove p).goto p (.unlockQueue (.dropped k))) := by
        intro t htpc
        simp [RawMutex.step, queueStep, htpc, atomic]
      have hstep := hremove s hpc
      cases hi : s.node p with
      | none =>
        have hsame : ∀ t : State P, t.node p = none → t.remove p = t := by
          intro t hti
          have hqueue : (t.queue.filter fun e => none != some e.id) = t.queue :=
            List.filter_eq_self.mpr fun _ _ => rfl
          simp [State.remove, hti, hqueue]
        have hx := hremove x.state ((h.pc p).trans hpc)
        rw [hsame x.state ((h.node p).trans hi)] at hx
        simp only [OnHeap.next, h.pc, h.node, hpc, hi, hx, hstep, hsame s hi]
        exact .some (h.goto p rfl)
      | some i =>
        obtain ⟨y, hy, hagrees⟩ := h.removeNode dbg (k := k) hi
        simp only [OnHeap.next, h.pc, h.node, hpc, hi, hy, hstep]
        exact .some hagrees
    | unlockQueue b =>
      cases b with
      | dropped k =>
        have hstep : RawMutex.step s (p, .next) = some ({ s with qlock := none }.finish p k) := by
          simp [RawMutex.step, queueStep, hpc, atomic, State.release]
        have hoff : s.Off p := by
          have hslot := (hs.fits p).slot
          rwa [hpc] at hslot
        have hfree : Agrees ⟨{ x.state with qlock := none }, x.heap⟩ { s with qlock := none } :=
          ⟨by rw [h.state]; rfl, h.stores⟩
        simp only [OnHeap.next, h.pc, hpc, hstep]
        exact .some (hfree.finish ⟨hs.node_lt, hs.node_inj, hs.linked, hs.owners, hs.asleep⟩ hoff k)
      | _ =>
        have hplain : (s.pc p).touches = false := by rw [hpc]; rfl
        rw [OnHeap.next_plain dbg (by rw [h.pc]; exact hplain)]
        exact h.plain fun _ => hplain
    | _ =>
      have hplain : (s.pc p).touches = false := by rw [hpc]; rfl
      rw [OnHeap.next_plain dbg (by rw [h.pc]; exact hplain)]
      exact h.plain fun _ => hplain
  | _ => exact h.plain (by simp)

omit [DecidableEq P] in
theorem OnHeap.agrees_start : (OnHeap.start : OnHeap P).Agrees init :=
  ⟨rfl, stores_empty.mono fun p w hw => by simp [State.made, init, Pc.pushing] at hw⟩

theorem OnHeap.related (dbg : Bool) (x : OnHeap P) (s : State P) (l : P × Act)
    (h : x.Agrees s ∧ WellFormed s) :
    Option.Rel (fun x s => x.Agrees s ∧ WellFormed s) (x.step dbg l) (RawMutex.step s l) := by
  have hstep := h.1.step h.2 dbg l
  generalize hs : RawMutex.step s l = t at hstep
  generalize x.step dbg l = y at hstep
  cases hstep with
  | none => exact .none
  | some hagrees => exact .some ⟨hagrees, step_wellFormed h.2 hs⟩

/-! ### Over `MiniLock` -/

theorem OnHeap.finish_frame (x : OnHeap P) (p : P) (k : Leave) :
    (x.finish p k).state.qlock = x.state.qlock ∧
      ∀ q, q ≠ p → (x.finish p k).state.pc q = x.state.pc q :=
  ⟨(finish_fields x.state p k).2.2, fun q hq => (finish_others x.state p k q hq).1⟩

theorem step_qlock {s t : State P} {p : P} {a : Act} (h : step s (p, a) = some t)
    (hw : (s.pc p).wish = .nothing) : t.qlock = s.qlock :=
  rawMutex.nothing (s := s) hw h

theorem OnHeap.next_frame {dbg : Bool} {x y : OnHeap P} {p : P} (h : x.next dbg p = some y) :
    (∀ q, q ≠ p → y.state.pc q = x.state.pc q) ∧
      ((x.state.pc p).wish = .nothing → y.state.qlock = x.state.qlock) := by
  unfold OnHeap.next at h
  split at h
  · obtain rfl := Option.some.inj h
    exact ⟨fun q hq => by simp [hq], fun _ => by simp⟩
  · unfold OnHeap.pushHead at h
    split at h
    · obtain rfl := Option.some.inj h
      exact ⟨fun q hq => by simp [unqueued_fields, hq], fun _ => by simp [unqueued_fields]⟩
    · cases h
  · unfold OnHeap.popTail at h
    split at h
    · obtain rfl := Option.some.inj h
      exact ⟨fun q hq => by simp [hq], fun _ => by simp⟩
    · obtain rfl := Option.some.inj h
      exact ⟨fun q hq => by simp [hq], fun _ => by simp⟩
    · cases h
  · obtain ⟨⟨on, m⟩, -, rfl⟩ := Option.map_eq_some_iff.mp h
    cases on with
    | true => exact ⟨fun q hq => by simp [hq], fun _ => by simp⟩
    | false =>
      obtain ⟨hlock, hpc⟩ := finish_frame ⟨x.state, m⟩ p (by assumption)
      exact ⟨hpc, fun _ => hlock⟩
  · obtain rfl := Option.some.inj h
    obtain ⟨hlock, hpc⟩ := x.finish_frame p (by assumption)
    exact ⟨hpc, fun _ => hlock⟩
  · obtain ⟨⟨u, m⟩, -, rfl⟩ := Option.map_eq_some_iff.mp h
    exact ⟨fun q hq => by simp [hq], fun _ => by simp⟩
  · next hpc =>
    obtain rfl := Option.some.inj h
    refine ⟨fun q hq => ?_, fun hw => by simp [hpc, Pc.wish] at hw⟩
    exact (finish_frame ⟨{ x.state with qlock := none }, x.heap⟩ p _).2 q hq
  · obtain ⟨t, ht, rfl⟩ := Option.map_eq_some_iff.mp h
    exact ⟨fun q hq => step_others ht hq, step_qlock ht⟩

theorem OnHeap.step_frame {dbg : Bool} {x y : OnHeap P} {p : P} {a : Act}
    (h : x.step dbg (p, a) = some y) : (∀ q, q ≠ p → y.state.pc q = x.state.pc q) ∧
      ((x.state.pc p).wish = .nothing → y.state.qlock = x.state.qlock) := by
  cases a with
  | next => exact next_frame h
  | _ =>
    obtain ⟨t, ht, rfl⟩ := Option.map_eq_some_iff.mp h
    exact ⟨fun q hq => step_others ht hq, step_qlock ht⟩

def onHeap (dbg : Bool) : Client P (OnHeap P) Act where
  step := OnHeap.step dbg
  lock x := x.state.qlock
  wish x p := (x.state.pc p).wish
  sync := .next
  nothing hw hs := (OnHeap.step_frame hs).2 hw
  acquire := by
    intro x p hw hlock
    obtain ⟨t, ht, hqlock⟩ := rawMutex.acquire (s := x.state) hw hlock
    have hplain : (x.state.pc p).touches = false := by
      rcases wish_acquire hw with ⟨c, hpc⟩ | ⟨k, hpc⟩ | ⟨r, hpc⟩ <;> rw [hpc] <;> rfl
    have hnext : x.step dbg (p, .next) = some ⟨t, x.heap⟩ := by
      have hraw : RawMutex.step x.state (p, .next) = some t := ht
      rw [OnHeap.step, OnHeap.next_plain dbg hplain, hraw]
      rfl
    exact ⟨_, hnext, hqlock⟩
  release := by
    intro x p hw hlock
    obtain ⟨b, hpc⟩ : ∃ b, x.state.pc p = .unlockQueue b := by
      cases hpc : x.state.pc p <;> simp_all [Pc.wish]
    cases b with
    | dropped k =>
      refine ⟨_, by simp only [OnHeap.step, OnHeap.next, hpc]; rfl, ?_⟩
      exact (OnHeap.finish_frame ⟨{ x.state with qlock := none }, x.heap⟩ p k).1
    | _ =>
      obtain ⟨t, ht, hqlock⟩ := rawMutex.release (s := x.state) hw hlock
      have hnext : x.step dbg (p, .next) = some ⟨t, x.heap⟩ := by
        have hraw : RawMutex.step x.state (p, .next) = some t := ht
        rw [OnHeap.step, OnHeap.next_plain dbg (by rw [hpc]; rfl), hraw]
        rfl
      exact ⟨_, hnext, hqlock⟩
  others := by
    intro x p q a y hs hpq
    rw [(OnHeap.step_frame hs).1 p hpq]

/-- The mutex with its queue on the heap does in every run what the mutex with the abstract queue
does, and can do whatever that one can: `push_head`, `pop_tail`, `remove_node` and the look at the
flag in `Node::drop` never panic when each is one step, and the nodes linked up on the heap are the
queue, from either end. Over `MiniLock` too it does nothing else. (A node may be dropped inside a
`pop_tail`: that race is the subject of `IntrusiveList.DropRace`.) -/
theorem queue_on_heap (dbg : Bool) :
    (∀ ls : List (P × Act),
      Option.Rel (fun (x : OnHeap P) s => x.state = s.unqueued ∧ Shows x.heap s.queue)
        (run (OnHeap.step dbg) OnHeap.start ls) (run step init ls)) ∧
    ∀ x, Reach ((onHeap dbg).over MiniLock.miniLock) anyStep (OnHeap.start, MiniLock.init) x →
      ∃ s : State P, Reach step anyStep init s ∧ x.1.state = s.unqueued ∧ Shows x.1.heap s.queue ∧
        ∀ p, s.qlock = some p ↔ (x.2.pc p).phase.has = true := by
  have hrelated := fun x s l h => OnHeap.related (P := P) dbg x s l h
  have hstart : (OnHeap.start : OnHeap P).Agrees init ∧ WellFormed (init : State P) :=
    ⟨OnHeap.agrees_start, wellFormed_init⟩
  refine ⟨fun ls => rel_imp ?_ (run_rel hrelated hstart ls), fun x hx => ?_⟩
  · rintro y s ⟨hagrees, -⟩
    exact ⟨hagrees.state, hagrees.stores.shows⟩
  · obtain ⟨s, hs, ⟨hagrees, -⟩, hlock⟩ := over_related (C := onHeap dbg) hrelated hstart rfl hx
    refine ⟨s, hs, hagrees.state, hagrees.stores.shows, fun p => ?_⟩
    have hsame : s.qlock = x.1.state.qlock := by rw [hagrees.state]; rfl
    rw [hsame]
    exact hlock p

def popsOldest (p q r : P) : List (P × Act) :=
  (p, .start (.lockInner false)) :: (p, .next) :: (q, .start (.lockInner false)) ::
    List.replicate 8 (q, .next) ++ (r, .start (.lockInner false)) :: List.replicate 6 (r, .next) ++
    (p, .release .unlock) :: List.replicate 3 (p, .next)

theorem queue_on_heap_popsOldest : ∃ (x : OnHeap (Fin 3)) (s : State (Fin 3)),
    run (OnHeap.step true) OnHeap.start (popsOldest 0 1 2) = some x ∧
      run step init (popsOldest 0 1 2) = some s ∧ s.queue.map Entry.id = [1] ∧
      Shows x.heap s.queue := by
  have hr : ((run step (init : State (Fin 3)) (popsOldest 0 1 2)).map fun s =>
      s.queue.map Entry.id) = some [1] := by decide
  obtain ⟨s, hs, hids⟩ := Option.map_eq_some_iff.mp hr
  have hrel := (queue_on_heap true).1 (popsOldest (0 : Fin 3) 1 2)
  rw [hs] at hrel
  generalize hx : run (OnHeap.step true) OnHeap.start (popsOldest (0 : Fin 3) 1 2) = y at hrel
  cases hrel with
  | some h => exact ⟨_, s, rfl, hs, hids, h.2⟩

end Colock.RawMutex
