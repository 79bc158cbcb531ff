import Colock.Lib.LockStack
import Colock.Mutex.Sections
import Colock.RawMutex.Custody
import Colock.RawMutex.NoLostWakeup
import Colock.RawMutex.ShouldSleep

/-! `RawMutex` implements a lock, for threads that block in `lock` and for tasks that await
`lock_async` at the same time. An executor polls a task again only when its waker was called, and
drops the future before the guard is used. -/
namespace Colock.RawMutex
open Transition LockImpl HandOff Custody
variable {P : Type*}

def callOf : Option Nat → Call
  | none => .lockInner false
  | some cx => .poll cx

def Leave.isOf (how : Call) : Leave → Bool
  | .retry timed => how == .lockInner timed
  | .success => !how.isPoll
  | .renew cx => how == .poll cx
  | .future held => held && how.isPoll
  | .timeout => false

def Pc.isOf (how : Call) : Pc P → Bool
  | .idle | .holding => true
  | .cas c _ | .lockPush c | .loadState c | .sleepCas c _ | .pushHead c
  | .unlockQueue (.pushed c) | .unlockQueue (.aborted c) => how == c
  | .prepare timed | .park timed | .fairLoad timed => how == .lockInner timed
  | .dropNode k | .lockDrop k | .removeNode k | .unlockQueue (.dropped k) => k.isOf how
  | .fetchUnlock r | .lockPop r | .popTail r | .wake r _ _ | .clearWait r
  | .unlockQueue (.released r) => r == .unlock
  | _ => false

/-- How far the party is with its call. A task between two polls has its node, and so has one
whose future returned `Ready` and is still there. -/
def Pc.phase (hasNode : Bool) : Pc P → Phase
  | .idle => if hasNode then .trying else .idle
  | .holding => if hasNode then .taking else .working
  | .unlockQueue (.aborted _) => .taking
  | .dropNode k | .lockDrop k | .removeNode k | .unlockQueue (.dropped k) =>
    if k.owns then .taking else .trying
  | .fetchUnlock _ => .giving
  | .lockPop _ | .popTail _ | .wake _ _ _ | .clearWait _ | .unlockQueue (.released _) => .leaving
  | _ => .trying

variable [DecidableEq P]

def rung (x : State P × Calls P) (p : P) : Bool :=
  x.2.called.any fun e => x.1.node p == some e.id

/-- What the party does next inside its call. A task is polled again when its waker was called, and
drops its future when it has the lock. -/
def nextAct (how : Call) (x : State P × Calls P) (p : P) : Option Act :=
  match x.1.pc p with
  | .idle => if rung x p then some (.start how) else none
  | .holding => if x.1.node p = none then none else some .dropFuture
  | _ => some .next

def use (task : P → Option Nat) (x : State P × Calls P) :
    P × Cmd Unit → Option (State P × Calls P)
  | (p, .call) =>
    if x.1.node p = none then recorded step noteCalls x (p, .start (callOf (task p))) else none
  | (p, .release) =>
    if x.1.node p = none then recorded step noteCalls x (p, .release .unlock) else none
  | (p, .inner ()) =>
    (nextAct (callOf (task p)) x p).bind fun a => recorded step noteCalls x (p, a)

inductive Uses (how : Call) (x : State P × Calls P) (p : P) : Cmd Unit → Act → Prop
  | call (hpc : x.1.pc p = .idle) (hnode : x.1.node p = none) : Uses how x p .call (.start how)
  | release (hpc : x.1.pc p = .holding) (hnode : x.1.node p = none) :
      Uses how x p .release (.release .unlock)
  | poll (hpc : x.1.pc p = .idle) (hrung : rung x p = true) : Uses how x p (.inner ()) (.start how)
  | dropReady (hpc : x.1.pc p = .holding) (hnode : x.1.node p ≠ none) :
      Uses how x p (.inner ()) .dropFuture
  | next (hidle : x.1.pc p ≠ .idle) (hholding : x.1.pc p ≠ .holding) :
      Uses how x p (.inner ()) .next

theorem use_eq {task : P → Option Nat} {x y : State P × Calls P} {p : P} {c : Cmd Unit}
    (h : use task x (p, c) = some y) :
    ∃ a, Uses (callOf (task p)) x p c a ∧ step x.1 (p, a) = some y.1 ∧
      y.2 = noteCalls x.1 (p, a) x.2 := by
  obtain ⟨t, h'⟩ := y
  cases c with
  | call =>
    simp only [use, Option.ite_none_right_eq_some] at h
    obtain ⟨hstep, hnote⟩ := recorded_eq h.2
    refine ⟨_, .call ?_ h.1, hstep, hnote⟩
    replace hstep : step x.1 (p, .start (callOf (task p))) = some t := hstep
    cases step_cases hstep
    assumption
  | release =>
    simp only [use, Option.ite_none_right_eq_some] at h
    obtain ⟨hstep, hnote⟩ := recorded_eq h.2
    refine ⟨_, .release ?_ h.1, hstep, hnote⟩
    replace hstep : step x.1 (p, .release .unlock) = some t := hstep
    cases step_cases hstep
    assumption
  | inner k =>
    obtain ⟨a, ha, h⟩ := Option.bind_eq_some_iff.mp h
    refine ⟨a, ?_, recorded_eq h⟩
    unfold nextAct at ha
    split at ha
    · next hpc =>
      simp only [Option.ite_none_right_eq_some, Option.some.injEq] at ha
      exact ha.2 ▸ .poll hpc ha.1
    · next hpc =>
      simp only [Option.ite_none_left_eq_some, Option.some.injEq] at ha
      exact ha.2 ▸ .dropReady hpc ha.1
    · next hidle hholding => exact Option.some.inj ha ▸ .next hidle hholding

/-- Threads have a node inside `lock` only, and a task has one between two polls. -/
structure InUse (task : P → Option Nat) (x : State P × Calls P) : Prop
    extends Accounted x, Patient x.1, Composed x.1 where
  answered : Answered (view x.1)
  isOf : ∀ p, (x.1.pc p).isOf (callOf (task p)) = true
  thread : ∀ p, task p = none → x.1.pc p = .idle ∨ x.1.pc p = .holding → x.1.node p = none
  asked : ∀ p, x.1.pc p = .idle → x.1.node p ≠ none → ∃ cx, x.2.pending p = some cx
  rings : ∀ i, x.1.flag i = true → ∃ e ∈ x.2.called, e.id = i

omit [DecidableEq P] in
theorem Flow.isOf {how : Call} {w : Word} {a : Act} {c d : Pc P} (h : Flow w a c d)
    (hc : c.isOf how = true) (hf : fair w = false) (hstart : ∀ call, a = .start call → call = how)
    (hrelease : ∀ r, a = .release r → r = .unlock) (htimeout : a ≠ .timeout)
    (hdrop : a = .dropFuture → c = .holding ∧ how.isPoll = true) : d.isOf how = true := by
  cases h with
  | start c => simp [Pc.isOf, hstart c rfl]
  | unlock => rfl
  | bump => cases hrelease _ rfl
  | unlockFair => cases hrelease _ rfl
  | timeout => exact absurd rfl htimeout
  | dropPending => cases (hdrop rfl).1
  | dropReady => exact (hdrop rfl).2
  | fairSeen timed hf' => simp [hf] at hf'
  | dropOff k | dropped k =>
    cases k with
    | future held => cases held <;> simp_all [Leave.next, Pc.isOf, Leave.isOf]
    | _ => simp_all [Leave.next, Pc.isOf, Leave.isOf]
  | fetchAlone r | released r => cases r <;> simp_all [afterRelease, Pc.isOf]
  | _ => simp_all [Pc.isOf, Leave.isOf, Call.isPoll]

theorem noteCalls_pending_others (s : State P) {p q : P} (a : Act) (h : Calls P) (hq : q ≠ p) :
    (noteCalls s (p, a) h).pending q = h.pending q := by
  cases a with
  | next =>
    simp only [noteCalls]
    repeat' split
    all_goals simp [hq]
  | start c | dropFuture => simp [noteCalls, hq]
  | _ => rfl

theorem noteCalls_called_mono (s : State P) (l : P × Act) (h : Calls P) {e : Entry P}
    (he : e ∈ h.called) : e ∈ (noteCalls s l h).called := by
  obtain ⟨p, a⟩ := l
  cases a with
  | next =>
    simp only [noteCalls]
    repeat' split
    all_goals simp [he]
  | _ => exact he

theorem step_flag {s t : State P} {p : P} {a : Act} {i : Nat} (h : step s (p, a) = some t)
    (hi : t.flag i = true) : s.flag i = true ∨
      ∃ r e n, a = .next ∧ s.pc p = .wake r e n ∧ e.data.parker = some i := by
  have renewed : ∀ s : State P, (s.newNode p).flag i = true → s.flag i = true := by
    intro s hi
    simp only [State.newNode, Function.update_apply] at hi
    split at hi
    · cases hi
    · exact hi
  have finished : ∀ (s : State P) k, (s.finish p k).flag i = true → s.flag i = true := by
    intro s k hi
    cases k with
    | renew cx => exact renewed s hi
    | _ => exact hi
  cases step_cases h with
  | prepare timed => exact .inl (renewed s hi)
  | dropOff k => exact .inl (finished s k hi)
  | unlockQueue b =>
    refine .inl ?_
    cases b with
    | pushed c | aborted c => cases c <;> exact hi
    | released r => exact hi
    | dropped k => exact finished { s with qlock := none } k hi
  | wake r e n hpc =>
    simp only [goto_fields, State.signal] at hi
    split at hi
    · next j hj =>
      simp only [Function.update_apply] at hi
      split at hi
      · next hij => exact .inr ⟨r, e, n, rfl, hpc, hij ▸ hj⟩
      · exact .inl hi
    · exact .inl hi
  | _ => exact .inl hi

omit [DecidableEq P] in
theorem Accounted.carried_pushed {x : State P × Calls P} (hx : Accounted x) {p : P} {e : Entry P}
    (he : (x.1.pc p).carries = some e) : e ∈ x.2.pushed := by
  refine hx.places.symm.subset ?_
  simp [Items.inOrder, State.items, hx.carried_some he]

section step
variable {task : P → Option Nat} {x y : State P × Calls P} {p : P} {c : Cmd Unit} {a : Act}

omit [DecidableEq P] in
theorem callOf_cases (how : Option Nat) :
    callOf how = .lockInner false ∨ ∃ cx, callOf how = .poll cx := by
  cases how with
  | none => exact .inl rfl
  | some cx => exact .inr ⟨cx, rfl⟩

omit [DecidableEq P] in
theorem Uses.uncancelled [DecidableEq P] (hu : Uses (callOf (task p)) x p c a) :
    Uncancelled x.1 (p, a) := by
  cases hu with
  | call | poll =>
    rcases callOf_cases (task p) with h | ⟨cx, h⟩ <;> simp [h, Uncancelled]
  | release hpc hnode => exact ⟨by simp, hnode⟩
  | dropReady hpc hnode => exact hpc
  | next => trivial

theorem InUse.flow_isOf (hx : InUse task x) (hu : Uses (callOf (task p)) x p c a)
    (hs : step x.1 (p, a) = some y.1) : (y.1.pc p).isOf (callOf (task p)) = true := by
  refine (step_flow hs).isOf (hx.isOf p) hx.fair ?_ ?_ ?_ ?_
  · rintro call rfl
    cases hu <;> rfl
  · rintro r rfl
    cases hu
    rfl
  · rintro rfl
    cases hu
  · rintro rfl
    cases hu with
    | dropReady hpc hnode =>
      refine ⟨hpc, ?_⟩
      cases htask : task p with
      | none => exact absurd (hx.thread p htask (.inr hpc)) hnode
      | some cx => rfl

theorem InUse.thread_step (hx : InUse task x) (htask : task p = none)
    (hs : step x.1 (p, a) = some y.1) (hout : y.1.pc p = .idle ∨ y.1.pc p = .holding) :
    y.1.node p = none := by
  obtain ⟨t, h'⟩ := y
  replace hs : step x.1 (p, a) = some t := hs
  have hof := hx.isOf p
  have hslot := (hx.fits p).slot
  have hbare := hx.bare p
  have finished : ∀ (s : State P) k, (s.finish p k).pc p = .idle ∨ (s.finish p k).pc p = .holding →
      (s.finish p k).node p = none := by
    intro s k hk
    cases k <;> simp [State.finish, State.freeNode] at hk ⊢
  rw [htask] at hof
  cases step_cases hs with
  | casTaken c expected hpc =>
    rw [hpc] at hof hslot
    obtain rfl : .lockInner false = c := by simpa [Pc.isOf, callOf] using hof
    exact hslot
  | casFailed c expected hpc =>
    rw [hpc] at hof
    obtain rfl : .lockInner false = c := by simpa [Pc.isOf, callOf] using hof
    simp [tryFailed] at hout
  | bumpLoad hpc => simp [hpc, Pc.isOf] at hof
  | fetchUnlock r hpc => exact hbare (by rw [hpc]; rfl)
  | dropOff k => exact finished x.1 k hout
  | unlockQueue b hpc =>
    rw [hpc] at hof
    cases b with
    | pushed c | aborted c =>
      obtain rfl : .lockInner false = c := by simpa [Pc.isOf, callOf] using hof
      simp [State.release] at hout
    | dropped k => exact finished { x.1 with qlock := none } k hout
    | released r => exact hbare (by rw [hpc]; rfl)
  | loadState | sleepMark | sleepReload =>
    simp only [commit_fields, Function.update_self, sleepNext] at hout
    split at hout <;> simp at hout
  | release r => cases r <;> simp [Release.enter] at hout
  | popNone | popTail | wake =>
    simp only [goto_fields, Function.update_self] at hout
    split at hout <;> simp at hout
  | _ => simp at hout

theorem InUse.asked_step (hx : InUse task x) (hs : step x.1 (p, a) = some y.1)
    (hidle : y.1.pc p = .idle) (hnode : y.1.node p ≠ none) :
    ∃ cx, (noteCalls x.1 (p, a) x.2).pending p = some cx := by
  obtain ⟨t, h'⟩ := y
  replace hs : step x.1 (p, a) = some t := hs
  have hof := hx.isOf p
  have hbare := hx.bare p
  have finished : ∀ (s : State P) k, (s.finish p k).pc p = .idle → (s.finish p k).node p = none := by
    intro s k hk
    cases k <;> simp [State.finish, State.freeNode] at hk ⊢
  cases step_cases hs with
  | casFailed c expected hpc =>
    rw [hpc] at hof
    rcases callOf_cases (task p) with h | ⟨cx, h⟩ <;> rw [h] at hof <;>
      cases c <;> simp_all [Pc.isOf, tryFailed]
  | bumpLoad hpc => simp [hpc, Pc.isOf] at hof
  | fetchUnlock r hpc => exact absurd (hbare (by rw [hpc]; rfl)) hnode
  | dropOff k => exact absurd (finished x.1 k hidle) hnode
  | unlockQueue b hpc =>
    rw [hpc] at hof
    cases b with
    | pushed c =>
      cases c with
      | poll cx => exact ⟨cx, by simp [noteCalls, hpc]⟩
      | lockInner timed => simp [State.release] at hidle
      | tryLock => rcases callOf_cases (task p) with h | ⟨cx, h⟩ <;> simp [h, Pc.isOf] at hof
    | aborted c => cases c <;> simp [State.release] at hidle
    | dropped k => exact absurd (finished { x.1 with qlock := none } k hidle) hnode
    | released r => exact absurd (hbare (by rw [hpc]; rfl)) hnode
  | loadState | sleepMark | sleepReload =>
    simp only [commit_fields, Function.update_self, sleepNext] at hidle
    split at hidle <;> simp at hidle
  | release r => cases r <;> simp [Release.enter] at hidle
  | popNone | popTail | wake =>
    simp only [goto_fields, Function.update_self] at hidle
    split at hidle <;> simp at hidle
  | _ => simp at hidle

theorem InUse.keeps (hx : InUse task x) (h : use task x (p, c) = some y) : InUse task y := by
  obtain ⟨a, hu, hs, hnote⟩ := use_eq h
  have hplains : ∀ q, (x.1.pc q).plain = true := fun q => (hx.party q).plain
  have hheeds := Sections.heeds_of_plain hplains hx.fair (p, a)
  have hapart : SleepsApart x.1 (p, a) := by
    cases a with
    | next => exact ⟨fun _ _ => by simp [handedOff, hx.fair], fun _ hf => by simp [hx.fair] at hf⟩
    | _ => trivial
  have hrecorded : recorded step noteCalls x (p, a) = some y := by
    simp [recorded, hs, ← hnote]
  have hpatient := hx.toPatient.keeps hu.uncancelled hs
  have haccounted := step_accounted hx.toAccounted hrecorded
  have hcomposed := step_composed hx.toComposed hapart hs
  exact {
    haccounted, hpatient, hcomposed with
    answered := step_answered hx.sane hx.answered hheeds hs
    isOf := by
      intro q
      by_cases hq : q = p
      · exact hq ▸ hx.flow_isOf hu hs
      · rw [step_others hs hq]
        exact hx.isOf q
    thread := by
      intro q htask hout
      by_cases hq : q = p
      · subst q
        exact hx.thread_step htask hs hout
      · rw [(step_nodes hs).others hq]
        rw [step_others hs hq] at hout
        exact hx.thread q htask hout
    asked := by
      intro q hidle hnode
      rw [hnote]
      by_cases hq : q = p
      · subst q
        exact hx.asked_step hs hidle hnode
      · rw [step_others hs hq] at hidle
        rw [(step_nodes hs).others hq] at hnode
        rw [noteCalls_pending_others _ _ _ hq]
        exact hx.asked q hidle hnode
    rings := by
      intro i hi
      rw [hnote]
      rcases step_flag hs hi with hold | ⟨r, e, n, rfl, hpc, hparker⟩
      · obtain ⟨e, he, hid⟩ := hx.rings i hold
        exact ⟨e, noteCalls_called_mono _ _ _ he, hid⟩
      · have hmem := hx.carried_pushed (p := p) (e := e) (by rw [hpc]; rfl)
        exact ⟨e, by simp [noteCalls, hpc], hx.parker e hmem i hparker⟩ }

end step

def phaseOf (x : State P × Calls P) (p : P) : Phase := (x.1.pc p).phase (x.1.node p).isSome

theorem finish_phase {how : Call} (s : State P) (p : P) {k : Leave} (hk : k.isOf how = true) :
    Phase.Moves (.inner ()) (if k.owns then .taking else .trying)
      (((s.finish p k).pc p).phase ((s.finish p k).node p).isSome) := by
  cases k with
  | retry timed => simpa [State.finish, Pc.phase, Leave.owns] using .stay () .trying
  | renew cx => simpa [State.finish, Pc.phase, Leave.owns] using .stay () .trying
  | success =>
    simpa [State.finish, State.freeNode, Pc.phase, Leave.owns] using .enter () .taking (.inr rfl)
  | future held =>
    obtain rfl : held = true := by
      simp only [Leave.isOf, Bool.and_eq_true] at hk
      exact hk.1
    simpa [State.finish, State.freeNode, Pc.phase, Leave.owns] using .enter () .taking (.inr rfl)
  | timeout => simp [Leave.isOf] at hk

omit [DecidableEq P] in
theorem holding_phase {a : Phase} (ha : a = .trying ∨ a = .taking) (b : Bool) :
    Phase.Moves (.inner ()) a ((.holding : Pc P).phase b) := by
  cases b with
  | false => exact .enter () a ha
  | true => rcases ha with rfl | rfl <;> first | exact .take () | exact .stay () _

section phases
variable {task : P → Option Nat} {x y : State P × Calls P} {p : P}

theorem InUse.next_moves (hx : InUse task x) (hs : step x.1 (p, .next) = some y.1)
    (hnote : y.2 = noteCalls x.1 (p, .next) x.2) :
    Phase.Moves (.inner ()) (phaseOf x p) (phaseOf y p) := by
  obtain ⟨t, h'⟩ := y
  replace hs : step x.1 (p, .next) = some t := hs
  have hof := hx.isOf p
  have hbare := hx.bare p
  have hawaits := hx.awaits p
  unfold phaseOf
  have stays : ∀ (a : Phase), (x.1.pc p).phase (x.1.node p).isSome = a →
      (t.pc p).phase (t.node p).isSome = a →
      Phase.Moves (.inner ()) ((x.1.pc p).phase (x.1.node p).isSome)
        ((t.pc p).phase (t.node p).isSome) := by
    intro a ha hb
    rw [ha, hb]
    exact .stay () a
  have released : ∀ r, r = .unlock → (x.1.pc p).releases = true →
      ((afterRelease r : Pc P).phase (x.1.node p).isSome) = .idle := by
    rintro r rfl hr
    simp [afterRelease, Pc.phase, hbare hr]
  cases step_cases hs with
  | casTaken c expected hpc =>
    simp only [hpc, commit_fields, Function.update_self]
    exact holding_phase (.inl rfl) _
  | casFailed c expected hpc =>
    rw [hpc] at hof
    refine stays .trying (by rw [hpc]; rfl) ?_
    cases c with
    | tryLock => rcases callOf_cases (task p) with h | ⟨cx, h⟩ <;> simp [h, Pc.isOf] at hof
    | lockInner timed | poll cx => simp [tryFailed, Pc.phase, Leave.owns]
  | sleepTaken c current hpc => simpa [hpc, Pc.phase] using .take ()
  | loadState c hpc | sleepMark c _ hpc | sleepReload c _ hpc =>
    refine stays .trying (by rw [hpc]; rfl) ?_
    simp only [commit_fields, Function.update_self, sleepNext]
    split <;> rfl
  | fairSeen timed hpc hf => simp [hx.fair] at hf
  | fairClear hpc | bumpLoad hpc | mark _ _ hpc | onEmpty hpc => simp [hpc, Pc.isOf] at hof
  | fetchUnlock r hpc =>
    rw [hpc] at hof
    have hidle := released r (by simpa [Pc.isOf] using hof) (by rw [hpc]; rfl)
    simp only [hpc, commit_fields, Function.update_self]
    split
    · exact .give () .leaving (.inl rfl)
    · rw [hidle]
      exact .give () .idle (.inr rfl)
  | clearWait r hpc | lockPop r hpc => exact stays .leaving (by rw [hpc]; rfl) (by simp [Pc.phase])
  | popNone r hpc | popTail r _ hpc | wake r _ _ hpc =>
    rw [hpc] at hof
    obtain rfl : r = .unlock := by simpa [Pc.isOf] using hof
    refine stays .leaving (by rw [hpc]; rfl) ?_
    simp only [goto_fields, Function.update_self]
    split <;> simp_all [Pc.phase]
  | dropLinked k hpc | lockDrop k hpc | removeNode k hpc => exact stays _ rfl (by simp [hpc, Pc.phase])
  | dropOff k hpc =>
    rw [hpc] at hof ⊢
    exact finish_phase x.1 p hof
  | unlockQueue b hpc =>
    rw [hpc] at hof ⊢
    cases b with
    | pushed c =>
      cases c with
      | lockInner timed => simpa [State.release, Pc.phase] using .stay () .trying
      | poll cx =>
        obtain ⟨i, hi, -⟩ := hawaits (.poll cx) (.inl hpc)
        simpa [State.release, Pc.phase, hi] using .stay () .trying
      | tryLock => rcases callOf_cases (task p) with h | ⟨cx, h⟩ <;> simp [h, Pc.isOf] at hof
    | aborted c =>
      cases c with
      | lockInner timed => simpa [State.release, Pc.phase, Leave.owns] using .stay () .taking
      | tryLock | poll cx =>
        simp only [State.release, goto_fields, Function.update_self]
        exact holding_phase (.inr rfl) _
    | dropped k => exact finish_phase { x.1 with qlock := none } p hof
    | released r =>
      have hidle := released r (by simpa [Pc.isOf] using hof) (by rw [hpc]; rfl)
      simp only [State.release, goto_fields, Function.update_self, hidle]
      exact .leave ()
  | _ => exact stays .trying (by simp_all [Pc.phase]) (by simp [Pc.phase, Leave.owns])

theorem InUse.moves {c : Cmd Unit} (hx : InUse task x) (h : use task x (p, c) = some y) :
    Phase.Moves c (phaseOf x p) (phaseOf y p) := by
  obtain ⟨a, hu, hs, hnote⟩ := use_eq h
  cases hu with
  | call hpc hnode =>
    obtain ⟨t, h'⟩ := y
    replace hs : step x.1 (p, .start (callOf (task p))) = some t := hs
    cases step_cases hs
    simpa [phaseOf, hpc, hnode, Pc.phase] using .call
  | release hpc hnode =>
    obtain ⟨t, h'⟩ := y
    replace hs : step x.1 (p, .release .unlock) = some t := hs
    cases step_cases hs
    simpa [phaseOf, hpc, hnode, Pc.phase, Release.enter] using .release
  | poll hpc hrung =>
    obtain ⟨e, -, he⟩ := List.any_eq_true.mp hrung
    have hnode : x.1.node p = some e.id := by simpa using he
    obtain ⟨t, h'⟩ := y
    replace hs : step x.1 (p, .start (callOf (task p))) = some t := hs
    cases step_cases hs
    simpa [phaseOf, hpc, hnode, Pc.phase] using .stay () .trying
  | dropReady hpc hnode =>
    obtain ⟨t, h'⟩ := y
    replace hs : step x.1 (p, .dropFuture) = some t := hs
    have hsome : (x.1.node p).isSome = true := Option.isSome_iff_ne_none.mpr hnode
    cases step_cases hs with
    | dropFuture held hpc' =>
      obtain rfl : held = true := by cases held <;> simp_all
      simpa [phaseOf, hpc, hsome, Pc.phase, Leave.owns] using .stay () .taking
  | next hidle hholding => exact hx.next_moves hs hnote

end phases

omit [DecidableEq P] in
theorem phase_owns {c : Pc P} {how : Call} (h : c.isOf how = true) (b : Bool) :
    (c.phase b).owns = c.owns := by
  cases c with
  | unlockQueue a =>
    cases a with
    | dropped k => cases hk : k.owns <;> simp [Pc.phase, Pc.owns, Phase.owns, hk]
    | _ => rfl
  | dropNode k | lockDrop k | removeNode k =>
    cases hk : k.owns <;> simp [Pc.phase, Pc.owns, Phase.owns, hk]
  | idle | holding => cases b <;> rfl
  | lockPop r | popTail r =>
    obtain rfl : r = .unlock := by simpa [Pc.isOf] using h
    rfl
  | _ => first | rfl | simp [Pc.isOf] at h

omit [DecidableEq P] in
theorem inUse_init (task : P → Option Nat) : InUse task (init, noCalls) where
  toAccounted := accounted_init
  toHandled := tended_init.toHandled
  sane := tended_init.sane
  exclusive := tended_init.exclusive
  fair := tended_init.fair
  party := tended_init.party
  quits _ := rfl
  bare _ _ := rfl
  bits := (by decide : threeBits unlocked = true)
  calm := by simp [init, Pc.deciding]
  snapshot := by simp [init]
  answered := by
    rw [view_init]
    constructor <;> simp [HandOff.free]
  isOf _ := rfl
  thread _ _ _ := rfl
  asked := by simp [init]
  rings := by simp [init]

def lock (task : P → Option Nat) : Impl P (State P × Calls P) Unit where
  step := use task
  start := (init, noCalls)
  phase := phaseOf
  Good := InUse task
  good_start := inUse_init task
  idle_start _ := rfl
  good_step hx hs := hx.keeps hs
  moves hx hs := hx.moves hs
  others := by
    intro x p c y q hx h hq
    obtain ⟨a, -, hs, -⟩ := use_eq h
    rw [phaseOf, phaseOf, step_others hs hq, (step_nodes hs).others hq]
  alone := by
    intro x p q hx hp hq
    rw [phaseOf, phase_owns (hx.isOf _)] at hp hq
    exact hx.exclusive.one_owner p q (role_owner.mpr hp) (role_owner.mpr hq)

end Colock.RawMutex
