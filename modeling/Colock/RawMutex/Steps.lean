import Colock.RawMutex.Model

/-! What one step of `RawMutex` can do: the transitions themselves, and the way a party goes
through the code. -/
namespace Colock.RawMutex
open Transition
variable {P : Type*} [DecidableEq P]

theorem commit_others (s : State P) (p : P) (c : Pc P) (w : Word) (q : P) (h : q ≠ p) :
    (s.commit p c w).pc q = s.pc q ∧ (s.commit p c w).woken q = s.woken q := by
  by_cases hc : c.owns = true <;> simp [State.commit, h, hc]

theorem freeNode_others (s : State P) (p : P) (leaves : Bool) (q : P) (h : q ≠ p) :
    (s.freeNode p leaves).woken q = s.woken q := by
  cases leaves <;> simp [State.freeNode, h]

theorem finish_others (s : State P) (p : P) (k : Leave) (q : P) (h : q ≠ p) :
    (s.finish p k).pc q = s.pc q ∧ (s.finish p k).woken q = s.woken q := by
  cases k <;> simp [State.finish, h, freeNode_others]

theorem finish_node (s : State P) (p : P) (k : Leave) (q : P) (h : q ≠ p) :
    (s.finish p k).node q = s.node q := by
  cases k <;> simp [State.finish, State.freeNode, State.newNode, h]

theorem release_others (s : State P) (p : P) (a : After) (q : P) (h : q ≠ p) :
    (s.release p a).pc q = s.pc q ∧ (s.release p a).node q = s.node q ∧
      (s.release p a).woken q = s.woken q := by
  cases a with
  | pushed c | aborted c => cases c <;> simp [State.release, h]
  | released r => simp [State.release, h]
  | dropped k =>
    exact ⟨(finish_others { s with qlock := none } p k q h).1, finish_node _ p k q h,
      (finish_others { s with qlock := none } p k q h).2⟩

theorem finish_pc (s : State P) (p : P) (k : Leave) :
    (s.finish p k).pc = Function.update s.pc p ((s.finish p k).pc p) := by
  cases k <;> simp [State.finish]

theorem release_pc (s : State P) (p : P) (a : After) :
    (s.release p a).pc = Function.update s.pc p ((s.release p a).pc p) := by
  cases a with
  | pushed c | aborted c => cases c <;> simp [State.release]
  | dropped k => simpa [State.release] using finish_pc { s with qlock := none } p k
  | released r => simp [State.release]

def Leave.next : Leave → Pc P
  | .retry timed => .cas (.lockInner timed) unlocked
  | .success => .holding
  | .timeout => .idle
  | .renew cx => .lockPush (.poll cx)
  | .future held => if held then .holding else .idle

@[simp] theorem finish_next (s : State P) (p : P) (k : Leave) :
    (s.finish p k).pc p = k.next := by
  cases k <;> simp [State.finish, Leave.next]

theorem acquire_eq {s t : State P} {p : P} {c : Pc P} (h : s.acquire p c = some t) :
    s.qlock = none ∧ t = { s with qlock := some p }.goto p c := by
  unfold State.acquire at h
  split at h
  · next hq => exact ⟨hq, (Option.some.inj h).symm⟩
  · cases h

inductive StepOf (s : State P) (p : P) : Act → State P → Prop
  | start (c : Call) (hpc : s.pc p = .idle) (hnode : s.node p = none ∨ c.isPoll) :
      StepOf s p (.start c) (s.goto p (.cas c unlocked))
  | release (r : Release) (hpc : s.pc p = .holding) (hnode : s.node p = none ∨ r ≠ .bump) :
      StepOf s p (.release r) (s.goto p r.enter)
  | timeout (hpc : s.pc p = .park true) : StepOf s p .timeout (s.goto p (.dropNode .timeout))
  | dropFuture (held : Bool) (hpc : s.pc p = if held then .holding else .idle)
      (hnode : s.node p ≠ none) : StepOf s p .dropFuture (s.goto p (.dropNode (.future held)))
  | casTaken (c : Call) (expected : Word) (hpc : s.pc p = .cas c expected)
      (hw : s.word = expected) : StepOf s p .next (s.commit p .holding (expected ||| lockedBit))
  | casFailed (c : Call) (expected : Word) (hpc : s.pc p = .cas c expected)
      (hw : s.word ≠ expected) (hl : locked s.word = true) :
      StepOf s p .next (s.commit p (tryFailed c) s.word)
  | casRetry (c : Call) (expected : Word) (hpc : s.pc p = .cas c expected)
      (hw : s.word ≠ expected) (hl : locked s.word = false) :
      StepOf s p .next (s.commit p (.cas c s.word) s.word)
  | loadState (c : Call) (hpc : s.pc p = .loadState c) :
      StepOf s p .next (s.commit p (sleepNext c s.word) s.word)
  | sleepMark (c : Call) (current : Word) (hpc : s.pc p = .sleepCas c current)
      (hl : locked current = true) (hw : s.word = lockedBit) :
      StepOf s p .next (s.commit p (sleepNext c lockedBit) (lockedBit ||| waitBit))
  | sleepReload (c : Call) (current : Word) (hpc : s.pc p = .sleepCas c current)
      (hw : s.word ≠ if locked current then lockedBit else current) :
      StepOf s p .next (s.commit p (sleepNext c s.word) s.word)
  | sleepTaken (c : Call) (current : Word) (hpc : s.pc p = .sleepCas c current)
      (hl : locked current = false) (hw : s.word = current) :
      StepOf s p .next (s.commit p (.unlockQueue (.aborted c)) (current ||| lockedBit))
  | fairSeen (timed : Bool) (hpc : s.pc p = .fairLoad timed) (hf : fair s.word = true) :
      StepOf s p .next (s.commit p .fairClear s.word)
  | fairUnseen (timed : Bool) (hpc : s.pc p = .fairLoad timed) (hf : fair s.word = false) :
      StepOf s p .next (s.commit p (.dropNode (.retry timed)) s.word)
  | fairClear (hpc : s.pc p = .fairClear) :
      StepOf s p .next (s.commit p (.dropNode .success) (s.word &&& ~~~fairBit))
  | bumpLoad (hpc : s.pc p = .bumpLoad) :
      StepOf s p .next (s.commit p (if s.word = lockedBit ||| waitBit then .fetchUnlock .bump
        else .holding) s.word)
  | fetchUnlock (r : Release) (hpc : s.pc p = .fetchUnlock r) :
      StepOf s p .next (s.commit p (if waiting s.word then .lockPop r else afterRelease r)
        (s.word &&& ~~~lockedBit))
  | mark (e : Entry P) (n : Nat) (hpc : s.pc p = .mark e n) :
      StepOf s p .next (s.commit p (.wake .unlockFair e n)
        (if n = 0 then s.word ^^^ (waitBit ||| fairBit) else s.word ||| fairBit))
  | onEmpty (hpc : s.pc p = .onEmpty) :
      StepOf s p .next (s.commit p (.unlockQueue (.released .unlockFair))
        (s.word &&& ~~~lockedBit))
  | clearWait (r : Release) (hpc : s.pc p = .clearWait r) :
      StepOf s p .next (s.commit p (.unlockQueue (.released r)) (s.word &&& ~~~waitBit))
  | prepare (timed : Bool) (hpc : s.pc p = .prepare timed) :
      StepOf s p .next ((s.newNode p).goto p (.lockPush (.lockInner timed)))
  | lockPush (c : Call) (hpc : s.pc p = .lockPush c) (hl : s.qlock = none) :
      StepOf s p .next ({ s with qlock := some p }.goto p (.loadState c))
  | pushHead (c : Call) (i : Nat) (hpc : s.pc p = .pushHead c) (hnode : s.node p = some i) :
      StepOf s p .next ((s.push p i c).goto p (.unlockQueue (.pushed c)))
  | park (timed : Bool) (i : Nat) (hpc : s.pc p = .park timed) (hnode : s.node p = some i)
      (hflag : s.flag i = true) : StepOf s p .next (s.goto p (.fairLoad timed))
  | dropLinked (k : Leave) (hpc : s.pc p = .dropNode k) (hon : s.isOnList p = true) :
      StepOf s p .next (s.goto p (.lockDrop k))
  | dropOff (k : Leave) (hpc : s.pc p = .dropNode k) (hoff : s.isOnList p = false) :
      StepOf s p .next (s.finish p k)
  | lockDrop (k : Leave) (hpc : s.pc p = .lockDrop k) (hl : s.qlock = none) :
      StepOf s p .next ({ s with qlock := some p }.goto p (.removeNode k))
  | removeNode (k : Leave) (hpc : s.pc p = .removeNode k) :
      StepOf s p .next ((s.remove p).goto p (.unlockQueue (.dropped k)))
  | lockPop (r : Release) (hpc : s.pc p = .lockPop r) (hl : s.qlock = none) :
      StepOf s p .next ({ s with qlock := some p }.goto p (.popTail r))
  | popNone (r : Release) (hpc : s.pc p = .popTail r) (he : s.queue.getLast? = none) :
      StepOf s p .next
        (s.goto p (if r = .unlockFair then .onEmpty else .unlockQueue (.released r)))
  | popTail (r : Release) (e : Entry P) (hpc : s.pc p = .popTail r)
      (he : s.queue.getLast? = some e) :
      StepOf s p .next ((s.popped e).goto p (if r = .unlockFair then .mark e (s.queue.length - 1)
        else .wake r e (s.queue.length - 1)))
  | wake (r : Release) (e : Entry P) (n : Nat) (hpc : s.pc p = .wake r e n) :
      StepOf s p .next ((s.signal e).goto p
        (if r ≠ .unlockFair ∧ n = 0 then .clearWait r else .unlockQueue (.released r)))
  | unlockQueue (a : After) (hpc : s.pc p = .unlockQueue a) :
      StepOf s p .next (s.release p a)

theorem atomic_cases {s : State P} {p : P} {c : Pc P} {w : Word}
    (h : atomic (s.pc p) s.word = some (c, w)) : StepOf s p .next (s.commit p c w) := by
  cases hpc : s.pc p with
  | cas call expected =>
    simp only [hpc, atomic] at h
    split at h
    · next hw => cases h; exact .casTaken call expected hpc hw
    · next hw =>
      split at h <;> cases h
      · next hl => exact .casFailed call expected hpc hw hl
      · next hl => exact .casRetry call expected hpc hw (by simpa using hl)
  | sleepCas call current =>
    simp only [hpc, atomic] at h
    split at h
    · next hl =>
      split at h <;> cases h
      · next hw => exact .sleepMark call current hpc hl hw
      · next hw => exact .sleepReload call current hpc (by simpa [hl] using hw)
    · next hl =>
      split at h <;> cases h
      · next hw => exact .sleepTaken call current hpc (by simpa using hl) hw
      · next hw => exact .sleepReload call current hpc (by simpa [hl] using hw)
  | fairLoad timed =>
    simp only [hpc, atomic, Option.some.injEq, Prod.mk.injEq] at h
    obtain ⟨rfl, rfl⟩ := h
    split
    · next hf => exact .fairSeen timed hpc hf
    · next hf => exact .fairUnseen timed hpc (by simpa using hf)
  | loadState call =>
    simp only [hpc, atomic] at h
    cases h
    exact .loadState call hpc
  | fairClear =>
    simp only [hpc, atomic] at h
    cases h
    exact .fairClear hpc
  | bumpLoad =>
    simp only [hpc, atomic] at h
    cases h
    exact .bumpLoad hpc
  | fetchUnlock r =>
    simp only [hpc, atomic] at h
    cases h
    exact .fetchUnlock r hpc
  | mark e n =>
    simp only [hpc, atomic] at h
    cases h
    exact .mark e n hpc
  | onEmpty =>
    simp only [hpc, atomic] at h
    cases h
    exact .onEmpty hpc
  | clearWait r =>
    simp only [hpc, atomic] at h
    cases h
    exact .clearWait r hpc
  | _ => simp [hpc, atomic] at h

theorem queueStep_cases {s t : State P} {p : P} (h : queueStep s p = some t) :
    StepOf s p .next t := by
  cases hpc : s.pc p with
  | prepare timed =>
    simp only [queueStep, hpc, Option.some.injEq] at h
    exact h ▸ .prepare timed hpc
  | lockPush c =>
    simp only [queueStep, hpc] at h
    obtain ⟨hl, rfl⟩ := acquire_eq h
    exact .lockPush c hpc hl
  | lockDrop k =>
    simp only [queueStep, hpc] at h
    obtain ⟨hl, rfl⟩ := acquire_eq h
    exact .lockDrop k hpc hl
  | lockPop r =>
    simp only [queueStep, hpc] at h
    obtain ⟨hl, rfl⟩ := acquire_eq h
    exact .lockPop r hpc hl
  | pushHead c =>
    simp only [queueStep, hpc, Option.map_eq_some_iff] at h
    obtain ⟨i, hnode, rfl⟩ := h
    exact .pushHead c i hpc hnode
  | park timed =>
    simp only [queueStep, hpc, Option.bind_eq_some_iff, Option.ite_none_right_eq_some,
      Option.some.injEq] at h
    obtain ⟨i, hnode, hflag, rfl⟩ := h
    exact .park timed i hpc hnode hflag
  | dropNode k =>
    simp only [queueStep, hpc, Option.some.injEq] at h
    split at h <;> subst t
    · next hon => exact .dropLinked k hpc hon
    · next hoff => exact .dropOff k hpc (by simpa using hoff)
  | removeNode k =>
    simp only [queueStep, hpc, Option.some.injEq] at h
    exact h ▸ .removeNode k hpc
  | popTail r =>
    simp only [queueStep, hpc] at h
    split at h
    · next he => exact Option.some.inj h ▸ .popNone r hpc he
    · next e he => exact Option.some.inj h ▸ .popTail r e hpc he
  | wake r e n =>
    simp only [queueStep, hpc, Option.some.injEq] at h
    exact h ▸ .wake r e n hpc
  | unlockQueue a =>
    simp only [queueStep, hpc, Option.some.injEq] at h
    exact h ▸ .unlockQueue a hpc
  | _ => simp [queueStep, hpc] at h

theorem step_cases {s t : State P} {p : P} {a : Act} (h : step s (p, a) = some t) :
    StepOf s p a t := by
  cases a with
  | next =>
    simp only [step] at h
    split at h
    · next ha => exact Option.some.inj h ▸ atomic_cases ha
    · exact queueStep_cases h
  | start c =>
    simp only [step, Option.ite_none_right_eq_some, Option.some.injEq] at h
    obtain ⟨⟨hpc, hnode⟩, rfl⟩ := h
    exact .start c hpc hnode
  | release r =>
    simp only [step, Option.ite_none_right_eq_some, Option.some.injEq] at h
    obtain ⟨⟨hpc, hnode⟩, rfl⟩ := h
    exact .release r hpc hnode
  | timeout =>
    simp only [step, Option.ite_none_right_eq_some, Option.some.injEq] at h
    obtain ⟨hpc, rfl⟩ := h
    exact .timeout hpc
  | dropFuture =>
    simp only [step] at h
    split at h
    · next hidle => exact Option.some.inj h ▸ .dropFuture false hidle.1 hidle.2
    · simp only [Option.ite_none_right_eq_some, Option.some.injEq] at h
      obtain ⟨hholding, rfl⟩ := h
      exact .dropFuture true hholding.1 hholding.2

theorem StepOf.pc {s t : State P} {p : P} {a : Act} (h : StepOf s p a t) :
    t.pc = Function.update s.pc p (t.pc p) := by
  cases h with
  | dropOff k => exact finish_pc s p k
  | unlockQueue a => exact release_pc s p a
  | _ => simp

theorem step_pc {s t : State P} {p : P} {a : Act} (h : step s (p, a) = some t) :
    t.pc = Function.update s.pc p (t.pc p) :=
  (step_cases h).pc

theorem step_others {s t : State P} {p q : P} {a : Act} (h : step s (p, a) = some t)
    (hq : q ≠ p) : t.pc q = s.pc q := by
  rw [step_pc h, Function.update_of_ne hq]

theorem queueStep_word {s t : State P} {p : P} (h : queueStep s p = some t) :
    t.word = s.word := by
  cases queueStep_cases h with
  | casTaken _ _ hpc | casFailed _ _ hpc | casRetry _ _ hpc | loadState _ hpc
  | sleepMark _ _ hpc | sleepReload _ _ hpc | sleepTaken _ _ hpc | fairSeen _ hpc
  | fairUnseen _ hpc | fairClear hpc | bumpLoad hpc | fetchUnlock _ hpc | mark _ _ hpc
  | onEmpty hpc | clearWait _ hpc => simp [queueStep, hpc] at h
  | _ => simp

theorem step_word {s t : State P} {p : P} {a : Act} (h : step s (p, a) = some t) :
    (∃ c w, a = .next ∧ atomic (s.pc p) s.word = some (c, w) ∧ t = s.commit p c w) ∨
      (a = .next → atomic (s.pc p) s.word = none) ∧ t.word = s.word := by
  cases a with
  | next =>
    simp only [step] at h
    split at h
    · next c w ha => exact .inl ⟨c, w, rfl, ha, (Option.some.inj h).symm⟩
    · next ha => exact .inr ⟨fun _ => ha, queueStep_word h⟩
  | _ =>
    cases step_cases h
    exact .inr ⟨by rintro ⟨⟩, rfl⟩

/-- What a step does to the queue: nothing, or it links a node at the head, takes the party's
own node out, or takes the tail. -/
theorem StepOf.queue {s t : State P} {p : P} {a : Act} (h : StepOf s p a t) :
    t.queue = s.queue ∨
    (∃ c i, s.pc p = .pushHead c ∧ s.node p = some i ∧ t.queue = ⟨i, p, c.waker p i⟩ :: s.queue) ∨
    t.queue = (s.remove p).queue ∨ t.queue = s.queue.dropLast := by
  cases h with
  | pushHead c i hpc hnode => exact .inr (.inl ⟨c, i, hpc, hnode, rfl⟩)
  | removeNode k => exact .inr (.inr (.inl rfl))
  | popTail r e => exact .inr (.inr (.inr rfl))
  | _ => exact .inl (by simp)

theorem mem_queue_step {s t : State P} {p : P} {a : Act} (h : step s (p, a) = some t)
    {e : Entry P} (he : e ∈ t.queue) :
    e ∈ s.queue ∨ ∃ c i, s.pc p = .pushHead c ∧ s.node p = some i ∧ e = ⟨i, p, c.waker p i⟩ := by
  rcases (step_cases h).queue with hq | ⟨c, i, hpc, hi, hq⟩ | hq | hq
  · exact .inl (hq ▸ he)
  · rcases List.mem_cons.mp (hq ▸ he) with heq | he
    · exact .inr ⟨c, i, hpc, hi, heq⟩
    · exact .inl he
  · exact .inl (List.mem_of_mem_filter (hq ▸ he))
  · exact .inl ((List.dropLast_sublist _).subset (hq ▸ he))

theorem step_pushHead {s t : State P} {p : P} {a : Act} {c : Call} (hpc : s.pc p = .pushHead c)
    (h : step s (p, a) = some t) :
    ∃ i, s.node p = some i ∧ t = (s.push p i c).goto p (.unlockQueue (.pushed c)) := by
  cases a with
  | next =>
    simp only [step, hpc, atomic, queueStep, Option.map_eq_some_iff] at h
    obtain ⟨i, hi, rfl⟩ := h
    exact ⟨i, hi, rfl⟩
  | _ => simp [step, hpc] at h

inductive NodesStep (s : State P) (p : P) (t : State P) : Prop
  | same (node : t.node = s.node) (fresh : t.fresh = s.fresh)
      (flag : ∀ i, s.flag i = true → t.flag i = true)
  | freed (node : t.node = Function.update s.node p none) (fresh : t.fresh = s.fresh)
      (flag : t.flag = s.flag)
  | made (node : t.node = Function.update s.node p (some s.fresh)) (fresh : t.fresh = s.fresh + 1)
      (flag : t.flag = Function.update s.flag s.fresh false)

theorem finish_nodes (s : State P) (p : P) (k : Leave) : NodesStep s p (s.finish p k) := by
  cases k with
  | renew cx => exact .made rfl rfl rfl
  | _ => exact .freed rfl rfl rfl

theorem release_nodes (s : State P) (p : P) (a : After) : NodesStep s p (s.release p a) := by
  cases a with
  | pushed c | aborted c => cases c <;> exact .same rfl rfl fun _ h => h
  | released r => exact .same rfl rfl fun _ h => h
  | dropped k =>
    cases k with
    | renew cx => exact .made rfl rfl rfl
    | _ => exact .freed rfl rfl rfl

omit [DecidableEq P] in
theorem signal_flag (s : State P) (e : Entry P) (i : Nat) (h : s.flag i = true) :
    (s.signal e).flag i = true := by
  unfold State.signal
  split
  · next j hj => by_cases hi : i = j <;> simp [hi, h]
  · exact h

theorem step_nodes {s t : State P} {p : P} {a : Act} (h : step s (p, a) = some t) :
    NodesStep s p t := by
  cases step_cases h with
  | prepare timed => exact .made rfl rfl rfl
  | dropOff k => exact finish_nodes s p k
  | unlockQueue a => exact release_nodes s p a
  | wake r e n => exact .same (by simp) (by simp) fun i hi => signal_flag s e i hi
  | _ => exact .same rfl rfl fun _ h => h

theorem NodesStep.fresh_le {s t : State P} {p : P} (h : NodesStep s p t) : s.fresh ≤ t.fresh := by
  cases h <;> omega

theorem NodesStep.flag_stays {s t : State P} {p : P} (h : NodesStep s p t) {i : Nat}
    (hi : i < s.fresh) (hflag : s.flag i = true) : t.flag i = true := by
  cases h with
  | same _ _ h => exact h i hflag
  | freed _ _ h => rw [h, hflag]
  | made _ _ h => rw [h, Function.update_of_ne (by omega), hflag]

theorem NodesStep.old {s t : State P} {p q : P} (h : NodesStep s p t) {i : Nat}
    (hi : i < s.fresh) (hnode : t.node q = some i) : s.node q = some i := by
  cases h with
  | same h => rwa [h] at hnode
  | freed h =>
    rw [h, Function.update_apply] at hnode
    split at hnode
    · cases hnode
    · exact hnode
  | made h =>
    rw [h, Function.update_apply] at hnode
    split at hnode
    · cases hnode
      exact absurd hi (lt_irrefl _)
    · exact hnode

theorem NodesStep.others {s t : State P} {p q : P} (h : NodesStep s p t) (hq : q ≠ p) :
    t.node q = s.node q := by
  cases h with
  | same h => rw [h]
  | freed h | made h => rw [h, Function.update_of_ne hq]

/-- A party that finds the word `w` goes from one operation to the next one. -/
inductive Flow (w : Word) : Act → Pc P → Pc P → Prop
  | start (c : Call) : Flow w (.start c) .idle (.cas c unlocked)
  | unlock : Flow w (.release .unlock) .holding (.fetchUnlock .unlock)
  | bump : Flow w (.release .bump) .holding .bumpLoad
  | unlockFair : Flow w (.release .unlockFair) .holding (.lockPop .unlockFair)
  | timeout : Flow w .timeout (.park true) (.dropNode .timeout)
  | dropPending : Flow w .dropFuture .idle (.dropNode (.future false))
  | dropReady : Flow w .dropFuture .holding (.dropNode (.future true))
  | casTaken (c : Call) : Flow w .next (.cas c w) .holding
  | tryFailed (expected : Word) (hl : locked w = true) : Flow w .next (.cas .tryLock expected) .idle
  | lockFailed (timed : Bool) (expected : Word) (hl : locked w = true) :
      Flow w .next (.cas (.lockInner timed) expected) (.prepare timed)
  | pollFailed (cx : Nat) (expected : Word) (hl : locked w = true) :
      Flow w .next (.cas (.poll cx) expected) (.dropNode (.renew cx))
  | casRetry (c : Call) (expected : Word) (hl : locked w = false) :
      Flow w .next (.cas c expected) (.cas c w)
  | prepare (timed : Bool) : Flow w .next (.prepare timed) (.lockPush (.lockInner timed))
  | lockPush (c : Call) : Flow w .next (.lockPush c) (.loadState c)
  | loadFull (c : Call) (hw : w = lockedBit ||| waitBit) : Flow w .next (.loadState c) (.pushHead c)
  | loadState (c : Call) : Flow w .next (.loadState c) (.sleepCas c w)
  | sleepFull (c : Call) (current : Word) (hw : w = lockedBit ||| waitBit) :
      Flow w .next (.sleepCas c current) (.pushHead c)
  | sleepCas (c : Call) (current : Word) : Flow w .next (.sleepCas c current) (.sleepCas c w)
  | sleepTaken (c : Call) (hl : locked w = false) :
      Flow w .next (.sleepCas c w) (.unlockQueue (.aborted c))
  | pushHead (c : Call) : Flow w .next (.pushHead c) (.unlockQueue (.pushed c))
  | pushedLock (timed : Bool) :
      Flow w .next (.unlockQueue (.pushed (.lockInner timed))) (.park timed)
  | pushed (c : Call) (hc : ∀ timed, c ≠ .lockInner timed) :
      Flow w .next (.unlockQueue (.pushed c)) .idle
  | abortedLock (timed : Bool) :
      Flow w .next (.unlockQueue (.aborted (.lockInner timed))) (.dropNode .success)
  | aborted (c : Call) (hc : ∀ timed, c ≠ .lockInner timed) :
      Flow w .next (.unlockQueue (.aborted c)) .holding
  | park (timed : Bool) : Flow w .next (.park timed) (.fairLoad timed)
  | fairSeen (timed : Bool) (hf : fair w = true) : Flow w .next (.fairLoad timed) .fairClear
  | fairUnseen (timed : Bool) (hf : fair w = false) :
      Flow w .next (.fairLoad timed) (.dropNode (.retry timed))
  | fairClear : Flow w .next .fairClear (.dropNode .success)
  | dropLinked (k : Leave) : Flow w .next (.dropNode k) (.lockDrop k)
  | dropOff (k : Leave) : Flow w .next (.dropNode k) k.next
  | lockDrop (k : Leave) : Flow w .next (.lockDrop k) (.removeNode k)
  | removeNode (k : Leave) : Flow w .next (.removeNode k) (.unlockQueue (.dropped k))
  | dropped (k : Leave) : Flow w .next (.unlockQueue (.dropped k)) k.next
  | bumpGives : Flow w .next .bumpLoad (.fetchUnlock .bump)
  | bumpKeeps : Flow w .next .bumpLoad .holding
  | fetchWaiting (r : Release) (hw : waiting w = true) : Flow w .next (.fetchUnlock r) (.lockPop r)
  | fetchAlone (r : Release) (hw : waiting w = false) :
      Flow w .next (.fetchUnlock r) (afterRelease r)
  | lockPop (r : Release) : Flow w .next (.lockPop r) (.popTail r)
  | popNone (r : Release) (hr : r ≠ .unlockFair) :
      Flow w .next (.popTail r) (.unlockQueue (.released r))
  | popTail (r : Release) (hr : r ≠ .unlockFair) (e : Entry P) (n : Nat) :
      Flow w .next (.popTail r) (.wake r e n)
  | fairNone : Flow w .next (.popTail .unlockFair) .onEmpty
  | fairTail (e : Entry P) (n : Nat) : Flow w .next (.popTail .unlockFair) (.mark e n)
  | mark (e : Entry P) (n : Nat) : Flow w .next (.mark e n) (.wake .unlockFair e n)
  | onEmpty : Flow w .next .onEmpty (.unlockQueue (.released .unlockFair))
  | wakeLast (r : Release) (hr : r ≠ .unlockFair) (e : Entry P) :
      Flow w .next (.wake r e 0) (.clearWait r)
  | wake (r : Release) (e : Entry P) (n : Nat) (hn : r ≠ .unlockFair → n ≠ 0) :
      Flow w .next (.wake r e n) (.unlockQueue (.released r))
  | clearWait (r : Release) : Flow w .next (.clearWait r) (.unlockQueue (.released r))
  | released (r : Release) : Flow w .next (.unlockQueue (.released r)) (afterRelease r)

theorem step_flow {s t : State P} {p : P} {a : Act} (h : step s (p, a) = some t) :
    Flow s.word a (s.pc p) (t.pc p) := by
  have sleeps : ∀ c : Call, s.word = lockedBit ||| waitBit ∧ sleepNext c s.word = .pushHead (P := P) c ∨
      sleepNext c s.word = .sleepCas (P := P) c s.word := by
    intro c
    by_cases hw : s.word = lockedBit ||| waitBit <;> simp [sleepNext, hw]
  cases step_cases h with
  | casTaken c expected hpc hw =>
    subst expected
    simpa [hpc] using .casTaken c
  | casFailed c expected hpc hw hl =>
    cases c with
    | tryLock => simpa [hpc, tryFailed] using .tryFailed expected hl
    | lockInner timed => simpa [hpc, tryFailed] using .lockFailed timed expected hl
    | poll cx => simpa [hpc, tryFailed] using .pollFailed cx expected hl
  | loadState c hpc =>
    rcases sleeps c with ⟨hw, hnext⟩ | hnext
    · simpa [hpc, hnext] using .loadFull c hw
    · simpa [hpc, hnext] using .loadState c
  | sleepReload c current hpc hw =>
    rcases sleeps c with ⟨hw, hnext⟩ | hnext
    · simpa [hpc, hnext] using .sleepFull c current hw
    · simpa [hpc, hnext] using .sleepCas c current
  | sleepMark c current hpc hl hw =>
    rcases sleeps c with ⟨hw', hnext⟩ | hnext
    · rw [hw] at hnext
      simpa [hpc, hnext] using .sleepFull c current hw'
    · rw [hw] at hnext
      simpa [hpc, hnext, hw] using .sleepCas c current
  | sleepTaken c current hpc hl hw =>
    subst current
    simpa [hpc] using .sleepTaken c hl
  | bumpLoad hpc =>
    by_cases hw : s.word = lockedBit ||| waitBit
    · simpa [hpc, hw] using .bumpGives
    · simpa [hpc, hw] using .bumpKeeps
  | fetchUnlock r hpc =>
    cases hw : waiting s.word with
    | true => simpa [hpc, hw] using .fetchWaiting r hw
    | false => simpa [hpc, hw] using .fetchAlone r hw
  | popNone r hpc =>
    by_cases hr : r = .unlockFair
    · subst r
      simpa [hpc] using .fairNone
    · simpa [hpc, hr] using .popNone r hr
  | popTail r e hpc =>
    by_cases hr : r = .unlockFair
    · subst r
      simpa [hpc] using .fairTail e _
    · simpa [hpc, hr] using .popTail r hr e _
  | wake r e n hpc =>
    by_cases hlast : r ≠ .unlockFair ∧ n = 0
    · obtain ⟨hr, rfl⟩ := hlast
      simpa [hpc, hr] using .wakeLast r hr e
    · simpa [hpc, hlast] using .wake r e n fun hr hn => hlast ⟨hr, hn⟩
  | unlockQueue a hpc =>
    cases a with
    | pushed c =>
      cases c with
      | lockInner timed => simpa [hpc, State.release] using .pushedLock timed
      | tryLock | poll cx => simpa [hpc, State.release] using .pushed _ (by simp)
    | aborted c =>
      cases c with
      | lockInner timed => simpa [hpc, State.release] using .abortedLock timed
      | tryLock | poll cx => simpa [hpc, State.release] using .aborted _ (by simp)
    | dropped k => simpa [hpc, State.release] using .dropped k
    | released r => simpa [hpc, State.release] using .released r
  | release r hpc =>
    cases r with
    | unlock => simpa [hpc, Release.enter] using .unlock
    | bump => simpa [hpc, Release.enter] using .bump
    | unlockFair => simpa [hpc, Release.enter] using .unlockFair
  | dropFuture held hpc =>
    cases held with
    | true => simpa [hpc] using .dropReady
    | false => simpa [hpc] using .dropPending
  | start c hpc => simpa [hpc] using .start c
  | timeout hpc => simpa [hpc] using .timeout
  | casRetry c expected hpc hw hl => simpa [hpc] using .casRetry c expected hl
  | fairSeen timed hpc hf => simpa [hpc] using .fairSeen timed hf
  | fairUnseen timed hpc hf => simpa [hpc] using .fairUnseen timed hf
  | fairClear hpc => simpa [hpc] using .fairClear
  | mark e n hpc => simpa [hpc] using .mark e n
  | onEmpty hpc => simpa [hpc] using .onEmpty
  | clearWait r hpc => simpa [hpc] using .clearWait r
  | prepare timed hpc => simpa [hpc] using .prepare timed
  | lockPush c hpc => simpa [hpc] using .lockPush c
  | pushHead c i hpc => simpa [hpc] using .pushHead c
  | park timed i hpc => simpa [hpc] using .park timed
  | dropLinked k hpc => simpa [hpc] using .dropLinked k
  | dropOff k hpc => simpa [hpc] using .dropOff k
  | lockDrop k hpc => simpa [hpc] using .lockDrop k
  | removeNode k hpc => simpa [hpc] using .removeNode k
  | lockPop r hpc => simpa [hpc] using .lockPop r

end Colock.RawMutex
