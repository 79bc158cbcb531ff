import Colock.Barrier.HeldWaker
import Colock.Barrier.Ledger
import Colock.Barrier.OneGeneration

/-! The generations of a barrier. Its wait queue is its only count, so the law is about the
ledger: what was pushed, popped, taken out and answered, in every run of threads that wait and
futures that are polled, polled again and dropped. -/
namespace Colock.Barrier
open Transition
variable {P : Type*} [DecidableEq P]

/-- The parties in `calm` are the threads, and futures that are neither polled again before they
are woken nor dropped while they are pending. The others are futures that do as they like. -/
def Patient (calm : P → Bool) (s : State P × Ledger P) : P × Act → Prop
  | (p, .wait) => calm p = true
  | (p, .next) =>
    calm p = true → (s.1.pc p).checks = true → (s.1.parker p).map s.1.flag ≠ some false
  | (p, .dropFuture) => calm p = true → s.1.result p ≠ none
  | (_, .poll _) => True

def Pc.led : Pc P → Bool
  | .unlockList _ false => true
  | .dropNode k | .lockDrop k | .removeNode k | .unlockDrop k => k.leads
  | _ => false

/-- Each release makes a leader of the caller that did it, and of nobody else. -/
def Told (s : State P) (h : Ledger P) : Prop :=
  ∀ p, (h.released.map Prod.fst).count p = h.leaders.count p + if (s.pc p).led then 1 else 0

def Pc.waiting : Pc P → Bool
  | .out | .check _ | .park | .unlockList _ true => true
  | _ => false

def Pc.drops : Pc P → Bool
  | .dropNode _ | .lockDrop _ | .removeNode _ => true
  | _ => false

def Pc.woken : Pc P → Bool
  | .dropNode k | .lockDrop k | .removeNode k | .unlockDrop k => k = .returns false
  | _ => false

def Pc.blocking : Pc P → Bool
  | .newParker c | .lockList c | .count c | .pushHead c | .popHead c | .wake c _
  | .unlockList c _ => c = .wait
  | .park => true
  | .dropNode k | .lockDrop k | .removeNode k | .unlockDrop k => k.isReturn
  | _ => false

omit [DecidableEq P] in
theorem eventOf_leads {s : State P} {p q : P} {a : Act} (h : eventOf s (p, a) = .leads q) :
    q = p := by
  cases a with
  | next =>
    cases hpc : s.pc p with
    | pushHead c => cases hn : s.node p <;> simp [eventOf, hpc, hn] at h
    | popHead c => cases hq : s.queue.head? <;> simp_all [eventOf]
    | _ => simp [eventOf, hpc] at h
  | _ => simp [eventOf] at h

theorem Told.step {target : Nat} (h0 : target ≠ 0) {s t : State P} {h : Ledger P} {p : P} {a : Act}
    (ht : Told s h) (hstep : step target s (p, a) = some t) : Told t (keep target s (p, a) h) := by
  intro q
  have hq := ht q
  by_cases hqp : q = p
  · subst q
    simp only [keep, noteLeader, hstep, Option.elim_some, Answers]
    cases step_cases hstep with
    | free a h => exact absurd h h0
    | popHead c e queue hpc hqueue | emptied c hpc hqueue =>
      simp_all [eventOf, Ledger.note, Pc.led]
    | pushHead c i hpc hnode => simp_all [eventOf, Ledger.note, Pc.led]
    | unlockList c b hpc =>
      cases c <;> cases b <;> simp_all [eventOf, Ledger.note, Pc.led, State.release, Leave.leads]
    | dropOff k hpc | unlockDrop k hpc =>
      rcases k with cx | b | _
      · simp_all [eventOf, Ledger.note, Pc.led, State.finish, Leave.leads]
      · cases b <;> simp_all [eventOf, Ledger.note, Pc.led, State.finish, Leave.leads]
      · simp_all [eventOf, Ledger.note, Pc.led, State.finish, Leave.leads]
    | _ => simp_all [eventOf, Ledger.note, Pc.led, Leave.leads]
  · have hreleased : ((keep target s (p, a) h).released.map Prod.fst).count q =
        (h.released.map Prod.fst).count q := by
      cases hx : eventOf s (p, a) with
      | leads r =>
        have hr : r ≠ q := fun hr => hqp (hr.symm.trans (eventOf_leads hx))
        simp [keep, hx, Ledger.note, hr]
      | _ => simp [keep, hx, Ledger.note]
    have hleaders : (keep target s (p, a) h).leaders.count q = h.leaders.count q := by
      simp only [keep, noteLeader, hstep, Option.elim_some]
      split
      · simp [Ne.symm hqp]
      · rfl
    rw [hreleased, hleaders, (step_others hstep hqp).1]
    exact hq

structure State.Awaits (s : State P) (e : Entry P) : Prop where
  parker : s.parker e.owner = some e.id
  flag : s.flag e.id = false
  waiting : (s.pc e.owner).waiting = true
  pending : s.pc e.owner = .out → s.result e.owner = none

theorem step_result {target : Nat} {s t : State P} {p q : P} {a : Act}
    (h : step target s (p, a) = some t) (hq : q ≠ p) : t.result q = s.result q := by
  cases step_cases h with
  | unlockList c b => cases c <;> simp [State.release, hq]
  | dropOff k | unlockDrop k => cases k <;> simp [State.finish, hq]
  | wake c e => unfold State.signal; split <;> rfl
  | _ => simp [State.newParker, State.push, State.remove, hq]

theorem step_flag {target : Nat} {s t : State P} {p : P} {a : Act} {i : Nat} (hi : i < s.fresh)
    (h : step target s (p, a) = some t) :
    t.flag i = s.flag i ∨ t.flag i = true ∧
      ∃ c e, s.pc p = .wake c e ∧ s.parker e.owner = some i := by
  cases step_cases h with
  | newParker c => exact .inl (by simp [State.newParker, hi.ne])
  | wake c e hpc =>
    cases hparker : s.parker e.owner with
    | none => exact .inl (by simp [State.signal, hparker])
    | some j =>
      by_cases hij : i = j
      · subst j
        exact .inr ⟨by simp [State.signal, hparker], c, e, hpc, hparker⟩
      · exact .inl (by simp [State.signal, hparker, hij])
  | unlockList c b => exact .inl (by cases c <;> rfl)
  | _ => exact .inl (by simp)

theorem State.Awaits.self {target : Nat} (h0 : target ≠ 0) {calm : P → Bool} {s t : State P}
    {h : Ledger P} {a : Act} {e : Entry P} (hw : s.Awaits e) (hcalm : calm e.owner = true)
    (hok : Patient calm (s, h) (e.owner, a)) (hstep : step target s (e.owner, a) = some t) :
    t.Awaits e := by
  have hwaiting := hw.waiting
  have hasleep : (s.parker e.owner).map s.flag = some false := by simp [hw.parker, hw.flag]
  cases step_cases hstep with
  | free a h => exact absurd h h0
  | wait _ hpc hnode hparker => simp [hw.parker] at hparker
  | poll cx h0 hpc => exact ⟨hw.parker, hw.flag, by simp [Pc.waiting], by simp⟩
  | dropFuture hpc => exact absurd (hw.pending hpc) (hok hcalm)
  | ready cx hpc hflag => simp [hasleep] at hflag
  | renew cx hpc => exact absurd hasleep (hok hcalm (by simp [hpc, Pc.checks]))
  | park i hpc hparker hflag =>
    simp only [hparker, Option.map_some, Option.some.injEq] at hasleep
    simp [hasleep] at hflag
  | unlockList c b hpc =>
    cases b with
    | false => simp [hpc, Pc.waiting] at hwaiting
    | true =>
      cases c with
      | wait => exact ⟨hw.parker, hw.flag, by simp [State.release, Pc.waiting], by simp [State.release]⟩
      | poll cx =>
        exact ⟨hw.parker, hw.flag, by simp [State.release, Pc.waiting], by simp [State.release]⟩
  | _ => simp [*, Pc.waiting] at hwaiting

theorem State.Awaits.step {target : Nat} (h0 : target ≠ 0) {calm : P → Bool} {s t : State P}
    {h : Ledger P} {p : P} {a : Act} {e : Entry P} (hs : WellFormed s) (hw : s.Awaits e)
    (hcalm : calm e.owner = true) (hok : Patient calm (s, h) (p, a))
    (hstep : step target s (p, a) = some t) :
    t.Awaits e ∨ ∃ c e', s.pc p = .wake c e' ∧ e'.owner = e.owner := by
  by_cases hp : e.owner = p
  · subst p
    exact .inl (hw.self h0 hcalm hok hstep)
  · obtain ⟨hpc, hparker⟩ := step_others hstep hp
    have hflag := step_flag (hs.parker_lt _ _ hw.parker) hstep
    rcases hflag with hflag | ⟨-, c, e', hpc', hparker'⟩
    · left
      refine ⟨by rw [hparker, hw.parker], by rw [hflag, hw.flag], by rw [hpc, hw.waiting], ?_⟩
      rw [hpc, step_result hstep hp]
      exact hw.pending
    · exact .inr ⟨c, e', hpc', hs.parker_inj _ _ _ hparker' hw.parker⟩

structure Calm (calm : P → Bool) (s : State P) (h : Ledger P) : Prop where
  popping : ∀ p, ∀ e ∈ (s.pc p).carries, e ∈ h.popping
  queued : ∀ e ∈ s.queue, calm e.owner = true → s.Awaits e
  held : ∀ p, ∀ e ∈ (s.pc p).carries, calm e.owner = true → s.Awaits e
  popped : ∀ p i, calm p = true → s.parker p = some i → s.flag i = true →
    ∃ e ∈ h.popped, e.owner = p ∧ e.id = i
  off : ∀ p, calm p = true → (s.pc p).drops = true → s.Off p
  woken : ∀ p, (s.pc p).woken = true → (s.parker p).map s.flag = some true
  threads : ∀ p, (s.pc p).blocking = true → calm p = true
  own : ∀ r ∈ h.removed, r.2.2.owner = r.1 ∧ r.2.1.isReturn = false ∧ calm r.1 = false

structure Kept (target : Nat) (calm : P → Bool) (s : State P) (h : Ledger P) : Prop extends
    WellFormed s where
  balanced : Balanced s.queue h
  numbered : Numbered s h
  sized : Sized target s h
  told : Told s h
  calm : Calm calm s h

theorem mem_queue_step {target : Nat} {s t : State P} {p : P} {a : Act} {e : Entry P}
    (h : step target s (p, a) = some t) (he : e ∈ t.queue) :
    e ∈ s.queue ∨ eventOf s (p, a) = .arrives e := by
  have hm := step_moves h
  cases hx : eventOf s (p, a) with
  | quiet =>
    rw [hx] at hm
    exact .inl (hm ▸ he)
  | arrives e' =>
    rw [hx] at hm
    rcases List.mem_cons.mp (hm ▸ he) with rfl | hold
    · exact .inr rfl
    · exact .inl hold
  | pops e' =>
    rw [hx] at hm
    exact .inl (hm ▸ List.mem_cons_of_mem _ he)
  | leads q =>
    rw [hx] at hm
    simp [hm.2] at he
  | withdraws q k es =>
    rw [hx] at hm
    exact .inl (hm.mem_iff.mpr (List.mem_append_right _ he))

theorem carries_step {target : Nat} {s t : State P} {p q : P} {a : Act} {e : Entry P}
    (h : step target s (p, a) = some t) (he : e ∈ (t.pc q).carries) :
    q ≠ p ∧ e ∈ (s.pc q).carries ∨ q = p ∧ eventOf s (p, a) = .pops e := by
  by_cases hq : q = p
  · subst q
    right
    refine ⟨rfl, ?_⟩
    cases step_cases h with
    | popHead c e' queue hpc hqueue =>
      obtain rfl : e' = e := by simpa [Pc.carries] using he
      simp [eventOf, hpc, hqueue]
    | unlockList c b => cases c <;> cases b <;> simp [State.release, Pc.carries] at he
    | dropOff k | unlockDrop k => cases k <;> simp [State.finish, Pc.carries] at he
    | _ => simp [Pc.carries] at he
  · exact .inl ⟨hq, (step_others h hq).1 ▸ he⟩

omit [DecidableEq P] in
theorem Balanced.distinct {s : State P} {h : Ledger P} {e e' : Entry P} (hb : Balanced s.queue h)
    (hn : Numbered s h) (he : e ∈ h.popped) (he' : e' ∈ s.queue) : e.id ≠ e'.id := by
  have hnodup := (hb.map Entry.id).nodup hn.nodup
  simp only [List.map_append, List.append_assoc] at hnodup
  exact (List.nodup_append.mp hnodup).2.2 _ (List.mem_map_of_mem he) _
    (List.mem_append_right _ (List.mem_map_of_mem he'))

omit [DecidableEq P] in
theorem Balanced.pushed {s : State P} {h : Ledger P} {e : Entry P} (hb : Balanced s.queue h)
    (he : e ∈ h.popped) : e ∈ h.pushed :=
  hb.mem_iff.mpr (by simp [he])

section calm
variable {target : Nat} {calm : P → Bool} {s t : State P} {h : Ledger P} {p : P} {a : Act}
  {e : Entry P}

omit [DecidableEq P] in
theorem Calm.mem_popped (hc : Calm calm s h) (he : e ∈ (s.pc p).carries) : e ∈ h.popped :=
  List.mem_append_left _ (hc.popping p e he)

theorem Kept.awaits_step (hk : Kept target calm s h) (h0 : target ≠ 0)
    (hok : Patient calm (s, h) (p, a)) (hstep : step target s (p, a) = some t)
    (hcalm : calm e.owner = true) (hw : s.Awaits e)
    (he : e ∈ s.queue ∨ ∃ q, q ≠ p ∧ e ∈ (s.pc q).carries) : t.Awaits e := by
  rcases hw.step h0 hk.toWellFormed hcalm hok hstep with hw' | ⟨c, e', hpc, howner⟩
  · exact hw'
  · have hcarry : e' ∈ (s.pc p).carries := by simp [hpc, Pc.carries]
    have hw' := hk.calm.held p e' hcarry (howner ▸ hcalm)
    have hid : e'.id = e.id :=
      Option.some.inj (hw'.parker.symm.trans ((congrArg s.parker howner).trans hw.parker))
    rcases he with hqueue | ⟨q, hq, hcarry'⟩
    · exact absurd hid (hk.balanced.distinct hk.numbered (hk.calm.mem_popped hcarry) hqueue)
    · exact absurd (hk.alone (inSection_of_carries hcarry') (inSection_of_carries hcarry)) hq

theorem Kept.awaits_push (hk : Kept target calm s h) (hstep : step target s (p, a) = some t)
    (hcalm : calm p = true) (hx : eventOf s (p, a) = .arrives e) : t.Awaits e := by
  obtain ⟨c, i, rfl, hpc, hnode, rfl⟩ := eventOf_arrives hx
  obtain rfl : (s.push p i c).goto p (.unlockList c true) = t := by
    simpa [step, next, hpc, hnode] using hstep
  have hparker := hk.node_parker p i hnode
  refine ⟨hparker, ?_, by simp [Pc.waiting], by simp⟩
  by_contra hflag
  obtain ⟨e, he, -, hid⟩ := hk.calm.popped p i hcalm hparker (by simpa using hflag)
  exact hk.numbered.new p i (by rw [hpc]; rfl) hparker e (hk.balanced.pushed he) hid

theorem Kept.queued_step (hk : Kept target calm s h) (h0 : target ≠ 0)
    (hok : Patient calm (s, h) (p, a)) (hstep : step target s (p, a) = some t) :
    ∀ e ∈ t.queue, calm e.owner = true → t.Awaits e := by
  intro e he hcalm
  rcases mem_queue_step hstep he with hold | hnew
  · exact hk.awaits_step h0 hok hstep hcalm (hk.calm.queued e hold hcalm) (.inl hold)
  · obtain ⟨c, i, -, -, -, rfl⟩ := eventOf_arrives hnew
    exact hk.awaits_push hstep hcalm hnew

theorem Kept.held_step (hk : Kept target calm s h) (h0 : target ≠ 0)
    (hok : Patient calm (s, h) (p, a)) (hstep : step target s (p, a) = some t) :
    ∀ q, ∀ e ∈ (t.pc q).carries, calm e.owner = true → t.Awaits e := by
  intro q e he hcalm
  rcases carries_step hstep he with ⟨hq, hold⟩ | ⟨rfl, hpops⟩
  · exact hk.awaits_step h0 hok hstep hcalm (hk.calm.held q e hold hcalm) (.inr ⟨q, hq, hold⟩)
  · have hmoves := step_moves hstep
    rw [hpops] at hmoves
    have hmem : e ∈ s.queue := by
      simp only [Event.Moves] at hmoves
      simp [hmoves]
    exact hk.awaits_step h0 hok hstep hcalm (hk.calm.queued e hmem hcalm) (.inl hmem)

theorem Kept.popping_step (hk : Kept target calm s h) (hstep : step target s (p, a) = some t) :
    ∀ q, ∀ e ∈ (t.pc q).carries, e ∈ (h.note (eventOf s (p, a))).popping := by
  intro q e he
  rcases carries_step hstep he with ⟨hq, hold⟩ | ⟨rfl, hpops⟩
  · have hmem := hk.calm.popping q e hold
    cases hx : eventOf s (p, a) with
    | leads r =>
      -- only the party with the list lock ends a release, and that one is carrying
      have hstage : (s.pc p).inSection = true := by
        cases a with
        | next => cases hpc : s.pc p <;> simp_all [eventOf, Pc.inSection]
        | _ => simp [eventOf] at hx
      exact absurd (hk.alone (inSection_of_carries hold) hstage) hq
    | pops e' => exact List.mem_cons_of_mem _ hmem
    | _ => exact hmem
  · rw [hpops]
    exact List.mem_cons_self

theorem Kept.popped_step (hk : Kept target calm s h) (hstep : step target s (p, a) = some t) :
    ∀ q i, calm q = true → t.parker q = some i → t.flag i = true →
      ∃ e ∈ (h.note (eventOf s (p, a))).popped, e.owner = q ∧ e.id = i := by
  intro q i hcalm hparker hflag
  have old : s.parker q = some i → ∃ e ∈ (h.note (eventOf s (p, a))).popped, e.owner = q ∧ e.id = i := by
    intro hq
    rcases step_flag (hk.parker_lt q i hq) hstep with hsame | ⟨-, c, e, hpc, hparker'⟩
    · obtain ⟨e, he, hown⟩ := hk.calm.popped q i hcalm hq (hsame ▸ hflag)
      exact ⟨e, h.note_popped _ he, hown⟩
    · have howner : e.owner = q := hk.parker_inj _ _ _ hparker' hq
      have hcarry : e ∈ (s.pc p).carries := by simp [hpc, Pc.carries]
      have hw := hk.calm.held p e hcarry (howner ▸ hcalm)
      exact ⟨e, h.note_popped _ (hk.calm.mem_popped hcarry), howner,
        Option.some.inj (hw.parker.symm.trans hparker')⟩
  by_cases hq : q = p
  · subst q
    cases step_cases hstep with
    | newParker c =>
      -- the new parker has not been woken
      have hi : s.fresh = i := by simpa [State.newParker] using hparker
      simp [State.newParker, hi] at hflag
    | unlockList c b => exact old (by cases c <;> exact hparker)
    | dropOff k | unlockDrop k => exact old (by cases k <;> simp_all [State.finish])
    | _ => exact old (by simpa using hparker)
  · exact old ((step_others hstep hq).2 ▸ hparker)

theorem Kept.off_step (hk : Kept target calm s h) (h0 : target ≠ 0)
    (hok : Patient calm (s, h) (p, a)) (hstep : step target s (p, a) = some t) :
    ∀ q, calm q = true → (t.pc q).drops = true → t.Off q := by
  intro q hcalm hdrops
  by_cases hq : q = p
  · subst q
    cases step_cases hstep with
    | dropFuture hpc =>
      rintro e he rfl
      exact hok hcalm ((hk.calm.queued e he hcalm).pending hpc)
    | renew cx hpc hflag =>
      rintro e he rfl
      have hw := hk.calm.queued e he hcalm
      exact hok hcalm (by simp [hpc, Pc.checks]) (by simp [hw.parker, hw.flag])
    | park i hpc hparker hflag =>
      rintro e he rfl
      have hw := hk.calm.queued e he hcalm
      obtain rfl : e.id = i := Option.some.inj (hw.parker.symm.trans hparker)
      simp [hw.flag] at hflag
    | unlockList c b hpc =>
      cases b with
      | true => cases c <;> simp [State.release, Pc.drops] at hdrops
      | false =>
        have ho := hk.off p (by rw [hpc]; rfl)
        cases c <;> exact ho
    | dropLinked k hpc | lockDrop k hpc =>
      exact hk.calm.off p hcalm (by rw [hpc]; rfl)
    | dropOff k | unlockDrop k => cases k <;> simp [State.finish, Pc.drops] at hdrops
    | free a h => exact absurd h h0
    | _ => simp [Pc.drops] at hdrops
  · intro e he
    rcases mem_queue_step hstep he with hold | hnew
    · exact hk.calm.off q hcalm ((step_others hstep hq).1 ▸ hdrops) e hold
    · obtain ⟨c, i, -, -, -, rfl⟩ := eventOf_arrives hnew
      exact Ne.symm hq

theorem Kept.woken_step (hk : Kept target calm s h) (hstep : step target s (p, a) = some t) :
    ∀ q, (t.pc q).woken = true → (t.parker q).map t.flag = some true := by
  intro q hq
  have keep : (s.pc q).woken = true → t.parker q = s.parker q →
      (t.parker q).map t.flag = some true := by
    intro hpc hparker
    obtain ⟨i, hi, hflag⟩ := Option.map_eq_some_iff.mp (hk.calm.woken q hpc)
    rw [hparker, hi]
    rcases step_flag (hk.parker_lt q i hi) hstep with hsame | ⟨hset, -⟩
    · simp [hsame, hflag]
    · simp [hset]
  by_cases hqp : q = p
  · subst q
    cases step_cases hstep with
    | park i hpc hparker hflag => simp [hparker, hflag]
    | dropLinked k hpc | lockDrop k hpc | removeNode k hpc =>
      refine keep ?_ rfl
      rw [hpc]
      simpa [Pc.woken] using hq
    | unlockList c b => cases c <;> cases b <;> simp [State.release, Pc.woken] at hq
    | dropOff k | unlockDrop k => cases k <;> simp [State.finish, Pc.woken] at hq
    | _ => simp [Pc.woken] at hq
  · obtain ⟨hpc, hparker⟩ := step_others hstep hqp
    exact keep (hpc ▸ hq) hparker

theorem Kept.threads_step (hk : Kept target calm s h) (hok : Patient calm (s, h) (p, a))
    (hstep : step target s (p, a) = some t) : ∀ q, (t.pc q).blocking = true → calm q = true := by
  intro q hq
  by_cases hqp : q = p
  · subst q
    have hold := hk.calm.threads p
    cases step_cases hstep with
    | wait => exact hok
    | unlockList c b hpc =>
      refine hold ?_
      rw [hpc]
      cases c <;> simp_all [State.release, Pc.blocking]
    | dropOff k | unlockDrop k => cases k <;> simp [State.finish, Pc.blocking] at hq
    | park i hpc => exact hold (by rw [hpc]; rfl)
    | _ => simp_all [Pc.blocking, Leave.isReturn]
  · exact hk.calm.threads q ((step_others hstep hqp).1 ▸ hq)

theorem Kept.own_step (hk : Kept target calm s h) :
    ∀ r ∈ (h.note (eventOf s (p, a))).removed,
      r.2.2.owner = r.1 ∧ r.2.1.isReturn = false ∧ calm r.1 = false := by
  intro r hr
  cases hx : eventOf s (p, a) with
  | withdraws q k es =>
    rw [hx] at hr
    rcases List.mem_append.mp hr with hnew | hold
    · obtain ⟨e, he, rfl⟩ := List.mem_map.mp hnew
      cases a with
      | next =>
        cases hpc : s.pc p with
        | removeNode k' =>
          simp only [eventOf, hpc, Event.withdraws.injEq] at hx
          obtain ⟨rfl, rfl, rfl⟩ := hx
          obtain ⟨hmem, hid⟩ := List.mem_filter.mp he
          have howner : e.owner = p :=
            hk.parker_inj _ _ _ (hk.node_parker _ _ (hk.linked e hmem))
              (hk.node_parker _ _ (by simpa using hid))
          have hcalm : calm p = false := by
            by_contra hc
            exact hk.calm.off p (by simpa using hc) (by rw [hpc]; rfl) e hmem howner
          refine ⟨howner, ?_, hcalm⟩
          by_contra hk'
          have hthread := hk.calm.threads p (by rw [hpc]; simpa [Pc.blocking] using hk')
          simp [hcalm] at hthread
        | pushHead c => cases hn : s.node p <;> simp [eventOf, hpc, hn] at hx
        | popHead c => cases hq : s.queue.head? <;> simp [eventOf, hpc, hq] at hx
        | _ => simp [eventOf, hpc] at hx
      | _ => simp [eventOf] at hx
    · exact hk.calm.own r hold
  | _ =>
    rw [hx] at hr
    exact hk.calm.own r hr

theorem Kept.step (hk : Kept target calm s h) (h0 : target ≠ 0) (hok : Patient calm (s, h) (p, a))
    (hstep : step target s (p, a) = some t) : Kept target calm t (keep target s (p, a) h) where
  toWellFormed := step_wellFormed hk.toWellFormed hstep
  balanced := hk.balanced.note (step_moves hstep)
  numbered :=
    have hn := hk.numbered.step hk.toWellFormed hstep
    ⟨hn.lt, hn.nodup, hn.new⟩
  sized :=
    have hz := hk.sized.step hk.toWellFormed hstep
    ⟨hz.bound, hz.full, hz.room, hz.emptied, hz.settled, hz.released⟩
  told := hk.told.step h0 hstep
  calm :=
    { popping := hk.popping_step hstep
      queued := hk.queued_step h0 hok hstep
      held := hk.held_step h0 hok hstep
      popped := hk.popped_step hstep
      off := hk.off_step h0 hok hstep
      woken := hk.woken_step hstep
      threads := hk.threads_step hok hstep
      own := hk.own_step }

end calm

theorem kept_init (target : Nat) (calm : P → Bool) : Kept target calm (init : State P) blank where
  toWellFormed := wellFormed_init
  balanced := .refl []
  numbered := by constructor <;> simp [init, blank, Pc.arriving]
  sized := by constructor <;> simp [init, blank, Pc.stage]
  told := fun p => by simp [init, blank, Pc.led]
  calm := by
    constructor <;> simp [init, blank, Pc.carries, Pc.drops, Pc.woken, Pc.blocking]

theorem reach_kept {target : Nat} (h0 : target ≠ 0) {calm : P → Bool} {s : State P × Ledger P}
    (h : Reach (recorded (step target) (keep target)) (Patient calm) (init, blank) s) :
    Kept target calm s.1 s.2 := by
  refine h.invariant (I := fun s => Kept target calm s.1 s.2) (kept_init target calm) ?_
  rintro s ⟨p, a⟩ t hk hok hstep
  obtain ⟨hstep, hkeep⟩ := recorded_eq hstep
  rw [hkeep]
  exact hk.step h0 hok hstep

/-- The law of a barrier for `target` parties; `calm` are the threads and the futures left
alone. A release pops all entries and makes one leader, every entry has one fate, who is told
that somebody else leads has been popped, and as long as nothing was taken out the arrivals
alone say how many leaders there are and who is queued. -/
structure GenerationLaw (target : Nat) (calm : P → Bool) (s : State P × Ledger P) : Prop where
  bound : s.1.queue.length ≤ target - 1
  release : ∀ r ∈ s.2.released, r.2.length = target - 1 ∧ (r.2.map Entry.id).Nodup
  emptied : ∀ p c, s.1.pc p = .unlockList c false → s.1.queue = []
  leader : Told s.1 s.2
  balanced : Balanced s.1.queue s.2
  distinct : (s.2.pushed.map Entry.id).Nodup
  own : ∀ r ∈ s.2.removed, r.2.2.owner = r.1 ∧ r.2.1.isReturn = false
  answered : ∀ p t, calm p = true → step target s.1 (p, .next) = some t →
    Answers s.1 t p false → ∃ e ∈ s.2.popped, e.owner = p ∧ s.1.parker p = some e.id
  undisturbed : (∀ p, calm p = true) → s.2.removed = []
  counted : s.2.removed = [] → s.1.lock = none →
    s.2.released.length = s.2.arrivals / target ∧ s.1.queue.length = s.2.arrivals % target

theorem Kept.of_answers {target : Nat} (h0 : target ≠ 0) {calm : P → Bool} {s t : State P}
    {h : Ledger P} {p : P} {a : Act} (hk : Kept target calm s h)
    (hstep : Barrier.step target s (p, a) = some t) (ha : Answers s t p false) :
    (s.parker p).map s.flag = some true := by
  obtain ⟨hpc', hout, hresult⟩ := ha
  cases step_cases hstep with
  | free a h => exact absurd h h0
  | ready cx hpc hflag => exact hflag
  | unlockList c b hpc => cases c <;> cases b <;> simp [State.release] at hout hresult
  | dropOff k hpc | unlockDrop k hpc =>
    have hk' : k = .returns false := by
      cases k <;> simp_all [State.finish]
    exact hk.calm.woken p (by rw [hpc, hk']; rfl)
  | _ => simp at hout

omit [DecidableEq P] in
/-- Every `target` arrivals make one release. -/
theorem Sized.arrivals {target : Nat} (h0 : 1 ≤ target) {s : State P} {h : Ledger P}
    (hz : Sized target s h) (hb : Balanced s.queue h) (hremoved : h.removed = [])
    (hpopping : h.popping = []) : h.arrivals = s.queue.length + target * h.released.length := by
  have hpopped : h.popped.length = h.released.length * (target - 1) := by
    simp only [Ledger.popped, hpopping, List.nil_append, List.length_flatMap]
    rw [List.map_congr_left fun r hr => hz.released r hr]
    simp
  have hlen := hb.length_eq
  simp only [List.length_append, Ledger.withdrawn, hremoved, List.map_nil, List.length_nil,
    hpopped] at hlen
  obtain ⟨k, rfl⟩ : ∃ k, target = k + 1 := ⟨target - 1, by omega⟩
  simp only [Ledger.arrivals, hlen, Nat.add_sub_cancel, Nat.succ_mul, Nat.mul_comm k]
  omega

theorem generation_law {target : Nat} (h0 : 1 ≤ target) {calm : P → Bool}
    {s : State P × Ledger P}
    (h : Reach (recorded (step target) (keep target)) (Patient calm) (init, blank) s) :
    GenerationLaw target calm s := by
  have hk := reach_kept (Nat.one_le_iff_ne_zero.mp h0) h
  have hz := hk.sized
  constructor
  · have hbound := hz.bound
    omega
  · intro r hr
    refine ⟨hz.released r hr, ?_⟩
    have hnodup := (hk.balanced.map Entry.id).nodup hk.numbered.nodup
    have hsub : (r.2.map Entry.id).Sublist ((s.2.popped ++ s.2.withdrawn ++ s.1.queue).map Entry.id) := by
      refine List.Sublist.map _ ?_
      have hflat : r.2.Sublist (s.2.released.flatMap Prod.snd) :=
        List.sublist_flatten_of_mem (List.mem_map_of_mem hr)
      simp only [Ledger.popped, List.append_assoc]
      exact (hflat.trans (List.sublist_append_left _ _)).trans (List.sublist_append_right _ _)
    exact hnodup.sublist hsub
  · exact fun p c hpc => hz.emptied p (by rw [hpc]; rfl)
  · exact hk.told
  · exact hk.balanced
  · exact hk.numbered.nodup
  · exact fun r hr => ⟨(hk.calm.own r hr).1, (hk.calm.own r hr).2.1⟩
  · intro p t hcalm hstep ha
    obtain ⟨i, hi, hflag⟩ :=
      Option.map_eq_some_iff.mp (hk.of_answers (Nat.one_le_iff_ne_zero.mp h0) hstep ha)
    obtain ⟨e, he, howner, hid⟩ := hk.calm.popped p i hcalm hi hflag
    exact ⟨e, he, howner, hid ▸ hi⟩
  · intro hcalm
    refine List.eq_nil_iff_forall_not_mem.mpr fun r hr => ?_
    have hdisturbed := (hk.calm.own r hr).2.2
    simp [hcalm] at hdisturbed
  · intro hremoved hlock
    have hpopping : s.2.popping = [] := by
      refine hz.settled fun p hp => ?_
      have hin := hk.locked (p := p) (Pc.inSection_of_stage (by simp [hp]))
      simp [hlock] at hin
    have hm := hz.arrivals h0 hk.balanced hremoved hpopping
    have hbound := hz.bound
    have hlt : s.1.queue.length < target := by omega
    rw [hm, Nat.add_mul_div_left _ _ h0, Nat.add_mul_mod_self_left, Nat.div_eq_of_lt hlt,
      Nat.mod_eq_of_lt hlt]
    exact ⟨(Nat.zero_add _).symm, rfl⟩

instance (calm : P → Bool) (s : State P × Ledger P) (l : P × Act) :
    Decidable (Patient calm s l) :=
  match l with
  | (p, .wait) => inferInstanceAs (Decidable (calm p = true))
  | (p, .next) =>
    inferInstanceAs (Decidable (calm p = true → (s.1.pc p).checks = true →
      (s.1.parker p).map s.1.flag ≠ some false))
  | (p, .dropFuture) => inferInstanceAs (Decidable (calm p = true → s.1.result p ≠ none))
  | (_, .poll _) => isTrue trivial

theorem generation_law_repoll : ∃ s : State (Fin 2) × Ledger (Fin 2),
    (s.2.leaders = [0] ∧ s.2.removed.length = 1 ∧ s.2.popped.length = 1) ∧
    GenerationLaw 2 (fun p => p = 0) s := by
  have hr : ((run (restrict (recorded (step 2) (keep 2)) (Patient fun p => p = 0))
      ((init : State (Fin 2)), blank)
      ((1, .poll 0) :: nexts 1 7 ++ (1, .poll 0) :: nexts 1 10 ++ (0, .wait) :: nexts 0 8)).map
        fun s => (s.2.leaders, s.2.removed.length, s.2.popped.length)) = some ([0], 1, 1) := by
    decide
  obtain ⟨s, hs, ho⟩ := Option.map_eq_some_iff.mp hr
  simp only [Prod.mk.injEq] at ho
  exact ⟨s, ho, generation_law (by decide) (restrict_run_reach hs)⟩

end Colock.Barrier
