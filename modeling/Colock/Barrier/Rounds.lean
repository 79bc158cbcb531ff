import Colock.Barrier.GenerationLaw

/-! A barrier as it is meant to be used: as many parties as its target, threads that call `wait`
and tasks that await `wait_async`, each of which comes to it again and again. An executor polls a
pending task again only after `Waker::wake` has stored `should_wakeup` of its parker: the code does
not ask for that, but a poll between the pop of the entry and the store may be counted twice. -/
namespace Colock.Barrier
open Transition
variable {P : Type*} [DecidableEq P]

structure Rounds (P : Type*) where
  barrier : State P
  ledger : Ledger P
  begun : P → Nat

def Rounds.start : Rounds P := ⟨init, blank, fun _ => 0⟩

def callOf : Option Nat → Call
  | none => .wait
  | some cx => .poll cx

def Call.act : Call → Act
  | .wait => .wait
  | .poll cx => .poll cx

/-- What the party does next. An executor polls a future first, and again when `should_wakeup` of its
parker was stored, which `Waker::wake` does before it calls the executor, and drops the future once
it has the result. -/
def nextAct (rounds : Nat) (how : Call) (x : Rounds P) (p : P) : Option Act :=
  match x.barrier.pc p with
  | .out =>
    if x.barrier.parker p = none then
      if x.begun p < rounds then some how.act else none
    else if x.barrier.result p ≠ none then some .dropFuture
    else if (x.barrier.parker p).map x.barrier.flag = some true then some how.act
    else none
  | _ => some .next

def Rounds.begins (x : Rounds P) (p : P) : Bool :=
  x.barrier.pc p = .out ∧ x.barrier.parker p = none

def Rounds.step (target rounds : Nat) (task : P → Option Nat) (x : Rounds P) :
    P × Unit → Option (Rounds P)
  | (p, ()) =>
    (nextAct rounds (callOf (task p)) x p).bind fun a =>
      (Barrier.step target x.barrier (p, a)).map fun s =>
        { barrier := s
          ledger := keep target x.barrier (p, a) x.ledger
          begun := if x.begins p then Function.update x.begun p (x.begun p + 1) else x.begun }

inductive Does (rounds : Nat) (how : Call) (x : Rounds P) (p : P) : Act → (P → Nat) → Prop
  | begins (hpc : x.barrier.pc p = .out) (hparker : x.barrier.parker p = none)
      (hlt : x.begun p < rounds) :
      Does rounds how x p how.act (Function.update x.begun p (x.begun p + 1))
  | polls (hpc : x.barrier.pc p = .out) (hparker : x.barrier.parker p ≠ none)
      (hresult : x.barrier.result p = none)
      (hflag : (x.barrier.parker p).map x.barrier.flag = some true) :
      Does rounds how x p how.act x.begun
  | drops (hpc : x.barrier.pc p = .out) (hparker : x.barrier.parker p ≠ none)
      (hresult : x.barrier.result p ≠ none) : Does rounds how x p .dropFuture x.begun
  | next (hpc : x.barrier.pc p ≠ .out) : Does rounds how x p .next x.begun

theorem rounds_step_eq {target rounds : Nat} {task : P → Option Nat} {x y : Rounds P} {p : P}
    {u : Unit} (h : x.step target rounds task (p, u) = some y) :
    ∃ a, Does rounds (callOf (task p)) x p a y.begun ∧
      Barrier.step target x.barrier (p, a) = some y.barrier ∧
      y.ledger = keep target x.barrier (p, a) x.ledger := by
  obtain ⟨a, ha, h⟩ := Option.bind_eq_some_iff.mp h
  obtain ⟨s, hs, rfl⟩ := Option.map_eq_some_iff.mp h
  refine ⟨a, ?_, hs, rfl⟩
  unfold nextAct at ha
  split at ha
  · next hpc =>
    split at ha
    · next hparker =>
      simp only [Option.ite_none_right_eq_some, Option.some.injEq] at ha
      obtain ⟨hlt, rfl⟩ := ha
      have hdoes : Does rounds (callOf (task p)) x p _ _ := .begins hpc hparker hlt
      simpa [Rounds.begins, hpc, hparker] using hdoes
    · next hparker =>
      have hbegins : x.begins p = false := by simp [Rounds.begins, hparker]
      simp only [hbegins, Bool.false_eq_true, if_false]
      split at ha
      · next hresult => exact Option.some.inj ha ▸ .drops hpc hparker hresult
      · next hresult =>
        simp only [Option.ite_none_right_eq_some, Option.some.injEq] at ha
        exact ha.2 ▸ .polls hpc hparker (by simpa using hresult) ha.1
  · next hpc =>
    have hpc : x.barrier.pc p ≠ .out := hpc
    have hbegins : x.begins p = false := by simp [Rounds.begins, hpc]
    simp only [hbegins, Bool.false_eq_true, if_false]
    exact Option.some.inj ha ▸ .next hpc

def Call.entry : Call → Pc P
  | .wait => .newParker .wait
  | .poll cx => .check cx

theorem call_eq {target : Nat} (h0 : target ≠ 0) {how : Call} {s t : State P} {p : P}
    (h : Barrier.step target s (p, how.act) = some t) : s.pc p = .out ∧ t = s.goto p how.entry := by
  cases how with
  | wait =>
    replace h : Barrier.step target s (p, .wait) = some t := h
    cases step_cases h with
    | free => exact absurd ‹target = 0› h0
    | wait _ hpc => exact ⟨hpc, rfl⟩
  | poll cx =>
    replace h : Barrier.step target s (p, .poll cx) = some t := h
    cases step_cases h with
    | free => exact absurd ‹target = 0› h0
    | poll _ _ hpc => exact ⟨hpc, rfl⟩

def Leave.isOf (how : Call) : Leave → Bool
  | .renew cx => how = .poll cx
  | .returns _ => how = .wait
  | .future => how ≠ .wait

def Pc.isOf (how : Call) : Pc P → Bool
  | .out => true
  | .check cx => how = .poll cx
  | .newParker c | .lockList c | .count c | .pushHead c | .popHead c | .wake c _
  | .unlockList c _ => how = c
  | .park => how = .wait
  | .dropNode k | .lockDrop k | .removeNode k | .unlockDrop k => k.isOf how

def Pc.clears : Pc P → Bool
  | .dropNode k | .lockDrop k | .removeNode k | .unlockDrop k => !k.endsWait
  | _ => false

def Pc.asleep : Pc P → Bool
  | .park | .unlockList _ true => true
  | _ => false

/-- The party is woken, or queued, or a leader has its waker. -/
def State.Accounted (s : State P) (p : P) : Prop :=
  ∃ i, s.parker p = some i ∧ (s.flag i = true ∨ ¬ s.Off p ∨ ¬ s.Unheld p)

structure Fits (how : Call) (s : State P) (p : P) : Prop where
  isOf : (s.pc p).isOf how = true
  checks : (s.pc p).checks = true → s.parker p = none ∨ (s.parker p).map s.flag = some true
  clears : (s.pc p).clears = true → s.parker p = none
  thread : s.pc p = .out → how = .wait → s.parker p = none
  armed : (s.pc p).unpushed = true → ∃ i, s.node p = some i
  asleep : (s.pc p).asleep = true → s.Accounted p
  pending : s.pc p = .out → s.result p = none → s.parker p ≠ none → s.Accounted p

theorem step_node {target : Nat} {s t : State P} {p q : P} {a : Act}
    (h : Barrier.step target s (p, a) = some t) (hq : q ≠ p) : t.node q = s.node q := by
  cases step_cases h with
  | newParker c => simp [State.newParker, hq]
  | unlockList c b => cases c <;> rfl
  | _ => simp [hq]

theorem step_woken {target : Nat} {s t : State P} {p q : P} {a : Act} (hs : WellFormed s)
    (h : Barrier.step target s (p, a) = some t) (hparker : t.parker q = s.parker q)
    (hflag : (s.parker q).map s.flag = some true) : (t.parker q).map t.flag = some true := by
  obtain ⟨i, hi, hf⟩ := Option.map_eq_some_iff.mp hflag
  rw [hparker, hi, Option.map_some, Option.some.injEq]
  rcases step_flag (hs.parker_lt q i hi) h with hsame | ⟨htrue, -⟩
  · rw [hsame, hf]
  · exact htrue

theorem State.Accounted.step {target : Nat} {s t : State P} {p q : P} {a : Act}
    (hacc : s.Accounted q) (hs : WellFormed s) (h : Barrier.step target s (p, a) = some t)
    (hparker : t.parker q = s.parker q) (hown : q ≠ p ∨ eventOf s (p, a) = .quiet) :
    t.Accounted q := by
  obtain ⟨i, hi, hacc⟩ := hacc
  refine ⟨i, hparker.trans hi, ?_⟩
  rcases hacc with hflag | hqueued | hheld
  · have hwoken := step_woken hs h hparker (by simp [hi, hflag])
    rw [hparker, hi] at hwoken
    exact .inl (by simpa using hwoken)
  · simp only [State.Off, not_forall, not_not] at hqueued
    obtain ⟨e, he, howner⟩ := hqueued
    have hmoves := step_moves h
    have stays : e ∈ t.queue → ¬ t.Off q := fun hmem hoff => hoff e hmem howner
    cases hx : eventOf s (p, a) with
    | quiet =>
      rw [hx] at hmoves
      exact .inr (.inl (stays (hmoves ▸ he)))
    | arrives e' =>
      rw [hx] at hmoves
      exact .inr (.inl (stays (hmoves ▸ List.mem_cons_of_mem _ he)))
    | leads r =>
      rw [hx] at hmoves
      simp [hmoves.1] at he
    | withdraws r k es =>
      rw [hx] at hmoves
      rcases List.mem_append.mp (hmoves.mem_iff.mp he) with hout | hmem
      · have hqp : q ≠ p := hown.resolve_right (by simp [hx])
        refine absurd ?_ hqp
        cases a with
        | next =>
          cases hpc : s.pc p with
          | removeNode k' =>
            simp only [eventOf, hpc, Event.withdraws.injEq] at hx
            obtain ⟨-, -, rfl⟩ := hx
            have hid := (List.mem_filter.mp hout).2
            rw [← howner]
            exact hs.parker_inj _ _ _ (hs.node_parker _ _ (hs.linked e he))
              (hs.node_parker _ _ (by simpa using hid))
          | pushHead c => cases hn : s.node p <;> simp [eventOf, hpc, hn] at hx
          | popHead c => cases hq : s.queue.head? <;> simp [eventOf, hpc, hq] at hx
          | _ => simp [eventOf, hpc] at hx
        | _ => simp [eventOf] at hx
      · exact .inr (.inl (stays hmem))
    | pops e' =>
      rw [hx] at hmoves
      replace hmoves : s.queue = e' :: t.queue := hmoves
      rw [hmoves] at he
      rcases List.mem_cons.mp he with rfl | hmem
      · refine .inr (.inr fun hun => hun p e ?_ howner)
        cases step_cases h with
        | popHead c e'' queue hpc hq =>
          obtain rfl : e'' = e := by simpa [eventOf, hpc, hq] using hx
          simp [Pc.carries]
        | pushHead c j hpc hnode => simp [eventOf, hpc, hnode] at hx
        | emptied c hpc hq => simp [eventOf, hpc, hq] at hx
        | free a h0 hpc => cases a <;> simp [eventOf, hpc] at hx
        | wait | poll | dropFuture => simp [eventOf] at hx
        | _ => simp [eventOf, *] at hx
      · exact .inr (.inl (stays hmem))
  · simp only [State.Unheld, not_forall, not_not] at hheld
    obtain ⟨r, e, he, howner⟩ := hheld
    by_cases hr : r = p
    · subst r
      cases step_cases h with
      | wake c e' hpc =>
        obtain rfl : e' = e := by simpa [hpc, Pc.carries] using he
        exact .inl (by simp [State.signal, howner, hi])
      | free a h0 hpc => simp [hpc, Pc.carries] at he
      | _ => simp [*, Pc.carries] at he
    · refine .inr (.inr fun hun => hun r e ?_ howner)
      rwa [(step_others h hr).1]

theorem Fits.others {target : Nat} {how : Call} {s t : State P} {p q : P} {a : Act}
    (hf : Fits how s q) (hs : WellFormed s) (h : Barrier.step target s (p, a) = some t)
    (hq : q ≠ p) : Fits how t q := by
  obtain ⟨hpc, hparker⟩ := step_others h hq
  constructor
  · rw [hpc]
    exact hf.isOf
  · rw [hpc, hparker]
    exact fun hc => (hf.checks hc).imp_right fun hflag => hparker ▸ step_woken hs h hparker hflag
  · rw [hpc, hparker]
    exact hf.clears
  · rw [hpc, hparker]
    exact hf.thread
  · rw [hpc, step_node h hq]
    exact hf.armed
  · rw [hpc]
    exact fun hc => (hf.asleep hc).step hs h hparker (.inl hq)
  · rw [hpc, step_result h hq, hparker]
    exact fun hout hr hp => (hf.pending hout hr hp).step hs h hparker (.inl hq)

def Pc.passes : Pc P → Bool
  | .newParker _ | .popHead _ | .wake _ _ | .unlockList _ false => true
  | .dropNode k | .lockDrop k | .removeNode k | .unlockDrop k => k.endsWait
  | _ => false

omit [DecidableEq P] in
theorem Fits.passing {how : Call} {t : State P} {p : P} {c : Pc P} (hpc : t.pc p = c)
    (hc : c.passes = true) (hisOf : c.isOf how = true) : Fits how t p := by
  subst c
  constructor
  · exact hisOf
  all_goals
    intro h
    cases hpc : t.pc p with
    | unlockList c b => cases b <;> simp_all [Pc.passes, Pc.checks, Pc.clears, Pc.unpushed, Pc.asleep]
    | _ => simp_all [Pc.passes, Pc.checks, Pc.clears, Pc.unpushed, Pc.asleep]

omit [DecidableEq P] in
theorem Fits.outside {how : Call} {t : State P} {p : P} (hpc : t.pc p = .out)
    (hthread : how = .wait → t.parker p = none)
    (hpending : t.result p = none → t.parker p ≠ none → t.Accounted p) : Fits how t p :=
  ⟨by simp [hpc, Pc.isOf], by simp [hpc, Pc.checks], by simp [hpc, Pc.clears],
    fun _ => hthread, by simp [hpc, Pc.unpushed], by simp [hpc, Pc.asleep], fun _ => hpending⟩

omit [DecidableEq P] in
theorem Fits.arming {how : Call} {t : State P} {p : P} {c : Pc P} {i : Nat} (hpc : t.pc p = c)
    (hc : c.unpushed = true) (hisOf : c.isOf how = true) (hnode : t.node p = some i) :
    Fits how t p := by
  subst c
  refine ⟨hisOf, ?_, ?_, ?_, fun _ => ⟨i, hnode⟩, ?_, ?_⟩
  all_goals
    intro h
    cases hpc : t.pc p <;> simp_all [Pc.unpushed, Pc.checks, Pc.clears, Pc.asleep]

omit [DecidableEq P] in
theorem Fits.clearing {how : Call} {t : State P} {p : P} {c : Pc P} (hpc : t.pc p = c)
    (hc : c.clears = true) (hisOf : c.isOf how = true) (hparker : t.parker p = none) :
    Fits how t p := by
  subst c
  refine ⟨hisOf, fun _ => .inl hparker, fun _ => hparker, fun _ _ => hparker, ?_, ?_, ?_⟩
  all_goals
    intro h
    cases hpc : t.pc p <;> simp_all [Pc.unpushed, Pc.clears, Pc.asleep]

omit [DecidableEq P] in
theorem Fits.drops {how : Call} {s t : State P} {p : P} {c d : Pc P} (hf : Fits how s p) (k : Leave)
    (hpc : s.pc p = c) (ht : t.pc p = d)
    (hc : c = .dropNode k ∨ c = .lockDrop k ∨ c = .removeNode k)
    (hd : d = .lockDrop k ∨ d = .removeNode k ∨ d = .unlockDrop k)
    (hparker : t.parker p = s.parker p) : Fits how t p := by
  have hisOf : d.isOf how = true := by
    have hisOf := hf.isOf
    rw [hpc] at hisOf
    rcases hc with rfl | rfl | rfl <;> rcases hd with rfl | rfl | rfl <;> exact hisOf
  by_cases hends : k.endsWait = true
  · refine .passing ht ?_ hisOf
    rcases hd with rfl | rfl | rfl <;> exact hends
  · refine .clearing ht ?_ hisOf (hparker.trans (hf.clears ?_))
    · rcases hd with rfl | rfl | rfl <;> simpa [Pc.clears] using hends
    · rw [hpc]
      rcases hc with rfl | rfl | rfl <;> simpa [Pc.clears] using hends

theorem Fits.finish {how : Call} {s : State P} {p : P} {k : Leave} (lock : Option P)
    (hisOf : k.isOf how = true) : Fits how ({ s with lock := lock }.finish p k) p := by
  cases k with
  | renew cx =>
    exact .passing (c := .newParker (.poll cx)) (by simp [State.finish]) rfl
      (by simpa [Leave.isOf, Pc.isOf] using hisOf)
  | returns leader | future =>
    exact .outside (by simp [State.finish]) (fun _ => by simp [State.finish])
      fun _ h => absurd (by simp [State.finish]) h

theorem Fits.next {target : Nat} (h0 : target ≠ 0) {how : Call} {s t : State P} {p : P}
    (hs : WellFormed s) (hf : Fits how s p) (h : Barrier.step target s (p, .next) = some t) :
    Fits how t p := by
  have hisOf := hf.isOf
  cases step_cases h with
  | free => exact absurd ‹target = 0› h0
  | ready cx hpc hflag =>
    refine .outside (by simp) (fun hhow => ?_) fun hr => by simp at hr
    simp [hpc, Pc.isOf, hhow] at hisOf
  | renew cx hpc hflag =>
    refine .clearing (c := .dropNode (.renew cx)) (by simp) rfl
      (by simpa [hpc, Pc.isOf, Leave.isOf] using hisOf) ?_
    simpa using (hf.checks (by simp [hpc, Pc.checks])).resolve_right hflag
  | newParker c hpc =>
    exact .arming (c := .lockList c) (i := s.fresh) (by simp) rfl
      (by simpa [hpc, Pc.isOf] using hisOf) (by simp [State.newParker])
  | lockList c hpc hl =>
    obtain ⟨i, hi⟩ := hf.armed (by rw [hpc]; rfl)
    exact .arming (c := .count c) (by simp) rfl (by simpa [hpc, Pc.isOf] using hisOf)
      (by simpa using hi)
  | room c hpc hlen =>
    obtain ⟨i, hi⟩ := hf.armed (by rw [hpc]; rfl)
    exact .arming (c := .pushHead c) (by simp) rfl (by simpa [hpc, Pc.isOf] using hisOf)
      (by simpa using hi)
  | full c hpc | wake c _ hpc =>
    exact .passing (c := .popHead c) (by simp) rfl (by simpa [hpc, Pc.isOf] using hisOf)
  | popHead c e queue hpc =>
    exact .passing (c := .wake c e) (by simp) rfl (by simpa [hpc, Pc.isOf] using hisOf)
  | emptied c hpc =>
    exact .passing (c := .unlockList c false) (by simp) rfl
      (by simpa [hpc, Pc.isOf] using hisOf)
  | pushHead c i hpc hnode =>
    refine ⟨by simpa [hpc, Pc.isOf] using hisOf, ?_, ?_, ?_, ?_, fun _ => ?_, ?_⟩
    · simp [Pc.checks]
    · simp [Pc.clears]
    · simp
    · simp [Pc.unpushed]
    · refine ⟨i, by simpa using hs.node_parker p i hnode, .inr (.inl fun hoff => ?_)⟩
      exact hoff ⟨i, p, c.waker p i⟩ (by simp [State.push]) rfl
    · simp
  | unlockList c b hpc =>
    have hquiet : eventOf s (p, .next) = .quiet := by simp [eventOf, hpc]
    have haccounted : b = true → (s.release p c b).Accounted p := by
      rintro rfl
      exact (hf.asleep (by rw [hpc]; rfl)).step hs h (by cases c <;> rfl) (.inr hquiet)
    cases c with
    | poll cx =>
      refine .outside (by simp [State.release]) (fun hhow => ?_) fun hr _ => haccounted ?_
      · simp [hpc, Pc.isOf, hhow] at hisOf
      · cases b <;> simp [State.release] at hr ⊢
    | wait =>
      have hhow : how = .wait := by simpa [hpc, Pc.isOf] using hisOf
      cases b with
      | false =>
        exact .passing (c := .dropNode (.returns true)) (by simp [State.release]) rfl
          (by simp [Pc.isOf, Leave.isOf, hhow])
      | true =>
        refine ⟨by simp [State.release, Pc.isOf, hhow], ?_, ?_, ?_, ?_,
          fun _ => haccounted rfl, ?_⟩
        all_goals simp [State.release, Pc.checks, Pc.clears, Pc.unpushed]
  | park i hpc hparker hflag =>
    exact .passing (c := .dropNode (.returns false)) (by simp) rfl
      (by simpa [hpc, Pc.isOf, Leave.isOf] using hisOf)
  | dropOff k hpc hoff => exact Fits.finish _ (by simpa [hpc, Pc.isOf] using hisOf)
  | unlockDrop k hpc => exact Fits.finish none (by simpa [hpc, Pc.isOf] using hisOf)
  | dropLinked k hpc hon =>
    exact hf.drops (c := .dropNode k) (d := .lockDrop k) k hpc (by simp) (by simp) (by simp) rfl
  | lockDrop k hpc hl =>
    exact hf.drops (c := .lockDrop k) (d := .removeNode k) k hpc (by simp) (by simp) (by simp) rfl
  | removeNode k hpc =>
    exact hf.drops (c := .removeNode k) (d := .unlockDrop k) k hpc (by simp) (by simp) (by simp)
      rfl

theorem Fits.own {target rounds : Nat} (h0 : target ≠ 0) {how : Call} {x : Rounds P} {t : State P}
    {p : P} {a : Act} {begun : P → Nat} (hs : WellFormed x.barrier) (hf : Fits how x.barrier p)
    (hdoes : Does rounds how x p a begun) (h : Barrier.step target x.barrier (p, a) = some t) :
    Fits how t p := by
  cases hdoes with
  | begins hpc hparker hlt =>
    obtain ⟨-, rfl⟩ := call_eq h0 h
    cases how with
    | wait => exact .passing (c := .newParker .wait) (by simp [Call.entry]) rfl rfl
    | poll cx =>
      refine ⟨by simp [Call.entry, Pc.isOf], fun _ => .inl (by simpa using hparker), ?_, ?_, ?_, ?_, ?_⟩
      all_goals simp [Call.entry, Pc.clears, Pc.unpushed, Pc.asleep]
  | polls hpc hparker hresult hflag =>
    obtain ⟨-, rfl⟩ := call_eq h0 h
    cases how with
    | wait => exact absurd (hf.thread hpc rfl) hparker
    | poll cx =>
      refine ⟨by simp [Call.entry, Pc.isOf], fun _ => .inr (by simpa using hflag), ?_, ?_, ?_, ?_, ?_⟩
      all_goals simp [Call.entry, Pc.clears, Pc.unpushed, Pc.asleep]
  | drops hpc hparker hresult =>
    cases step_cases h with
    | free => exact absurd ‹target = 0› h0
    | dropFuture =>
      refine .passing (c := .dropNode .future) (by simp) rfl ?_
      simp only [Pc.isOf, Leave.isOf, decide_eq_true_eq]
      exact fun hhow => hparker (hf.thread hpc hhow)
  | next hout => exact hf.next h0 hs h

end Colock.Barrier
