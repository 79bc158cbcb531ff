import Colock.Lib.Jobs
import Colock.Lib.Program

/-! A machine that several parties operate under one lock. Each method is a program that issues one
command at a time, and runs as a critical section; then every method takes effect as if it ran in
one go, in an order that keeps the order of each party and that only grows. -/
namespace Monitor
open Program Prog Transition LockImpl Serial
variable {P M V : Type*} {C : Type} {R : C → Type} {σ S β : Type}

structure Store (P : Type*) (σ S β : Type) where
  machine : σ
  captured : S
  answers : List (P × β)

def Store.answer (w : Store P σ S β) (p : P) (b : β) (s : S) (t : σ) : Store P σ S β :=
  ⟨t, s, w.answers ++ [(p, b)]⟩

variable (perform : (c : C) → σ → Option (R c × σ))

/-- A program as the rest of a critical section of `p`; a command that the machine refuses stops
it for good. -/
def body (p : P) : Prog C R (β × S) → Section (Option (Store P σ S β))
  | .done r => .write (Option.map fun w => w.answer p r.1 r.2 w.machine) .leave
  | .op c k => .read fun w =>
    match w.bind fun w => perform c w.machine with
    | none => .write (fun _ => none) .leave
    | some r => .write (Option.map fun w => { w with machine := r.2 }) (body p (k r.1))

def method (p : P) (code : S → Prog C R (β × S)) : Section (Option (Store P σ S β)) :=
  .read fun w =>
    match w with
    | none => .leave
    | some w => body perform p (code w.captured)

theorem run_body (p : P) (c : Prog C R (β × S)) (w : Store P σ S β) :
    (body perform p c).run (some w) =
      (exec perform c w.machine).map fun x => w.answer p x.1.1 x.1.2 x.2 := by
  induction c generalizing w with
  | done r => rfl
  | op c k ih =>
    cases h : perform c w.machine with
    | none => simp [body, Section.run, exec, h]
    | some r => simpa [body, Section.run, exec, h, Store.answer] using ih r.1 { w with machine := r.2 }

theorem run_method (p : P) (code : S → Prog C R (β × S)) (w : Store P σ S β) :
    (method perform p code).run (some w) =
      (exec perform (code w.captured) w.machine).map fun x => w.answer p x.1.1 x.1.2 x.2 :=
  run_body perform p (code w.captured) w

variable (code : M → S → Prog C R (β × S))

def calls : List (P × M) → Store P σ S β → Option (Store P σ S β)
  | [], w => some w
  | (p, m) :: ms, w => (exec perform (code m w.captured) w.machine).bind fun x =>
    calls ms (w.answer p x.1.1 x.1.2 x.2)

theorem replay_stopped (order : List (P × M)) :
    replay (none : Option (Store P σ S β))
      (order.map fun e => (e.1, method perform e.1 (code e.2))) = none := by
  induction order with
  | nil => rfl
  | cons e order ih => exact ih

theorem replay_calls (order : List (P × M)) (w : Store P σ S β) :
    replay (some w) (order.map fun e => (e.1, method perform e.1 (code e.2))) =
      calls perform code order w := by
  induction order generalizing w with
  | nil => rfl
  | cons e order ih =>
    obtain ⟨p, m⟩ := e
    have hcons : replay (some w)
        (((p, m) :: order).map fun e => (e.1, method perform e.1 (code e.2))) =
          replay ((method perform p (code m)).run (some w))
            (order.map fun e => (e.1, method perform e.1 (code e.2))) := rfl
    rw [hcons, run_method, calls]
    cases exec perform (code m w.captured) w.machine with
    | none => exact replay_stopped perform code order
    | some x => exact ih _

/-- The section leaves a machine that has stopped as it is, from wherever it goes on. -/
def Strict : Section (Option V) → Prop
  | .leave => True
  | .read k => ∀ w, Strict (k w)
  | .write f next => f none = none ∧ Strict next

theorem Strict.run_none {b : Section (Option V)} (h : Strict b) : b.run none = none := by
  induction b with
  | leave => rfl
  | read k ih => exact ih none (h none)
  | write f next ih =>
    rw [Section.run, h.1]
    exact ih h.2

theorem body_strict (p : P) (c : Prog C R (β × S)) : Strict (body (σ := σ) perform p c) := by
  induction c with
  | done r => exact ⟨rfl, trivial⟩
  | op c k ih =>
    simp only [body, Strict]
    intro w
    split
    · exact ⟨rfl, trivial⟩
    · exact ⟨rfl, ih _⟩

theorem method_strict (p : P) (code : S → Prog C R (β × S)) :
    Strict (method (σ := σ) perform p code) := by
  intro w
  cases w with
  | none => trivial
  | some w => exact body_strict perform p _

section order
variable [DecidableEq P]

theorem order_of_log (f : P → M → Section V) (log : List (P × Section V)) (ops : P → List M)
    (left : P → List (Section V))
    (h : ∀ p, (log.filter (·.1 = p)).map Prod.snd ++ left p = (ops p).map (f p)) :
    ∃ (order : List (P × M)) (rest : P → List M), log = order.map (fun e => (e.1, f e.1 e.2)) ∧
      (∀ p, (order.filter (·.1 = p)).map Prod.snd ++ rest p = ops p) ∧
      ∀ p, left p = (rest p).map (f p) := by
  induction log generalizing ops with
  | nil => exact ⟨[], ops, rfl, fun _ => rfl, fun p => by simpa using h p⟩
  | cons e log ih =>
    obtain ⟨q, b⟩ := e
    have hq := h q
    simp only [List.filter_cons, decide_true, if_true, List.map_cons, List.cons_append] at hq
    obtain ⟨m, ms, hops, rfl, hrest⟩ := List.map_eq_cons_iff.mp hq.symm
    obtain ⟨order, rest, hlog, horder, hleft⟩ := ih (Function.update ops q ms) fun p => by
      by_cases hp : p = q
      · subst p
        simpa using hrest.symm
      · simpa [hp, Ne.symm hp] using h p
    refine ⟨(q, m) :: order, rest, by simp [hlog], fun p => ?_, hleft⟩
    have hp := horder p
    by_cases hpq : p = q
    · subst p
      simpa [hops] using hp
    · simpa [hpq, Ne.symm hpq] using hp

theorem log_grows {τ κ : Type*} {L : Impl P τ κ} {x y : Jobs P V × τ}
    (h : Reach (Jobs.client.over L) anyStep x y) :
    ∃ more, y.1.shared.log = x.1.shared.log ++ more := by
  refine h.invariant (I := fun y => ∃ more, y.1.shared.log = x.1.shared.log ++ more)
    ⟨[], by simp⟩ ?_
  rintro y ⟨p, l⟩ z ⟨more, hmore⟩ - hover
  have hstep : ∀ {u : Unit} {t : Jobs P V}, y.1.step (p, u) = some t →
      ∃ more, t.shared.log = x.1.shared.log ++ more := by
    intro u t ht
    cases Jobs.step_cases ht with
    | leave => exact ⟨more, hmore⟩
    | access => exact ⟨more, by rw [access_log, hmore]⟩
    | enter b bs => exact ⟨more ++ [(p, b)], by simp [Shared.enter, hmore]⟩
  cases over_cases hover with
  | client i hw hphase hs hm => exact hstep (u := ()) hs
  | call hw hm hs | release hw hm hs | inner k hm hs => exact ⟨more, by rw [hs, hmore]⟩
  | sync k hm hs => exact hstep (u := ()) hs

variable {τ κ : Type*} {L : Impl P τ κ}

structure Sequential (w : Store P σ S β) (ops : P → List M) (order : List (P × M))
    (x : Jobs P (Option (Store P σ S β)) × τ) : Prop where
  value : x.1.shared.value = calls perform code order w
  order : ∀ p, (order.filter (·.1 = p)).map Prod.snd <+: ops p

def jobs (ops : P → List M) (p : P) : List (Section (Option (Store P σ S β))) :=
  (ops p).map fun m => method perform p (code m)

theorem kept_over {w : Store P σ S β} {ops : P → List M}
    {x : Jobs P (Option (Store P σ S β)) × τ}
    (h : Reach (Jobs.client.over L) anyStep
      (Jobs.start (some w) (jobs perform code ops), L.start) x) :
    Jobs.Kept (some w) (jobs perform code ops) x.1 := by
  have hreach : Reach Jobs.step anyStep (Jobs.start (some w) (jobs perform code ops)) x.1 :=
    (over_simulates (C := Jobs.client) (L := L) rfl (h.mono fun _ _ _ => trivial)).2
  refine hreach.invariant (Jobs.kept_start _ _) ?_
  rintro s ⟨p, u⟩ t hs - ht
  exact hs.step ht

theorem access_strict {s : Shared P (Option V)} (h : ∀ p, Strict (s.rest p)) (p q : P) :
    Strict ((s.access p).rest q) := by
  by_cases hq : q = p
  · subst q
    have hp := h p
    cases hrest : s.rest p with
    | leave => simp [Shared.access, hrest, Strict]
    | read k =>
      rw [hrest, Strict] at hp
      simpa [Shared.access, hrest] using hp s.value
    | write f next =>
      rw [hrest, Strict] at hp
      simpa [Shared.access, hrest] using hp.2
  · rw [Shared.access_others _ _ hq]
    exact h q

structure Jobs.Strict (s : Jobs P (Option V)) : Prop where
  rest : ∀ p, Monitor.Strict (s.shared.rest p)
  left : ∀ p, ∀ b ∈ s.left p, Monitor.Strict b

theorem Jobs.Strict.step {s t : Jobs P (Option V)} {p : P} {u : Unit} (h : Jobs.Strict s)
    (hs : s.step (p, u) = some t) : Jobs.Strict t := by
  cases Jobs.step_cases hs with
  | leave => exact ⟨h.rest, h.left⟩
  | access => exact ⟨access_strict h.rest p, h.left⟩
  | enter b bs _ hp =>
    have hleft := h.left p
    rw [hp] at hleft
    refine ⟨fun q => ?_, fun q c hc => ?_⟩ <;> by_cases hq : q = p
    · subst q
      simpa [Shared.enter] using hleft b List.mem_cons_self
    · simpa [Shared.enter, hq] using h.rest q
    · subst q
      exact hleft c (List.mem_cons_of_mem _ (by simpa using hc))
    · exact h.left q c (by simpa [hq] using hc)

theorem strict_over {w : Store P σ S β} {ops : P → List M}
    {x : Jobs P (Option (Store P σ S β)) × τ}
    (h : Reach (Jobs.client.over L) anyStep
      (Jobs.start (some w) (jobs perform code ops), L.start) x) : Jobs.Strict x.1 := by
  have hreach : Reach Jobs.step anyStep (Jobs.start (some w) (jobs perform code ops)) x.1 :=
    (over_simulates (C := Jobs.client) (L := L) rfl (h.mono fun _ _ _ => trivial)).2
  have hstart : Jobs.Strict (Jobs.start (some w) (jobs perform code ops)) := by
    refine ⟨fun _ => by simp [Jobs.start, Monitor.Strict], fun p b hb => ?_⟩
    obtain ⟨m, -, rfl⟩ := List.mem_map.mp hb
    exact method_strict perform p (code m)
  refine hreach.invariant hstart ?_
  rintro s ⟨p, u⟩ t hs - ht
  exact hs.step ht

/-- When the machine never refuses a command of methods that take turns, it never does. -/
theorem never_stops {w : Store P σ S β} {ops : P → List M}
    {x : Jobs P (Option (Store P σ S β)) × τ}
    (hallowed : ∀ order, (∀ p, (order.filter (·.1 = p)).map Prod.snd <+: ops p) →
      (calls perform code order w).isSome)
    (h : Reach (Jobs.client.over L) anyStep
      (Jobs.start (some w) (jobs perform code ops), L.start) x) : x.1.shared.value.isSome := by
  have hx := kept_over perform code h
  obtain ⟨order, rest, hlog, horder, -⟩ := order_of_log _ _ _ _ hx.order
  have hreplay : replay (some w) x.1.shared.log = calls perform code order w := by
    rw [hlog, replay_calls]
  have hsome := hallowed order fun p => ⟨rest p, horder p⟩
  rw [← hreplay] at hsome
  cases hlock : x.1.lock with
  | none =>
    rw [hx.serial.quiet (by simp [hlock])]
    exact hsome
  | some p =>
    by_contra hnone
    obtain ⟨done, body, hdone, hrun⟩ := hx.serial.running p hlock
    rw [hdone, replay_snoc, ← hrun, Option.not_isSome_iff_eq_none.mp hnone,
      ((strict_over perform code h).rest p).run_none] at hsome
    cases hsome

/-- However the steps of the parties and of the lock interleave, with nobody inside the methods so
far have taken effect one by one, and a later order goes on from an earlier one: a call that had
returned comes before one that had not begun. -/
theorem linearizes (w : Store P σ S β) (ops : P → List M)
    (x : Jobs P (Option (Store P σ S β)) × τ)
    (h : Reach (Jobs.client.over L) anyStep
      (Jobs.start (some w) (jobs perform code ops), L.start) x) (hfree : x.1.lock = none) :
    ∃ order, Sequential perform code w ops order x ∧
      ∀ y, Reach (Jobs.client.over L) anyStep x y → y.1.lock = none →
        ∃ more, Sequential perform code w ops (order ++ more) y := by
  have hx := kept_over perform code h
  obtain ⟨order, rest, hlog, horder, hleft⟩ := order_of_log _ _ _ _ hx.order
  refine ⟨order, ⟨?_, fun p => ⟨rest p, horder p⟩⟩, fun y hy hfree' => ?_⟩
  · rw [hx.serial.quiet (by simp [hfree]), hlog, replay_calls]
  · have hky := kept_over perform code (h.trans hy)
    obtain ⟨later, hlater⟩ := log_grows hy
    obtain ⟨more, rest', hmore, hmoreOrder, -⟩ := order_of_log
      (fun p m => method perform p (code m)) later rest y.1.left fun p => by
        have hp := hky.order p
        rw [hlater, List.filter_append, List.map_append, List.append_assoc, ← hx.order p,
          hleft p] at hp
        exact List.append_cancel_left hp
    refine ⟨more, ?_, fun p => ⟨rest' p, ?_⟩⟩
    · rw [hky.serial.quiet (by simp [hfree']), hlater, hlog, hmore, ← List.map_append, replay_calls]
    · rw [List.filter_append, List.map_append, List.append_assoc, hmoreOrder p, horder p]

/-- Over a live lock whose calls end, all methods come to an end. -/
theorem calls_end [Fintype P] (hlive : L.Live) (K : L.Spends) (w : Store P σ S β)
    (ops : P → List M) :
    ∃ n, Ends (Jobs.client.over L) (Jobs.start (some w) (jobs perform code ops), L.start) n
      fun x => (∃ order, x.1.shared.value = calls perform code order w ∧
        ∀ p, (order.filter (·.1 = p)).map Prod.snd = ops p) ∧
          L.Good x.2 ∧ ∀ p, L.phase x.2 p = .idle := by
  have hends := jobs_end hlive K (some w) (jobs perform code ops)
  refine ⟨_, hends.bound, fun x hr hstuck => ?_⟩
  obtain ⟨⟨hvalue, horder⟩, hgood, hidle⟩ := hends.final x hr hstuck
  refine ⟨?_, hgood, hidle⟩
  obtain ⟨order, rest, hlog, hops, hleft⟩ := order_of_log
    (fun p m => method perform p (code m)) x.1.shared.log ops (fun _ => []) fun p => by
      simpa [jobs] using horder p
  refine ⟨order, by rw [hvalue, hlog, replay_calls], fun p => ?_⟩
  have hnil : rest p = [] := by simpa using (hleft p).symm
  simpa [hnil] using hops p

end order

end Monitor
