import Mathlib.Logic.Function.Basic
import Mathlib.Data.List.Basic
import Mathlib.Algebra.BigOperators.Group.Finset.Basic

/-! Critical sections on one shared value. A section is a program of single reads and writes;
whoever is inside runs its section one access at a time. As long as those inside are alone,
the value is the one that the sections give when each runs in one go, in the order in which
they were entered. -/
namespace Serial
variable {P V : Type*}

/-- A write may change a part of the value only. -/
inductive Section (V : Type*)
  | leave
  | read (k : V → Section V)
  | write (f : V → V) (next : Section V)

def Section.isLeave : Section V → Bool
  | .leave => true
  | _ => false

theorem eq_leave {body : Section V} (h : body.isLeave = true) : body = .leave := by
  cases body with
  | leave => rfl
  | read k | write f next => cases h

def Section.run : Section V → V → V
  | .leave, v => v
  | .read k, v => (k v).run v
  | .write f next, v => next.run (f v)

def replay (v : V) (log : List (P × Section V)) : V :=
  log.foldl (fun w e => e.2.run w) v

@[simp] theorem replay_nil (v : V) : replay v ([] : List (P × Section V)) = v := rfl

@[simp] theorem replay_snoc (v : V) (log : List (P × Section V)) (p : P) (body : Section V) :
    replay v (log ++ [(p, body)]) = body.run (replay v log) := by
  simp [replay]

/-- `rest p` is what is left of the section of `p`, and `log` is an auxiliary variable: the
sections entered so far. -/
structure Shared (P V : Type*) where
  value : V
  rest : P → Section V
  log : List (P × Section V)

variable [DecidableEq P]

def Shared.access (s : Shared P V) (p : P) : Shared P V :=
  match s.rest p with
  | .leave => s
  | .read k => { s with rest := Function.update s.rest p (k s.value) }
  | .write f next => { s with value := f s.value, rest := Function.update s.rest p next }

def Shared.enter (s : Shared P V) (p : P) (body : Section V) : Shared P V :=
  { s with rest := Function.update s.rest p body, log := s.log ++ [(p, body)] }

theorem Shared.access_others (s : Shared P V) (p : P) {q : P} (hq : q ≠ p) :
    (s.access p).rest q = s.rest q := by
  unfold Shared.access
  split <;> simp [hq]

/-- With nobody inside, the sections entered are complete and the value is theirs; the one who
is inside entered last, and what is left of its section completes it. -/
structure Serialised (v : V) (inside : P → Prop) (s : Shared P V) : Prop where
  quiet : (∀ p, ¬ inside p) → s.value = replay v s.log
  running : ∀ p, inside p → ∃ done body, s.log = done ++ [(p, body)] ∧
    (s.rest p).run s.value = body.run (replay v done)

section serialised
variable {v : V} {inside inside' : P → Prop} {s : Shared P V} {p : P}

omit [DecidableEq P] in
theorem serialised_start (v : V) (rest : P → Section V) (hout : ∀ p, ¬ inside p) :
    Serialised v inside ⟨v, rest, []⟩ :=
  ⟨fun _ => rfl, fun p hp => absurd hp (hout p)⟩

omit [DecidableEq P] in
theorem Serialised.through (h : Serialised v inside s) (hp : inside p)
    (hrest : s.rest p = .leave) : s.value = replay v s.log := by
  obtain ⟨done, body, hlog, hrun⟩ := h.running p hp
  rw [hrest] at hrun
  rw [hlog, replay_snoc, ← hrun, Section.run]

theorem Serialised.access (h : Serialised v inside s) (hp : inside p)
    (halone : ∀ q, inside q → q = p) : Serialised v inside (s.access p) := by
  refine ⟨fun hout => absurd hp (hout p), fun q hq => ?_⟩
  obtain rfl : q = p := halone q hq
  obtain ⟨done, body, hlog, hrun⟩ := h.running q hq
  cases hrest : s.rest q with
  | leave => exact ⟨done, body, by simp [Shared.access, hrest, hlog], by simpa [Shared.access, hrest] using hrun⟩
  | read k =>
    rw [hrest, Section.run] at hrun
    exact ⟨done, body, by simpa [Shared.access, hrest] using hlog, by simpa [Shared.access, hrest] using hrun⟩
  | write f next =>
    rw [hrest, Section.run] at hrun
    exact ⟨done, body, by simpa [Shared.access, hrest] using hlog, by simpa [Shared.access, hrest] using hrun⟩

theorem serialised_enter (hvalue : s.value = replay v s.log) (hp : inside p)
    (halone : ∀ q, inside q → q = p) (body : Section V) :
    Serialised v inside (s.enter p body) := by
  refine ⟨fun hout => absurd hp (hout p), fun q hq => ?_⟩
  obtain rfl : q = p := halone q hq
  exact ⟨s.log, body, rfl, by simp [Shared.enter, hvalue]⟩

omit [DecidableEq P] in
theorem serialised_quiet (hvalue : s.value = replay v s.log) (hout : ∀ q, ¬ inside q) :
    Serialised v inside s :=
  ⟨fun _ => hvalue, fun q hq => absurd hq (hout q)⟩

omit [DecidableEq P] in
theorem Serialised.congr (h : Serialised v inside s) (hsame : ∀ q, inside' q ↔ inside q) :
    Serialised v inside' s :=
  ⟨fun hout => h.quiet fun q hq => hout q ((hsame q).mpr hq),
    fun q hq => h.running q ((hsame q).mp hq)⟩

end serialised

def increment : Section Nat := .read fun n => .write (fun _ => n + 1) .leave

omit [DecidableEq P] in
theorem replay_increment {n : Nat} {log : List (P × Section Nat)}
    (h : ∀ e ∈ log, e.2 = increment) : replay n log = n + log.length := by
  induction log generalizing n with
  | nil => rfl
  | cons e log ih =>
    obtain ⟨p, body⟩ := e
    obtain rfl : body = increment := h _ List.mem_cons_self
    change replay (n + 1) log = n + (log.length + 1)
    rw [ih fun e he => h e (List.mem_cons_of_mem _ he)]
    omega

theorem length_of_count {log : List (P × Section V)} {parties : Finset P} {j : Nat}
    (hmem : ∀ e ∈ log, e.1 ∈ parties)
    (hcount : ∀ p ∈ parties, (log.map Prod.fst).count p = j) : log.length = j * parties.card := by
  have hsum : ∑ p ∈ parties, (log.map Prod.fst).count p = log.length := by
    simpa using Multiset.sum_count_eq_card (s := parties) (m := (log.map Prod.fst : Multiset P))
      (by simpa using hmem)
  calc
    log.length = ∑ p ∈ parties, (log.map Prod.fst).count p := hsum.symm
    _ = parties.card * j := Finset.sum_const_nat hcount
    _ = j * parties.card := Nat.mul_comm _ _

end Serial
