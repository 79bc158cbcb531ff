import Mathlib.Logic.Basic

/-! Programs that issue commands to a machine, one command a step, and what holds of
every command along an execution. The machine answers a command or refuses it. -/
namespace Program
variable {C : Type} {R : C → Type} {α β σ : Type}

/-- A sequential program over commands `C`; a command `c` is answered by an `R c`. -/
inductive Prog (C : Type) (R : C → Type) (α : Type) where
  | done (a : α)
  | op (c : C) (k : R c → Prog C R α)

namespace Prog

def bind : Prog C R α → (α → Prog C R β) → Prog C R β
  | .done a, f => f a
  | .op c k, f => .op c fun r => (k r).bind f

instance : Monad (Prog C R) where
  pure := .done
  bind := Prog.bind

def call (c : C) : Prog C R (R c) := .op c .done

@[simp] theorem done_bind (a : α) (f : α → Prog C R β) : (done a : Prog C R α) >>= f = f a := rfl

@[simp] theorem op_bind (c : C) (k : R c → Prog C R α) (f : α → Prog C R β) :
    op c k >>= f = op c fun r => k r >>= f := rfl

theorem bind_assoc {γ : Type} (p : Prog C R α) (f : α → Prog C R β) (g : β → Prog C R γ) :
    p >>= f >>= g = p >>= fun a => f a >>= g := by
  induction p with
  | done a => rfl
  | op c k ih => exact congrArg (op c) (funext ih)

end Prog

open Prog

/-- The whole execution: `none` when the machine refuses a command on the way. -/
def exec (perform : (c : C) → σ → Option (R c × σ)) : Prog C R α → σ → Option (α × σ)
  | .done a, s => some (a, s)
  | .op c k, s => (perform c s).bind fun r => exec perform (k r.1) r.2

variable {perform : (c : C) → σ → Option (R c × σ)}

@[simp] theorem exec_done (a : α) (s : σ) :
    exec perform (done a : Prog C R α) s = some (a, s) := rfl

@[simp] theorem exec_pure (a : α) (s : σ) :
    exec perform (pure a : Prog C R α) s = some (a, s) := rfl

@[simp] theorem exec_call (c : C) (s : σ) : exec perform (call c) s = perform c s := by
  cases h : perform c s <;> simp [call, exec, h]

@[simp] theorem exec_bind (p : Prog C R α) (f : α → Prog C R β) (s : σ) :
    exec perform (p >>= f) s = (exec perform p s).bind fun r => exec perform (f r.1) r.2 := by
  induction p generalizing s with
  | done a => rfl
  | op c k ih =>
    cases h : perform c s with
    | none => simp [exec, h]
    | some r => simpa [exec, h] using ih r.1 r.2

/-- Every command of the execution from `s`, taken with the state it is issued in,
satisfies `P`. -/
def Always (perform : (c : C) → σ → Option (R c × σ)) (P : C → σ → Prop) : Prog C R α → σ → Prop
  | .done _, _ => True
  | .op c k, s => P c s ∧ ∀ r t, perform c s = some (r, t) → Always perform P (k r) t

variable {P : C → σ → Prop}

@[simp] theorem always_pure (a : α) (s : σ) : Always perform P (pure a : Prog C R α) s := trivial

@[simp] theorem always_call (c : C) (s : σ) : Always perform P (call c : Prog C R (R c)) s ↔ P c s := by
  simp [call, Always]

theorem always_bind (p : Prog C R α) (f : α → Prog C R β) (s : σ) :
    Always perform P (p >>= f) s ↔
      Always perform P p s ∧ ∀ a t, exec perform p s = some (a, t) → Always perform P (f a) t := by
  induction p generalizing s with
  | done a => simp [Always]
  | op c k ih =>
    simp only [op_bind, Always, ih, exec, Option.bind_eq_some_iff, Prod.exists]
    constructor
    · rintro ⟨hP, h⟩
      refine ⟨⟨hP, fun r t hr => (h r t hr).1⟩, ?_⟩
      rintro a t ⟨r, u, hr, hk⟩
      exact (h r u hr).2 a t hk
    · rintro ⟨⟨hP, h⟩, hf⟩
      exact ⟨hP, fun r t hr => ⟨h r t hr, fun a u hu => hf a u ⟨r, t, hr, hu⟩⟩⟩

def Only (P : C → Prop) : Prog C R α → Prop
  | .done _ => True
  | .op c k => P c ∧ ∀ r, Only P (k r)

theorem Only.bind {P : C → Prop} {p : Prog C R α} {f : α → Prog C R β} (hp : Only P p)
    (hf : ∀ a, Only P (f a)) : Only P (p >>= f) := by
  induction p with
  | done a => exact hf a
  | op c k ih => exact ⟨hp.1, fun r => ih r (hp.2 r)⟩

/-- A property of the state that the commands of a program keep holds all along. -/
theorem Only.always {P : C → Prop} {I : σ → Prop} {p : Prog C R α} (hp : Only P p)
    (hkeep : ∀ c s r t, P c → I s → perform c s = some (r, t) → I t) {s : σ} (hs : I s) :
    Always perform (fun _ s => I s) p s := by
  induction p generalizing s with
  | done a => trivial
  | op c k ih => exact ⟨hs, fun r t hr => ih r (hp.2 r) (hkeep c s r t hp.1 hs hr)⟩

/-- From the first state on that is `closed`, no command satisfies `touch`. -/
def Retires (perform : (c : C) → σ → Option (R c × σ)) (closed : σ → Prop) (touch : C → Prop) :
    Prog C R α → σ → Prop
  | .done _, _ => True
  | .op c k, s => (closed s → Always perform (fun c _ => ¬ touch c) (.op c k) s) ∧
      ∀ r t, perform c s = some (r, t) → Retires perform closed touch (k r) t

variable {closed : σ → Prop} {touch : C → Prop}

theorem Retires.always {p : Prog C R α} {s : σ} (h : Retires perform closed touch p s)
    (hs : closed s) : Always perform (fun c _ => ¬ touch c) p s := by
  cases p with
  | done a => trivial
  | op c k => exact h.1 hs

theorem Always.retires {p : Prog C R α} {s : σ}
    (h : Always perform (fun c _ => ¬ touch c) p s) : Retires perform closed touch p s := by
  induction p generalizing s with
  | done a => trivial
  | op c k ih => exact ⟨fun _ => h, fun r t hr => ih r (h.2 r t hr)⟩

theorem Retires.bind_rest {p : Prog C R α} {f : α → Prog C R β} {s t : σ} {a : α}
    (h : Retires perform closed touch (p >>= f) s) (hp : exec perform p s = some (a, t)) :
    Retires perform closed touch (f a) t := by
  induction p generalizing s with
  | done b => cases hp; exact h
  | op c k ih =>
    obtain ⟨⟨r, u⟩, hr, hk⟩ := Option.bind_eq_some_iff.mp hp
    exact ih r (h.2 r u hr) hk

theorem retires_bind {p : Prog C R α} {f : α → Prog C R β} {s : σ}
    (hp : Always perform (fun _ s => ¬ closed s) p s) :
    Retires perform closed touch (p >>= f) s ↔
      ∀ a t, exec perform p s = some (a, t) → Retires perform closed touch (f a) t := by
  refine ⟨fun h a t ht => h.bind_rest ht, fun h => ?_⟩
  induction p generalizing s with
  | done b => exact h b s rfl
  | op c k ih =>
    refine ⟨fun hs => absurd hs hp.1, fun r t hr => ih r (hp.2 r t hr) fun a u hu => ?_⟩
    exact h a u (by simp [exec, hr, hu])

theorem retires_skip {p : Prog C R α} {f : α → Prog C R β} {s t : σ} {a : α}
    (hp : Always perform (fun _ s => ¬ closed s) p s) (he : exec perform p s = some (a, t)) :
    Retires perform closed touch (p >>= f) s ↔ Retires perform closed touch (f a) t := by
  rw [retires_bind hp, he]
  simp

end Program
