import Colock.IntrusiveList.Spec
import Colock.Lib.Transition

/-! `Node::drop` against a removal. The remover holds the list's lock; the owner of the
node gives it up without the lock when it finds `is_on_list` lowered. A removal is safe
if and only if it never touches the node again once the flag is lowered. -/
namespace Colock.IntrusiveList
open Program Prog Transition
variable {A L D S α : Type} [DecidableEq A] [DecidableEq L]

def Cmd.touches (x : A) : Cmd A L D → Prop
  | .node a _ => a = x
  | _ => False

inductive Owner (A L D : Type) where
  | drop
  | readList
  | lock (l : L)
  | remove (rest : Code A L D Unit)
  | returned

structure Race (A L D α : Type) where
  mem : Mem A L D
  remover : Code A L D α
  owner : Owner A L D

inductive Turn where
  | remover
  | owner

/-- One access of the remover or of the owner of `x`. The owner gets the list's lock when
the remover is done. -/
def Race.step (dbg : Bool) (x : A) (r : Race A L D α) : Turn → Option (Race A L D α)
  | .remover =>
    match r.remover with
    | .done _ => none
    | .op c k => (perform c r.mem).map fun q => { r with mem := q.2, remover := k q.1 }
  | .owner =>
    match r.owner with
    | .drop =>
      (exec perform (load x (·.isOnList)) r.mem).map fun q =>
        { r with owner := if q.1 then .readList else .returned }
    | .readList =>
      (exec perform (do get (← load x (·.list))) r.mem).map fun q => { r with owner := .lock q.1 }
    | .lock l =>
      match r.remover with
      | .done _ => some { r with owner := .remove (removeNode dbg l x) }
      | .op _ _ => none
    | .remove (.done _) => some { r with owner := .returned }
    | .remove (.op c k) =>
      (perform c r.mem).map fun q => { r with mem := q.2, owner := .remove (k q.1) }
    | .returned => none

/-- After `Node::drop` of `x` has returned, the remover does not touch `x`. -/
def Race.Safe (x : A) (r : Race A L D α) : Prop :=
  match r.owner, r.remover with
  | .returned, .op c _ => ¬ c.touches x
  | _, _ => True

abbrev Leaves (x : A) (p : Code A L D α) (m : Mem A L D) : Prop :=
  Always perform (fun c _ => ¬ c.touches x) p m

/-- The flag of `x` is lowered only after the last access to `x`. -/
abbrev LowersLast (x : A) (p : Code A L D α) (m : Mem A L D) : Prop :=
  Retires perform (fun m => (m.node x).isOnList = false) (Cmd.touches x) p m

theorem perform_live {c : Cmd A L D} {m m' : Mem A L D} {r : c.Ans}
    (h : perform c m = some (r, m')) : m'.live = m.live := by
  cases c with
  | node a f =>
    simp only [perform, Option.ite_none_right_eq_some, Option.some.injEq] at h
    have hm : m.setNode a f = m' := congrArg Prod.snd h.2
    rw [← hm, Mem.setNode_live]
  | list l f =>
    simp only [perform, Option.some.injEq] at h
    have hm : m.setList l f = m' := congrArg Prod.snd h
    rw [← hm, Mem.setList_live]
  | panic => cases h

def Race.Inv (x : A) (r : Race A L D α) : Prop :=
  r.mem.live x ∧
    match r.owner with
    | .returned => Leaves x r.remover r.mem
    | .remove _ => ∃ a, r.remover = .done a
    | _ => LowersLast x r.remover r.mem

theorem inv_step {dbg : Bool} {x : A} {r r' : Race A L D α} {t : Turn} (h : r.Inv x)
    (hstep : r.step dbg x t = some r') : r'.Inv x := by
  obtain ⟨mem, remover, owner⟩ := r
  obtain ⟨hlive, h⟩ := h
  cases t with
  | remover =>
    cases remover with
    | done a => simp [Race.step] at hstep
    | op c k =>
      simp only [Race.step, Option.map_eq_some_iff, Prod.exists] at hstep
      obtain ⟨q, m', hq, rfl⟩ := hstep
      refine ⟨by rw [perform_live hq]; exact hlive, ?_⟩
      cases owner with
      | returned => exact h.2 q m' hq
      | remove rest =>
        obtain ⟨a, ha⟩ := h
        cases ha
      | drop => exact h.2 q m' hq
      | readList => exact h.2 q m' hq
      | lock l => exact h.2 q m' hq
  | owner =>
    cases owner with
    | returned => simp [Race.step] at hstep
    | drop =>
      simp only [Race.step, exec_load _ hlive, Option.map_some, Option.some.injEq] at hstep
      subst hstep
      cases hon : (mem.node x).isOnList with
      | true => exact ⟨hlive, h⟩
      | false => exact ⟨hlive, h.always hon⟩
    | readList =>
      simp only [Race.step, Option.map_eq_some_iff, Prod.exists] at hstep
      obtain ⟨l, m', -, rfl⟩ := hstep
      exact ⟨hlive, h⟩
    | lock l =>
      cases remover with
      | op c k => simp [Race.step] at hstep
      | done a =>
        simp only [Race.step, Option.some.injEq] at hstep
        subst hstep
        exact ⟨hlive, a, rfl⟩
    | remove rest =>
      obtain ⟨a, ha⟩ := h
      subst ha
      cases rest with
      | done _ =>
        simp only [Race.step, Option.some.injEq] at hstep
        subst hstep
        exact ⟨hlive, trivial⟩
      | op c k =>
        simp only [Race.step, Option.map_eq_some_iff, Prod.exists] at hstep
        obtain ⟨q, m', hq, rfl⟩ := hstep
        exact ⟨by rw [perform_live hq]; exact hlive, a, rfl⟩

theorem Race.Inv.safe {x : A} {r : Race A L D α} (h : r.Inv x) : r.Safe x := by
  obtain ⟨mem, remover, owner⟩ := r
  obtain ⟨-, h⟩ := h
  cases owner with
  | returned =>
    cases remover with
    | done a => trivial
    | op c k => exact h.1
  | _ => trivial

/-- Once the owner has returned, a safe remover leaves the node alone. -/
theorem leaves_of_safe {dbg : Bool} {x : A} {p : Code A L D α} {m : Mem A L D}
    (h : ∀ r, Reach (Race.step dbg x) anyStep ⟨m, p, .returned⟩ r → r.Safe x) : Leaves x p m := by
  induction p generalizing m with
  | done a => trivial
  | op c k ih =>
    refine ⟨h _ .refl, fun q m' hq => ih q fun r hr => h r ?_⟩
    have hstep : Race.step dbg x ⟨m, .op c k, .returned⟩ .remover = some ⟨m', k q, .returned⟩ := by
      simp [Race.step, hq]
    exact (Reach.single trivial hstep).trans hr

theorem lowersLast_of_safe {dbg : Bool} {x : A} {p : Code A L D α} {m : Mem A L D} (hx : m.live x)
    (h : ∀ r, Reach (Race.step dbg x) anyStep ⟨m, p, .drop⟩ r → r.Safe x) : LowersLast x p m := by
  induction p generalizing m with
  | done a => trivial
  | op c k ih =>
    constructor
    · intro hoff
      have hstep : Race.step dbg x ⟨m, .op c k, .drop⟩ .owner = some ⟨m, .op c k, .returned⟩ := by
        simp [Race.step, hx, hoff]
      exact leaves_of_safe fun r hr => h r ((Reach.single trivial hstep).trans hr)
    · intro q m' hq
      have hstep : Race.step dbg x ⟨m, .op c k, .drop⟩ .remover = some ⟨m', k q, .drop⟩ := by
        simp [Race.step, hq]
      exact ih q (by rw [perform_live hq]; exact hx) fun r hr =>
        h r ((Reach.single trivial hstep).trans hr)

/-- No interleaving with `Node::drop` touches the node after the drop has returned, if and
only if the remover lowers the flag last. -/
theorem race_safe_iff (dbg : Bool) {x : A} {p : Code A L D α} {m : Mem A L D} (hx : m.live x) :
    (∀ r, Reach (Race.step dbg x) anyStep ⟨m, p, .drop⟩ r → r.Safe x) ↔ LowersLast x p m := by
  refine ⟨lowersLast_of_safe hx, fun h r hr => ?_⟩
  exact (hr.invariant ⟨hx, h⟩ fun _ _ _ hinv _ hstep => inv_step hinv hstep).safe

end Colock.IntrusiveList
