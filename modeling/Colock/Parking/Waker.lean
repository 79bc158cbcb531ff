import Mathlib.Logic.Function.Basic

/-! The wakers of `parking`, and the nodes of a wait queue that carry one. -/
namespace Colock

/-- `parking::MaybeAsync`: whom a waker notifies. -/
inductive MaybeAsync (P : Type*)
  | thread (p : P)
  | task (cx : Nat)
  deriving DecidableEq

/-- `parking::Waker`; a null parker pointer is `none`. -/
structure Waker (P : Type*) where
  parker : Option Nat
  inner : MaybeAsync P
  deriving DecidableEq

/-- A linked queue node: its identity, the party on whose frame or in whose poller it
lives, and the waker in it. -/
structure Entry (P : Type*) where
  id : Nat
  owner : P
  data : Waker P
  deriving DecidableEq

end Colock
