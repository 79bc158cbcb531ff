import Colock.IntrusiveList.Spec

/-! What the list is for: a double-ended queue of nodes for each list, and the operations
of its users on the heap and on the deques. An operation on the deques is defined only on
the nodes that its contract allows. -/
namespace Colock.IntrusiveList
open Program

inductive Op (A L D S R : Type) where
  | newNode (a : A) (data : D)
  | pushHead (l : L) (a : A) (criticalCondition : D → Nat → S → (Bool × R) × D × S)
  | pushTail (l : L) (a : A) (criticalCondition : D → Nat → S → (Bool × R) × D × S)
  | popHead (l : L) (criticalCondition : D → Nat → S → R × S) (criticalOnEmpty : S → S)
  | popTail (l : L) (criticalCondition : D → Nat → S → R × S) (criticalOnEmpty : S → S)
  | popAll (l : L) (criticalCondition : D → Nat → S → S) (criticalOnEmpty : S → S)
  | removeNode (l : L) (a : A)
  | count (l : L)
  | dropNode (a : A)

inductive Out (R : Type) where
  | unit
  | pushed (pushResult : Except Error Nat) (criticalResult : R)
  | popped (result : Option (R × Nat))
  | count (n : Nat)

variable {A L D S R : Type} [DecidableEq A] [DecidableEq L]

def Mem.empty : Mem A L D where
  node _ := ⟨none, none, none, none, false⟩
  live _ := false
  list _ := ListHeader.new

def Mem.alloc (m : Mem A L D) (a : A) (n : Node A L D) : Mem A L D :=
  { m with
    node := fun b => if b = a then n else m.node b
    live := fun b => if b = a then true else m.live b }

def Mem.free (m : Mem A L D) (a : A) : Mem A L D :=
  { m with live := fun b => if b = a then false else m.live b }

namespace Op

/-- The operation on the heap: `none` when it panics or accesses an address without a
node. -/
def perform (dbg : Bool) (m : Mem A L D) (s : S) : Op A L D S R → Option (Out R × Mem A L D × S)
  | .newNode a data => if m.live a then none else some (.unit, m.alloc a (Node.new data), s)
  | .pushHead l a f => do
    let (((r, x), s'), m') ← exec IntrusiveList.perform (Concurrent.pushHead dbg l a f s) m
    return (.pushed r x, m', s')
  | .pushTail l a f => do
    let (((r, x), s'), m') ← exec IntrusiveList.perform (Concurrent.pushTail dbg l a f s) m
    return (.pushed r x, m', s')
  | .popHead l f onEmpty => do
    let ((r, s'), m') ← exec IntrusiveList.perform (Concurrent.popHead dbg l f onEmpty s) m
    return (.popped r, m', s')
  | .popTail l f onEmpty => do
    let ((r, s'), m') ← exec IntrusiveList.perform (Concurrent.popTail dbg l f onEmpty s) m
    return (.popped r, m', s')
  | .popAll l f onEmpty => do
    let ((n, s'), m') ← exec IntrusiveList.perform (Concurrent.popAll dbg l f onEmpty s) m
    return (.count n, m', s')
  | .removeNode l a => do
    let (_, m') ← exec IntrusiveList.perform (IntrusiveList.removeNode dbg l a) m
    return (.unit, m', s)
  | .count l => do
    let (n, m') ← exec IntrusiveList.perform (Concurrent.count l) m
    return (.count n, m', s)
  | .dropNode a => do
    let (_, m') ← exec IntrusiveList.perform (IntrusiveList.dropNode dbg a) m
    return (.unit, m'.free a, s)

end Op

inductive Place (L : Type) where
  | unused
  | on (l : L)
  | off

structure Cell (L D : Type) where
  data : Option D
  place : Place L

/-- The abstract state: the nodes of each list from head to tail, and the nodes there
are. -/
structure Deques (A L D : Type) where
  seq : L → List A
  cell : A → Option (Cell L D)

def insertAt {α : Type} : End → α → List α → List α
  | .head, a, xs => a :: xs
  | .tail, a, xs => xs ++ [a]

def takeAt {α : Type} : End → List α → Option (α × List α)
  | .head, [] => none
  | .head, x :: xs => some (x, xs)
  | .tail, xs => xs.getLast?.map fun x => (x, xs.dropLast)

/-- The callback of `popAll` on the elements from the tail on, each with the number of
those that are left. -/
def drain (f : D → Nat → S → S) : List D → S → S
  | [], s => s
  | d :: ds, s => drain f ds (f d ds.length s)

namespace Deques

def empty : Deques A L D := ⟨fun _ => [], fun _ => none⟩

def setSeq (d : Deques A L D) (l : L) (xs : List A) : Deques A L D :=
  { d with seq := fun k => if k = l then xs else d.seq k }

def setCell (d : Deques A L D) (a : A) (c : Option (Cell L D)) : Deques A L D :=
  { d with cell := fun b => if b = a then c else d.cell b }

omit [DecidableEq L] in
@[simp] theorem setCell_self (d : Deques A L D) (a : A) (c : Option (Cell L D)) :
    (d.setCell a c).cell a = c := if_pos rfl

omit [DecidableEq L] in
@[simp] theorem setCell_setCell (d : Deques A L D) (a : A) (c c' : Option (Cell L D)) :
    (d.setCell a c).setCell a c' = d.setCell a c' := by
  simp only [setCell, mk.injEq, true_and]
  funext b
  by_cases hb : b = a <;> simp [hb]

def data (d : Deques A L D) (a : A) : Option D := (d.cell a).bind (·.data)

/-- A node may be pushed while it is unused or on a list; in the second case the push is
refused. -/
def push (d : Deques A L D) (e : End) (l : L) (a : A)
    (criticalCondition : D → Nat → S → (Bool × R) × D × S) (s : S) :
    Option (Out R × Deques A L D × S) := do
  let c ← d.cell a
  let v ← c.data
  let ((shouldPush, criticalResult), v', s') := criticalCondition v (d.seq l).length s
  match c.place, shouldPush with
  | .off, _ => none
  | place, false =>
    some (.pushed (.error .abortedPush) criticalResult, d.setCell a (some ⟨some v', place⟩), s')
  | .on k, true =>
    some (.pushed (.error .dirtyNode) criticalResult, d.setCell a (some ⟨some v', .on k⟩), s')
  | .unused, true =>
    some (.pushed (.ok ((d.seq l).length + 1)) criticalResult,
      (d.setCell a (some ⟨some v', .on l⟩)).setSeq l (insertAt e a (d.seq l)), s')

def pop (d : Deques A L D) (e : End) (l : L) (criticalCondition : D → Nat → S → R × S)
    (criticalOnEmpty : S → S) (s : S) : Option (Out R × Deques A L D × S) :=
  match takeAt e (d.seq l) with
  | none => some (.popped none, d, criticalOnEmpty s)
  | some (x, xs) => do
    let v ← d.data x
    let (criticalResult, s') := criticalCondition v xs.length s
    return (.popped (some (criticalResult, xs.length)),
      (d.setCell x (some ⟨none, .off⟩)).setSeq l xs, s')

def clear (d : Deques A L D) (l : L) : Deques A L D where
  seq := (d.setSeq l []).seq
  cell a := if a ∈ d.seq l then some ⟨none, .off⟩ else d.cell a

def popAll (d : Deques A L D) (l : L) (criticalCondition : D → Nat → S → S)
    (criticalOnEmpty : S → S) (s : S) : Out R × Deques A L D × S :=
  (.count (d.seq l).length,
    d.clear l,
    criticalOnEmpty (drain criticalCondition ((d.seq l).reverse.filterMap d.data) s))

def remove (d : Deques A L D) (l : L) (a : A) (c : Cell L D) : Deques A L D :=
  (d.setCell a (some ⟨c.data, .off⟩)).setSeq l ((d.seq l).erase a)

/-- The operation on the deques: `none` when its contract does not allow it. -/
def perform (d : Deques A L D) (s : S) : Op A L D S R → Option (Out R × Deques A L D × S)
  | .newNode a v =>
    match d.cell a with
    | none => some (.unit, d.setCell a (some ⟨some v, .unused⟩), s)
    | some _ => none
  | .pushHead l a f => d.push .head l a f s
  | .pushTail l a f => d.push .tail l a f s
  | .popHead l f onEmpty => d.pop .head l f onEmpty s
  | .popTail l f onEmpty => d.pop .tail l f onEmpty s
  | .popAll l f onEmpty => some (d.popAll l f onEmpty s)
  | .removeNode l a => do
    let c ← d.cell a
    match c.place with
    | .on k => if k = l then some (.unit, d.remove l a c, s) else none
    | _ => some (.unit, d, s)
  | .count l => some (.count (d.seq l).length, d, s)
  | .dropNode a => do
    let c ← d.cell a
    match c.place with
    | .on k => some (.unit, (d.remove k a c).setCell a none, s)
    | _ => some (.unit, d.setCell a none, s)

end Deques

def run (dbg : Bool) : List (Op A L D S R) → Mem A L D → S →
    Option (List (Out R) × Mem A L D × S)
  | [], m, s => some ([], m, s)
  | op :: ops, m, s => do
    let (out, m', s') ← op.perform dbg m s
    let (outs, r) ← run dbg ops m' s'
    return (out :: outs, r)

def Deques.run : List (Op A L D S R) → Deques A L D → S →
    Option (List (Out R) × Deques A L D × S)
  | [], d, s => some ([], d, s)
  | op :: ops, d, s => do
    let (out, d', s') ← d.perform s op
    let (outs, r) ← Deques.run ops d' s'
    return (out :: outs, r)

end Colock.IntrusiveList
