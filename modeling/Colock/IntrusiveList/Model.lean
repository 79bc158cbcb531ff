import Colock.Lib.Program

/-! The intrusive list over an explicit heap. Every access to a node or to the list's own
fields is one command, so a program can be run whole or one access at a time. -/
namespace Colock.IntrusiveList
open Program Prog

inductive Error where
  | dirtyNode
  | abortedPush
  deriving DecidableEq, Repr

inductive NodeAction where
  | retain
  | remove
  deriving DecidableEq, Repr

inductive ScanAction where
  | proceed
  | stop
  deriving DecidableEq, Repr

/-- A node in memory; `A` are the addresses of nodes, `L` those of lists, `none` is the
null pointer. -/
@[ext]
structure Node (A L D : Type) where
  next : Option A
  prev : Option A
  list : Option L
  data : Option D
  isOnList : Bool

@[ext]
structure ListHeader (A : Type) where
  head : Option A
  tail : Option A
  count : Nat

def Node.new {A L D : Type} (data : D) : Node A L D where
  next := none
  prev := none
  list := none
  data := some data
  isOnList := false

def ListHeader.new {A : Type} : ListHeader A := ⟨none, none, 0⟩

@[ext]
structure Mem (A L D : Type) where
  node : A → Node A L D
  live : A → Bool
  list : L → ListHeader A

/-- The two ends of a list. `pushHead` and `pushTail`, `popHead` and `popTail` are one
function each, up to the end they work at. -/
inductive End where
  | head
  | tail
  deriving DecidableEq, Repr

def End.other : End → End
  | .head => .tail
  | .tail => .head

@[simp] theorem End.other_other (e : End) : e.other.other = e := by cases e <;> rfl

def ListHeader.at {A : Type} (h : ListHeader A) : End → Option A
  | .head => h.head
  | .tail => h.tail

def ListHeader.setAt {A : Type} (v : Option A) (h : ListHeader A) : End → ListHeader A
  | .head => { h with head := v }
  | .tail => { h with tail := v }

def Node.toward {A L D : Type} (n : Node A L D) : End → Option A
  | .head => n.prev
  | .tail => n.next

def Node.setToward {A L D : Type} (v : Option A) (n : Node A L D) : End → Node A L D
  | .head => { n with prev := v }
  | .tail => { n with next := v }

section Ends
variable {A L D : Type} (v : Option A) (h : ListHeader A) (n : Node A L D) (e : End)

@[simp] theorem ListHeader.setAt_count : (h.setAt v e).count = h.count := by cases e <;> rfl
@[simp] theorem Node.setToward_toward : (n.setToward v e).toward e = v := by cases e <;> rfl
@[simp] theorem Node.setToward_far : (n.setToward v e).toward e.other = n.toward e.other := by
  cases e <;> rfl
@[simp] theorem Node.setToward_list : (n.setToward v e).list = n.list := by cases e <;> rfl
@[simp] theorem Node.setToward_data : (n.setToward v e).data = n.data := by cases e <;> rfl
@[simp] theorem Node.setToward_isOnList : (n.setToward v e).isOnList = n.isOnList := by
  cases e <;> rfl

end Ends

/-- An access to a node or to a list's fields answers with the old content and leaves the
changed one; `panic` is a failed assertion, an `unwrap` of `None`, a null pointer
followed or a count below zero. -/
inductive Cmd (A L D : Type) where
  | node (a : A) (f : Node A L D → Node A L D)
  | list (l : L) (f : ListHeader A → ListHeader A)
  | panic

def Cmd.Ans {A L D : Type} : Cmd A L D → Type
  | .node _ _ => Node A L D
  | .list _ _ => ListHeader A
  | .panic => Empty

abbrev Code (A L D α : Type) : Type := Prog (Cmd A L D) Cmd.Ans α

variable {A L D S R α : Type}

def onNode (a : A) (f : Node A L D → Node A L D) : Code A L D (Node A L D) :=
  call (R := Cmd.Ans) (Cmd.node a f)

def onList (l : L) (f : ListHeader A → ListHeader A) : Code A L D (ListHeader A) :=
  call (R := Cmd.Ans) (Cmd.list l f)

def panic : Code A L D α := .op .panic fun e => nomatch (e : Empty)

def Mem.setNode [DecidableEq A] (m : Mem A L D) (a : A) (f : Node A L D → Node A L D) : Mem A L D :=
  { m with node := fun b => if b = a then f (m.node b) else m.node b }

def Mem.setList [DecidableEq L] (m : Mem A L D) (l : L) (f : ListHeader A → ListHeader A) : Mem A L D :=
  { m with list := fun k => if k = l then f (m.list k) else m.list k }

@[simp] theorem Mem.setNode_live [DecidableEq A] (m : Mem A L D) (a : A) (f : Node A L D → Node A L D) :
    (m.setNode a f).live = m.live := rfl

@[simp] theorem Mem.setNode_list [DecidableEq A] (m : Mem A L D) (a : A) (f : Node A L D → Node A L D) :
    (m.setNode a f).list = m.list := rfl

theorem Mem.setNode_node [DecidableEq A] (m : Mem A L D) (a b : A) (f : Node A L D → Node A L D) :
    (m.setNode a f).node b = if b = a then f (m.node b) else m.node b := rfl

@[simp] theorem Mem.setList_live [DecidableEq L] (m : Mem A L D) (l : L) (f : ListHeader A → ListHeader A) :
    (m.setList l f).live = m.live := rfl

@[simp] theorem Mem.setList_node [DecidableEq L] (m : Mem A L D) (l : L) (f : ListHeader A → ListHeader A) :
    (m.setList l f).node = m.node := rfl

theorem Mem.setList_list [DecidableEq L] (m : Mem A L D) (l k : L) (f : ListHeader A → ListHeader A) :
    (m.setList l f).list k = if k = l then f (m.list k) else m.list k := rfl

@[simp] theorem Mem.setNode_id [DecidableEq A] (m : Mem A L D) (a : A) : m.setNode a id = m := by
  simp [Mem.setNode]

@[simp] theorem Mem.setNode_setNode [DecidableEq A] (m : Mem A L D) (a : A)
    (f g : Node A L D → Node A L D) : (m.setNode a f).setNode a g = m.setNode a (g ∘ f) := by
  ext1
  · funext b
    by_cases hb : b = a <;> simp [Mem.setNode, hb]
  · rfl
  · rfl

theorem Mem.setNode_same [DecidableEq A] {m : Mem A L D} {a : A} {f : Node A L D → Node A L D}
    (h : f (m.node a) = m.node a) : m.setNode a f = m := by
  ext1
  · funext b
    by_cases hb : b = a <;> simp [Mem.setNode, hb, h]
  · rfl
  · rfl

@[simp] theorem Mem.setList_id [DecidableEq L] (m : Mem A L D) (l : L) : m.setList l id = m := by
  simp [Mem.setList]

variable [DecidableEq A] [DecidableEq L]

/-- An address without a node cannot be accessed. -/
def perform : (c : Cmd A L D) → Mem A L D → Option (c.Ans × Mem A L D)
  | .node a f, m => if m.live a then some (m.node a, m.setNode a f) else none
  | .list l f, m => some (m.list l, m.setList l f)
  | .panic, _ => none

def load {β : Type} (a : A) (field : Node A L D → β) : Code A L D β := do
  let n ← onNode a id
  return field n

def store (a : A) (f : Node A L D → Node A L D) : Code A L D Unit := do
  let _ ← onNode a f

def listLoad {β : Type} (l : L) (field : ListHeader A → β) : Code A L D β := do
  let h ← onList l id
  return field h

def listStore (l : L) (f : ListHeader A → ListHeader A) : Code A L D Unit := do
  let _ ← onList l f

/-- Following a pointer, `unwrap` and `expect`. -/
def get {β : Type} : Option β → Code A L D β
  | some a => return a
  | none => panic

/-- `dbg` tells whether debug assertions are compiled in; without them the condition is
not evaluated. -/
def debugAssert (dbg : Bool) (cond : Code A L D Bool) : Code A L D Unit :=
  if dbg then do
    if ← cond then return () else panic
  else return ()

def swapOnList (a : A) (b : Bool) : Code A L D Bool := do
  let n ← onNode a ({ · with isOnList := b })
  return n.isOnList

/-- The test of a node that is to be pushed; it marks the node as a member first. -/
def dirty (a : A) : Code A L D Bool := do
  if ← swapOnList a true then return true
  else if (← load a (·.prev)).isSome then return true
  else if (← load a (·.next)).isSome then return true
  else return (← load a (·.list)).isSome

/-- The pointers set by a push; `existing` is the node that was at this end. -/
def linkAt (dbg : Bool) (e : End) (l : L) (a : A) : Code A L D Unit := do
  if (← listLoad l (·.at e)).isNone then
    debugAssert dbg (do return (← listLoad l (·.at e.other)).isNone)
    listStore l ({ · with head := some a })
    listStore l ({ · with tail := some a })
  else
    debugAssert dbg (do return (← listLoad l (·.at e.other)).isSome)
    let existing ← get (← listLoad l (·.at e))
    debugAssert dbg (do return (← load existing (·.toward e)).isNone)
    store existing (·.setToward (some a) e)
    store a (·.setToward (some existing) e.other)
    listStore l (·.setAt (some a) e)

def pushAt (dbg : Bool) (e : End) (l : L) (a : A) : Code A L D (Except Error Nat) := do
  if ← dirty a then return .error .dirtyNode
  else
    store a ({ · with list := some l })
    linkAt dbg e l a
    listStore l fun h => { h with count := h.count + 1 }
    return .ok (← listLoad l (·.count))

def pushHead (dbg : Bool) (l : L) (a : A) : Code A L D (Except Error Nat) := pushAt dbg .head l a
def pushTail (dbg : Bool) (l : L) (a : A) : Code A L D (Except Error Nat) := pushAt dbg .tail l a

def countDown (l : L) : Code A L D Unit := do
  if (← listLoad l (·.count)) = 0 then panic
  else listStore l fun h => { h with count := h.count - 1 }

/-- The repair of the pointers around `a`, by the place of `a` in the list. -/
def relink (dbg : Bool) (l : L) (a : A) : Code A L D Unit := do
  if (← listLoad l (·.head)) = some a then
    let head ← get (← listLoad l (·.head))
    debugAssert dbg (do return (← load head (·.prev)).isNone)
    if (← listLoad l (·.head)) = (← listLoad l (·.tail)) then
      debugAssert dbg (do return (← load head (·.next)).isNone)
      listStore l ({ · with head := none })
      listStore l ({ · with tail := none })
    else
      let next ← get (← load head (·.next))
      store next ({ · with prev := none })
      let headNext ← load head (·.next)
      listStore l ({ · with head := headNext })
  else if (← listLoad l (·.tail)) = some a then
    let tail ← get (← listLoad l (·.tail))
    if (← listLoad l (·.head)) = (← listLoad l (·.tail)) then
      debugAssert dbg (do return (← load tail (·.prev)).isNone)
      listStore l ({ · with head := none })
      listStore l ({ · with tail := none })
    else
      let prev ← get (← load tail (·.prev))
      store prev ({ · with next := none })
      let tailPrev ← load tail (·.prev)
      listStore l ({ · with tail := tailPrev })
  else
    let prev ← get (← load a (·.prev))
    let next ← get (← load a (·.next))
    let nodeNext ← load a (·.next)
    store prev ({ · with next := nodeNext })
    let nodePrev ← load a (·.prev)
    store next ({ · with prev := nodePrev })

def removeNode (dbg : Bool) (l : L) (a : A) : Code A L D Unit := do
  if ← swapOnList a false then
    relink dbg l a
    countDown l
  else return ()

def popAt (dbg : Bool) (e : End) (l : L) : Code A L D (Option D) := do
  if (← listLoad l (·.at e)).isNone then return none
  else
    let last ← get (← listLoad l (·.at e))
    removeNode dbg l last
    let data ← load last (·.data)
    store last ({ · with data := none })
    debugAssert dbg (return data.isSome)
    store last ({ · with isOnList := false })
    return data

def popHead (dbg : Bool) (l : L) : Code A L D (Option D) := popAt dbg .head l
def popTail (dbg : Bool) (l : L) : Code A L D (Option D) := popAt dbg .tail l

/-- A callback of `scan`, with the state `S` it captures. -/
abbrev Visitor (D S : Type) : Type := D → Nat → S → (D × NodeAction × ScanAction) × S

def carryOut (dbg : Bool) (l : L) (a : A) : NodeAction → Code A L D Unit
  | .retain => return ()
  | .remove => do
    store a ({ · with data := none })
    removeNode dbg l a

/-- The loop of `scan`, at `current`; `fuel` bounds the number of nodes visited. -/
def scanFrom (dbg : Bool) (l : L) (f : Visitor D S) : Nat → Option A → S → Code A L D S
  | _, none, s => return s
  | 0, some _, _ => panic
  | fuel + 1, some current, s => do
    let next ← load current (·.next)
    let data ← get (← load current (·.data))
    let count ← listLoad l (·.count)
    let ((data', nodeAction, scanAction), s') := f data count s
    store current ({ · with data := some data' })
    carryOut dbg l current nodeAction
    match scanAction with
    | .stop => return s'
    | .proceed => scanFrom dbg l f fuel next s'

def scan (dbg : Bool) (l : L) (f : Visitor D S) (fuel : Nat) (s : S) : Code A L D S := do
  let current ← listLoad l (·.head)
  scanFrom dbg l f fuel current s

/-- `Node::drop`: a node that is off its list is given up without the list's lock. -/
def dropNode (dbg : Bool) (a : A) : Code A L D Unit := do
  if ← load a (·.isOnList) then
    let l ← get (← load a (·.list))
    removeNode dbg l a
  else return ()

namespace Concurrent

/-- A push of `ConcurrentIntrusiveList`, which looks at `data` even before it takes the lock. The
critical condition may change the data and the state `S` it captures, and decides whether to
push. -/
def push (listPush : L → A → Code A L D (Except Error Nat)) (l : L) (a : A)
    (criticalCondition : D → Nat → S → (Bool × R) × D × S) (s : S) :
    Code A L D ((Except Error Nat × R) × S) := do
  let data ← get (← load a (·.data))
  let count ← listLoad l (·.count)
  let ((shouldPush, criticalResult), data', s') := criticalCondition data count s
  store a ({ · with data := some data' })
  if shouldPush then
    let pushResult ← listPush l a
    return ((pushResult, criticalResult), s')
  else return ((.error .abortedPush, criticalResult), s')

def pushHead (dbg : Bool) (l : L) (a : A)
    (criticalCondition : D → Nat → S → (Bool × R) × D × S) (s : S) :
    Code A L D ((Except Error Nat × R) × S) :=
  push (IntrusiveList.pushHead dbg) l a criticalCondition s

def pushTail (dbg : Bool) (l : L) (a : A)
    (criticalCondition : D → Nat → S → (Bool × R) × D × S) (s : S) :
    Code A L D ((Except Error Nat × R) × S) :=
  push (IntrusiveList.pushTail dbg) l a criticalCondition s

def pop (listPop : L → Code A L D (Option D)) (l : L) (criticalCondition : D → Nat → S → R × S)
    (criticalOnEmpty : S → S) (s : S) : Code A L D (Option (R × Nat) × S) := do
  match ← listPop l with
  | none => return (none, criticalOnEmpty s)
  | some data =>
    let (criticalResult, s') := criticalCondition data (← listLoad l (·.count)) s
    return (some (criticalResult, ← listLoad l (·.count)), s')

def popHead (dbg : Bool) (l : L) (criticalCondition : D → Nat → S → R × S)
    (criticalOnEmpty : S → S) (s : S) : Code A L D (Option (R × Nat) × S) :=
  pop (IntrusiveList.popHead dbg) l criticalCondition criticalOnEmpty s

def popTail (dbg : Bool) (l : L) (criticalCondition : D → Nat → S → R × S)
    (criticalOnEmpty : S → S) (s : S) : Code A L D (Option (R × Nat) × S) :=
  pop (IntrusiveList.popTail dbg) l criticalCondition criticalOnEmpty s

/-- The loop of `pop_all`; `fuel` bounds the number of rounds. -/
def popWhile (dbg : Bool) (l : L) (criticalCondition : D → Nat → S → S) : Nat → S → Code A L D S
  | 0, _ => panic
  | fuel + 1, s => do
    match ← IntrusiveList.popTail dbg l with
    | none => return s
    | some data =>
      let s' := criticalCondition data (← listLoad l (·.count)) s
      popWhile dbg l criticalCondition fuel s'

def popAll (dbg : Bool) (l : L) (criticalCondition : D → Nat → S → S) (criticalOnEmpty : S → S)
    (s : S) : Code A L D (Nat × S) := do
  let numPopped ← listLoad l (·.count)
  let s' ← popWhile dbg l criticalCondition (numPopped + 1) s
  return (numPopped, criticalOnEmpty s')

def count (l : L) : Code A L D Nat := listLoad l (·.count)

def scan (dbg : Bool) (l : L) (f : Visitor D S) (onEmpty : S → S) (s : S) :
    Code A L D (Nat × S) := do
  let n ← listLoad l (·.count)
  let s' ← if n = 0 then pure (onEmpty s) else IntrusiveList.scan dbg l f n s
  return (← listLoad l (·.count), s')

end Concurrent

/-! What an access does, for the simplifier. -/

@[simp] theorem exec_onNode {m : Mem A L D} {a : A} (f : Node A L D → Node A L D)
    (h : m.live a) : exec perform (onNode a f) m = some (m.node a, m.setNode a f) :=
  (exec_call _ m).trans (if_pos h)

@[simp] theorem exec_onList (m : Mem A L D) (l : L) (f : ListHeader A → ListHeader A) :
    exec perform (onList l f : Code A L D (ListHeader A)) m = some (m.list l, m.setList l f) :=
  exec_call _ m

@[simp] theorem exec_load {β : Type} {m : Mem A L D} {a : A} (field : Node A L D → β)
    (h : m.live a) : exec perform (load a field) m = some (field (m.node a), m) := by
  simp [load, h]

@[simp] theorem exec_store {m : Mem A L D} {a : A} (f : Node A L D → Node A L D) (h : m.live a) :
    exec perform (store a f) m = some ((), m.setNode a f) := by
  simp [store, h]

@[simp] theorem exec_listLoad {β : Type} (m : Mem A L D) (l : L) (field : ListHeader A → β) :
    exec perform (listLoad l field : Code A L D β) m = some (field (m.list l), m) := by
  simp [listLoad]

@[simp] theorem exec_listStore (m : Mem A L D) (l : L) (f : ListHeader A → ListHeader A) :
    exec perform (listStore l f : Code A L D Unit) m = some ((), m.setList l f) := by
  simp [listStore]

@[simp] theorem exec_swapOnList {m : Mem A L D} {a : A} (b : Bool) (h : m.live a) :
    exec perform (swapOnList a b) m =
      some ((m.node a).isOnList, m.setNode a ({ · with isOnList := b })) := by
  simp [swapOnList, h]

@[simp] theorem exec_get {β : Type} (m : Mem A L D) (b : β) :
    exec perform (get (some b) : Code A L D β) m = some (b, m) := rfl

theorem exec_debugAssert {m : Mem A L D} {cond : Code A L D Bool} (dbg : Bool)
    (h : exec perform cond m = some (true, m)) :
    exec perform (debugAssert dbg cond) m = some ((), m) := by
  cases dbg <;> simp [debugAssert, h]

end Colock.IntrusiveList
