import Colock.IntrusiveList.DropRace
import Colock.IntrusiveList.Scan

/-! Which removals lower the flag of a node last: only those that find it alone on the
list, call `remove_node` and nothing else, and have no debug assertions compiled in. -/
namespace Colock.IntrusiveList
open Program Prog Transition
variable {A L D S α : Type}

@[simp] theorem touches_node {x a : A} {f : Node A L D → Node A L D} :
    (Cmd.node a f : Cmd A L D).touches x ↔ a = x := Iff.rfl

@[simp] theorem touches_list {x : A} {l : L} {f : ListHeader A → ListHeader A} :
    ¬ (Cmd.list l f : Cmd A L D).touches x := id

def Cmd.keepsFlag (x : A) : Cmd A L D → Prop
  | .node a f => a = x → ∀ n, (f n).isOnList = n.isOnList
  | _ => True

section KeepsFlag
variable {β : Type} {x : A}

theorem only_load (a : A) (field : Node A L D → β) :
    Only (Cmd.keepsFlag x) (load a field : Code A L D β) :=
  ⟨fun _ _ => rfl, fun _ => trivial⟩

theorem only_store {a : A} {f : Node A L D → Node A L D} (hf : ∀ n, (f n).isOnList = n.isOnList) :
    Only (Cmd.keepsFlag x) (store a f) :=
  ⟨fun _ => hf, fun _ => trivial⟩

theorem only_listLoad (l : L) (field : ListHeader A → β) :
    Only (Cmd.keepsFlag x) (listLoad l field : Code A L D β) :=
  ⟨trivial, fun _ => trivial⟩

theorem only_listStore (l : L) (f : ListHeader A → ListHeader A) :
    Only (Cmd.keepsFlag x) (listStore l f : Code A L D Unit) :=
  ⟨trivial, fun _ => trivial⟩

theorem only_panic : Only (Cmd.keepsFlag x) (panic : Code A L D β) := ⟨trivial, fun r => nomatch r⟩

theorem only_get (b : Option β) : Only (Cmd.keepsFlag x) (get b : Code A L D β) := by
  cases b with
  | none => exact only_panic
  | some b => trivial

theorem only_assert (dbg : Bool) (a : A) (field : Node A L D → Bool) :
    Only (Cmd.keepsFlag x) (debugAssert dbg (load a field)) := by
  cases dbg with
  | false => trivial
  | true =>
    refine (only_load a field).bind fun b => ?_
    cases b with
    | true => trivial
    | false => exact only_panic

theorem only_countDown (l : L) : Only (Cmd.keepsFlag x) (countDown l : Code A L D Unit) := by
  refine (only_listLoad l _).bind fun n => ?_
  split
  · exact only_panic
  · exact only_listStore l _

end KeepsFlag

variable [DecidableEq A] [DecidableEq L]

/-! What an access issues. -/

section Accesses
variable {β : Type} {a : A} {l : L} {m : Mem A L D} {P : Cmd A L D → Mem A L D → Prop}

@[simp] theorem always_onNode (f : Node A L D → Node A L D) :
    Always perform P (onNode a f) m ↔ P (.node a f) m := always_call _ m

@[simp] theorem always_onList (f : ListHeader A → ListHeader A) :
    Always perform P (onList l f) m ↔ P (.list l f) m := always_call _ m

@[simp] theorem always_load (field : Node A L D → β) :
    Always perform P (load a field) m ↔ P (.node a id) m := by
  simp [load, always_bind]

@[simp] theorem always_store (f : Node A L D → Node A L D) :
    Always perform P (store a f) m ↔ P (.node a f) m := by
  simp [store, always_bind]

@[simp] theorem always_swapOnList (b : Bool) :
    Always perform P (swapOnList a b) m ↔ P (.node a ({ · with isOnList := b })) m := by
  simp [swapOnList, always_bind]

@[simp] theorem always_listLoad (field : ListHeader A → β) :
    Always perform P (listLoad l field) m ↔ P (.list l id) m := by
  simp [listLoad, always_bind]

@[simp] theorem always_listStore (f : ListHeader A → ListHeader A) :
    Always perform P (listStore l f) m ↔ P (.list l f) m := by
  simp [listStore, always_bind]

@[simp] theorem always_get_some (b : β) : Always perform P (get (some b) : Code A L D β) m := trivial

end Accesses

/-- The rest of a removal reads the node's links, unless it is the only node and the debug
assertions are left out. -/
theorem leaves_relink {dbg : Bool} {m : Mem A L D} {l : L} {pre post : List A} {x : A}
    (h : Rep .head m l (pre ++ x :: post)) :
    Leaves x (do relink dbg l x; countDown l) (m.setNode x ({ · with isOnList := false })) ↔
      pre ++ post = [] ∧ dbg = false := by
  have hc : (m.list l).count ≠ 0 := by simp [h.count]
  have hhead := h.head_eq_iff
  have htail := h.tail_eq_iff
  simp only [always_bind]
  cases pre with
  | nil =>
    have hh : (m.list l).head = some x := hhead.mpr rfl
    cases post with
    | nil =>
      have ht : (m.list l).tail = some x := htail.mpr rfl
      cases dbg
      · simp [relink, always_bind, hh, ht, debugAssert, countDown, Mem.setList_list, hc]
      · simp [relink, always_bind, hh, debugAssert]
    | cons n post =>
      have ht : (m.list l).tail ≠ some x := fun ht => by simpa using htail.mp ht
      cases dbg
      · simp [relink, always_bind, hh, ht.symm, debugAssert]
      · simp [relink, always_bind, hh, debugAssert]
  | cons b pre =>
    have hh : (m.list l).head ≠ some x := fun hh => by simpa using hhead.mp hh
    by_cases ht : (m.list l).tail = some x
    · simp [relink, always_bind, hh, ht]
    · simp [relink, always_bind, hh, ht]

/-- `removeNode` lowers the flag first: the rest has to leave the node alone, and so has
whatever follows. -/
theorem lowersLast_removeNode {dbg : Bool} {m : Mem A L D} {l : L} {pre post : List A} {x : A}
    (h : Rep .head m l (pre ++ x :: post)) (k : Unit → Code A L D α) :
    LowersLast x (removeNode dbg l x >>= k) m ↔
      (pre ++ post = [] ∧ dbg = false) ∧ Leaves x (k ()) (m.unlink l x) := by
  have hx := h.member x (by simp)
  let m₁ := m.setNode x ({ · with isOnList := false })
  have hoff : (m₁.node x).isOnList = false := by simp [m₁, Mem.setNode_node]
  have hsplit : LowersLast x (removeNode dbg l x >>= k) m ↔
      LowersLast x ((do relink dbg l x; countDown l) >>= k) m₁ := by
    rw [removeNode, Prog.bind_assoc]
    refine (retires_skip (by simp [hx.on]) (exec_swapOnList _ hx.live)).trans ?_
    rw [if_pos hx.on]
  have hexec : exec perform (do relink dbg l x; countDown l) m₁ = some ((), m.unlink l x) := by
    have hremove := exec_removeNode dbg h
    simp only [removeNode, exec_bind, exec_swapOnList _ hx.live, hx.on, Option.bind_some,
      ↓reduceIte] at hremove
    simpa [m₁] using hremove
  rw [hsplit, ← leaves_relink h]
  constructor
  · intro hret
    have hleaves := (always_bind _ _ _).mp (hret.always hoff)
    exact ⟨hleaves.1, hleaves.2 () _ hexec⟩
  · rintro ⟨hrelink, hk⟩
    refine Always.retires ((always_bind _ _ _).mpr ⟨hrelink, fun a t ht => ?_⟩)
    rw [hexec] at ht
    cases ht
    exact hk

theorem not_lowersLast_popAt {dbg : Bool} {m : Mem A L D} {e : End} {l : L} {x : A} {xs : List A}
    (h : Rep e m l (x :: xs)) (k : Option D → Code A L D α) :
    ¬ LowersLast x (popAt dbg e l >>= k) m := by
  obtain ⟨pre, post, hsplit, -⟩ := h.split
  have hx := h.member x (by simp)
  have hat : (m.list l).at e = some x := h.near
  have hread : ∀ f : (ListHeader A → Option A), exec perform (listLoad l f : Code A L D (Option A)) m =
      some (f (m.list l), m) := fun f => exec_listLoad m l f
  intro hpop
  simp only [popAt, Prog.bind_assoc] at hpop
  have hpop := hpop.bind_rest (hread _)
  simp only [hat, Option.isNone_some, Bool.false_eq_true, ↓reduceIte, Prog.bind_assoc] at hpop
  have hpop := hpop.bind_rest (hread _)
  simp only [hat] at hpop
  have hleaves := (((lowersLast_removeNode hsplit _).mp (hpop.bind_rest (exec_get m x))).2)
  simp [always_bind] at hleaves

theorem perform_keepsFlag {c : Cmd A L D} {m m' : Mem A L D} {x : A} {r : c.Ans}
    (hc : c.keepsFlag x) (hx : ¬ (m.node x).isOnList = false) (h : perform c m = some (r, m')) :
    ¬ (m'.node x).isOnList = false := by
  cases c with
  | node a f =>
    simp only [perform, Option.ite_none_right_eq_some, Option.some.injEq] at h
    have hm : m.setNode a f = m' := congrArg Prod.snd h.2
    rw [← hm, Mem.setNode_node]
    split
    · next hxa => rwa [hc hxa.symm]
    · exact hx
  | list l f =>
    simp only [perform, Option.some.injEq] at h
    have hm : m.setList l f = m' := congrArg Prod.snd h
    rwa [← hm, Mem.setList_node]
  | panic => cases h

omit [DecidableEq L] in
theorem only_relink {x : A} (dbg : Bool) (l : L) (a : A) :
    Only (Cmd.keepsFlag x) (relink dbg l a : Code A L D Unit) := by
  have hassert : ∀ (b : A) (field : Node A L D → Option A),
      Only (Cmd.keepsFlag x) (debugAssert dbg (do return (← load b field).isNone)) :=
    fun b field => only_assert dbg b fun n => (field n).isNone
  refine (only_listLoad l _).bind fun head => ?_
  split
  · refine (only_listLoad l _).bind fun _ => (only_get _).bind fun head => ?_
    refine (hassert head _).bind fun _ => (only_listLoad l _).bind fun _ => ?_
    refine (only_listLoad l _).bind fun _ => ?_
    split
    · exact (hassert head _).bind fun _ => (only_listStore l _).bind fun _ => only_listStore l _
    · refine (only_load head _).bind fun _ => (only_get _).bind fun next => ?_
      refine (only_store fun _ => rfl).bind fun _ => (only_load head _).bind fun _ => ?_
      exact only_listStore l _
  · refine (only_listLoad l _).bind fun _ => ?_
    split
    · refine (only_listLoad l _).bind fun _ => (only_get _).bind fun tail => ?_
      refine (only_listLoad l _).bind fun _ => (only_listLoad l _).bind fun _ => ?_
      split
      · exact (hassert tail _).bind fun _ => (only_listStore l _).bind fun _ => only_listStore l _
      · refine (only_load tail _).bind fun _ => (only_get _).bind fun prev => ?_
        refine (only_store fun _ => rfl).bind fun _ => (only_load tail _).bind fun _ => ?_
        exact only_listStore l _
    · refine (only_load a _).bind fun _ => (only_get _).bind fun prev => ?_
      refine (only_load a _).bind fun _ => (only_get _).bind fun next => ?_
      refine (only_load a _).bind fun _ => (only_store fun _ => rfl).bind fun _ => ?_
      exact (only_load a _).bind fun _ => only_store fun _ => rfl

omit [DecidableEq L] in
theorem only_removeNode {x a : A} (ha : a ≠ x) (dbg : Bool) (l : L) :
    Only (Cmd.keepsFlag x) (removeNode dbg l a : Code A L D Unit) := by
  have hswap : Only (Cmd.keepsFlag x) (swapOnList a false : Code A L D Bool) :=
    ⟨fun hax => absurd hax ha, fun _ => trivial⟩
  refine hswap.bind fun on => ?_
  split
  · exact (only_relink dbg l a).bind fun _ => only_countDown l
  · trivial

/-- The nodes that are on the list beside `x` when a scan from here on takes `x` out; `none`
when it does not. -/
def scanOthers (f : Visitor D S) (data : A → Option D) (x : A) : List A → Nat → S → Option (List A)
  | [], _, _ => none
  | a :: as, n, s => do
    let v ← data a
    let ((_, nodeAction, scanAction), s') := f v n s
    if a = x then
      if nodeAction = .remove then some as else none
    else
      match scanAction, nodeAction with
      | .stop, _ => none
      | .proceed, .retain => (scanOthers f data x as n s').map (a :: ·)
      | .proceed, .remove => scanOthers f data x as (n - 1) s'

theorem mem_of_scanOthers {f : Visitor D S} {data : A → Option D} {x : A} {xs ys : List A} {n : Nat}
    {s : S} (h : scanOthers f data x xs n s = some ys) : x ∈ xs := by
  induction xs generalizing n s ys with
  | nil => simp [scanOthers] at h
  | cons a as ih =>
    simp only [scanOthers, Option.bind_eq_bind, Option.bind_eq_some_iff] at h
    obtain ⟨v, -, h⟩ := h
    rcases hf : f v n s with ⟨⟨v', nodeAction, scanAction⟩, s'⟩
    simp only [hf] at h
    by_cases hax : a = x
    · simp [hax]
    · rw [if_neg hax] at h
      cases scanAction with
      | stop => cases h
      | proceed =>
        cases nodeAction with
        | retain =>
          obtain ⟨zs, hzs, -⟩ := Option.map_eq_some_iff.mp h
          simp [ih hzs]
        | remove => simp [ih h]

section Rounds
variable {m : Mem A L D} {l : L} {f : Visitor D S} {x : A} {kept as : List A} {s s' : S}
  {v : Visit A D}

theorem lowersLast_scanNode (dbg : Bool) (fuel : Nat) (h : Rep .head m l (kept ++ v.node :: as))
    (hx : (m.node x).isOnList) (hv : (m.node v.node).data = some v.data)
    (hn : v.count = (kept ++ v.node :: as).length)
    (hf : f v.data v.count s = ((v.after, v.nodeAction, v.scanAction), s'))
    (k : S → Code A L D α) :
    LowersLast x (scanFrom dbg l f (fuel + 1) (some v.node) s >>= k) m ↔
      LowersLast x ((do
        carryOut dbg l v.node v.nodeAction
        match v.scanAction with
        | .stop => return s'
        | .proceed => scanFrom dbg l f fuel as.head? s') >>= k)
        (m.setNode v.node ({ · with data := some v.after })) := by
  have ha := h.member v.node (by simp)
  have hcount : (m.list l).count = v.count := h.count.trans hn.symm
  obtain ⟨-, hnext⟩ := h.links_at
  simp only [scanFrom, Prog.bind_assoc]
  refine (retires_skip (by simp [hx]) (exec_load _ ha.live)).trans ?_
  refine (retires_skip (by simp [hx]) (exec_load _ ha.live)).trans ?_
  rw [hv]
  refine (retires_skip (by simp) (exec_get m v.data)).trans ?_
  refine (retires_skip (by simp [hx]) (exec_listLoad m l _)).trans ?_
  rw [hcount, hf, hnext]
  refine (retires_skip (by simp [hx]) (exec_store _ ha.live)).trans ?_
  rfl

omit [DecidableEq L] in
theorem only_carryOut (hvx : v.node ≠ x) (dbg : Bool) (l : L) :
    Only (Cmd.keepsFlag x) (carryOut dbg l v.node v.nodeAction : Code A L D Unit) := by
  cases v.nodeAction with
  | retain => trivial
  | remove => exact (only_store fun _ => rfl).bind fun _ => only_removeNode hvx dbg l

theorem lowersLast_goesPast (dbg : Bool) (fuel : Nat) (h : Rep .head m l (kept ++ v.node :: as))
    (hx : (m.node x).isOnList) (hv : (m.node v.node).data = some v.data)
    (hn : v.count = (kept ++ v.node :: as).length)
    (hf : f v.data v.count s = ((v.after, v.nodeAction, v.scanAction), s')) (hvx : v.node ≠ x)
    (hgo : v.scanAction = .proceed) (k : S → Code A L D α) :
    LowersLast x (scanFrom dbg l f (fuel + 1) (some v.node) s >>= k) m ↔
      LowersLast x (scanFrom dbg l f fuel as.head? s' >>= k) (m.visited l v) := by
  have hx' : ¬ ((m.setNode v.node ({ · with data := some v.after })).node x).isOnList = false := by
    simp [Mem.setNode_node, Ne.symm hvx, hx]
  have hopen := (only_carryOut hvx dbg l).always (fun _ _ _ _ => perform_keepsFlag) hx'
  rw [lowersLast_scanNode dbg fuel h hx hv hn hf]
  simp only [hgo, Prog.bind_assoc]
  exact retires_skip hopen (exec_carryOut dbg h)

end Rounds

/-- A scan, by induction on the nodes that are left; `kept` are those it has retained. -/
theorem lowersLast_scanFrom (dbg : Bool) (kept : List A) {l : L} {f : Visitor D S}
    {data : A → Option D} {x : A} {xs ys : List A} {m : Mem A L D} {fuel : Nat} {s : S}
    (h : Rep .head m l (kept ++ xs)) (hdata : ∀ a ∈ xs, (m.node a).data = data a)
    (hfuel : xs.length ≤ fuel) (hs : scanOthers f data x xs (kept ++ xs).length s = some ys)
    (k : S → Code A L D α) (hk : ∀ s' m', Leaves x (k s') m') :
    LowersLast x (scanFrom dbg l f fuel xs.head? s >>= k) m ↔ kept ++ ys = [] ∧ dbg = false := by
  induction xs generalizing m kept fuel s ys with
  | nil => simp [scanOthers] at hs
  | cons a as ih =>
    cases fuel with
    | zero => simp at hfuel
    | succ fuel =>
      have hx : (m.node x).isOnList :=
        (h.member x (by simp [mem_of_scanOthers hs])).on
      have ha := h.member a (by simp)
      simp only [scanOthers, Option.bind_eq_bind, Option.bind_eq_some_iff] at hs
      obtain ⟨v, hv, hs⟩ := hs
      have hva : (m.node a).data = some v := (hdata a (by simp)).trans hv
      rcases hf : f v (kept ++ a :: as).length s with ⟨⟨v', nodeAction, scanAction⟩, s'⟩
      simp only [hf] at hs
      let visit : Visit A D := ⟨a, v, (kept ++ a :: as).length, v', nodeAction, scanAction⟩
      by_cases hax : a = x
      · subst hax
        simp only [↓reduceIte, Option.ite_none_right_eq_some, Option.some.injEq] at hs
        obtain ⟨rfl, rfl⟩ := hs
        rw [List.head?_cons, lowersLast_scanNode (v := visit) dbg fuel h hx hva rfl hf]
        let m₁ := m.setNode a ({ · with data := some v' })
        have hx₁ : (m₁.node a).isOnList := by simp [m₁, Mem.setNode_node, hx]
        have h₂ : Rep .head (m₁.setNode a ({ · with data := none })) l (kept ++ a :: as) :=
          (h.setData _).setData _
        simp only [visit, carryOut, Prog.bind_assoc]
        refine (retires_skip (by simp [hx₁]) (exec_store (m := m₁) _ ha.live)).trans ?_
        refine (lowersLast_removeNode h₂ _).trans ?_
        rw [and_iff_left_iff_imp]
        rintro ⟨hsole, -⟩
        obtain rfl : as = [] := (List.append_eq_nil_iff.mp hsole).2
        cases scanAction with
        | stop => exact hk ..
        | proceed => cases fuel <;> exact hk ..
      · rw [if_neg hax] at hs
        cases scanAction with
        | stop => cases hs
        | proceed =>
          have hpast := lowersLast_goesPast (v := visit) dbg fuel h hx hva rfl hf hax rfl k
          have hrest : ∀ b ∈ as, ((m.visited l visit).node b).data = data b := by
            intro b hb
            have hba : b ≠ a := fun hba => h.apart.2.1 (hba ▸ hb)
            rw [(untouched_visited (v := visit) h hba).data]
            exact hdata b (by simp [hb])
          have hvisited := h.visited (v := visit)
          rw [List.head?_cons]
          refine hpast.trans ?_
          cases nodeAction with
          | retain =>
            obtain ⟨zs, hzs, rfl⟩ := Option.map_eq_some_iff.mp hs
            have hlen : (kept ++ a :: as).length = (kept ++ [a] ++ as).length := by simp
            rw [hlen] at hzs
            have hloop := ih (kept ++ [a]) (by simpa [retained, visit] using hvisited) hrest
              (by simpa using hfuel) hzs
            rw [List.append_assoc, List.singleton_append] at hloop
            exact hloop
          | remove =>
            have hlen : (kept ++ a :: as).length - 1 = (kept ++ as).length := by simp
            rw [hlen] at hs
            exact ih kept (by simpa [retained, visit] using hvisited) hrest (by simpa using hfuel) hs

/-- The ways to take a node out of a list, under the list's lock. -/
inductive Removal (D S : Type) where
  | popHead
  | popTail
  | removeNode
  | scan (f : Visitor D S) (s : S)

namespace Removal

/-- The removal of `x`; `fuel` bounds the nodes that a scan visits. -/
def code (dbg : Bool) (l : L) (x : A) (fuel : Nat) : Removal D S → Code A L D Unit
  | .popHead => do
    let _ ← IntrusiveList.popHead dbg l
    return ()
  | .popTail => do
    let _ ← IntrusiveList.popTail dbg l
    return ()
  | .removeNode => do
    IntrusiveList.removeNode dbg l x
    return ()
  | .scan f s => do
    let _ ← IntrusiveList.scan dbg l f fuel s
    return ()

/-- The nodes that are on the list beside `x` when the removal takes `x` out of `xs`; `none`
when it does not. -/
def others (m : Mem A L D) (xs : List A) (x : A) : Removal D S → Option (List A)
  | .popHead => if xs.head? = some x then some xs.tail else none
  | .popTail => if xs.getLast? = some x then some xs.dropLast else none
  | .removeNode => if x ∈ xs then some (xs.erase x) else none
  | .scan f s => scanOthers f (fun a => (m.node a).data) x xs xs.length s

/-- The removal has nothing to do with the node after `remove_node`. -/
def endsWithRemove : Removal D S → Prop
  | .popHead | .popTail => False
  | .removeNode | .scan _ _ => True

end Removal

theorem lowersLast_removal (dbg : Bool) {m : Mem A L D} {l : L} {xs ys : List A} {x : A} {fuel : Nat}
    (h : Rep .head m l xs) (op : Removal D S) (hop : op.others m xs x = some ys)
    (hfuel : xs.length ≤ fuel) :
    m.live x ∧
      (LowersLast x (op.code dbg l x fuel) m ↔ op.endsWithRemove ∧ ys = [] ∧ dbg = false) := by
  cases op with
  | popHead =>
    simp only [Removal.others, Option.ite_none_right_eq_some] at hop
    obtain ⟨as, rfl⟩ := List.head?_eq_some_iff.mp hop.1
    refine ⟨(h.member x (by simp)).live, ?_⟩
    exact iff_of_false (not_lowersLast_popAt h _) fun hsafe => hsafe.1
  | popTail =>
    simp only [Removal.others, Option.ite_none_right_eq_some] at hop
    obtain ⟨as, rfl⟩ := List.getLast?_eq_some_iff.mp hop.1
    have hrev : Rep .tail m l (x :: as.reverse) := by simpa [End.other] using h.flip
    refine ⟨(h.member x (by simp)).live, ?_⟩
    exact iff_of_false (not_lowersLast_popAt hrev _) fun hsafe => hsafe.1
  | removeNode =>
    simp only [Removal.others, Option.ite_none_right_eq_some, Option.some.injEq] at hop
    obtain ⟨hmem, rfl⟩ := hop
    obtain ⟨pre, post, rfl⟩ := List.append_of_mem hmem
    refine ⟨(h.member x hmem).live, (lowersLast_removeNode h _).trans ?_⟩
    simp [Removal.endsWithRemove, List.erase_append_right _ h.apart.1]
  | scan f s =>
    have hmem : x ∈ xs := mem_of_scanOthers hop
    have hx := h.member x hmem
    have hhead : (m.list l).head = xs.head? := h.near
    refine ⟨hx.live, ?_⟩
    have hscan := lowersLast_scanFrom dbg [] h (fun _ _ => rfl) hfuel hop
      (fun _ => (return () : Code A L D Unit)) fun _ _ => trivial
    simp only [Removal.code, scan, Prog.bind_assoc]
    refine (retires_skip (by simp [hx.on]) (exec_listLoad m l _)).trans ?_
    rw [hhead]
    exact hscan.trans (by simp [Removal.endsWithRemove])

/-- A removal is safe against the unlocked path of `Node::drop` exactly when it is a
`remove_node` that finds the node alone on the list, without debug assertions. -/
theorem drop_safe_iff (dbg : Bool) {m : Mem A L D} {l : L} {xs ys : List A} {x : A} {fuel : Nat}
    (h : Rep .head m l xs) (op : Removal D S) (hop : op.others m xs x = some ys)
    (hfuel : xs.length ≤ fuel) :
    (∀ r, Reach (Race.step dbg x) anyStep ⟨m, op.code dbg l x fuel, .drop⟩ r → r.Safe x) ↔
      op.endsWithRemove ∧ ys = [] ∧ dbg = false := by
  obtain ⟨hlive, hop⟩ := lowersLast_removal dbg h op hop hfuel
  exact (race_safe_iff dbg hlive).trans hop

def oneNode : Mem Nat Nat Nat where
  node _ := ⟨none, none, some 0, some 7, true⟩
  live a := a == 1
  list _ := ⟨some 1, some 1, 1⟩

theorem rep_oneNode : Rep .head oneNode 0 [1] := by
  constructor <;> simp [oneNode, ListHeader.at, End.other, Linked.Seg, Node.toward]
  constructor <;> simp

theorem drop_safe_oneNode : Rep .head oneNode 0 [1] ∧
    ∀ r, Reach (Race.step false 1) anyStep
      ⟨oneNode, (Removal.removeNode : Removal Nat Nat).code false 0 1 1, .drop⟩ r → r.Safe 1 :=
  ⟨rep_oneNode, (drop_safe_iff false rep_oneNode .removeNode rfl (by decide)).mpr ⟨trivial, rfl, rfl⟩⟩

/-- `pop_head` of the only node: the owner drops it right after the `swap` of `remove_node`,
and the pop goes on to take the data. -/
theorem drop_races_popHead : Rep .head oneNode 0 [1] ∧
    ∃ r, Reach (Race.step false 1) anyStep
      ⟨oneNode, (Removal.popHead : Removal Nat Nat).code false 0 1 1, .drop⟩ r ∧ ¬ r.Safe 1 := by
  let turns : List Turn :=
    [.remover, .remover, .remover, .owner, .remover, .remover, .remover, .remover, .remover,
      .remover, .remover, .remover]
  refine ⟨rep_oneNode, _, run_reach (meets_any _ turns) rfl, ?_⟩
  exact fun hsafe => hsafe rfl

end Colock.IntrusiveList
