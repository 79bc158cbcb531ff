import Colock.IntrusiveList.Refinement

/-! A push that is refused, and what it leaves behind. A critical condition that declines
leaves the list and the node alone; the test for a dirty node marks the node before it looks at
its pointers, and nothing takes the mark back. -/
namespace Colock.IntrusiveList
open Program Prog
variable {A L D S R : Type} [DecidableEq A]

structure Unchanged (m m' : Mem A L D) : Prop where
  list : m'.list = m.list
  node : ∀ a, Agrees m m' a

omit [DecidableEq A] in
theorem Agrees.trans {m m' m'' : Mem A L D} {a : A} (h : Agrees m m' a) (h' : Agrees m' m'' a) :
    Agrees m m'' a where
  live := h'.live.trans h.live
  toward e := (h'.toward e).trans (h.toward e)
  on := h'.on.trans h.on
  list := h'.list.trans h.list

omit [DecidableEq A] in
theorem Agrees.of_eq {m m' : Mem A L D} {a : A} (hl : m'.live a = m.live a)
    (h : m'.node a = m.node a) : Agrees m m' a :=
  ⟨hl, by simp [h], by rw [h], by rw [h]⟩

omit [DecidableEq A] in
theorem Unchanged.refl (m : Mem A L D) : Unchanged m m := ⟨rfl, fun _ => .of_eq rfl rfl⟩

theorem unchanged_setData (m : Mem A L D) (a : A) (v : Option D) :
    Unchanged m (m.setNode a ({ · with data := v })) := by
  refine ⟨rfl, fun b => ?_⟩
  by_cases hba : b = a
  · subst b
    refine ⟨rfl, fun e => ?_, ?_, ?_⟩ <;> simp [Mem.setNode_node]
    cases e <;> rfl
  · exact .of_eq rfl (by simp [Mem.setNode_node, hba])

variable [DecidableEq L]

/-- After a refused push of `a`: nothing changed; `a` can be dropped without harm to a list it
is not on; and whatever is done instead, the counts stay the numbers of linked nodes. -/
structure FailedCleanly (S R : Type) (dbg : Bool) (d : Deques A L D) (a : A) (m m' : Mem A L D) :
    Prop where
  unchanged : Unchanged m m'
  dropped : ∃ m'', exec perform (dropNode dbg a) m' = some ((), m'') ∧
    ∀ k, a ∉ d.seq k → m''.list k = m.list k ∧ ∀ b ∈ d.seq k, Agrees m m'' b
  counted : ∃ d' : Deques A L D, d'.seq = d.seq ∧ ∀ (ops : List (Op A L D S R)) outs d'' s s',
    d'.run ops s = some (outs, d'', s') → ∃ m'', run dbg ops m' s = some (outs, m'', s') ∧
      ∀ k, Rep .head m'' k (d''.seq k) ∧ (m''.list k).count = (d''.seq k).length

theorem Abstracts.drop_elsewhere {m : Mem A L D} {d : Deques A L D} (h : Abstracts m d) {a : A}
    {c : Cell L D} (hc : d.cell a = some c) (dbg : Bool) :
    ∃ m', exec IntrusiveList.perform (dropNode dbg a) m = some ((), m') ∧
      ∀ k, a ∉ d.seq k → m'.list k = m.list k ∧ ∀ b ∈ d.seq k, Agrees m m' b := by
  have hfit := h.cell a c hc
  rcases hfit.on_or_off with ⟨l, -, hmem, -⟩ | ⟨-, hoff⟩
  · obtain ⟨pre, post, hsplit, -⟩ := h.split hmem
    refine ⟨_, exec_dropNode dbg hsplit, fun k hk => ?_⟩
    have hkl : k ≠ l := by
      rintro rfl
      exact hk hmem
    refine ⟨by simp [Mem.unlink, hkl], fun b hb => ?_⟩
    exact .of_eq rfl (unlink_agrees hsplit ((h.rep k).member b hb) hkl)
  · exact ⟨m, exec_dropNode_off dbg hfit.live hoff, fun k _ => ⟨rfl, fun b _ => .of_eq rfl rfl⟩⟩

theorem Unchanged.failedCleanly {m m' : Mem A L D} {d d' : Deques A L D} (h : Unchanged m m')
    (habs : Abstracts m' d') (hseq : d'.seq = d.seq) {a : A} {c : Cell L D}
    (hc : d'.cell a = some c) (dbg : Bool) : FailedCleanly S R dbg d a m m' where
  unchanged := h
  dropped := by
    obtain ⟨m'', hdrop, hframe⟩ := habs.drop_elsewhere hc dbg
    refine ⟨m'', hdrop, fun k hk => ?_⟩
    obtain ⟨hlist, hagree⟩ := hframe k (hseq ▸ hk)
    exact ⟨by rw [hlist, h.list], fun b hb => (h.node b).trans (hagree b (hseq ▸ hb))⟩
  counted := by
    refine ⟨d', hseq, fun ops outs d'' s s' hrun => ?_⟩
    obtain ⟨m'', hexec, hend⟩ := habs.run dbg hrun
    exact ⟨m'', hexec, fun k => ⟨hend.rep k, (hend.rep k).count⟩⟩

theorem exec_dirty_eq {m : Mem A L D} {a : A} (h : m.live a) :
    exec perform (dirty a) m = some (
      (m.node a).isOnList || (m.node a).prev.isSome || (m.node a).next.isSome ||
        (m.node a).list.isSome,
      m.setNode a ({ · with isOnList := true })) := by
  cases hon : (m.node a).isOnList <;> cases hp : (m.node a).prev <;> cases hn : (m.node a).next <;>
    simp [dirty, h, hon, hp, hn, Mem.setNode_node]

/-- A push is refused for a dirty node only, and leaves the mark. -/
theorem pushAt_error {m m' : Mem A L D} {dbg : Bool} {e : End} {l : L} {a : A} {err : Error}
    (hl : m.live a) (h : exec perform (pushAt dbg e l a) m = some (.error err, m')) :
    err = .dirtyNode ∧ m' = m.setNode a ({ · with isOnList := true }) := by
  simp only [pushAt, exec_bind, exec_dirty_eq hl, Option.bind_some] at h
  split at h
  · simp only [exec_pure, Option.some.injEq, Prod.mk.injEq, Except.error.injEq] at h
    obtain ⟨rfl, rfl⟩ := h
    exact ⟨rfl, rfl⟩
  · simp only [exec_bind, Option.bind_eq_some_iff] at h
    obtain ⟨_, -, _, -, _, -, _, -, h⟩ := h
    simp at h

omit [DecidableEq L] in
theorem unchanged_mark {m : Mem A L D} {a : A} :
    Unchanged m (m.setNode a ({ · with isOnList := true })) ↔ (m.node a).isOnList = true := by
  constructor
  · intro h
    have hon := (h.node a).on
    rw [Mem.setNode_node, if_pos rfl] at hon
    exact hon.symm
  · intro h
    rw [Mem.setNode_same (by rw [← h])]
    exact .refl m

/-- A push of a node that is refused leaves everything as it was if and only if its critical
condition declined, or the node was on a list already. -/
theorem failed_push_clean (dbg : Bool) {m : Mem A L D} {d : Deques A L D} (h : Abstracts m d)
    {a : A} {c : Cell L D} (hc : d.cell a = some c) :
    (∀ e l err m', exec perform (pushAt dbg e l a) m = some (.error err, m') →
      (FailedCleanly S R dbg d a m m' ↔ (m.node a).isOnList = true)) ∧
    ∀ e l (f : D → Nat → S → (Bool × R) × D × S) s err r s' m',
      exec perform (Concurrent.push (pushAt dbg e) l a f s) m = some (((.error err, r), s'), m') →
      (FailedCleanly S R dbg d a m m' ↔ ∀ v, (m.node a).data = some v →
        (f v (m.list l).count s).1.1 = true → (m.node a).isOnList = true) := by
  have hlive := (h.cell a c hc).live
  constructor
  · intro e l err m' hpush
    obtain ⟨-, rfl⟩ := pushAt_error hlive hpush
    refine ⟨fun hclean => unchanged_mark.mp hclean.unchanged, fun hon => ?_⟩
    rw [Mem.setNode_same (by rw [← hon])]
    exact (Unchanged.refl m).failedCleanly h rfl hc dbg
  · intro e l f s err r s' m' hpush
    obtain ⟨v, hv⟩ : ∃ v, (m.node a).data = some v := by
      cases hv : (m.node a).data with
      | some v => exact ⟨v, rfl⟩
      | none => simp [Concurrent.push, hlive, hv, get, panic, exec, perform] at hpush
    rcases hf : f v (m.list l).count s with ⟨⟨shouldPush, r'⟩, v', s''⟩
    rw [exec_push _ hlive hv hf] at hpush
    have hdata := unchanged_setData m a (some v')
    have hset := h.setData hc v'
    have hcell : (d.setCell a (some ⟨some v', c.place⟩)).cell a = some ⟨some v', c.place⟩ :=
      Deques.setCell_self d a _
    cases shouldPush with
    | false =>
      simp only [Bool.false_eq_true, if_false, Option.some.injEq, Prod.mk.injEq] at hpush
      obtain ⟨-, rfl⟩ := hpush
      refine ⟨fun _ w hw hadmit => ?_, fun _ => hdata.failedCleanly (d := d) hset rfl hcell dbg⟩
      obtain rfl : v = w := Option.some.inj (hv.symm.trans hw)
      simp [hf] at hadmit
    | true =>
      simp only [if_true, Option.bind_eq_some_iff, Option.some.injEq, Prod.mk.injEq] at hpush
      obtain ⟨⟨res, m₁⟩, hres, ⟨⟨rfl, -⟩, -⟩, rfl⟩ := hpush
      have hlive₁ : (m.setNode a ({ · with data := some v' })).live a := hlive
      obtain ⟨-, rfl⟩ := pushAt_error hlive₁ hres
      constructor
      · intro hclean _ _ _
        have hon := (hclean.unchanged.node a).on
        rw [Mem.setNode_node, if_pos rfl] at hon
        exact hon.symm
      · intro hadmit
        have hon := hadmit v hv (by rw [hf])
        rw [Mem.setNode_same (by simp [Mem.setNode_node, hon])]
        exact hdata.failedCleanly (d := d) hset rfl hcell dbg

def repushOps : List (Op Nat Nat Nat Unit Unit) :=
  let push : Nat → Nat → Unit → (Bool × Unit) × Nat × Unit := fun v _ s => ((true, ()), v, s)
  [.newNode 1 10, .newNode 2 20, .newNode 3 30, .pushHead 0 1 push, .pushHead 0 2 push,
    .pushHead 0 3 push, .removeNode 0 2, .pushHead 0 2 push, .dropNode 2]

theorem failed_push_clean_linked : ∃ (m m' : Mem Nat Nat Nat) (d : Deques Nat Nat Nat),
    exec perform (pushAt true .tail 0 2) m = some (.error .dirtyNode, m') ∧
      FailedCleanly Unit Unit true d 2 m m' := by
  have hd : ∃ outs d, (Deques.empty : Deques Nat Nat Nat).run (repushOps.take 6) () =
      some (outs, d, ()) ∧ 2 ∈ d.seq 0 ∧ d.cell 2 = some ⟨some 20, .on 0⟩ :=
    ⟨_, _, rfl, by decide, rfl⟩
  obtain ⟨outs, d, hrun, hmem, hcell⟩ := hd
  obtain ⟨m, -, habs⟩ := abstracts_empty.run true hrun
  have hmember := habs.on hmem
  have hpush := exec_pushAt_on (e := .tail) (l := 0) true hmember.live hmember.on
  exact ⟨m, m, d, hpush, ((failed_push_clean true habs hcell).1 .tail 0 _ m hpush).mpr hmember.on⟩

/-- The second push answers `DirtyNode` and marks the node; its drop counts a node off the list
that was off it already. -/
theorem refused_push_counts_off : ¬ (∀ (m m' : Mem Nat Nat Nat) outs err,
      run true (repushOps.take 7) Mem.empty () = some (outs, m, ()) →
      exec perform (pushHead true 0 2) m = some (.error err, m') → Unchanged m m') ∧
    ∃ outs m, run true repushOps Mem.empty () = some (outs, m, ()) ∧ (m.list 0).count = 1 ∧
      Linked.Seg (fun a => (m.node a).next) (fun a => (m.node a).prev) none [3, 1] none ∧
      (m.list 0).head = some 3 ∧ (m.list 0).tail = some 1 := by
  constructor
  · intro h
    have hs := h _ _ _ .dirtyNode rfl rfl
    have hon := (hs.node 2).on
    revert hon
    decide
  · exact ⟨_, _, rfl, rfl, ⟨rfl, rfl, rfl, rfl, trivial⟩, rfl, rfl⟩

end Colock.IntrusiveList
