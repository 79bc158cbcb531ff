import Colock.IntrusiveList.Shape

/-! What the list's functions do on a well-formed list: one lemma for each, which gives
the answer and the memory they leave. None of them panics. -/
namespace Colock.IntrusiveList
open Program Prog Linked
variable {A L D : Type} [DecidableEq A] [DecidableEq L]

theorem exec_dirty {m : Mem A L D} {a : A} (h : Fresh m a) :
    exec perform (dirty a) m = some (false, m.setNode a ({ · with isOnList := true })) := by
  simp [dirty, h.live, h.off, h.prev, h.next, h.list, Mem.setNode_node]

theorem exec_linkAt_nil {m : Mem A L D} {e : End} {l : L} {a : A} (dbg : Bool)
    (hn : (m.list l).at e = none) (hf : (m.list l).at e.other = none) :
    exec perform (linkAt dbg e l a) m =
      some ((), (m.setList l ({ · with head := some a })).setList l ({ · with tail := some a })) := by
  have hassert : exec perform (do return (← listLoad l (·.at e.other)).isNone : Code A L D Bool) m =
      some (true, m) := by simp [hf]
  simp [linkAt, hn, exec_debugAssert dbg hassert]

theorem exec_linkAt_cons {m : Mem A L D} {e : End} {l : L} {a b : A} (dbg : Bool)
    (hn : (m.list l).at e = some b) (hf : ((m.list l).at e.other).isSome) (ha : m.live a)
    (hb : m.live b) (hp : (m.node b).toward e = none) :
    exec perform (linkAt dbg e l a) m =
      some ((), ((m.setNode b (·.setToward (some a) e)).setNode a
        (·.setToward (some b) e.other)).setList l (·.setAt (some a) e)) := by
  have hassert : exec perform (do return (← listLoad l (·.at e.other)).isSome : Code A L D Bool) m =
      some (true, m) := by simp [hf]
  have hassert' : exec perform (do return (← load b (·.toward e)).isNone : Code A L D Bool) m =
      some (true, m) := by simp [hb, hp]
  simp [linkAt, hn, ha, hb, exec_debugAssert dbg hassert, exec_debugAssert dbg hassert']

theorem exec_pushAt {m : Mem A L D} {e : End} {l : L} {a : A} {xs : List A} (dbg : Bool)
    (h : Rep e m l xs) (ha : Fresh m a) (hx : a ∉ xs) :
    exec perform (pushAt dbg e l a) m = some (.ok (xs.length + 1), m.link e l a) := by
  cases xs with
  | nil =>
    have hn : (m.list l).at e = none := by simpa using h.near
    have hf : (m.list l).at e.other = none := by simpa using h.far
    simp [pushAt, exec_dirty ha, ha.live, exec_linkAt_nil dbg, hn, hf]
    refine ⟨by simp [Mem.setList_list, h.count], ?_⟩
    ext1
    · funext b
      by_cases hb : b = a
      · cases e <;> simp [Mem.link, Mem.setNode_node, hb, hn, Node.setToward, ha.next, ha.prev, End.other]
      · simp [Mem.link, Mem.setNode_node, hb, hn]
    · rfl
    · funext k
      by_cases hk : k = l <;> simp [Mem.link, Mem.setList_list, hk, hn]
  | cons b xs =>
    have hn : (m.list l).at e = some b := by simpa using h.near
    have hf : ((m.list l).at e.other).isSome := by simp [h.far]
    have hb := h.member b (by simp)
    have hne : b ≠ a := fun hba => hx (by simp [hba])
    have hp : (m.node b).toward e = none := h.links.1
    simp [pushAt, exec_dirty ha, ha.live, exec_linkAt_cons dbg, hn, hf, hb.live, Mem.setNode_node, hne, hp]
    refine ⟨by simp [Mem.setList_list, h.count], ?_⟩
    ext1
    · funext c
      by_cases hc : c = a
      · simp [Mem.link, Mem.setNode_node, hc, hn, Ne.symm hne]
      · by_cases hcb : c = b
        · simp [Mem.link, Mem.setNode_node, hcb, hn, hne]
        · simp [Mem.link, Mem.setNode_node, hc, hcb, hn, Ne.symm hcb]
    · rfl
    · funext k
      by_cases hk : k = l <;> simp [Mem.link, Mem.setList_list, hk, hn]

theorem exec_pushAt_on {m : Mem A L D} {e : End} {l : L} {a : A} (dbg : Bool) (hl : m.live a)
    (h : (m.node a).isOnList) :
    exec perform (pushAt dbg e l a) m = some (.error .dirtyNode, m) := by
  have hsame : m.setNode a ({ · with isOnList := true }) = m := Mem.setNode_same (by rw [← h])
  simp [pushAt, dirty, hl, h, hsame]

section Relink
variable {m : Mem A L D} {l : L} {x p n : A} (dbg : Bool)

theorem exec_relink_sole (hx : m.live x) (hh : (m.list l).head = some x)
    (ht : (m.list l).tail = some x) (hp : (m.node x).prev = none) (hn : (m.node x).next = none) :
    exec perform (relink dbg l x) m =
      some ((), (m.setList l ({ · with head := none })).setList l ({ · with tail := none })) := by
  have hassert : exec perform (do return (← load x (·.prev)).isNone : Code A L D Bool) m =
      some (true, m) := by simp [hx, hp]
  have hassert' : exec perform (do return (← load x (·.next)).isNone : Code A L D Bool) m =
      some (true, m) := by simp [hx, hn]
  simp [relink, hh, ht, exec_debugAssert dbg hassert, exec_debugAssert dbg hassert']

theorem exec_relink_head (hx : m.live x) (hnl : m.live n) (hnx : n ≠ x)
    (hh : (m.list l).head = some x) (ht : (m.list l).tail ≠ some x)
    (hp : (m.node x).prev = none) (hn : (m.node x).next = some n) :
    exec perform (relink dbg l x) m =
      some ((), (m.setNode n ({ · with prev := none })).setList l ({ · with head := some n })) := by
  have hassert : exec perform (do return (← load x (·.prev)).isNone : Code A L D Bool) m =
      some (true, m) := by simp [hx, hp]
  simp [relink, hh, ht.symm, exec_debugAssert dbg hassert, hx, hn, hnl, Mem.setNode_node, hnx.symm]

theorem exec_relink_tail (hx : m.live x) (hpl : m.live p) (hpx : p ≠ x)
    (hh : (m.list l).head ≠ some x) (ht : (m.list l).tail = some x)
    (hp : (m.node x).prev = some p) :
    exec perform (relink dbg l x) m =
      some ((), (m.setNode p ({ · with next := none })).setList l ({ · with tail := some p })) := by
  simp [relink, hh, ht, hx, hp, hpl, Mem.setNode_node, hpx.symm]

theorem exec_relink_middle (hx : m.live x) (hpl : m.live p) (hnl : m.live n) (hpx : p ≠ x)
    (hh : (m.list l).head ≠ some x) (ht : (m.list l).tail ≠ some x)
    (hp : (m.node x).prev = some p) (hn : (m.node x).next = some n) :
    exec perform (relink dbg l x) m =
      some ((), (m.setNode p ({ · with next := some n })).setNode n ({ · with prev := some p })) := by
  simp [relink, hh, ht, hx, hp, hn, hpl, hnl, Mem.setNode_node, hpx.symm]

theorem exec_countDown (h : (m.list l).count ≠ 0) :
    exec perform (countDown l : Code A L D Unit) m =
      some ((), m.setList l fun h => { h with count := h.count - 1 }) := by
  simp [countDown, h]

theorem exec_removeNode_on {m' : Mem A L D} (hx : Member m l x)
    (h : exec perform (relink dbg l x) (m.setNode x ({ · with isOnList := false })) = some ((), m'))
    (hc : (m'.list l).count ≠ 0) :
    exec perform (removeNode dbg l x) m =
      some ((), m'.setList l fun h => { h with count := h.count - 1 }) := by
  simp [removeNode, hx.live, hx.on, h, exec_countDown hc]

/-! The four places of a node in a list: alone, first, last, in between. -/

theorem exec_removeNode_sole (hx : Member m l x) (hc : (m.list l).count ≠ 0)
    (hh : (m.list l).head = some x) (ht : (m.list l).tail = some x)
    (hp : (m.node x).prev = none) (hn : (m.node x).next = none) :
    exec perform (removeNode dbg l x) m = some ((), m.unlink l x) := by
  have hrelink := exec_relink_sole (m := m.setNode x ({ · with isOnList := false })) dbg hx.live hh ht
    (by simp [Mem.setNode_node, hp]) (by simp [Mem.setNode_node, hn])
  rw [exec_removeNode_on dbg hx hrelink (by simp [Mem.setList_list, hc])]
  congr 2
  ext1
  · funext b
    by_cases hb : b = x <;> simp [Mem.unlink, Mem.setNode_node, hb, hp, hn]
  · rfl
  · funext k
    by_cases hk : k = l <;> simp [Mem.unlink, Mem.setList_list, hk, hh, ht, hp, hn]

theorem exec_removeNode_head (hx : Member m l x) (hc : (m.list l).count ≠ 0)
    (hnl : m.live n) (hnx : n ≠ x)
    (hh : (m.list l).head = some x) (ht : (m.list l).tail ≠ some x)
    (hp : (m.node x).prev = none) (hn : (m.node x).next = some n) :
    exec perform (removeNode dbg l x) m = some ((), m.unlink l x) := by
  have hrelink := exec_relink_head (m := m.setNode x ({ · with isOnList := false })) dbg hx.live
    hnl hnx hh ht (by simp [Mem.setNode_node, hp]) (by simp [Mem.setNode_node, hn])
  rw [exec_removeNode_on dbg hx hrelink (by simp [Mem.setList_list, hc])]
  congr 2
  ext1
  · funext b
    by_cases hbn : b = n
    · simp [Mem.unlink, Mem.setNode_node, hbn, hp, hn, hnx]
    · by_cases hb : b = x <;> 
        simp [Mem.unlink, Mem.setNode_node, hb, hbn, hp, hn, hnx.symm, Ne.symm hbn]
  · rfl
  · funext k
    by_cases hk : k = l <;> simp [Mem.unlink, Mem.setList_list, hk, hh, ht, hn]

theorem exec_removeNode_tail (hx : Member m l x) (hc : (m.list l).count ≠ 0)
    (hpl : m.live p) (hpx : p ≠ x)
    (hh : (m.list l).head ≠ some x) (ht : (m.list l).tail = some x)
    (hp : (m.node x).prev = some p) (hn : (m.node x).next = none) :
    exec perform (removeNode dbg l x) m = some ((), m.unlink l x) := by
  have hrelink := exec_relink_tail (m := m.setNode x ({ · with isOnList := false })) dbg hx.live
    hpl hpx hh ht (by simp [Mem.setNode_node, hp])
  rw [exec_removeNode_on dbg hx hrelink (by simp [Mem.setList_list, hc])]
  congr 2
  ext1
  · funext b
    by_cases hbp : b = p
    · simp [Mem.unlink, Mem.setNode_node, hbp, hp, hn, hpx]
    · by_cases hb : b = x <;> simp [Mem.unlink, Mem.setNode_node, hb, hbp, hp, hn, hpx.symm, Ne.symm hbp]
  · rfl
  · funext k
    by_cases hk : k = l <;> simp [Mem.unlink, Mem.setList_list, hk, hh, ht, hp]

theorem exec_removeNode_middle (hx : Member m l x) (hc : (m.list l).count ≠ 0)
    (hpl : m.live p) (hnl : m.live n) (hpx : p ≠ x) (hnx : n ≠ x) (hpn : p ≠ n)
    (hh : (m.list l).head ≠ some x) (ht : (m.list l).tail ≠ some x)
    (hp : (m.node x).prev = some p) (hn : (m.node x).next = some n) :
    exec perform (removeNode dbg l x) m = some ((), m.unlink l x) := by
  have hrelink := exec_relink_middle (m := m.setNode x ({ · with isOnList := false })) dbg hx.live
    hpl hnl hpx hh ht (by simp [Mem.setNode_node, hp]) (by simp [Mem.setNode_node, hn])
  rw [exec_removeNode_on dbg hx hrelink (by simp [hc])]
  congr 2
  ext1
  · funext b
    by_cases hbp : b = p
    · simp [Mem.unlink, Mem.setNode_node, hbp, hp, hn, hpx, hpn, hpn.symm]
    · by_cases hbn : b = n
      · simp [Mem.unlink, Mem.setNode_node, hbn, hp, hn, hnx, hpn, hpn.symm]
      · by_cases hb : b = x <;>
          simp [Mem.unlink, Mem.setNode_node, hb, hbp, hbn, hp, hn, hpx.symm, hnx.symm, Ne.symm hbp,
            Ne.symm hbn]
  · rfl
  · funext k
    by_cases hk : k = l <;> simp [Mem.unlink, Mem.setList_list, hk, hh, ht]

end Relink

theorem exec_removeNode {m : Mem A L D} {l : L} {pre post : List A} {x : A} (dbg : Bool)
    (h : Rep .head m l (pre ++ x :: post)) :
    exec perform (removeNode dbg l x) m = some ((), m.unlink l x) := by
  have hx := h.member x (by simp)
  obtain ⟨hp, hn⟩ := h.links_at
  have hc : (m.list l).count ≠ 0 := by simp [h.count]
  obtain ⟨hxpre, hxpost, hd⟩ := h.apart
  have hdis : pre.Disjoint post := List.disjoint_of_nodup_append hd
  have hpre : ∀ p, pre.getLast? = some p → p ∈ pre ∧ m.live p ∧ p ≠ x := by
    intro p hpl
    have hmem := List.mem_of_mem_getLast? hpl
    exact ⟨hmem, (h.member p (by simp [hmem])).live, fun hpx => hxpre (hpx ▸ hmem)⟩
  have hpost : ∀ n, post.head? = some n → n ∈ post ∧ m.live n ∧ n ≠ x := by
    intro n hnl
    have hmem := List.mem_of_mem_head? hnl
    exact ⟨hmem, (h.member n (by simp [hmem])).live, fun hnx => hxpost (hnx ▸ hmem)⟩
  have hhead := h.head_eq_iff
  have htail := h.tail_eq_iff
  cases hpl : pre.getLast? with
  | none =>
    have hh := hhead.mpr (List.getLast?_eq_none_iff.mp hpl)
    cases hnl : post.head? with
    | none =>
      have ht := htail.mpr (List.head?_eq_none_iff.mp hnl)
      exact exec_removeNode_sole dbg hx hc hh ht (hp.trans hpl) (hn.trans hnl)
    | some n =>
      obtain ⟨hmem, hlive, hnx⟩ := hpost n hnl
      have ht : (m.list l).tail ≠ some x := fun ht => by simp [htail.mp ht] at hmem
      exact exec_removeNode_head dbg hx hc hlive hnx hh ht (hp.trans hpl) (hn.trans hnl)
  | some p =>
    obtain ⟨hpmem, hplive, hpx⟩ := hpre p hpl
    have hh : (m.list l).head ≠ some x := fun hh => by simp [hhead.mp hh] at hpmem
    cases hnl : post.head? with
    | none =>
      have ht := htail.mpr (List.head?_eq_none_iff.mp hnl)
      exact exec_removeNode_tail dbg hx hc hplive hpx hh ht (hp.trans hpl) (hn.trans hnl)
    | some n =>
      obtain ⟨hmem, hlive, hnx⟩ := hpost n hnl
      have hpn : p ≠ n := fun hpn => hdis hpmem (hpn ▸ hmem)
      have ht : (m.list l).tail ≠ some x := fun ht => by simp [htail.mp ht] at hmem
      exact exec_removeNode_middle dbg hx hc hplive hlive hpx hnx hpn hh ht (hp.trans hpl)
        (hn.trans hnl)

theorem exec_removeNode_off {m : Mem A L D} {l : L} {x : A} (dbg : Bool) (hx : m.live x)
    (h : (m.node x).isOnList = false) :
    exec perform (removeNode dbg l x) m = some ((), m) := by
  have hsame : m.setNode x ({ · with isOnList := false }) = m := Mem.setNode_same (by rw [← h])
  simp [removeNode, hx, h, hsame]

theorem exec_popAt {m : Mem A L D} {e : End} {l : L} {x : A} {xs : List A} (dbg : Bool)
    (h : Rep e m l (x :: xs)) (hv : (m.node x).data.isSome) :
    exec perform (popAt dbg e l) m = some ((m.node x).data, m.popped l x) := by
  obtain ⟨pre, post, hsplit, -⟩ := h.split
  have hx := h.member x (by simp)
  have hat : (m.list l).at e = some x := h.near
  have hlive : (m.unlink l x).live x := hx.live
  have hdata : ((m.unlink l x).node x).data = (m.node x).data := rfl
  have hassert : ∀ m' : Mem A L D,
      exec perform (debugAssert dbg (return (m.node x).data.isSome)) m' = some ((), m') :=
    fun m' => exec_debugAssert dbg (by simp [hv])
  simp [popAt, hat, exec_removeNode dbg hsplit, hlive, hdata, hassert]
  rfl

theorem exec_popAt_nil {m : Mem A L D} {e : End} {l : L} (dbg : Bool) (h : Rep e m l []) :
    exec perform (popAt dbg e l) m = some (none, m) := by
  have hat : (m.list l).at e = none := h.near
  simp [popAt, hat]

theorem exec_dropNode_off {m : Mem A L D} {x : A} (dbg : Bool) (hx : m.live x)
    (h : (m.node x).isOnList = false) : exec perform (dropNode dbg x) m = some ((), m) := by
  simp [dropNode, hx, h]

theorem exec_dropNode {m : Mem A L D} {l : L} {pre post : List A} {x : A} (dbg : Bool)
    (h : Rep .head m l (pre ++ x :: post)) :
    exec perform (dropNode dbg x) m = some ((), m.unlink l x) := by
  have hx := h.member x (by simp)
  simp [dropNode, hx.live, hx.on, hx.list, exec_removeNode dbg h]

end Colock.IntrusiveList
