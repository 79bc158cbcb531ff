import Colock.IntrusiveList.Model
import Colock.Lib.Linked

/-! The sequence of nodes that the heap represents for a list, read from either end, and
what linking a node in and taking one out does to it. -/
namespace Colock.IntrusiveList
open Program Prog Linked
variable {A L D : Type}

structure Member (m : Mem A L D) (l : L) (a : A) : Prop where
  live : m.live a
  on : (m.node a).isOnList
  list : (m.node a).list = some l

/-- The list `l` is well formed and holds the nodes `xs`, counted from the end `e`. -/
structure Rep (e : End) (m : Mem A L D) (l : L) (xs : List A) : Prop where
  nodup : xs.Nodup
  near : (m.list l).at e = xs.head?
  far : (m.list l).at e.other = xs.getLast?
  count : (m.list l).count = xs.length
  links : Seg (fun a => (m.node a).toward e.other) (fun a => (m.node a).toward e) none xs none
  member : ∀ a ∈ xs, Member m l a

theorem Rep.flip {e : End} {m : Mem A L D} {l : L} {xs : List A} (h : Rep e m l xs) :
    Rep e.other m l xs.reverse where
  nodup := List.nodup_reverse.mpr h.nodup
  near := by rw [h.far, List.head?_reverse]
  far := by rw [End.other_other, h.near, List.getLast?_reverse]
  count := by rw [h.count, List.length_reverse]
  links := by simpa using seg_reverse h.links
  member a ha := h.member a (List.mem_reverse.mp ha)

theorem Rep.split {e : End} {m : Mem A L D} {l : L} {x : A} {xs : List A}
    (h : Rep e m l (x :: xs)) : ∃ pre post, Rep .head m l (pre ++ x :: post) ∧
      ∀ m' : Mem A L D, Rep .head m' l (pre ++ post) → Rep e m' l xs := by
  cases e with
  | head => exact ⟨[], xs, h, fun m' h' => h'⟩
  | tail =>
    refine ⟨xs.reverse, [], by simpa [End.other] using h.flip, fun m' h' => ?_⟩
    simpa [End.other] using h'.flip

structure Agrees (m m' : Mem A L D) (a : A) : Prop where
  live : m'.live a = m.live a
  toward : ∀ e, (m'.node a).toward e = (m.node a).toward e
  on : (m'.node a).isOnList = (m.node a).isOnList
  list : (m'.node a).list = (m.node a).list

theorem Agrees.member {m m' : Mem A L D} {l : L} {a : A} (h : Agrees m m' a)
    (ha : Member m l a) : Member m' l a where
  live := by rw [h.live]; exact ha.live
  on := by rw [h.on]; exact ha.on
  list := by rw [h.list]; exact ha.list

/-- A list is not affected by a change of other nodes, other lists and data. -/
theorem Rep.frame {e : End} {m m' : Mem A L D} {l : L} {xs : List A} (h : Rep e m l xs)
    (hl : m'.list l = m.list l) (ha : ∀ a ∈ xs, Agrees m m' a) : Rep e m' l xs where
  nodup := h.nodup
  near := by rw [hl, h.near]
  far := by rw [hl, h.far]
  count := by rw [hl, h.count]
  links := seg_congr (fun a hx => (ha a hx).toward _) (fun a hx => (ha a hx).toward _) h.links
  member a hx := (ha a hx).member (h.member a hx)

structure Fresh (m : Mem A L D) (a : A) : Prop where
  live : m.live a
  next : (m.node a).next = none
  prev : (m.node a).prev = none
  list : (m.node a).list = none
  off : (m.node a).isOnList = false
  data : (m.node a).data.isSome

theorem Rep.links_at {m : Mem A L D} {l : L} {pre post : List A} {x : A}
    (h : Rep .head m l (pre ++ x :: post)) :
    (m.node x).prev = pre.getLast? ∧ (m.node x).next = post.head? := by
  simpa [Node.toward, End.other] using seg_at h.links

theorem Rep.apart {m : Mem A L D} {l : L} {pre post : List A} {x : A}
    (h : Rep .head m l (pre ++ x :: post)) : x ∉ pre ∧ x ∉ post ∧ (pre ++ post).Nodup := by
  have hd := h.nodup
  simp only [List.nodup_append', List.nodup_cons, List.disjoint_cons_right] at hd ⊢
  exact ⟨hd.2.2.1, hd.2.1.1, hd.1, hd.2.1.2, hd.2.2.2⟩

theorem getLast?_split (pre post : List A) (x b : A) :
    (pre ++ x :: post.concat b).getLast? = some b := by
  rw [List.concat_eq_append, ← List.cons_append, ← List.append_assoc, List.getLast?_concat]

theorem Rep.head_eq_iff {m : Mem A L D} {l : L} {pre post : List A} {x : A}
    (h : Rep .head m l (pre ++ x :: post)) : (m.list l).head = some x ↔ pre = [] := by
  have hhead : (m.list l).head = (pre ++ x :: post).head? := h.near
  have hd := h.nodup
  cases pre with
  | nil => simp [hhead]
  | cons b pre =>
    have hbx : b ≠ x := by
      rintro rfl
      simp at hd
    simp [hhead, hbx]

theorem Rep.tail_eq_iff {m : Mem A L D} {l : L} {pre post : List A} {x : A}
    (h : Rep .head m l (pre ++ x :: post)) : (m.list l).tail = some x ↔ post = [] := by
  have htail : (m.list l).tail = (pre ++ x :: post).getLast? := h.far
  have hd := h.nodup
  rcases post.eq_nil_or_concat with rfl | ⟨post, b, rfl⟩
  · simp [htail]
  · have hbx : b ≠ x := by
      rintro rfl
      simp [List.nodup_append'] at hd
    rw [htail, getLast?_split]
    simp [hbx]

variable [DecidableEq A] [DecidableEq L]

def Mem.link (m : Mem A L D) (e : End) (l : L) (a : A) : Mem A L D where
  live := m.live
  node b :=
    if b = a then
      { m.node a with isOnList := true, list := some l }.setToward ((m.list l).at e) e.other
    else if (m.list l).at e = some b then (m.node b).setToward (some a) e
    else m.node b
  list k :=
    if k = l then
      if ((m.list l).at e).isNone then ⟨some a, some a, (m.list l).count + 1⟩
      else { (m.list l).setAt (some a) e with count := (m.list l).count + 1 }
    else m.list k

/-- The memory with `x` taken out of `l`; the links of `x` itself stay as they were. -/
def Mem.unlink (m : Mem A L D) (l : L) (x : A) : Mem A L D where
  live := m.live
  node b := {
    next := if (m.node x).prev = some b then (m.node x).next else (m.node b).next
    prev := if (m.node x).next = some b then (m.node x).prev else (m.node b).prev
    list := (m.node b).list
    data := (m.node b).data
    isOnList := if b = x then false else (m.node b).isOnList }
  list k :=
    if k = l then {
      head := if (m.list l).head = some x then (m.node x).next else (m.list l).head
      tail := if (m.list l).tail = some x then (m.node x).prev else (m.list l).tail
      count := (m.list l).count - 1 }
    else m.list k

section LinkFields
variable (m : Mem A L D) (e : End) (l : L) (a : A)

@[simp] theorem link_live : (m.link e l a).live = m.live := rfl

@[simp] theorem link_at : ((m.link e l a).list l).at e = some a := by
  cases hn : (m.list l).at e <;> cases e <;> simp_all [Mem.link, ListHeader.at, ListHeader.setAt]

theorem link_far : ((m.link e l a).list l).at e.other =
    if ((m.list l).at e).isNone then some a else (m.list l).at e.other := by
  cases hn : (m.list l).at e <;> cases e <;>
    simp_all [Mem.link, ListHeader.at, ListHeader.setAt, End.other]

@[simp] theorem link_count : ((m.link e l a).list l).count = (m.list l).count + 1 := by
  cases hn : (m.list l).at e <;> simp [Mem.link, hn]

@[simp] theorem link_toward : ((m.link e l a).node a).toward e = (m.node a).toward e := by
  cases e <;> simp [Mem.link, Node.toward, Node.setToward, End.other]

@[simp] theorem link_toward_other :
    ((m.link e l a).node a).toward e.other = (m.list l).at e := by
  simp [Mem.link]

variable {m e l a}

theorem link_list {k : L} (hk : k ≠ l) : (m.link e l a).list k = m.list k := by
  simp [Mem.link, hk]

theorem link_node {b : A} (hb : b ≠ a) : (m.link e l a).node b =
    if (m.list l).at e = some b then (m.node b).setToward (some a) e else m.node b := by
  simp [Mem.link, hb]

end LinkFields

theorem Rep.link {m : Mem A L D} {e : End} {l : L} {a : A} {xs : List A} (h : Rep e m l xs)
    (ha : Fresh m a) (hx : a ∉ xs) : Rep e (m.link e l a) l (a :: xs) where
  nodup := List.nodup_cons.mpr ⟨hx, h.nodup⟩
  near := link_at ..
  far := by
    rw [link_far, h.near, h.far]
    cases xs <;> simp [List.getLast?_cons_cons]
  count := by rw [link_count, h.count, List.length_cons]
  links := by
    have hne : ∀ b ∈ xs, b ≠ a := fun b hb hba => hx (hba ▸ hb)
    refine seg_push h.nodup (fun b hb => ?_) (fun b hb => ?_) ?_ ?_ h.links
    · rw [link_node (hne b hb)]
      split <;> simp
    · rw [link_node (hne b hb), h.near]
      split <;> simp
    · rw [link_toward_other, h.near, Option.or_none]
    · rw [link_toward]
      cases e
      · exact ha.prev
      · exact ha.next
  member b hb := by
    rcases List.mem_cons.mp hb with rfl | hb
    · exact ⟨ha.live, by simp [Mem.link], by simp [Mem.link]⟩
    · have hba : b ≠ a := fun hba => hx (hba ▸ hb)
      obtain ⟨hlive, hon, hlist⟩ := h.member b hb
      refine ⟨hlive, ?_, ?_⟩ <;> rw [link_node hba] <;> split <;> simpa

theorem Rep.unlink {m : Mem A L D} {l : L} {pre post : List A} {x : A}
    (h : Rep .head m l (pre ++ x :: post)) : Rep .head (m.unlink l x) l (pre ++ post) := by
  obtain ⟨hp, hn⟩ := h.links_at
  obtain ⟨hxpre, hxpost, hd⟩ := h.apart
  have hhead := h.head_eq_iff
  have htail := h.tail_eq_iff
  constructor
  · exact hd
  · have hnear : (m.list l).head = (pre ++ x :: post).head? := h.near
    cases pre with
    | nil => simpa [Mem.unlink, ListHeader.at, hhead] using hn
    | cons b pre => simpa [Mem.unlink, ListHeader.at, hhead] using hnear
  · have hfar : (m.list l).tail = (pre ++ x :: post).getLast? := h.far
    rcases post.eq_nil_or_concat with rfl | ⟨post, b, rfl⟩
    · simpa [Mem.unlink, ListHeader.at, End.other, htail] using hp
    · rw [getLast?_split] at hfar
      simpa [Mem.unlink, ListHeader.at, End.other, htail] using hfar
  · have hc := h.count
    simp [Mem.unlink] at hc ⊢
    omega
  · refine seg_unlink hd (fun a _ => rfl) (fun a _ => rfl) (by simp) h.links
  · intro a ha
    have hax : a ≠ x := by
      rintro rfl
      simp [hxpre, hxpost] at ha
    have hmem : a ∈ pre ++ x :: post := by
      simp at ha ⊢
      tauto
    obtain ⟨hlive, hon, hlist⟩ := h.member a hmem
    exact ⟨hlive, by simpa [Mem.unlink, hax] using hon, hlist⟩

def Mem.popped (m : Mem A L D) (l : L) (x : A) : Mem A L D :=
  (m.unlink l x).setNode x ({ · with data := none, isOnList := false })

theorem Rep.link_frame {m : Mem A L D} {e e' : End} {l k : L} {a : A} {xs ys : List A}
    (h : Rep e m l xs) (h' : Rep e' m k ys) (hk : k ≠ l) (ha : a ∉ ys) :
    Rep e' (m.link e l a) k ys := by
  refine h'.frame (link_list hk) fun b hb => ?_
  have hba : b ≠ a := fun hba => ha (hba ▸ hb)
  have hnear : (m.list l).at e ≠ some b := by
    intro hnear
    have hmem : b ∈ xs := List.mem_of_mem_head? (h.near.symm.trans hnear)
    have hlist := (h.member b hmem).list.symm.trans (h'.member b hb).list
    exact hk (Option.some.inj hlist).symm
  have hnode : (m.link e l a).node b = m.node b := by rw [link_node hba, if_neg hnear]
  exact ⟨rfl, by simp [hnode], by rw [hnode], by rw [hnode]⟩

theorem unlink_agrees {m : Mem A L D} {l k : L} {pre post : List A} {x b : A}
    (h : Rep .head m l (pre ++ x :: post)) (hb : Member m k b) (hk : k ≠ l) :
    (m.unlink l x).node b = m.node b := by
  obtain ⟨hp, hn⟩ := h.links_at
  have hother : b ∉ pre ++ x :: post := by
    intro hmem
    have hlist := (h.member b hmem).list.symm.trans hb.list
    exact hk (Option.some.inj hlist).symm
  have hbx : b ≠ x := fun hbx => hother (by simp [hbx])
  have hbp : (m.node x).prev ≠ some b := by
    intro hbp
    exact hother (by simp [List.mem_of_mem_getLast? (hp.symm.trans hbp)])
  have hbn : (m.node x).next ≠ some b := by
    intro hbn
    exact hother (by simp [List.mem_of_mem_head? (hn.symm.trans hbn)])
  simp [Mem.unlink, hbx, hbp, hbn]

theorem Rep.unlink_frame {m : Mem A L D} {e : End} {l k : L} {pre post ys : List A} {x : A}
    (h : Rep .head m l (pre ++ x :: post)) (h' : Rep e m k ys) (hk : k ≠ l) :
    Rep e (m.unlink l x) k ys := by
  refine h'.frame (by simp [Mem.unlink, hk]) fun b hb => ?_
  have hnode := unlink_agrees h (h'.member b hb) hk
  exact ⟨rfl, by simp [hnode], by rw [hnode], by rw [hnode]⟩

omit [DecidableEq L] in
theorem Rep.setNode {m : Mem A L D} {e : End} {l : L} {xs : List A} {a : A}
    {f : Node A L D → Node A L D} (h : Rep e m l xs) (ha : a ∉ xs) :
    Rep e (m.setNode a f) l xs := by
  refine h.frame rfl fun b hb => ?_
  have hba : b ≠ a := fun hba => ha (hba ▸ hb)
  have hnode : (m.setNode a f).node b = m.node b := by simp [Mem.setNode_node, hba]
  exact ⟨rfl, by simp [hnode], by rw [hnode], by rw [hnode]⟩

omit [DecidableEq L] in
theorem Rep.setData {m : Mem A L D} {e : End} {l : L} {xs : List A} {a : A} (h : Rep e m l xs)
    (v : Option D) : Rep e (m.setNode a ({ · with data := v })) l xs := by
  refine h.frame rfl fun b _ => ?_
  by_cases hba : b = a
  · subst hba
    refine ⟨rfl, fun e => ?_, ?_, ?_⟩ <;> simp [Mem.setNode_node]
    cases e <;> rfl
  · have hnode : (m.setNode a ({ · with data := v })).node b = m.node b := by
      simp [Mem.setNode_node, hba]
    exact ⟨rfl, by simp [hnode], by rw [hnode], by rw [hnode]⟩

theorem Rep.popped {m : Mem A L D} {e : End} {l : L} {x : A} {xs : List A}
    (h : Rep e m l (x :: xs)) : Rep e (m.popped l x) l xs := by
  obtain ⟨pre, post, hsplit, hback⟩ := h.split
  have hx : x ∉ pre ++ post := by
    obtain ⟨hpre, hpost, -⟩ := hsplit.apart
    simp [hpre, hpost]
  exact hback _ (hsplit.unlink.setNode hx)

end Colock.IntrusiveList
