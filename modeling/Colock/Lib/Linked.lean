import Mathlib.Data.List.Nodup
import Mathlib.Data.List.Induction

/-! Doubly linked segments: a list of cells whose two link functions point to the
neighbours, and how pushing and unlinking a cell changes them. -/
namespace Linked
variable {A : Type*} {next prev next' prev' : A → Option A}

/-- `xs` is linked both ways between `p` (before its first cell) and `q` (after its
last). -/
def Seg (next prev : A → Option A) : Option A → List A → Option A → Prop
  | _, [], _ => True
  | p, a :: xs, q => prev a = p ∧ next a = xs.head?.or q ∧ Seg next prev (some a) xs q

theorem seg_append (p q : Option A) (xs ys : List A) :
    Seg next prev p (xs ++ ys) q ↔
      Seg next prev p xs (ys.head?.or q) ∧ Seg next prev (xs.getLast?.or p) ys q := by
  induction xs generalizing p with
  | nil => simp [Seg]
  | cons a xs ih =>
    have hhead : (xs ++ ys).head?.or q = xs.head?.or (ys.head?.or q) := by
      cases xs <;> simp
    have hlast : (a :: xs).getLast?.or p = xs.getLast?.or (some a) := by
      cases xs with
      | nil => simp
      | cons b xs => simp [List.getLast?_eq_getLast_of_ne_nil]
    simp only [List.cons_append, Seg, ih, hhead, hlast, and_assoc]

theorem seg_congr {p q : Option A} {xs : List A} (hn : ∀ a ∈ xs, next' a = next a)
    (hp : ∀ a ∈ xs, prev' a = prev a) (h : Seg next prev p xs q) : Seg next' prev' p xs q := by
  induction xs generalizing p with
  | nil => trivial
  | cons a xs ih =>
    obtain ⟨ha, hb, h⟩ := h
    refine ⟨(hp a (by simp)).trans ha, (hn a (by simp)).trans hb, ih ?_ ?_ h⟩
    · intro b hb; exact hn b (by simp [hb])
    · intro b hb; exact hp b (by simp [hb])

/-- Read from the other end, a segment is a segment with the two links exchanged. -/
theorem seg_reverse {p q : Option A} {xs : List A} (h : Seg next prev p xs q) :
    Seg prev next q xs.reverse p := by
  induction xs generalizing p with
  | nil => trivial
  | cons a xs ih =>
    obtain ⟨ha, hb, h⟩ := h
    rw [List.reverse_cons, seg_append]
    refine ⟨by simpa using ih h, ?_, ?_, trivial⟩
    · simpa [List.getLast?_reverse] using hb
    · simpa using ha

/-- The cells met from `p` on by following `next` at most `n` times. -/
def follow (next : A → Option A) : Nat → Option A → List A
  | 0, _ => []
  | _ + 1, none => []
  | n + 1, some a => a :: follow next n (next a)

theorem follow_seg {p : Option A} {xs : List A} {n : Nat} (h : Seg next prev p xs none)
    (hn : xs.length ≤ n) : follow next n xs.head? = xs := by
  induction xs generalizing p n with
  | nil => cases n <;> rfl
  | cons a xs ih =>
    cases n with
    | zero => simp at hn
    | succ n =>
      obtain ⟨-, hb, h⟩ := h
      have hrest := ih h (by simpa using hn)
      simpa [follow, hb] using hrest

theorem seg_at {p q : Option A} {pre post : List A} {x : A}
    (h : Seg next prev p (pre ++ x :: post) q) :
    prev x = pre.getLast?.or p ∧ next x = post.head?.or q := by
  obtain ⟨-, hprev, hnext, -⟩ := (seg_append ..).mp h
  exact ⟨hprev, hnext⟩

variable [DecidableEq A]

theorem seg_setNext {p q q' : Option A} {xs : List A} (hd : xs.Nodup)
    (hn : ∀ a ∈ xs, next' a = if xs.getLast? = some a then q' else next a)
    (hp : ∀ a ∈ xs, prev' a = prev a) (h : Seg next prev p xs q) : Seg next' prev' p xs q' := by
  induction xs using List.reverseRecOn with
  | nil => trivial
  | append_singleton xs b _ =>
    have hb : b ∉ xs := fun hb => (List.disjoint_of_nodup_append hd) hb (by simp)
    rw [seg_append] at h ⊢
    refine ⟨seg_congr (fun a ha => ?_) (fun a ha => hp a (by simp [ha])) h.1, ?_, ?_, trivial⟩
    · rw [hn a (by simp [ha]), if_neg]
      intro hab
      simp only [List.getLast?_append, List.getLast?_singleton, Option.some_or,
        Option.some.injEq] at hab
      exact hb (hab ▸ ha)
    · exact (hp b (by simp)).trans h.2.1
    · simpa using hn b (by simp)

theorem seg_setPrev {p p' q : Option A} {xs : List A} (hd : xs.Nodup)
    (hn : ∀ a ∈ xs, next' a = next a)
    (hp : ∀ a ∈ xs, prev' a = if xs.head? = some a then p' else prev a)
    (h : Seg next prev p xs q) : Seg next' prev' p' xs q := by
  cases xs with
  | nil => trivial
  | cons b xs =>
    have hb : b ∉ xs := (List.nodup_cons.mp hd).1
    obtain ⟨-, hnext, h⟩ := h
    refine ⟨by simpa using hp b (by simp), (hn b (by simp)).trans hnext, ?_⟩
    refine seg_congr (fun a ha => hn a (by simp [ha])) (fun a ha => ?_) h
    rw [hp a (by simp [ha]), if_neg]
    rintro hab
    simp only [List.head?_cons, Option.some.injEq] at hab
    exact hb (hab ▸ ha)

theorem seg_unlink {p q : Option A} {pre post : List A} {x : A} (hd : (pre ++ post).Nodup)
    (hn : ∀ a ∈ pre ++ post, next' a = if prev x = some a then next x else next a)
    (hp : ∀ a ∈ pre ++ post, prev' a = if next x = some a then prev x else prev a)
    (hout : ∀ a ∈ pre ++ post, p ≠ some a ∧ q ≠ some a)
    (h : Seg next prev p (pre ++ x :: post) q) : Seg next' prev' p (pre ++ post) q := by
  obtain ⟨hprev, hnext⟩ := seg_at h
  obtain ⟨hpre, -, -, hpost⟩ := (seg_append ..).mp h
  have hdis : pre.Disjoint post := List.disjoint_of_nodup_append hd
  rw [seg_append]
  constructor
  · refine seg_setNext hd.of_append_left (fun a ha => ?_) (fun a ha => ?_) hpre
    · rw [hn a (by simp [ha]), hprev, hnext]
      cases hl : pre.getLast? with
      | none => simp [(hout a (by simp [ha])).1]
      | some b => simp
    · rw [hp a (by simp [ha]), hnext, if_neg]
      intro hab
      cases hl : post.head? with
      | none => simp [hl, (hout a (by simp [ha])).2] at hab
      | some b =>
        simp only [hl, Option.some_or, Option.some.injEq] at hab
        exact hdis ha (hab ▸ List.mem_of_mem_head? hl)
  · refine seg_setPrev hd.of_append_right (fun a ha => ?_) (fun a ha => ?_) hpost
    · rw [hn a (by simp [ha]), hprev, if_neg]
      intro hab
      cases hl : pre.getLast? with
      | none => simp [hl, (hout a (by simp [ha])).1] at hab
      | some b =>
        simp only [hl, Option.some_or, Option.some.injEq] at hab
        exact hdis (hab ▸ List.mem_of_mem_getLast? hl) ha
    · rw [hp a (by simp [ha]), hprev, hnext]
      cases hl : post.head? with
      | none => simp [(hout a (by simp [ha])).2]
      | some b => simp

theorem seg_push {q : Option A} {xs : List A} {x : A} (hd : xs.Nodup)
    (hn : ∀ a ∈ xs, next' a = next a)
    (hp : ∀ a ∈ xs, prev' a = if xs.head? = some a then some x else prev a)
    (hnx : next' x = xs.head?.or q) (hpx : prev' x = none)
    (h : Seg next prev none xs q) : Seg next' prev' none (x :: xs) q :=
  ⟨hpx, hnx, seg_setPrev hd hn hp h⟩

end Linked
