import Mathlib.Data.List.Nodup
import Mathlib.Logic.Function.Basic
import Mathlib.Tactic.Common

/-! # Doubly linked segments

A segment leads from one node over others to a last one, and the links of neighbours
agree in both directions. A node is linked in before another one, and taken out, by
changing the links of its two neighbours; what is not a neighbour keeps its links.
-/

namespace Linked

variable {α : Type*} {next prev next' prev' : α → α} {x y b e : α} {l pre post : List α}

/-- The nodes of `l` are linked one after the other, from `x` on and up to `y`. -/
def Seg (next prev : α → α) : α → List α → α → Prop
  | x, [], y => next x = y ∧ prev y = x
  | x, a :: l, y => next x = a ∧ prev a = x ∧ Seg next prev a l y

theorem seg_append : Seg next prev x (pre ++ b :: post) y ↔
    Seg next prev x pre b ∧ Seg next prev b post y := by
  induction pre generalizing x with
  | nil =>
    constructor
    · rintro ⟨hn, hp, h⟩
      exact ⟨⟨hn, hp⟩, h⟩
    · rintro ⟨⟨hn, hp⟩, h⟩
      exact ⟨hn, hp, h⟩
  | cons a pre ih =>
    constructor
    · rintro ⟨hn, hp, h⟩
      obtain ⟨hpre, hpost⟩ := ih.mp h
      exact ⟨⟨hn, hp, hpre⟩, hpost⟩
    · rintro ⟨⟨hn, hp, hpre⟩, hpost⟩
      exact ⟨hn, hp, ih.mpr ⟨hpre, hpost⟩⟩

/-- The first link. -/
theorem Seg.next_eq (h : Seg next prev x l y) : next x = l.headD y := by
  cases l with
  | nil => exact h.1
  | cons a l => exact h.1

/-- The last node before the end is one of the segment. -/
theorem Seg.prev_mem (h : Seg next prev x l y) : prev y ∈ x :: l := by
  induction l generalizing x with
  | nil =>
    rw [h.2]
    exact List.mem_cons_self
  | cons a l ih => exact List.mem_cons_of_mem x (ih h.2.2)

theorem Seg.next_mem (h : Seg next prev x l y) : next x ∈ l ++ [y] := by
  cases l with
  | nil =>
    rw [h.1]
    exact List.mem_singleton_self y
  | cons a l =>
    rw [h.1]
    exact List.mem_cons_self

/-- The node before a place of the segment is one of those that precede the place. -/
theorem Seg.prev_headD_mem (h : Seg next prev x (pre ++ post) y) :
    prev (post.headD y) ∈ x :: pre := by
  cases post with
  | nil =>
    rw [List.append_nil] at h
    exact h.prev_mem
  | cons c post => exact (seg_append.mp h).1.prev_mem

/-- Other links do not matter. -/
theorem Seg.congr (h : Seg next prev x l y) (hnext : ∀ z ∈ x :: l, next' z = next z)
    (hprev : ∀ z ∈ l ++ [y], prev' z = prev z) : Seg next' prev' x l y := by
  induction l generalizing x with
  | nil =>
    rw [Seg, hnext x List.mem_cons_self, hprev y (List.mem_singleton_self y)]
    exact h
  | cons a l ih =>
    obtain ⟨hn, hp, h⟩ := h
    refine ⟨?_, ?_, ih h (fun z hz => hnext z (List.mem_cons_of_mem x hz)) fun z hz => ?_⟩
    · rw [hnext x List.mem_cons_self, hn]
    · rw [hprev a List.mem_cons_self, hp]
    · exact hprev z (List.mem_cons_of_mem a hz)

variable [DecidableEq α]

/-- The forward links after `e` is linked in before `b`. -/
def insertNext (next prev : α → α) (b e : α) : α → α :=
  Function.update (Function.update next (prev b) e) e b

/-- The backward links after `e` is linked in before `b`. -/
def insertPrev (prev : α → α) (b e : α) : α → α :=
  Function.update (Function.update prev e (prev b)) b e

/-- The forward links after `e` is taken out. -/
def removeNext (next prev : α → α) (e : α) : α → α := Function.update next (prev e) (next e)

/-- The backward links after `e` is taken out. -/
def removePrev (next prev : α → α) (e : α) : α → α := Function.update prev (next e) (prev e)

section Links

theorem insertNext_of_ne {z : α} (hp : z ≠ prev b) (he : z ≠ e) : insertNext next prev b e z = next z := by
  rw [insertNext, Function.update_of_ne he, Function.update_of_ne hp]

theorem insertNext_self : insertNext next prev b e e = b := Function.update_self ..

theorem insertNext_prev (he : prev b ≠ e) : insertNext next prev b e (prev b) = e := by
  rw [insertNext, Function.update_of_ne he, Function.update_self]

theorem insertPrev_of_ne {z : α} (hb : z ≠ b) (he : z ≠ e) : insertPrev prev b e z = prev z := by
  rw [insertPrev, Function.update_of_ne hb, Function.update_of_ne he]

theorem insertPrev_self : insertPrev prev b e b = e := Function.update_self ..

theorem insertPrev_new (h : e ≠ b) : insertPrev prev b e e = prev b := by
  rw [insertPrev, Function.update_of_ne h, Function.update_self]

theorem removeNext_of_ne {z : α} (h : z ≠ prev e) : removeNext next prev e z = next z :=
  Function.update_of_ne h ..

theorem removePrev_of_ne {z : α} (h : z ≠ next e) : removePrev next prev e z = prev z :=
  Function.update_of_ne h ..

end Links

/-- A node is linked in at the end of a segment. The induction is on the nodes before it. -/
theorem Seg.insert (h : Seg next prev x l b) (hnodup : (x :: l ++ [b]).Nodup)
    (he : e ∉ x :: l ++ [b]) :
    Seg (insertNext next prev b e) (insertPrev prev b e) x (l ++ [e]) b := by
  have heb : e ≠ b := fun heq => he (by rw [heq]; simp)
  induction l generalizing x with
  | nil =>
    obtain ⟨-, hp⟩ := h
    have hxe : prev b ≠ e := fun heq => he (by rw [← heq, hp]; simp)
    refine ⟨?_, ?_, insertNext_self, insertPrev_self⟩
    · rw [← hp, insertNext_prev hxe]
    · rw [insertPrev_new heb, hp]
  | cons a l ih =>
    obtain ⟨hn, hp, h⟩ := h
    have hnodup' := (List.nodup_cons.mp hnodup).2
    have hmem := h.prev_mem
    have hx : x ≠ prev b := by
      intro heq
      refine (List.nodup_cons.mp hnodup).1 ?_
      rw [heq]
      exact List.mem_append_left _ hmem
    have ha : a ≠ b := by
      rintro rfl
      exact (List.nodup_cons.mp hnodup').1 (by simp)
    refine ⟨?_, ?_, ih h hnodup' fun hin => he (List.mem_cons_of_mem x hin)⟩
    · rw [insertNext_of_ne hx fun heq => he (by rw [← heq]; simp), hn]
    · rw [insertPrev_of_ne ha fun heq => he (by rw [← heq]; simp), hp]

/-- A segment without the node that is linked in, and without the node before it, is as before. -/
theorem Seg.insert_of_not_mem (h : Seg next prev x l y) (hp : prev b ∉ x :: l) (hb : b ∉ l ++ [y])
    (he : e ∉ x :: l ++ [y]) : Seg (insertNext next prev b e) (insertPrev prev b e) x l y := by
  apply h.congr
  · intro z hz
    refine insertNext_of_ne (fun heq => hp (heq ▸ hz)) fun heq => he ?_
    rw [← heq]
    exact List.mem_append_left _ hz
  · intro z hz
    refine insertPrev_of_ne (fun heq => hb (heq ▸ hz)) fun heq => he ?_
    rw [← heq]
    exact List.mem_cons_of_mem x hz

/-- A node is linked in at some place of a segment. -/
theorem Seg.insert_middle (h : Seg next prev x (pre ++ post) y)
    (hnodup : (x :: (pre ++ post) ++ [y]).Nodup) (he : e ∉ x :: (pre ++ post) ++ [y]) :
    Seg (insertNext next prev (post.headD y) e) (insertPrev prev (post.headD y) e) x
      (pre ++ e :: post) y := by
  cases post with
  | nil =>
    rw [List.append_nil] at h hnodup he
    exact h.insert hnodup he
  | cons c post =>
    obtain ⟨hpre, hpost⟩ := seg_append.mp h
    have heq : x :: (pre ++ c :: post) ++ [y] = (x :: pre) ++ (c :: (post ++ [y])) := by simp
    rw [heq] at hnodup he
    obtain ⟨-, hnodup', hdisjoint⟩ := List.nodup_append'.mp hnodup
    have hsub : List.Sublist (x :: pre ++ [c]) (x :: pre ++ c :: (post ++ [y])) :=
      (List.singleton_sublist.mpr List.mem_cons_self).append_left _
    have hprev := hpre.prev_mem
    have hfirst := hpre.insert (hnodup.sublist hsub) fun hin => he (hsub.subset hin)
    have hlast := hpost.insert_of_not_mem (b := c) (fun hin => hdisjoint hprev
      (List.cons_subset_cons c (List.subset_append_left post [y]) hin))
      (List.nodup_cons.mp hnodup').1 fun hin => he (List.mem_append_right _ hin)
    rw [List.append_cons pre e (c :: post)]
    exact seg_append.mpr ⟨hfirst, hlast⟩

/-- A segment that does not begin or end at the neighbours of what is taken out is as before. -/
theorem Seg.remove_of_not_mem (h : Seg next prev x l y) (hp : prev e ∉ x :: l)
    (hn : next e ∉ l ++ [y]) : Seg (removeNext next prev e) (removePrev next prev e) x l y := by
  apply h.congr
  · intro z hz
    exact removeNext_of_ne fun heq => hp (heq ▸ hz)
  · intro z hz
    exact removePrev_of_ne fun heq => hn (heq ▸ hz)

/-- A node is taken out. The induction is on the nodes before it. -/
theorem Seg.remove (h : Seg next prev x (pre ++ e :: post) y)
    (hnodup : (x :: (pre ++ e :: post) ++ [y]).Nodup) :
    Seg (removeNext next prev e) (removePrev next prev e) x (pre ++ post) y := by
  induction pre generalizing x with
  | nil =>
    obtain ⟨hn, hp, h⟩ := h
    have hx : x ∉ post ++ [y] := fun hin =>
      (List.nodup_cons.mp hnodup).1 (List.mem_cons_of_mem e hin)
    have hnext : removeNext next prev e x = next e := by
      rw [removeNext, hp, Function.update_self]
    have hprev : removePrev next prev e (next e) = x := by
      rw [removePrev, Function.update_self, hp]
    cases post with
    | nil =>
      obtain ⟨hn', -⟩ := h
      rw [hn'] at hnext hprev
      exact ⟨hnext, hprev⟩
    | cons c post =>
      obtain ⟨hn', -, h⟩ := h
      have hnodup' : (c :: post ++ [y]).Nodup :=
        (List.nodup_cons.mp (List.nodup_cons.mp hnodup).2).2
      have hrest := h.remove_of_not_mem (e := e)
        (fun hin => hx (by rw [hp] at hin; exact List.mem_append_left _ hin))
        (fun hin => (List.nodup_cons.mp hnodup').1 (hn' ▸ hin))
      rw [hn'] at hnext hprev
      exact ⟨hnext, hprev, hrest⟩
  | cons a pre ih =>
    obtain ⟨hn, hp, h⟩ := h
    have hnodup' := (List.nodup_cons.mp hnodup).2
    obtain ⟨hpre, hpost⟩ := seg_append.mp h
    have hx : x ≠ prev e := by
      intro heq
      refine (List.nodup_cons.mp hnodup).1 ?_
      rw [heq]
      have hmem := hpre.prev_mem
      rw [List.mem_cons] at hmem
      rcases hmem with hmem | hmem
      · rw [hmem]
        simp
      · simp [hmem]
    have ha : a ≠ next e := by
      intro heq
      refine (List.nodup_cons.mp hnodup').1 ?_
      rw [heq]
      have hmem := hpost.next_mem
      rw [List.mem_append] at hmem
      rcases hmem with hmem | hmem
      · simp [hmem]
      · simp [List.mem_singleton.mp hmem]
    refine ⟨?_, ?_, ih h hnodup'⟩
    · rw [removeNext_of_ne hx, hn]
    · rw [removePrev_of_ne ha, hp]

end Linked
