import Mathlib.Data.List.Perm.Subperm
import Winx.Kernel.Fault
import Winx.Lib.Linked
import Winx.Lib.Word

/-! # The lists of the kernel

A list is two sentinels in one object and, between them, the nodes, which are fields of
other objects. The heap tells for each address what is linked there. It represents
sequences of nodes, and the operations act on these.
-/

namespace Winx

variable {σ : Type}

/-- `struct list_elem`: the addresses of the neighbours. -/
structure ListElem where
  prev : UInt32
  next : UInt32
  deriving DecidableEq, Repr

/-- `enum intr_status` -/
inductive IntrStatus
  | intrOff
  | intrOn
  deriving DecidableEq, Repr

/-- The list elements by their addresses, and `rest` for what the functions that are handed to
`list_traversal` use. -/
structure ListHeap (σ : Type) where
  elem : UInt32 → ListElem
  intr : IntrStatus
  rest : σ

/-- Code that works on lists. -/
abbrev ListM (σ α : Type) := Exec (ListHeap σ) Fault α

/-- `NULL` -/
def null : UInt32 := 0

/-- `&list->head`, which is the address of the list -/
def headOf (plist : UInt32) : UInt32 := plist

/-- `&list->tail` -/
def tailOf (plist : UInt32) : UInt32 := plist + 8

/-- Read a list element. -/
def readElem (p : UInt32) : ListM σ ListElem := do
  if p = null then throw .badPointer
  return (← get).elem p

/-- `p->next = q` -/
def setNext (p q : UInt32) : ListM σ Unit := do
  if p = null then throw .badPointer
  modify fun h => { h with elem := Function.update h.elem p { h.elem p with next := q } }

/-- `p->prev = q` -/
def setPrev (p q : UInt32) : ListM σ Unit := do
  if p = null then throw .badPointer
  modify fun h => { h with elem := Function.update h.elem p { h.elem p with prev := q } }

/-- `intr_enable` -/
def intrEnable : ListM σ IntrStatus := do
  let oldStatus := (← get).intr
  modify fun h => { h with intr := .intrOn }
  return oldStatus

/-- `intr_disable` -/
def intrDisable : ListM σ IntrStatus := do
  let oldStatus := (← get).intr
  modify fun h => { h with intr := .intrOff }
  return oldStatus

/-- `intr_set_status` -/
def intrSetStatus (status : IntrStatus) : ListM σ IntrStatus :=
  if status = .intrOn then intrEnable else intrDisable

/-- `list_init` -/
def listInit (list : UInt32) : ListM σ Unit := do
  setPrev (headOf list) null
  setNext (headOf list) (tailOf list)
  setPrev (tailOf list) (headOf list)
  setNext (tailOf list) null

/-- `list_insert_before` -/
def listInsertBefore (before elem : UInt32) : ListM σ Unit := do
  let oldStatus ← intrDisable
  setNext (← readElem before).prev elem
  setPrev elem (← readElem before).prev
  setNext elem before
  setPrev before elem
  let _ ← intrSetStatus oldStatus

/-- `list_push` -/
def listPush (plist elem : UInt32) : ListM σ Unit := do
  listInsertBefore (← readElem (headOf plist)).next elem

/-- `list_append` -/
def listAppend (plist elem : UInt32) : ListM σ Unit := listInsertBefore (tailOf plist) elem

/-- `list_remove` -/
def listRemove (pelem : UInt32) : ListM σ Unit := do
  let oldStatus ← intrDisable
  setNext (← readElem pelem).prev (← readElem pelem).next
  setPrev (← readElem pelem).next (← readElem pelem).prev
  let _ ← intrSetStatus oldStatus

/-- `list_pop` -/
def listPop (plist : UInt32) : ListM σ UInt32 := do
  let elem := (← readElem (headOf plist)).next
  listRemove elem
  return elem

/-- `list_empty` -/
def listEmpty (plist : UInt32) : ListM σ Bool := do
  return (← readElem (headOf plist)).next == tailOf plist

/-- More turns than there are addresses: a loop that makes so many goes on forever. -/
def listTurns : ℕ := 2 ^ 32

/-- The loop of `elem_find` -/
def elemFindLoop (plist objElem : UInt32) : ℕ → UInt32 → ListM σ Bool
  | 0, _ => throw .diverged
  | turns + 1, elem => do
    if elem ≠ tailOf plist then
      if elem = objElem then return true
      elemFindLoop plist objElem turns (← readElem elem).next
    else return false

/-- `elem_find` -/
def elemFind (plist objElem : UInt32) : ListM σ Bool := do
  elemFindLoop plist objElem listTurns (← readElem (headOf plist)).next

/-- `function`. It may use and change the rest of the memory, and it may not return. -/
abbrev ListFunction (σ : Type) := UInt32 → Int32 → Exec σ Fault Bool

/-- Run what leaves the lists alone. -/
def onRest {α : Type} (m : Exec σ Fault α) : ListM σ α := fun h => do
  let r ← m h.rest
  return (r.1, { h with rest := r.2 })

/-- The loop of `list_traversal` -/
def listTraversalLoop (plist : UInt32) (func : ListFunction σ) (arg : Int32) :
    ℕ → UInt32 → ListM σ UInt32
  | 0, _ => throw .diverged
  | turns + 1, elem => do
    if elem ≠ tailOf plist then
      if ← onRest (func elem arg) then return elem
      listTraversalLoop plist func arg turns (← readElem elem).next
    else return null

/-- `list_traversal` -/
def listTraversal (plist : UInt32) (func : ListFunction σ) (arg : Int32) : ListM σ UInt32 := do
  let elem := (← readElem (headOf plist)).next
  if ← listEmpty plist then return null
  listTraversalLoop plist func arg listTurns elem

/-- The loop of `list_len` -/
def listLenLoop (plist : UInt32) : ℕ → UInt32 → UInt32 → ListM σ UInt32
  | 0, _, _ => throw .diverged
  | turns + 1, elem, length => do
    if elem ≠ tailOf plist then listLenLoop plist turns (← readElem elem).next (length + 1)
    else return length

/-- `list_len` -/
def listLen (plist : UInt32) : ListM σ UInt32 := do
  listLenLoop plist listTurns (← readElem (headOf plist)).next 0

/-! ## What the links become -/

namespace ListHeap

variable (h : ListHeap σ) (p q : UInt32)

/-- The forward links. -/
def next : UInt32 → UInt32 := fun p => (h.elem p).next

/-- The backward links. -/
def prev : UInt32 → UInt32 := fun p => (h.elem p).prev

/-- The links become others. -/
def withLinks (next prev : UInt32 → UInt32) : ListHeap σ :=
  { h with elem := fun p => { prev := prev p, next := next p } }

@[simp] theorem next_withLinks (next prev : UInt32 → UInt32) : (h.withLinks next prev).next = next := rfl
@[simp] theorem prev_withLinks (next prev : UInt32 → UInt32) : (h.withLinks next prev).prev = prev := rfl

theorem withLinks_self : h.withLinks h.next h.prev = h := rfl

end ListHeap

open Linked

section Links

variable {h : ListHeap σ} {p q before elem : UInt32} {E : Fault → Prop}

@[simp] theorem post_readElem {Q : ListElem → ListHeap σ → Prop} :
    Exec.Post (readElem p) h Q E ↔ (p = null → E .badPointer) ∧ (p ≠ null → Q (h.elem p) h) := by
  unfold readElem
  simp

theorem withLinks_next (h : ListHeap σ) (p q : UInt32) :
    { h with elem := Function.update h.elem p { h.elem p with next := q } } =
      h.withLinks (Function.update h.next p q) h.prev := by
  simp only [ListHeap.withLinks, ListHeap.mk.injEq, and_true]
  funext a
  by_cases ha : a = p
  · subst ha
    simp [ListHeap.prev]
  · simp [Function.update_of_ne ha, ListHeap.next, ListHeap.prev]

theorem withLinks_prev (h : ListHeap σ) (p q : UInt32) :
    { h with elem := Function.update h.elem p { h.elem p with prev := q } } =
      h.withLinks h.next (Function.update h.prev p q) := by
  simp only [ListHeap.withLinks, ListHeap.mk.injEq, and_true]
  funext a
  by_cases ha : a = p
  · subst ha
    simp [ListHeap.next]
  · simp [Function.update_of_ne ha, ListHeap.next, ListHeap.prev]

@[simp] theorem post_setNext {Q : Unit → ListHeap σ → Prop} :
    Exec.Post (setNext p q) h Q E ↔ (p = null → E .badPointer) ∧
      (p ≠ null → Q () (h.withLinks (Function.update h.next p q) h.prev)) := by
  unfold setNext
  simp [withLinks_next]

@[simp] theorem post_setPrev {Q : Unit → ListHeap σ → Prop} :
    Exec.Post (setPrev p q) h Q E ↔ (p = null → E .badPointer) ∧
      (p ≠ null → Q () (h.withLinks h.next (Function.update h.prev p q))) := by
  unfold setPrev
  simp [withLinks_prev]

@[simp] theorem post_intrSetStatus {status : IntrStatus} {Q : IntrStatus → ListHeap σ → Prop} :
    Exec.Post (intrSetStatus status) h Q E ↔ Q h.intr { h with intr := status } := by
  cases status with
  | intrOff => rfl
  | intrOn => rfl

/-- A node is linked in. -/
theorem listInsertBefore_eq (hbefore : before ≠ null) (hprev : h.prev before ≠ null)
    (helem : elem ≠ null) : listInsertBefore before elem h = .ok ((),
      h.withLinks (insertNext h.next h.prev before elem) (insertPrev h.prev before elem)) := by
  have hprev' : (h.elem before).prev ≠ null := hprev
  apply Exec.eq_ok_iff.mpr
  simp only [listInsertBefore, intrDisable, Exec.post_bind, Exec.post_get, Exec.post_modify,
    Exec.post_pure, post_readElem, post_setNext, post_setPrev, post_intrSetStatus, hbefore, hprev',
    helem, false_imp_iff, true_and, ne_eq, not_false_eq_true, forall_const]
  rfl

/-- A node is taken out. -/
theorem listRemove_eq (helem : elem ≠ null) (hprev : h.prev elem ≠ null)
    (hnext : h.next elem ≠ null) : listRemove elem h =
      .ok ((), h.withLinks (removeNext h.next h.prev elem) (removePrev h.next h.prev elem)) := by
  have hprev' : (h.elem elem).prev ≠ null := hprev
  -- the second assignment reads the forward link after the first one has written it
  have hread : removeNext h.next h.prev elem elem = h.next elem := by
    by_cases heq : elem = h.prev elem
    · rw [removeNext, ← heq, Function.update_self]
    · exact removeNext_of_ne heq
  apply Exec.eq_ok_iff.mpr
  simp only [listRemove, intrDisable, Exec.post_bind, Exec.post_get, Exec.post_modify,
    Exec.post_pure, post_readElem, post_setNext, post_setPrev, post_intrSetStatus, helem, hprev',
    false_imp_iff, true_and, ne_eq, not_false_eq_true, forall_const]
  change (removeNext h.next h.prev elem elem = null → False) ∧
    (¬ removeNext h.next h.prev elem elem = null → h.withLinks (removeNext h.next h.prev elem)
      (Function.update h.prev (removeNext h.next h.prev elem elem) (h.prev elem)) = _)
  rw [hread]
  exact ⟨hnext, fun _ => rfl⟩

end Links

/-! ## The sequences -/

/-- The addresses of the nodes and sentinels of a list that holds `xs`. -/
def listNodes (plist : UInt32) (xs : List UInt32) : List UInt32 :=
  headOf plist :: xs ++ [tailOf plist]

/-- A list is linked in both directions from its head over the nodes `xs` to its tail, and these
are objects of their own. -/
structure ListHeap.Represents (h : ListHeap σ) (plist : UInt32) (xs : List UInt32) : Prop where
  linked : Seg h.next h.prev (headOf plist) xs (tailOf plist)
  prev_head : h.prev (headOf plist) = null
  next_tail : h.next (tailOf plist) = null
  nodup : (listNodes plist xs).Nodup
  null_not_mem : null ∉ listNodes plist xs

/-- The heap holds the sequences `seqs` in lists that have no node or sentinel in common. -/
structure ListHeap.Holds (h : ListHeap σ) (seqs : UInt32 → Option (List UInt32)) : Prop where
  represents : ∀ l xs, seqs l = some xs → h.Represents l xs
  disjoint : ∀ l l' xs xs', seqs l = some xs → seqs l' = some xs' → l ≠ l' →
    (listNodes l xs).Disjoint (listNodes l' xs')

/-- An object that is in no list. -/
def FreeElem (seqs : UInt32 → Option (List UInt32)) (elem : UInt32) : Prop :=
  elem ≠ null ∧ ∀ l xs, seqs l = some xs → elem ∉ listNodes l xs

section Sequences

variable {h h' : ListHeap σ} {seqs : UInt32 → Option (List UInt32)} {l e : UInt32}
  {xs ys pre post : List UInt32}

theorem listNodes_append (l : UInt32) (pre post : List UInt32) :
    listNodes l (pre ++ post) = (headOf l :: pre) ++ (post ++ [tailOf l]) := by
  simp [listNodes]

theorem listNodes_perm (l e : UInt32) (pre post : List UInt32) :
    (listNodes l (pre ++ e :: post)).Perm (e :: listNodes l (pre ++ post)) := by
  rw [listNodes_append, listNodes_append]
  exact List.perm_middle

/-- The node at a place of a list, or the tail at its end. -/
theorem headD_tail_mem (post : List UInt32) (l : UInt32) :
    post.headD (tailOf l) ∈ post ++ [tailOf l] := by
  cases post with
  | nil => exact List.mem_cons_self
  | cons c post => exact List.mem_cons_self

namespace ListHeap

theorem Represents.congr (hr : h.Represents l xs)
    (hnext : ∀ z ∈ listNodes l xs, h'.next z = h.next z)
    (hprev : ∀ z ∈ listNodes l xs, h'.prev z = h.prev z) : h'.Represents l xs where
  linked := hr.linked.congr (fun z hz => hnext z (List.mem_append_left _ hz))
    fun z hz => hprev z (List.mem_cons_of_mem _ hz)
  prev_head := (hprev _ List.mem_cons_self).trans hr.prev_head
  next_tail := (hnext _ (List.mem_append_right _ (List.mem_singleton_self _))).trans hr.next_tail
  nodup := hr.nodup
  null_not_mem := hr.null_not_mem

theorem Represents.disjoint (hr : h.Represents l (pre ++ post)) :
    (headOf l :: pre).Disjoint (post ++ [tailOf l]) := by
  have hnodup := hr.nodup
  rw [listNodes_append] at hnodup
  exact (List.nodup_append'.mp hnodup).2.2

theorem Represents.insert (hr : h.Represents l (pre ++ post)) (hnull : e ≠ null)
    (he : e ∉ listNodes l (pre ++ post)) :
    (h.withLinks (insertNext h.next h.prev (post.headD (tailOf l)) e)
      (insertPrev h.prev (post.headD (tailOf l)) e)).Represents l (pre ++ e :: post) where
  linked := hr.linked.insert_middle hr.nodup he
  prev_head := by
    have hl : headOf l ≠ post.headD (tailOf l) := fun heq =>
      hr.disjoint List.mem_cons_self (heq ▸ headD_tail_mem post l)
    have hle : headOf l ≠ e := fun heq => he (heq ▸ List.mem_cons_self)
    exact (insertPrev_of_ne hl hle).trans hr.prev_head
  next_tail := by
    have hl : tailOf l ≠ h.prev (post.headD (tailOf l)) := fun heq =>
      hr.disjoint hr.linked.prev_headD_mem
        (heq ▸ List.mem_append_right _ (List.mem_singleton_self _))
    have hle : tailOf l ≠ e := fun heq =>
      he (heq ▸ List.mem_append_right _ (List.mem_singleton_self _))
    exact (insertNext_of_ne hl hle).trans hr.next_tail
  nodup := (listNodes_perm l e pre post).nodup_iff.mpr (List.nodup_cons.mpr ⟨he, hr.nodup⟩)
  null_not_mem := by
    rw [(listNodes_perm l e pre post).mem_iff, List.mem_cons, not_or]
    exact ⟨hnull.symm, hr.null_not_mem⟩

/-- The neighbours of a node. -/
theorem Represents.neighbours (hr : h.Represents l (pre ++ e :: post)) :
    h.prev e ∈ headOf l :: pre ∧ h.next e ∈ post ++ [tailOf l] := by
  obtain ⟨hpre, hpost⟩ := seg_append.mp hr.linked
  exact ⟨hpre.prev_mem, hpost.next_mem⟩

theorem Represents.remove (hr : h.Represents l (pre ++ e :: post)) :
    (h.withLinks (removeNext h.next h.prev e) (removePrev h.next h.prev e)).Represents l
      (pre ++ post) where
  linked := hr.linked.remove hr.nodup
  prev_head := by
    have hl : headOf l ≠ h.next e := fun heq =>
      hr.disjoint List.mem_cons_self (heq ▸ List.mem_cons_of_mem e hr.neighbours.2)
    exact (removePrev_of_ne hl).trans hr.prev_head
  next_tail := by
    have hl : tailOf l ≠ h.prev e := fun heq => hr.disjoint hr.neighbours.1
      (heq ▸ List.mem_append_right _ (List.mem_singleton_self _))
    exact (removeNext_of_ne hl).trans hr.next_tail
  nodup := (List.nodup_cons.mp ((listNodes_perm l e pre post).nodup_iff.mp hr.nodup)).2
  null_not_mem := fun hin => hr.null_not_mem
    ((listNodes_perm l e pre post).mem_iff.mpr (List.mem_cons_of_mem e hin))

/-- One list changes. -/
theorem Holds.update (hh : h.Holds seqs) (hl : h'.Represents l ys)
    (hothers : ∀ l' xs', l' ≠ l → seqs l' = some xs' → h'.Represents l' xs')
    (hdisjoint : ∀ l' xs', l' ≠ l → seqs l' = some xs' →
      (listNodes l ys).Disjoint (listNodes l' xs')) :
    h'.Holds (Function.update seqs l (some ys)) := by
  constructor
  · intro l' xs' hl'
    rcases eq_or_ne l' l with rfl | hne
    · rw [Function.update_self] at hl'
      exact Option.some.inj hl' ▸ hl
    · rw [Function.update_of_ne hne] at hl'
      exact hothers l' xs' hne hl'
  · intro l₁ l₂ xs₁ xs₂ h₁ h₂ hne
    rcases eq_or_ne l₁ l with rfl | hne₁
    · rw [Function.update_self] at h₁
      rw [Function.update_of_ne hne.symm] at h₂
      exact Option.some.inj h₁ ▸ hdisjoint l₂ xs₂ hne.symm h₂
    · rw [Function.update_of_ne hne₁] at h₁
      rcases eq_or_ne l₂ l with rfl | hne₂
      · rw [Function.update_self] at h₂
        exact Option.some.inj h₂ ▸ List.disjoint_comm.mp (hdisjoint l₁ xs₁ hne₁ h₁)
      · rw [Function.update_of_ne hne₂] at h₂
        exact hh.disjoint l₁ l₂ xs₁ xs₂ h₁ h₂ hne

theorem Holds.insert (hh : h.Holds seqs) (hl : seqs l = some (pre ++ post))
    (he : FreeElem seqs e) :
    (h.withLinks (insertNext h.next h.prev (post.headD (tailOf l)) e)
      (insertPrev h.prev (post.headD (tailOf l)) e)).Holds
        (Function.update seqs l (some (pre ++ e :: post))) := by
  have hr := hh.represents l _ hl
  apply hh.update (hr.insert he.1 (he.2 l _ hl))
  · intro l' xs' hne hl'
    -- the neighbours of what is linked in are in the one list
    have hmem : ∀ z ∈ listNodes l' xs', z ∉ (headOf l :: pre) ++ (post ++ [tailOf l]) := by
      rw [← listNodes_append]
      exact fun z hz hin => hh.disjoint l' l _ _ hl' hl hne hz hin
    have hnew : ∀ z ∈ listNodes l' xs', z ≠ e := fun z hz heq => he.2 l' xs' hl' (heq ▸ hz)
    apply (hh.represents l' xs' hl').congr
    · exact fun z hz => insertNext_of_ne
        (fun heq => hmem z hz (List.mem_append_left _ (heq ▸ hr.linked.prev_headD_mem))) (hnew z hz)
    · exact fun z hz => insertPrev_of_ne
        (fun heq => hmem z hz (List.mem_append_right _ (heq ▸ headD_tail_mem post l))) (hnew z hz)
  · intro l' xs' hne hl' z hz hz'
    rw [(listNodes_perm l e pre post).mem_iff, List.mem_cons] at hz
    rcases hz with rfl | hz
    · exact he.2 l' xs' hl' hz'
    · exact hh.disjoint l l' _ _ hl hl' hne.symm hz hz'

theorem Holds.remove (hh : h.Holds seqs) (hl : seqs l = some (pre ++ e :: post)) :
    (h.withLinks (removeNext h.next h.prev e) (removePrev h.next h.prev e)).Holds
      (Function.update seqs l (some (pre ++ post))) := by
  have hr := hh.represents l _ hl
  apply hh.update hr.remove
  · intro l' xs' hne hl'
    have hmem : ∀ z ∈ listNodes l' xs', z ∉ (headOf l :: pre) ++ (e :: post ++ [tailOf l]) := by
      rw [← listNodes_append]
      exact fun z hz hin => hh.disjoint l' l _ _ hl' hl hne hz hin
    apply (hh.represents l' xs' hl').congr
    · exact fun z hz => removeNext_of_ne
        fun heq => hmem z hz (List.mem_append_left _ (heq ▸ hr.neighbours.1))
    · exact fun z hz => removePrev_of_ne fun heq =>
        hmem z hz (List.mem_append_right _ (List.mem_cons_of_mem e (heq ▸ hr.neighbours.2)))
  · intro l' xs' hne hl' z hz hz'
    exact hh.disjoint l l' _ _ hl hl' hne.symm
      ((listNodes_perm l e pre post).mem_iff.mpr (List.mem_cons_of_mem e hz)) hz'

end ListHeap

/-! ## The operations -/

/-- The call returns `r`, makes the heap hold `seqs`, and leaves everything else as it is. -/
def Acts {α : Type} (m : ListM σ α) (h : ListHeap σ) (r : α)
    (seqs : UInt32 → Option (List UInt32)) : Prop :=
  ∃ h', m h = .ok (r, h') ∧ h'.Holds seqs ∧ h'.intr = h.intr ∧ h'.rest = h.rest

theorem readElem_eq {p : UInt32} (hp : p ≠ null) : readElem p h = .ok (h.elem p, h) := by
  rw [readElem, if_neg hp]
  rfl

namespace ListHeap

theorem Represents.ne_null (hr : h.Represents l xs) {z : UInt32} (hz : z ∈ listNodes l xs) :
    z ≠ null := fun heq => hr.null_not_mem (heq ▸ hz)

theorem Represents.head_ne_null (hr : h.Represents l xs) : headOf l ≠ null :=
  hr.ne_null List.mem_cons_self

/-- The first link leads to the first node. -/
theorem Represents.next_head (hr : h.Represents l xs) :
    (h.elem (headOf l)).next = xs.headD (tailOf l) := hr.linked.next_eq

theorem Holds.listInsertBefore (pre post : List UInt32) (hh : h.Holds seqs)
    (hl : seqs l = some (pre ++ post)) (he : FreeElem seqs e) : Acts (listInsertBefore (post.headD (tailOf l)) e) h ()
      (Function.update seqs l (some (pre ++ e :: post))) := by
  have hr := hh.represents l _ hl
  have hbefore : post.headD (tailOf l) ≠ null := by
    apply hr.ne_null
    rw [listNodes_append]
    exact List.mem_append_right _ (headD_tail_mem post l)
  have hprev : h.prev (post.headD (tailOf l)) ≠ null := by
    apply hr.ne_null
    rw [listNodes_append]
    exact List.mem_append_left _ hr.linked.prev_headD_mem
  exact ⟨_, listInsertBefore_eq hbefore hprev he.1, hh.insert hl he, rfl, rfl⟩

theorem Holds.listRemove (pre : List UInt32) (hh : h.Holds seqs)
    (hl : seqs l = some (pre ++ e :: post)) :
    Acts (listRemove e) h () (Function.update seqs l (some (pre ++ post))) := by
  have hr := hh.represents l _ hl
  have hnodes := listNodes_append l pre (e :: post)
  have helem : e ≠ null := by
    apply hr.ne_null
    rw [hnodes]
    exact List.mem_append_right _ List.mem_cons_self
  have hprev : h.prev e ≠ null := by
    apply hr.ne_null
    rw [hnodes]
    exact List.mem_append_left _ hr.neighbours.1
  have hnext : h.next e ≠ null := by
    apply hr.ne_null
    rw [hnodes]
    exact List.mem_append_right _ (List.mem_cons_of_mem e hr.neighbours.2)
  exact ⟨_, listRemove_eq helem hprev hnext, hh.remove hl, rfl, rfl⟩

theorem Holds.listPush (hh : h.Holds seqs) (hl : seqs l = some xs) (he : FreeElem seqs e) :
    Acts (listPush l e) h () (Function.update seqs l (some (e :: xs))) := by
  have hr := hh.represents l _ hl
  obtain ⟨h', heq, hrest⟩ := hh.listInsertBefore [] xs hl he
  refine ⟨h', ?_, hrest⟩
  rw [Winx.listPush, Exec.bind_eq_ok (readElem_eq hr.head_ne_null), hr.next_head]
  exact heq

theorem Holds.listAppend (hh : h.Holds seqs) (hl : seqs l = some xs) (he : FreeElem seqs e) :
    Acts (listAppend l e) h () (Function.update seqs l (some (xs ++ [e]))) :=
  hh.listInsertBefore xs [] (hl.trans (by rw [List.append_nil])) he

theorem Holds.listPop (hh : h.Holds seqs) (hl : seqs l = some (e :: xs)) :
    Acts (listPop l) h e (Function.update seqs l (some xs)) := by
  have hr := hh.represents l _ hl
  obtain ⟨h', heq, hrest⟩ := hh.listRemove [] hl
  refine ⟨h', ?_, hrest⟩
  rw [Winx.listPop, Exec.bind_eq_ok (readElem_eq hr.head_ne_null), hr.next_head, List.headD_cons,
    Exec.bind_eq_ok heq]
  rfl

end ListHeap

/-! ## The loops

The induction is on the nodes that are still to come.
-/

/-- A loop over the list still has the nodes `xs` to come. -/
def ListHeap.Ahead (h : ListHeap σ) (l : UInt32) (xs : List UInt32) : Prop :=
  (∃ x, Seg h.next h.prev x xs (tailOf l)) ∧ tailOf l ∉ xs ∧ null ∉ xs

variable {a : UInt32} {turns : ℕ}

theorem ListHeap.Ahead.cons (ha : h.Ahead l (a :: xs)) :
    a ≠ tailOf l ∧ a ≠ null ∧ (h.elem a).next = xs.headD (tailOf l) ∧ h.Ahead l xs := by
  obtain ⟨⟨x, -, -, hseg⟩, htail, hnull⟩ := ha
  rw [List.mem_cons, not_or] at htail hnull
  exact ⟨Ne.symm htail.1, Ne.symm hnull.1, hseg.next_eq, ⟨a, hseg⟩, htail.2, hnull.2⟩

theorem ListHeap.Represents.ahead (hr : h.Represents l xs) : h.Ahead l xs := by
  refine ⟨⟨_, hr.linked⟩, fun hin => ?_, fun hin => ?_⟩
  · have hnodup := (List.nodup_cons.mp hr.nodup).2
    exact (List.nodup_append'.mp hnodup).2.2 hin (List.mem_singleton_self _)
  · exact hr.null_not_mem (List.mem_cons_of_mem _ (List.mem_append_left _ hin))

theorem elemFindLoop_eq {obj : UInt32} (ha : h.Ahead l xs) (hturns : xs.length < turns) :
    elemFindLoop l obj turns (xs.headD (tailOf l)) h = .ok (decide (obj ∈ xs), h) := by
  induction xs generalizing turns with
  | nil =>
    obtain ⟨turns, rfl⟩ := Nat.exists_eq_add_one.mpr hturns
    rw [elemFindLoop, List.headD_nil, if_neg (not_not_intro rfl)]
    rfl
  | cons a xs ih =>
    obtain ⟨turns, rfl⟩ := Nat.exists_eq_add_one.mpr (Nat.zero_lt_of_lt hturns)
    obtain ⟨htail, hnull, hnext, ha⟩ := ha.cons
    rw [elemFindLoop, List.headD_cons, if_pos htail]
    by_cases hobj : a = obj
    · rw [if_pos hobj, hobj, decide_eq_true List.mem_cons_self]
      rfl
    · have hmem : decide (obj ∈ a :: xs) = decide (obj ∈ xs) := by simp [Ne.symm hobj]
      rw [if_neg hobj, Exec.bind_eq_ok (readElem_eq hnull), hnext, hmem]
      exact ih ha (Nat.lt_of_succ_lt_succ hturns)

theorem listLenLoop_eq {length : UInt32} (ha : h.Ahead l xs) (hturns : xs.length < turns) :
    listLenLoop l turns (xs.headD (tailOf l)) length h =
      .ok (length + UInt32.ofNat xs.length, h) := by
  induction xs generalizing turns length with
  | nil =>
    obtain ⟨turns, rfl⟩ := Nat.exists_eq_add_one.mpr hturns
    rw [listLenLoop, List.headD_nil, if_neg (not_not_intro rfl)]
    simp
    rfl
  | cons a xs ih =>
    obtain ⟨turns, rfl⟩ := Nat.exists_eq_add_one.mpr (Nat.zero_lt_of_lt hturns)
    obtain ⟨htail, hnull, hnext, ha⟩ := ha.cons
    have hlength : length + UInt32.ofNat (a :: xs).length =
        length + 1 + UInt32.ofNat xs.length := by
      rw [List.length_cons, ← Word.ofNat_add, UInt32.add_assoc,
        UInt32.add_comm (UInt32.ofNat xs.length)]
      rfl
    rw [listLenLoop, List.headD_cons, if_pos htail, Exec.bind_eq_ok (readElem_eq hnull), hnext,
      hlength]
    exact ih ha (Nat.lt_of_succ_lt_succ hturns)

/-- The first node for which a function says so. -/
def firstMatch (func : ListFunction σ) (arg : Int32) : List UInt32 → Exec σ Fault UInt32
  | [] => pure null
  | elem :: elems => do
    if ← func elem arg then return elem
    firstMatch func arg elems

theorem onRest_pure {α : Type} (r : α) : onRest (pure r : Exec σ Fault α) h = .ok (r, h) := rfl

theorem onRest_bind {α β : Type} (m : Exec σ Fault α) (f : α → Exec σ Fault β) :
    onRest (m >>= f) = (onRest m >>= fun r => onRest (f r)) := by
  funext h
  cases hm : m h.rest with
  | ok r =>
    obtain ⟨r, rest⟩ := r
    have honRest : onRest m h = .ok (r, { h with rest := rest }) := by
      simp only [onRest, hm]
      rfl
    rw [Exec.bind_eq_ok honRest, onRest, Exec.bind_eq_ok hm]
    rfl
  | error e =>
    have honRest : onRest m h = .error e := by
      simp only [onRest, hm]
      rfl
    rw [Exec.bind_eq_error honRest, onRest, Exec.bind_eq_error hm]
    rfl

theorem onRest_elem {α : Type} {m : Exec σ Fault α} {r : α} (hm : onRest m h = .ok (r, h')) :
    h'.elem = h.elem ∧ h'.intr = h.intr := by
  cases hrest : m h.rest with
  | ok s =>
    simp only [onRest, hrest] at hm
    cases hm
    exact ⟨rfl, rfl⟩
  | error e =>
    simp only [onRest, hrest] at hm
    cases hm

/-- The nodes to come are a matter of the links alone. -/
theorem ListHeap.Ahead.of_elem (ha : h.Ahead l xs) (helem : h'.elem = h.elem) :
    h'.Ahead l xs := by
  have hnext : h'.next = h.next := funext fun p => by rw [ListHeap.next, helem]; rfl
  have hprev : h'.prev = h.prev := funext fun p => by rw [ListHeap.prev, helem]; rfl
  rwa [ListHeap.Ahead, hnext, hprev]

theorem listTraversalLoop_eq {func : ListFunction σ} {arg : Int32} (ha : h.Ahead l xs)
    (hturns : xs.length < turns) :
    listTraversalLoop l func arg turns (xs.headD (tailOf l)) h =
      onRest (firstMatch func arg xs) h := by
  induction xs generalizing turns h with
  | nil =>
    obtain ⟨turns, rfl⟩ := Nat.exists_eq_add_one.mpr hturns
    rw [listTraversalLoop, List.headD_nil, if_neg (not_not_intro rfl)]
    rfl
  | cons a xs ih =>
    obtain ⟨turns, rfl⟩ := Nat.exists_eq_add_one.mpr (Nat.zero_lt_of_lt hturns)
    obtain ⟨htail, hnull, hnext, ha⟩ := ha.cons
    rw [listTraversalLoop, List.headD_cons, if_pos htail, firstMatch, onRest_bind]
    cases hm : onRest (func a arg) h with
    | ok r =>
      obtain ⟨found, h'⟩ := r
      have helem := (onRest_elem hm).1
      have hnext' : (h'.elem a).next = xs.headD (tailOf l) := by rw [helem, hnext]
      rw [Exec.bind_eq_ok hm, Exec.bind_eq_ok hm]
      cases found with
      | true => rfl
      | false =>
        rw [if_neg Bool.false_ne_true, if_neg Bool.false_ne_true,
          Exec.bind_eq_ok (readElem_eq hnull), hnext']
        exact ih (ha.of_elem helem) (Nat.lt_of_succ_lt_succ hturns)
    | error e => rw [Exec.bind_eq_error hm, Exec.bind_eq_error hm]

/-- A function that only tells nodes apart. -/
theorem firstMatch_pure {func : ListFunction σ} {arg : Int32} {p : UInt32 → Bool}
    (hfunc : ∀ elem, func elem arg = pure (p elem)) (xs : List UInt32) :
    firstMatch func arg xs = pure ((xs.find? p).getD null) := by
  induction xs with
  | nil => rfl
  | cons a xs ih =>
    rw [firstMatch, hfunc, pure_bind, ih, List.find?_cons]
    cases p a with
    | true => rfl
    | false => rfl

/-- There are not more nodes than addresses. -/
theorem ListHeap.Represents.length_lt (hr : h.Represents l xs) : xs.length < listTurns := by
  have hmap : ((listNodes l xs).map UInt32.toNat).Nodup :=
    hr.nodup.map fun _ _ => UInt32.toNat_inj.mp
  have hsub : (listNodes l xs).map UInt32.toNat ⊆ List.range listTurns := by
    intro n hn
    obtain ⟨x, -, rfl⟩ := List.mem_map.mp hn
    exact List.mem_range.mpr x.toNat_lt
  have hle := (hmap.subperm hsub).length_le
  simp only [List.length_map, List.length_range, listNodes, List.length_append, List.length_cons,
    List.length_nil] at hle
  omega

namespace ListHeap

theorem Represents.elemFind (hr : h.Represents l xs) (obj : UInt32) :
    elemFind l obj h = .ok (decide (obj ∈ xs), h) := by
  rw [Winx.elemFind, Exec.bind_eq_ok (readElem_eq hr.head_ne_null), hr.next_head]
  exact elemFindLoop_eq hr.ahead hr.length_lt

theorem Represents.listLen (hr : h.Represents l xs) :
    listLen l h = .ok (UInt32.ofNat xs.length, h) := by
  rw [Winx.listLen, Exec.bind_eq_ok (readElem_eq hr.head_ne_null), hr.next_head,
    listLenLoop_eq hr.ahead hr.length_lt, UInt32.zero_add]

theorem Represents.listEmpty (hr : h.Represents l xs) :
    listEmpty l h = .ok (xs.isEmpty, h) := by
  rw [Winx.listEmpty, Exec.bind_eq_ok (readElem_eq hr.head_ne_null), hr.next_head]
  cases xs with
  | nil =>
    rw [List.headD_nil, beq_self_eq_true]
    rfl
  | cons a xs =>
    rw [List.headD_cons, beq_false_of_ne hr.ahead.cons.1]
    rfl

theorem Represents.listTraversal (hr : h.Represents l xs) (func : ListFunction σ) (arg : Int32) :
    listTraversal l func arg h = onRest (firstMatch func arg xs) h := by
  rw [Winx.listTraversal, Exec.bind_eq_ok (readElem_eq hr.head_ne_null), hr.next_head,
    Exec.bind_eq_ok hr.listEmpty]
  cases xs with
  | nil => rfl
  | cons a xs => exact listTraversalLoop_eq hr.ahead hr.length_lt

end ListHeap

/-- An initialised list is empty, and the others are as before. -/
theorem ListHeap.Holds.listInit (hh : h.Holds seqs) (hhead : FreeElem seqs (headOf l))
    (htail : FreeElem seqs (tailOf l)) :
    Acts (listInit l) h () (Function.update seqs l (some [])) := by
  have hne : headOf l ≠ tailOf l := by
    intro heq
    have hsub : l + 8 - l = l - l := by rw [← show headOf l = l + 8 from heq]; rfl
    rw [UInt32.sub_self, UInt32.add_comm, UInt32.add_sub_cancel] at hsub
    exact absurd hsub (by decide)
  have hlinks : Winx.listInit l h = .ok ((), h.withLinks
      (Function.update (Function.update h.next (headOf l) (tailOf l)) (tailOf l) null)
      (Function.update (Function.update h.prev (headOf l) null) (tailOf l) (headOf l))) := by
    apply Exec.eq_ok_iff.mpr
    simp only [Winx.listInit, Exec.post_bind, post_setNext, post_setPrev, hhead.1, htail.1,
      false_imp_iff, true_and, ne_eq, not_false_eq_true, forall_const]
    rfl
  refine ⟨_, hlinks, hh.update ?_ ?_ ?_, rfl, rfl⟩
  · constructor
    · refine ⟨?_, Function.update_self ..⟩
      rw [ListHeap.next_withLinks, Function.update_of_ne hne, Function.update_self]
    · rw [ListHeap.prev_withLinks, Function.update_of_ne hne, Function.update_self]
    · exact Function.update_self ..
    · simpa [listNodes] using hne
    · simpa [listNodes] using ⟨Ne.symm hhead.1, Ne.symm htail.1⟩
  · intro l' xs' _ hl'
    have hnehead : ∀ z ∈ listNodes l' xs', z ≠ headOf l := fun z hz heq =>
      hhead.2 l' xs' hl' (heq ▸ hz)
    have hnetail : ∀ z ∈ listNodes l' xs', z ≠ tailOf l := fun z hz heq =>
      htail.2 l' xs' hl' (heq ▸ hz)
    apply (hh.represents l' xs' hl').congr
    · intro z hz
      rw [ListHeap.next_withLinks, Function.update_of_ne (hnetail z hz),
        Function.update_of_ne (hnehead z hz)]
    · intro z hz
      rw [ListHeap.prev_withLinks, Function.update_of_ne (hnetail z hz),
        Function.update_of_ne (hnehead z hz)]
  · intro l' xs' _ hl' z hz hz'
    simp only [listNodes, List.cons_append, List.nil_append, List.mem_cons, List.not_mem_nil,
      or_false] at hz
    rcases hz with rfl | rfl
    · exact hhead.2 l' xs' hl' hz'
    · exact htail.2 l' xs' hl' hz'

theorem ListHeap.Holds.of_elem (hh : h.Holds seqs) (helem : h'.elem = h.elem) : h'.Holds seqs where
  represents l xs hl := (hh.represents l xs hl).congr
    (fun z _ => by rw [ListHeap.next, helem]; rfl) fun z _ => by rw [ListHeap.prev, helem]; rfl
  disjoint := hh.disjoint

/-- The operations act on the sequences that a heap holds as one expects, each on the sequence of
its own list. -/
theorem listOperations_refine (h : ListHeap σ) (seqs : UInt32 → Option (List UInt32))
    (hh : h.Holds seqs) :
    (∀ l xs e, seqs l = some xs → FreeElem seqs e →
      Acts (listPush l e) h () (Function.update seqs l (some (e :: xs)))) ∧
    (∀ l xs e, seqs l = some xs → FreeElem seqs e →
      Acts (listAppend l e) h () (Function.update seqs l (some (xs ++ [e])))) ∧
    (∀ l pre b post e, seqs l = some (pre ++ b :: post) → FreeElem seqs e →
      Acts (listInsertBefore b e) h () (Function.update seqs l (some (pre ++ e :: b :: post)))) ∧
    (∀ l pre e post, seqs l = some (pre ++ e :: post) →
      Acts (listRemove e) h () (Function.update seqs l (some (pre ++ post)))) ∧
    (∀ l e xs, seqs l = some (e :: xs) →
      Acts (listPop l) h e (Function.update seqs l (some xs))) ∧
    (∀ l xs obj, seqs l = some xs → elemFind l obj h = .ok (decide (obj ∈ xs), h)) ∧
    (∀ l xs, seqs l = some xs → ∃ n, listLen l h = .ok (n, h) ∧ n.toNat = xs.length) ∧
    (∀ l xs func arg p, seqs l = some xs → (∀ e, func e arg = pure (p e)) →
      listTraversal l func arg h = .ok ((xs.find? p).getD null, h)) ∧
    (∀ l xs func arg, seqs l = some xs →
      listTraversal l func arg h = onRest (firstMatch func arg xs) h ∧
        Exec.Ensures (listTraversal l func arg) h fun _ h' => h'.Holds seqs) := by
  refine ⟨fun l xs e hl he => hh.listPush hl he, fun l xs e hl he => hh.listAppend hl he,
    fun l pre b post e hl he => hh.listInsertBefore pre (b :: post) hl he,
    fun l pre e post hl => hh.listRemove pre hl, fun l e xs hl => hh.listPop hl,
    fun l xs obj hl => (hh.represents l xs hl).elemFind obj, fun l xs hl => ?_,
    fun l xs func arg p hl hfunc => ?_, fun l xs func arg hl => ?_⟩
  · have hr := hh.represents l xs hl
    exact ⟨_, hr.listLen, Word.toNat_ofNat hr.length_lt⟩
  · rw [(hh.represents l xs hl).listTraversal, firstMatch_pure hfunc]
    exact onRest_pure _
  · have heq := (hh.represents l xs hl).listTraversal func arg
    refine ⟨heq, Exec.ensures_iff.mpr fun r h' hr => ?_⟩
    rw [heq] at hr
    exact hh.of_elem (onRest_elem hr).1

end Sequences

/-- Two lists, of which the second one is empty. -/
def twoLists : ListHeap Unit where
  elem p :=
    if p = 0x100 then ⟨null, 0x200⟩
    else if p = 0x200 then ⟨0x100, 0x300⟩
    else if p = 0x300 then ⟨0x200, 0x108⟩
    else if p = 0x108 then ⟨0x300, null⟩
    else if p = 0x400 then ⟨null, 0x408⟩
    else if p = 0x408 then ⟨0x400, null⟩
    else ⟨null, null⟩
  intr := .intrOn
  rest := ()

/-- What they hold. -/
def twoSeqs : UInt32 → Option (List UInt32) :=
  Function.update (Function.update (fun _ => none) 0x100 (some [0x200, 0x300])) 0x400 (some [])

theorem holds_twoLists : twoLists.Holds twoSeqs := by
  have hcases : ∀ l xs, twoSeqs l = some xs →
      l = 0x100 ∧ xs = [0x200, 0x300] ∨ l = 0x400 ∧ xs = [] := by
    intro l xs hl
    simp only [twoSeqs, Function.update_apply] at hl
    split at hl
    · exact .inr ⟨‹_›, (Option.some.inj hl).symm⟩
    · split at hl
      · exact .inl ⟨‹_›, (Option.some.inj hl).symm⟩
      · cases hl
  have hdisjoint : ∀ z ∈ listNodes 0x100 [0x200, 0x300], z ∉ listNodes 0x400 [] := by
    simp [listNodes, headOf, tailOf]
  constructor
  · intro l xs hl
    rcases hcases l xs hl with ⟨rfl, rfl⟩ | ⟨rfl, rfl⟩
    · exact ⟨by simp only [Seg]; decide, by decide, by decide, by decide, by decide⟩
    · exact ⟨by simp only [Seg]; decide, by decide, by decide, by decide, by decide⟩
  · intro l l' xs xs' hl hl' hne
    rcases hcases l xs hl with ⟨rfl, rfl⟩ | ⟨rfl, rfl⟩
    · rcases hcases l' xs' hl' with ⟨rfl, rfl⟩ | ⟨rfl, rfl⟩
      · exact absurd rfl hne
      · exact hdisjoint
    · rcases hcases l' xs' hl' with ⟨rfl, rfl⟩ | ⟨rfl, rfl⟩
      · exact fun z hz hz' => hdisjoint z hz' hz
      · exact absurd rfl hne

theorem listOperations_refine_twoLists :
    Acts (listRemove 0x200) twoLists () (Function.update twoSeqs 0x100 (some [0x300])) :=
  (listOperations_refine twoLists twoSeqs holds_twoLists).2.2.2.1 0x100 [] 0x200 [0x300] rfl

end Winx
