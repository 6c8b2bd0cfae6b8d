import Mathlib.Data.List.TakeWhile
import Mathlib.Tactic.Common

/-! # The words of a text

The words are the maximal runs of a text without the separator. A text is read word by word:
separators first, then a run up to the next separator or the end.
-/

namespace Words

variable {α : Type} [DecidableEq α] {sep : α} {l l' run : List α}

/-- The maximal runs without the separator, in their order. -/
def words (sep : α) (l : List α) : List (List α) := (l.splitOnP (· == sep)).filter (· ≠ [])

@[simp] theorem words_nil : words sep [] = [] := by
  simp [words]

theorem words_cons_sep (l : List α) : words sep (sep :: l) = words sep l := by
  simp [words, List.splitOnP_cons_eq_if_modifyHead]

theorem words_run (hne : run ≠ []) (h : sep ∉ run) : words sep run = [run] := by
  rw [words, List.splitOnP_eq_singleton, List.filter_cons_of_pos (by simpa using hne)]
  · rfl
  · exact fun c hc => beq_false_of_ne fun heq => h (heq ▸ hc)

theorem words_run_append (hne : run ≠ []) (h : sep ∉ run) (l : List α) :
    words sep (run ++ sep :: l) = run :: words sep l := by
  have hrun : ∀ c ∈ run, (c == sep) = false := fun c hc => beq_false_of_ne fun heq => h (heq ▸ hc)
  rw [words, List.splitOnP_append_cons_of_forall_mem hrun sep (beq_self_eq_true sep),
    List.filter_cons_of_pos (by simpa using hne)]
  rfl

/-- The words on both sides of a separator. -/
theorem words_append (l l' : List α) : words sep (l ++ sep :: l') = words sep l ++ words sep l' := by
  have hsplit := List.splitOnP_append_cons (p := (· == sep)) l l' (beq_self_eq_true sep)
  rw [words, hsplit, List.filter_append]
  rfl

/-- Separators at the start separate nothing. -/
theorem words_seps_append (hl : ∀ c ∈ l, c = sep) (l' : List α) : words sep (l ++ l') = words sep l' := by
  induction l with
  | nil => rfl
  | cons c l ih =>
    obtain ⟨rfl, hl⟩ := List.forall_mem_cons.mp hl
    rw [List.cons_append, words_cons_sep, ih hl]

theorem words_seps (hl : ∀ c ∈ l, c = sep) : words sep l = [] := by
  rw [← List.append_nil l, words_seps_append hl, words_nil]

/-- A text is one piece, or a piece and a text behind a separator. -/
theorem splitOnP_cases (sep : α) (l : List α) : (sep ∉ l ∧ l.splitOnP (· == sep) = [l]) ∨
    ∃ piece rest, l = piece ++ sep :: rest ∧ sep ∉ piece ∧
      l.splitOnP (· == sep) = piece :: rest.splitOnP (· == sep) := by
  by_cases hmem : sep ∈ l
  · obtain ⟨piece, rest, rfl, hpiece⟩ := List.eq_append_cons_of_mem hmem
    have hrun : ∀ c ∈ piece, (c == sep) = false := fun c hc => beq_false_of_ne fun heq => hpiece (heq ▸ hc)
    exact .inr ⟨piece, rest, rfl, hpiece,
      List.splitOnP_append_cons_of_forall_mem hrun sep (beq_self_eq_true sep) rest⟩
  · refine .inl ⟨hmem, ?_⟩
    rw [List.splitOnP_eq_singleton]
    exact fun c hc => beq_false_of_ne fun heq => hmem (heq ▸ hc)

/-- A text is only separators, or separators, a word and a rest that does not go on with it. -/
theorem exists_split (sep : α) (l : List α) : (∀ c ∈ l, c = sep) ∨
    ∃ seps run tail, l = seps ++ (run ++ tail) ∧ (∀ c ∈ seps, c = sep) ∧ run ≠ [] ∧ sep ∉ run ∧
      (tail = [] ∨ ∃ rest, tail = sep :: rest) ∧ words sep l = run :: words sep tail := by
  have hsplit := List.takeWhile_append_dropWhile (p := (· == sep)) (l := l)
  have hseps : ∀ c ∈ l.takeWhile (· == sep), c = sep := by
    intro c hc
    have heq := List.mem_takeWhile_imp hc
    exact beq_iff_eq.mp heq
  have hhead := List.head?_dropWhile_not (· == sep) l
  generalize l.takeWhile (· == sep) = seps at hsplit hseps
  generalize l.dropWhile (· == sep) = body at hsplit hhead
  subst hsplit
  have hbody := List.takeWhile_append_dropWhile (p := (· != sep)) (l := body)
  have hrun : sep ∉ body.takeWhile (· != sep) := fun hmem => by simpa using List.mem_takeWhile_imp hmem
  have htail := List.head?_dropWhile_not (· != sep) body
  generalize body.takeWhile (· != sep) = run at hbody hrun
  generalize body.dropWhile (· != sep) = tail at hbody htail
  subst hbody
  cases run with
  | nil =>
    left
    cases tail with
    | nil => simpa using hseps
    | cons c tail =>
      simp at hhead htail
      exact absurd htail hhead
  | cons c run =>
    right
    have hrest : tail = [] ∨ ∃ rest, tail = sep :: rest := by
      cases tail with
      | nil => exact .inl rfl
      | cons d tail =>
        simp at htail
        exact .inr ⟨tail, by rw [htail]⟩
    refine ⟨seps, c :: run, tail, rfl, hseps, List.cons_ne_nil _ _, hrun, hrest, ?_⟩
    rw [words_seps_append hseps]
    obtain rfl | ⟨rest, rfl⟩ := hrest
    · rw [List.append_nil, words_nil, words_run (List.cons_ne_nil _ _) hrun]
    · rw [words_run_append (List.cons_ne_nil _ _) hrun, words_cons_sep]

/-- A word is a run of characters of the text. -/
theorem of_mem_words {w : List α} (hw : w ∈ words sep l) : w ≠ [] ∧ sep ∉ w ∧ ∀ c ∈ w, c ∈ l := by
  induction h : l.length using Nat.strong_induction_on generalizing l with
  | _ n ih =>
    subst h
    rcases exists_split sep l with hseps | ⟨seps, run, tail, rfl, -, hne, hrun, -, hwords⟩
    · rw [words_seps hseps] at hw
      exact absurd hw List.not_mem_nil
    · rw [hwords] at hw
      rcases List.mem_cons.mp hw with rfl | hw
      · exact ⟨hne, hrun, fun c hc => List.mem_append_right _ (List.mem_append_left _ hc)⟩
      · have hshort : tail.length < (seps ++ (run ++ tail)).length := by
          have := List.length_pos_iff.mpr hne
          rw [List.length_append, List.length_append]
          omega
        obtain ⟨hne', hsep, hsub⟩ := ih _ hshort hw rfl
        exact ⟨hne', hsep, fun c hc => List.mem_append_right _ (List.mem_append_right _ (hsub c hc))⟩

end Words
