import Winx.Impl.String
import Winx.Lib.Words

/-! # The arguments of a command

`cmd_parse` cuts a command in place at its separators and stores where the words are in an
argument vector of 16 pointers. It compares the number of arguments with the length of the
vector only after it has stored a pointer, and with one more than there is room for.
-/

namespace Winx

namespace Shell

/-- `MAX_ARG_NR` -/
def maxArgNr : ℕ := 16

/-- A command line and the vector of its arguments, with `none` for `NULL`. -/
structure CmdState where
  line : Bytes
  argv : ℕ → Option ℕ

/-- Computations on a command line. -/
abbrev CmdM := Exec CmdState Fault

/-- Do something with the line. -/
def onLine {α : Type} (m : BufM α) : CmdM α := fun s =>
  match m s.line with
  | .ok (a, line) => .ok (a, { s with line := line })
  | .error e => .error e

/-- `argv[i] = p` -/
def setArg (i : ℕ) (p : Option ℕ) : CmdM Unit := do
  inBounds (i < maxArgNr)
  modify fun s => { s with argv := Function.update s.argv i p }

/-- `while (arg_idx < MAX_ARG_NR) argv[arg_idx++] = NULL` -/
def clearArgs : CmdM Unit :=
  modify fun s => { s with argv := fun i => if i < maxArgNr then none else s.argv i }

/-- Go to the end of a word, and put a zero there if it is not the end of the command. -/
def endWord (size : ℕ) (token : UInt8) (next : ℕ) : CmdM ℕ := do
  let next ← onLine (Str.skipWhile size (fun c => c != 0 && c != token) (size + 1) next)
  if (← onLine (Str.load size next)) ≠ 0 then
    onLine (Str.store size next 0)
    return next + 1
  else return next

/-- The loop of `cmd_parse`. -/
def parseLoop (size : ℕ) (token : UInt8) : ℕ → ℕ → ℕ → CmdM ℤ
  | 0, _, _ => throw .diverged
  | fuel + 1, next, argc => do
    if (← onLine (Str.load size next)) = 0 then return argc
    let next ← onLine (Str.skipWhile size (· == token) (size + 1) next)
    if (← onLine (Str.load size next)) = 0 then return argc
    setArg argc (some next)
    let next ← endWord size token next
    if argc > maxArgNr then return -1
    parseLoop size token fuel next (argc + 1)

/-- `cmd_parse` of a command at an offset of a buffer of `size` bytes. -/
def cmdParse (size : ℕ) (token : UInt8) (cmdStr : ℕ) : CmdM ℤ := do
  clearArgs
  parseLoop size token (size + 1) cmdStr 0

/-- How `sys_execv` counts the arguments: it stops at the first `NULL` of the vector. -/
def countArgs (argv : ℕ → Option ℕ) : ℕ → ℕ → Except Fault ℕ
  | 0, _ => .error .outOfBounds
  | left + 1, argc => if (argv argc).isSome then countArgs argv left (argc + 1) else .ok argc

variable {size next argc : ℕ} {token : UInt8} {s s' : CmdState} {str : List UInt8} {α : Type}

/-! ## The parts of a turn -/

theorem onLine_eq {m : BufM α} {a : α} {line : Bytes} (h : m s.line = .ok (a, line)) :
    onLine m s = .ok (a, { s with line := line }) := by
  unfold onLine
  rw [h]

theorem setArg_eq {i : ℕ} {p : Option ℕ} (h : i < maxArgNr) (s : CmdState) :
    setArg i p s = .ok ((), { s with argv := Function.update s.argv i p }) := by
  unfold setArg inBounds
  rw [if_pos h]
  rfl

theorem setArg_error {i : ℕ} {p : Option ℕ} (h : ¬ i < maxArgNr) (s : CmdState) :
    setArg i p s = .error .outOfBounds := by
  unfold setArg inBounds
  rw [if_neg h]
  rfl

/-- A loop at the end of the command. -/
theorem parseLoop_end {fuel : ℕ} (h0 : s.line next = 0) (hsize : next < size) :
    parseLoop size token (fuel + 1) next argc s = .ok (argc, s) := by
  rw [parseLoop, Exec.bind_eq_ok (onLine_eq (Str.load_eq hsize s.line)), if_pos h0]
  rfl

/-- Only separators are left. -/
theorem parseLoop_seps {fuel : ℕ} (hstr : s.line.Holds next str) (hseps : ∀ c ∈ str, c = token)
    (htoken : token ≠ 0) (hsize : next + str.length < size) :
    parseLoop size token (fuel + 1) next argc s = .ok (argc, s) := by
  by_cases hnil : str = []
  · subst hnil
    exact parseLoop_end hstr.ends hsize
  · have hfirst : s.line next ≠ 0 := by
      obtain ⟨c, rest, rfl⟩ := List.exists_cons_of_ne_nil hnil
      rw [hstr.reads.1, hseps c List.mem_cons_self]
      exact htoken
    have hstop : (s.line (next + str.length) == token) = false := by
      rw [hstr.ends]
      exact beq_false_of_ne htoken.symm
    have hskip : Str.skipWhile size (· == token) (size + 1) next s.line = .ok (next + str.length, s.line) :=
      Str.skipWhile_eq hstr.reads (fun c hc => beq_iff_eq.mpr (hseps c hc)) hstop hsize (by omega)
    rw [parseLoop, Exec.bind_eq_ok (onLine_eq (Str.load_eq (by omega) s.line)), if_neg hfirst]
    rw [Exec.bind_eq_ok (onLine_eq hskip), Exec.bind_eq_ok (onLine_eq (Str.load_eq hsize s.line)),
      if_pos hstr.ends]
    rfl

/-- What is known in the loop before a word: separators, the word and what follows it. -/
structure AtWord (token : UInt8) (next size : ℕ) (seps run tail : List UInt8) (s : CmdState) : Prop where
  holds : s.line.Holds next (seps ++ (run ++ tail))
  seps_eq : ∀ c ∈ seps, c = token
  run_ne : run ≠ []
  run_sep : token ∉ run
  tail_eq : tail = [] ∨ ∃ rest, tail = token :: rest
  no_zero : 0 ∉ seps ++ (run ++ tail)
  token_ne : token ≠ 0
  size_lt : next + (seps ++ (run ++ tail)).length < size

variable {seps run tail : List UInt8}

namespace AtWord

variable (h : AtWord token next size seps run tail s)

include h

theorem reads : s.line.Reads next seps ∧ s.line.Reads (next + seps.length) run ∧
    s.line.Holds (next + seps.length + run.length) tail := by
  obtain ⟨hseps, hbody⟩ := Bytes.holds_append.mp h.holds
  obtain ⟨hrun, htail⟩ := Bytes.holds_append.mp hbody
  exact ⟨hseps, hrun, htail⟩

theorem length_lt : next + seps.length + run.length + tail.length < size := by
  have hlt := h.size_lt
  rw [List.length_append, List.length_append] at hlt
  omega

/-- The characters of a word do not end it. -/
theorem run_goes_on : ∀ c ∈ run, (c != 0 && c != token) = true := by
  intro c hc
  have h0 : c ≠ 0 := by
    rintro rfl
    exact h.no_zero (List.mem_append_right _ (List.mem_append_left _ hc))
  have hsep : c ≠ token := by
    rintro rfl
    exact h.run_sep hc
  rw [bne_iff_ne.mpr h0, bne_iff_ne.mpr hsep]
  rfl

theorem first_of_run : s.line (next + seps.length) ≠ 0 ∧ s.line (next + seps.length) ≠ token := by
  obtain ⟨c, rest, hrun⟩ := List.exists_cons_of_ne_nil h.run_ne
  have hc : c ∈ run := hrun ▸ List.mem_cons_self
  have hread := h.reads.2.1
  rw [hrun] at hread
  have hgoes := h.run_goes_on c hc
  rw [Bool.and_eq_true, bne_iff_ne, bne_iff_ne] at hgoes
  rw [hread.1]
  exact hgoes

/-- The loop up to where the pointer is stored. -/
theorem skip (argc fuel : ℕ) : parseLoop size token (fuel + 1) next argc s = (do
      setArg argc (some (next + seps.length))
      let next ← endWord size token (next + seps.length)
      if argc > maxArgNr then return -1
      parseLoop size token fuel next (argc + 1) : CmdM ℤ) s := by
  have hlt := h.length_lt
  obtain ⟨hne0, hnetoken⟩ := h.first_of_run
  have hfirst : s.line next ≠ 0 := by
    cases seps with
    | nil => exact hne0
    | cons c seps =>
      rw [h.reads.1.1, h.seps_eq c List.mem_cons_self]
      exact h.token_ne
  have hskip : Str.skipWhile size (· == token) (size + 1) next s.line = .ok (next + seps.length, s.line) :=
    Str.skipWhile_eq h.reads.1 (fun c hc => beq_iff_eq.mpr (h.seps_eq c hc)) (beq_false_of_ne hnetoken)
      (by omega) (by omega)
  rw [parseLoop, Exec.bind_eq_ok (onLine_eq (Str.load_eq (by omega) s.line)), if_neg hfirst]
  rw [Exec.bind_eq_ok (onLine_eq hskip), Exec.bind_eq_ok (onLine_eq (Str.load_eq (by omega) s.line)),
    if_neg hne0]

/-- The word ends with the command. -/
theorem endWord_last (htail : tail = []) : endWord size token (next + seps.length) s =
    .ok (next + seps.length + run.length, s) := by
  have hlt := h.length_lt
  obtain ⟨-, hrun, hend⟩ := h.reads
  subst htail
  have h0 : s.line (next + seps.length + run.length) = 0 := Bytes.holds_nil.mp hend
  have hskip : Str.skipWhile size (fun c => c != 0 && c != token) (size + 1) (next + seps.length) s.line =
      .ok (next + seps.length + run.length, s.line) :=
    Str.skipWhile_eq hrun h.run_goes_on (by rw [h0]; rfl) (by omega) (by omega)
  rw [endWord, Exec.bind_eq_ok (onLine_eq hskip), Exec.bind_eq_ok (onLine_eq (Str.load_eq (by omega) s.line)),
    if_neg (not_not.mpr h0)]
  rfl

/-- The word ends at a separator. -/
theorem endWord_next {rest : List UInt8} (htail : tail = token :: rest) :
    endWord size token (next + seps.length) s = .ok (next + seps.length + run.length + 1,
      { s with line := s.line.set (next + seps.length + run.length) 0 }) := by
  have hlt := h.length_lt
  obtain ⟨-, hrun, hend⟩ := h.reads
  subst htail
  have hsep : s.line (next + seps.length + run.length) = token := hend.reads.1
  have hskip : Str.skipWhile size (fun c => c != 0 && c != token) (size + 1) (next + seps.length) s.line =
      .ok (next + seps.length + run.length, s.line) :=
    Str.skipWhile_eq hrun h.run_goes_on (by rw [hsep, bne_self_eq_false, Bool.and_false]) (by omega)
      (by omega)
  rw [endWord, Exec.bind_eq_ok (onLine_eq hskip), Exec.bind_eq_ok (onLine_eq (Str.load_eq (by omega) s.line)),
    if_pos (hsep ▸ h.token_ne), Exec.bind_eq_ok (onLine_eq (Str.store_eq (by omega) 0 s.line))]
  rfl

end AtWord

/-! ## All turns -/

/-- What one turn leaves: the word cut off at `p`, and the rest of the command. -/
structure Cut (token : UInt8) (next argc p : ℕ) (str run rest : List UInt8) (next' : ℕ) (s s' : CmdState) :
    Prop where
  words_eq : Words.words token str = run :: Words.words token rest
  no_zero : 0 ∉ rest
  word : s'.line.Holds p run
  holds : s'.line.Holds next' rest
  from_le : next ≤ p
  to_le : p + run.length ≤ next'
  apart : p + run.length < next' ∨ rest = []
  length_lt : rest.length < str.length
  same_end : next' + rest.length = next + str.length
  outside : ∀ i, i < p ∨ next' ≤ i → s'.line i = s.line i
  argv_eq : s'.argv = Function.update s.argv argc (some p)

theorem AtWord.cut {str : List UInt8} (h : AtWord token next size seps run tail s)
    (hwords : Words.words token str = run :: Words.words token tail) (hstr : str = seps ++ (run ++ tail))
    (harg : argc < maxArgNr) (fuel : ℕ) : ∃ p rest next' s',
      parseLoop size token (fuel + 1) next argc s = parseLoop size token fuel next' (argc + 1) s' ∧
        Cut token next argc p str run rest next' s s' := by
  have hlt := h.length_lt
  obtain ⟨-, hrun, hend⟩ := h.reads
  have hlen : str.length = seps.length + run.length + tail.length := by
    rw [hstr, List.length_append, List.length_append, Nat.add_assoc]
  have hpos : 0 < run.length := List.length_pos_iff.mpr h.run_ne
  have hnarg : ¬ argc > maxArgNr := Nat.not_lt.mpr harg.le
  have hargs : AtWord token next size seps run tail
      { s with argv := Function.update s.argv argc (some (next + seps.length)) } :=
    ⟨h.holds, h.seps_eq, h.run_ne, h.run_sep, h.tail_eq, h.no_zero, h.token_ne, h.size_lt⟩
  have hskip := h.skip argc fuel
  rw [Exec.bind_eq_ok (setArg_eq harg s)] at hskip
  rcases h.tail_eq with htail | ⟨rest, htail⟩
  · rw [Exec.bind_eq_ok (hargs.endWord_last htail), if_neg hnarg] at hskip
    subst htail
    refine ⟨next + seps.length, [], _, _, hskip, ?_⟩
    exact {
      words_eq := hwords
      no_zero := List.not_mem_nil
      word := ⟨hrun, hend.ends⟩
      holds := hend
      from_le := Nat.le_add_right _ _
      to_le := Nat.le_refl _
      apart := .inr rfl
      length_lt := by rw [List.length_nil]; omega
      same_end := by rw [hlen]; omega
      outside := fun _ _ => rfl
      argv_eq := rfl }
  · rw [Exec.bind_eq_ok (hargs.endWord_next htail), if_neg hnarg] at hskip
    subst htail
    rw [List.length_cons] at hlen
    have hrest := (Bytes.holds_cons.mp hend).2
    refine ⟨next + seps.length, rest, _, _, hskip, ?_⟩
    exact {
      words_eq := by rw [hwords, Words.words_cons_sep]
      no_zero := fun h0 => h.no_zero (List.mem_append_right _ (List.mem_append_right _ (List.mem_cons_of_mem _ h0)))
      word := ⟨hrun.set (.inr (Nat.le_refl _)) 0, Bytes.set_self ..⟩
      holds := hrest.set (.inl (Nat.lt_succ_self _)) 0
      from_le := Nat.le_add_right _ _
      to_le := Nat.le_succ _
      apart := .inl (Nat.lt_succ_self _)
      length_lt := by omega
      same_end := by omega
      outside := fun i hi => Bytes.set_of_ne (by omega)
      argv_eq := rfl }

/-- The arguments are where the words of the command are. -/
structure Parsed (token : UInt8) (str : List UInt8) (next argc : ℕ) (s s' : CmdState) : Prop where
  args : ∀ i, (h : i < (Words.words token str).length) →
    ∃ p, s'.argv (argc + i) = some p ∧ s'.line.Holds p (Words.words token str)[i]
  others : ∀ j, j < argc ∨ argc + (Words.words token str).length ≤ j → s'.argv j = s.argv j
  outside : ∀ i, i < next ∨ next + str.length ≤ i → s'.line i = s.line i

theorem Parsed.refl {str : List UInt8} (hwords : Words.words token str = []) : Parsed token str next argc s s where
  args i h := by
    rw [hwords] at h
    exact absurd h (Nat.not_lt_zero i)
  others _ _ := rfl
  outside _ _ := rfl

/-- A word and the words after it. -/
theorem Cut.parsed {p next' : ℕ} {run rest : List UInt8} {s'' : CmdState}
    (h : Cut token next argc p str run rest next' s s') (hrest : Parsed token rest next' (argc + 1) s' s'') :
    Parsed token str next argc s s'' := by
  have hlen : (Words.words token str).length = (Words.words token rest).length + 1 := by
    rw [h.words_eq, List.length_cons]
  constructor
  · intro i hi
    cases i with
    | zero =>
      have hfirst : (Words.words token str)[0] = run := by
        simp only [h.words_eq, List.getElem_cons_zero]
      refine ⟨p, ?_, ?_⟩
      · rw [Nat.add_zero, hrest.others argc (.inl (Nat.lt_succ_self _)), h.argv_eq, Function.update_self]
      · rw [hfirst]
        apply h.word.congr
        intro i _ hi
        -- The zero behind the word is before the rest, or there is no rest.
        rcases h.apart with hlt | rfl
        · exact hrest.outside i (.inl (by omega))
        · exact hrest.outside i (by rw [List.length_nil]; omega)
    | succ i =>
      have hnext : (Words.words token str)[i + 1] = (Words.words token rest)[i] := by
        simp only [h.words_eq, List.getElem_cons_succ]
      obtain ⟨q, hq, hholds⟩ := hrest.args i (by omega)
      refine ⟨q, ?_, ?_⟩
      · rw [← hq]
        congr 1
        omega
      · rw [hnext]
        exact hholds
  · intro j hj
    rw [hrest.others j (by omega), h.argv_eq, Function.update_of_ne (by omega)]
  · intro i hi
    have hfrom := h.from_le
    have hto := h.to_le
    have hend := h.same_end
    rw [hrest.outside i (by omega), h.outside i (by omega)]

/-- What the loop needs: a command that ends in the buffer. -/
structure Command (token : UInt8) (str : List UInt8) (next size : ℕ) (s : CmdState) : Prop where
  holds : s.line.Holds next str
  no_zero : 0 ∉ str
  token_ne : token ≠ 0
  size_lt : next + str.length < size

theorem Cut.command {p next' : ℕ} {run rest : List UInt8} (h : Cut token next argc p str run rest next' s s')
    (hcmd : Command token str next size s) : Command token rest next' size s' :=
  ⟨h.holds, h.no_zero, hcmd.token_ne, h.same_end ▸ hcmd.size_lt⟩

/-- A turn of the loop finds no word, or cuts one off unless the vector is full. -/
theorem Command.turn (h : Command token str next size s) (argc fuel : ℕ) :
    (Words.words token str = [] ∧ parseLoop size token (fuel + 1) next argc s = .ok (argc, s)) ∨
      0 < (Words.words token str).length ∧
        (argc < maxArgNr → ∃ p run rest next' s',
          parseLoop size token (fuel + 1) next argc s = parseLoop size token fuel next' (argc + 1) s' ∧
            Cut token next argc p str run rest next' s s') ∧
        (¬ argc < maxArgNr → parseLoop size token (fuel + 1) next argc s = .error .outOfBounds) := by
  rcases Words.exists_split token str with hseps | ⟨seps, run, tail, hstr, hseps, hne, hsep, htail, hwords⟩
  · exact .inl ⟨Words.words_seps hseps, parseLoop_seps h.holds hseps h.token_ne h.size_lt⟩
  · have hat : AtWord token next size seps run tail s :=
      ⟨hstr ▸ h.holds, hseps, hne, hsep, htail, hstr ▸ h.no_zero, h.token_ne, hstr ▸ h.size_lt⟩
    refine .inr ⟨by rw [hwords]; exact Nat.succ_pos _, ?_, ?_⟩
    · intro harg
      obtain ⟨p, rest, next', s', hrun, hcut⟩ := hat.cut hwords hstr harg fuel
      exact ⟨p, run, rest, next', s', hrun, hcut⟩
    · intro harg
      rw [hat.skip]
      exact Exec.bind_eq_error (setArg_error harg s)

/-- With room for all words the loop finds them. -/
theorem parseLoop_ok {fuel : ℕ} (h : Command token str next size s) (hfuel : str.length < fuel)
    (hroom : argc + (Words.words token str).length ≤ maxArgNr) :
    ∃ s', parseLoop size token fuel next argc s = .ok (((argc + (Words.words token str).length : ℕ) : ℤ), s') ∧
      Parsed token str next argc s s' := by
  induction fuel generalizing str next argc s with
  | zero => exact absurd hfuel (Nat.not_lt_zero _)
  | succ fuel ih =>
    rcases h.turn argc fuel with ⟨hwords, hrun⟩ | ⟨hpos, hturn, -⟩
    · refine ⟨s, ?_, .refl hwords⟩
      rw [hrun, hwords]
      rfl
    · obtain ⟨p, run, rest, next', s', hrun, hcut⟩ := hturn (by omega)
      have hlen : (Words.words token str).length = (Words.words token rest).length + 1 := by
        rw [hcut.words_eq, List.length_cons]
      have hshort := hcut.length_lt
      obtain ⟨s'', hrest, hparsed⟩ := ih (hcut.command h) (by omega) (by omega : argc + 1 + _ ≤ maxArgNr)
      refine ⟨s'', ?_, hcut.parsed hparsed⟩
      rw [hrun, hrest, hlen, Nat.add_right_comm, Nat.add_assoc argc]

/-- With more words than pointers the loop stores behind the vector. -/
theorem parseLoop_overrun {fuel : ℕ} (h : Command token str next size s) (hfuel : str.length < fuel)
    (hargc : argc ≤ maxArgNr) (hroom : maxArgNr < argc + (Words.words token str).length) :
    parseLoop size token fuel next argc s = .error .outOfBounds := by
  induction fuel generalizing str next argc s with
  | zero => exact absurd hfuel (Nat.not_lt_zero _)
  | succ fuel ih =>
    rcases h.turn argc fuel with ⟨hwords, -⟩ | ⟨-, hturn, hfull⟩
    · rw [hwords, List.length_nil] at hroom
      omega
    · by_cases harg : argc < maxArgNr
      · obtain ⟨p, run, rest, next', s', hrun, hcut⟩ := hturn harg
        have hlen : (Words.words token str).length = (Words.words token rest).length + 1 := by
          rw [hcut.words_eq, List.length_cons]
        have hshort := hcut.length_lt
        rw [hrun]
        exact ih (hcut.command h) (by omega) harg (by omega)
      · exact hfull harg

/-- The words of the command are the arguments, with a `NULL` behind them in the vector where
`sys_execv` finds it. -/
structure ArgVector (token : UInt8) (str : List UInt8) (argc : ℤ) (s : CmdState) : Prop where
  argc_eq : argc = (Words.words token str).length
  args : ∀ i, (h : i < (Words.words token str).length) →
    ∃ p, s.argv i = some p ∧ s.line.Holds p (Words.words token str)[i]
  null : s.argv (Words.words token str).length = none
  count : countArgs s.argv maxArgNr 0 = .ok (Words.words token str).length

theorem countArgs_eq {argv : ℕ → Option ℕ} {left n : ℕ} (hargs : ∀ i, argc ≤ i → i < argc + n → (argv i).isSome = true)
    (hnull : argv (argc + n) = none) (hleft : n < left) : countArgs argv left argc = .ok (argc + n) := by
  induction n generalizing argc left with
  | zero =>
    obtain ⟨left, rfl⟩ : ∃ k, left = k + 1 := ⟨left - 1, by omega⟩
    rw [countArgs, if_neg]
    · rfl
    · rw [Nat.add_zero] at hnull
      rw [hnull]
      exact Bool.false_ne_true
  | succ n ih =>
    obtain ⟨left, rfl⟩ : ∃ k, left = k + 1 := ⟨left - 1, by omega⟩
    have hnext : argc + (n + 1) = argc + 1 + n := by omega
    rw [hnext] at hargs hnull ⊢
    rw [countArgs, if_pos (hargs argc (Nat.le_refl _) (by omega)),
      ih (fun i hle hlt => hargs i (by omega) hlt) hnull (by omega)]

/-- The state after the vector is cleared. -/
def cleared (s : CmdState) : CmdState :=
  { s with argv := fun i => if i < maxArgNr then none else s.argv i }

theorem cleared_argv {i : ℕ} (h : i < maxArgNr) (s : CmdState) : (cleared s).argv i = none := if_pos h

theorem cmdParse_eq (size : ℕ) (token : UInt8) (next : ℕ) (s : CmdState) :
    cmdParse size token next s = parseLoop size token (size + 1) next 0 (cleared s) := rfl

theorem Command.cleared (h : Command token str next size s) : Command token str next size (cleared s) :=
  ⟨h.holds, h.no_zero, h.token_ne, h.size_lt⟩

/-- Up to 16 words are parsed. -/
theorem cmdParse_ok (h : Command token str next size s) (hroom : (Words.words token str).length ≤ maxArgNr) :
    ∃ s', cmdParse size token next s = .ok (((Words.words token str).length : ℤ), s') ∧
      Parsed token str next 0 (cleared s) s' := by
  have hsize := h.size_lt
  obtain ⟨s', hrun, hparsed⟩ : ∃ s', parseLoop size token (size + 1) next 0 (Shell.cleared s) =
      .ok (((0 + (Words.words token str).length : ℕ) : ℤ), s') ∧ Parsed token str next 0 (Shell.cleared s) s' :=
    parseLoop_ok h.cleared (by omega) (by omega)
  rw [Nat.zero_add] at hrun
  exact ⟨s', hrun, hparsed⟩

theorem cmdParse_overrun (h : Command token str next size s)
    (hroom : maxArgNr < (Words.words token str).length) :
    cmdParse size token next s = .error .outOfBounds := by
  have hsize := h.size_lt
  exact parseLoop_overrun h.cleared (by omega) (Nat.zero_le _) (by omega)

/-- Fewer words than pointers leave a `NULL` in the vector. -/
theorem Parsed.argVector (h : Parsed token str next 0 (cleared s) s')
    (hroom : (Words.words token str).length < maxArgNr) :
    ArgVector token str (Words.words token str).length s' := by
  have hnull : s'.argv (Words.words token str).length = none := by
    rw [h.others _ (.inr (Nat.zero_add _).le)]
    exact cleared_argv hroom s
  refine ⟨rfl, fun i hi => ?_, hnull, ?_⟩
  · obtain ⟨p, hp, hholds⟩ := h.args i hi
    rw [Nat.zero_add] at hp
    exact ⟨p, hp, hholds⟩
  · have hargs : ∀ i, 0 ≤ i → i < 0 + (Words.words token str).length → (s'.argv i).isSome = true := by
      intro i _ hi
      obtain ⟨p, hp, -⟩ := h.args i (by omega)
      rw [Nat.zero_add] at hp
      rw [hp]
      rfl
    have hcount := countArgs_eq hargs (by rw [Nat.zero_add]; exact hnull) hroom
    rw [Nat.zero_add] at hcount
    exact hcount

/-- As many words as pointers are counted, though there is no room for the `NULL` behind them. -/
theorem cmdParse_full (h : Command token str next size s) (hfull : (Words.words token str).length = maxArgNr) :
    ¬ Exec.Returns (cmdParse size token next) s fun r s' =>
      if (Words.words token str).length < maxArgNr then ArgVector token str r s' else r = -1 := by
  intro hreturns
  obtain ⟨s', hrun, -⟩ := cmdParse_ok h hfull.le
  have hpost := (Exec.post_of_ok hrun).mp hreturns
  rw [hfull, if_neg (Nat.lt_irrefl _)] at hpost
  exact absurd hpost (by decide)

/-- A cleared state with a command at the start of the line. -/
def typed (str : List UInt8) : CmdState := ⟨Bytes.zero.put 0 str, fun _ => none⟩

theorem typed_command (h0 : 0 ∉ str) (htoken : token ≠ 0) (hsize : str.length < size) :
    Command token str 0 size (typed str) where
  holds := ⟨Bytes.reads_put, Bytes.put_of_le (Nat.le_refl _)⟩
  no_zero := h0
  token_ne := htoken
  size_lt := (Nat.zero_add _).trans_lt hsize

/-- `cmd_parse` keeps to the vector, tells a command with too many words from one it can parse, and
parses the latter, exactly when there are at most 15 words. -/
theorem cmdParse_iff (h : Command token str next size s) :
    Exec.Returns (cmdParse size token next) s (fun r s' =>
        if (Words.words token str).length < maxArgNr then ArgVector token str r s' else r = -1) ↔
      (Words.words token str).length < maxArgNr := by
  constructor
  · intro hreturns
    by_contra hroom
    rcases Nat.lt_or_eq_of_le (Nat.le_of_not_lt hroom) with hmore | hfull
    · exact (Exec.post_of_error (cmdParse_overrun h hmore)).mp hreturns
    · exact cmdParse_full h hfull.symm hreturns
  · intro hroom
    obtain ⟨s', hrun, hparsed⟩ := cmdParse_ok h hroom.le
    apply (Exec.post_of_ok hrun).mpr
    rw [if_pos hroom]
    exact hparsed.argVector hroom

/-- `ls  -l ` -/
theorem cmdParse_ls : Exec.Returns (cmdParse 128 0x20 0) (typed [0x6c, 0x73, 0x20, 0x20, 0x2d, 0x6c, 0x20])
    fun r s' =>
      if (Words.words 0x20 [0x6c, 0x73, 0x20, 0x20, 0x2d, 0x6c, 0x20]).length < maxArgNr then
        ArgVector 0x20 [0x6c, 0x73, 0x20, 0x20, 0x2d, 0x6c, 0x20] r s'
      else r = -1 :=
  (cmdParse_iff (typed_command (by decide) (by decide) (by decide))).mpr (by decide)

/-- Sixteen words of one letter. -/
def sixteenWords : List UInt8 := (List.replicate 16 [0x61, 0x20]).flatten

/-- Sixteen words are not told from a command that can be parsed. -/
theorem cmdParse_sixteen : ¬ Exec.Returns (cmdParse 128 0x20 0) (typed sixteenWords) fun r s' =>
    if (Words.words 0x20 sixteenWords).length < maxArgNr then ArgVector 0x20 sixteenWords r s' else r = -1 := by
  have hcmd : Command 0x20 sixteenWords 0 128 (typed sixteenWords) :=
    typed_command (by decide) (by decide) (by decide)
  have hlen : (Words.words 0x20 sixteenWords).length = maxArgNr := by decide
  generalize typed sixteenWords = s at hcmd ⊢
  generalize sixteenWords = str at hcmd hlen ⊢
  exact cmdParse_full hcmd hlen

end Shell
end Winx
