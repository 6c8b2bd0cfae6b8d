import Winx.Shell.CmdParse
import Winx.Shell.Readline

/-! # The commands of a line

`my_shell` cuts a line at its pipe symbols, parses every stage in place and executes it. It
looks at what `cmd_parse` returns only when there is no pipe symbol, and never at whether
there was a word at all. The calls come out right exactly when every stage has between one
and sixteen words, and no stage but the last is a `cd` that succeeds: that clears 512 bytes
from the 64 of `cwd_cache` on, and which variables lie behind it the source does not say.
-/

namespace Winx

namespace Shell

/-- `'|'` -/
def pipeSymbol : UInt8 := 0x7c

/-- `' '` -/
def blank : UInt8 := 0x20

/-- What the shell does not decide: which calls of `builtin_cd` succeed, and what they leave in
the memory behind `cwd_cache`. -/
structure CdEnv where
  succeeds : ℕ → Bool
  behind : ℕ → CmdState

/-- The arguments of a call of `cmd_execute` and the first pointer of the vector. -/
structure Call where
  argc : ℤ
  arg0 : Option ℕ

/-- `!strcmp("cd", argv[0])` -/
def isCd (line : Bytes) (p : ℕ) : Prop := line p = 0x63 ∧ line (p + 1) = 0x64 ∧ line (p + 2) = 0

instance (line : Bytes) (p : ℕ) : Decidable (isCd line p) :=
  inferInstanceAs (Decidable (line p = 0x63 ∧ line (p + 1) = 0x64 ∧ line (p + 2) = 0))

/-- `cmd_execute`, as far as the line and the vector are concerned: `strcmp` insists on a string,
and a `cd` that succeeds clears more than its cache. All other commands run in a process of
their own. -/
def cmdExecute (env : CdEnv) (i : ℕ) (argc : ℤ) : CmdM Call := do
  let s ← get
  assert (s.argv 0).isSome
  let p ← deref (s.argv 0)
  if isCd s.line p ∧ env.succeeds i then set (env.behind i)
  return ⟨argc, some p⟩

/-- `argc = cmd_parse(each_cmd, argv, ' '); cmd_execute(argc, argv);` -/
def runStage (env : CdEnv) (i eachCmd : ℕ) : CmdM Call := do
  let argc ← cmdParse cmdLen blank eachCmd
  cmdExecute env i argc

/-- `strchr(each_cmd, '|')` -/
def findPipe (eachCmd : ℕ) : CmdM (Option ℕ) :=
  onLine (Str.strchr cmdLen pipeSymbol (cmdLen + 1) eachCmd)

/-- The loop over the stages of a pipeline and the last stage behind it. -/
def pipeLoop (env : CdEnv) : ℕ → ℕ → ℕ → CmdM (List Call)
  | 0, _, _ => throw .diverged
  | fuel + 1, i, eachCmd => do
    match ← findPipe eachCmd with
    | some p => do
      onLine (Str.store cmdLen p 0)
      let call ← runStage env i eachCmd
      let calls ← pipeLoop env fuel (i + 1) (p + 1)
      return call :: calls
    | none => do
      let call ← runStage env i eachCmd
      return [call]

/-- A turn of the loop of `my_shell` after `readline`: the calls of `cmd_execute` it makes. The pipe
and the redirections around them leave the line and the vector alone. -/
def shellLine (env : CdEnv) : CmdM (List Call) := do
  if (← onLine (Str.load cmdLen 0)) = 0 then return []
  match ← findPipe 0 with
  | some p => do
    onLine (Str.store cmdLen p 0)
    let call ← runStage env 0 0
    let calls ← pipeLoop env (cmdLen + 1) 1 (p + 1)
    return call :: calls
  | none => do
    let argc ← cmdParse cmdLen blank 0
    if argc = -1 then return []
    let call ← cmdExecute env 0 argc
    return [call]

/-- A call with a name and a number of arguments that fits the vector. -/
def Call.Named (c : Call) : Prop := 1 ≤ c.argc ∧ c.argc ≤ maxArgNr ∧ c.arg0 ≠ none

/-- The stages of a line. -/
def stages (line : List UInt8) : List (List UInt8) := line.splitOnP (· == pipeSymbol)

/-- A stage with a command that fits the vector. -/
def StageOk (stage : List UInt8) : Prop :=
  0 < (Words.words blank stage).length ∧ (Words.words blank stage).length ≤ maxArgNr

instance (stage : List UInt8) : Decidable (StageOk stage) :=
  inferInstanceAs (Decidable (0 < (Words.words blank stage).length ∧ (Words.words blank stage).length ≤ maxArgNr))

/-- The command of a stage is `cd`. -/
def StageIsCd (stage : List UInt8) : Prop := (Words.words blank stage).head? = some [0x63, 0x64]

instance (stage : List UInt8) : Decidable (StageIsCd stage) :=
  inferInstanceAs (Decidable ((Words.words blank stage).head? = some [0x63, 0x64]))

variable {env : CdEnv} {i eachCmd : ℕ} {s : CmdState} {stage line : List UInt8}

/-! ## One stage -/

theorem isCd_iff {b : Bytes} {p : ℕ} {w : List UInt8} (h : b.Holds p w) (h0 : 0 ∉ w) :
    isCd b p ↔ w = [0x63, 0x64] := by
  have hcd : isCd b p ↔ b.Holds p [0x63, 0x64] := by
    rw [Bytes.holds_cons, Bytes.holds_cons, Bytes.holds_nil]
    rfl
  rw [hcd]
  constructor
  · exact fun h' => h.unique h' h0 (by decide)
  · rintro rfl
    exact h

/-- The words of a command have no zero. -/
theorem zero_not_mem_words {w : List UInt8} (h0 : 0 ∉ stage) (hw : w ∈ Words.words blank stage) : 0 ∉ w :=
  fun hmem => h0 ((Words.of_mem_words hw).2.2 0 hmem)

/-- A call with a name. -/
theorem cmdExecute_eq {p : ℕ} (hp : s.argv 0 = some p) (env : CdEnv) (i : ℕ) (argc : ℤ) :
    cmdExecute env i argc s =
      .ok (⟨argc, some p⟩, if isCd s.line p ∧ env.succeeds i then env.behind i else s) := by
  have hsome : (s.argv 0).isSome := by rw [hp]; rfl
  rw [Exec.eq_ok_iff]
  simp only [cmdExecute, Exec.post_bind, Exec.post_get, post_assert, post_deref]
  refine ⟨fun _ => ⟨fun q hq => ?_, fun hnone => ?_⟩, fun hnone => absurd hsome hnone⟩
  · obtain rfl : p = q := Option.some.inj (hp.symm.trans hq)
    split
    · exact ⟨rfl, rfl⟩
    · exact ⟨rfl, rfl⟩
  · rw [hp] at hnone
    cases hnone

/-- A call without a name. -/
theorem cmdExecute_error (hp : s.argv 0 = none) (env : CdEnv) (i : ℕ) (argc : ℤ) :
    cmdExecute env i argc s = .error .assertFailed := by
  rw [Exec.eq_error_iff]
  simp only [cmdExecute, Exec.post_bind, Exec.post_get, post_assert]
  rw [hp]
  exact ⟨fun h => absurd h Bool.false_ne_true, fun _ => trivial⟩

/-- A stage with words is executed. -/
theorem runStage_ok (h : Command blank stage eachCmd cmdLen s) (hok : StageOk stage) (env : CdEnv) (i : ℕ) :
    ∃ call s', runStage env i eachCmd s = .ok (call, s') ∧ call.Named ∧
      (StageIsCd stage ∧ env.succeeds i = true → s' = env.behind i) ∧
      (¬ (StageIsCd stage ∧ env.succeeds i = true) →
        ∀ j, j < eachCmd ∨ eachCmd + stage.length ≤ j → s'.line j = s.line j) := by
  obtain ⟨hpos, hroom⟩ := hok
  obtain ⟨s', hrun, hparsed⟩ := cmdParse_ok h hroom
  obtain ⟨p, hp, hholds⟩ := hparsed.args 0 hpos
  have hcd : isCd s'.line p ↔ StageIsCd stage := by
    rw [isCd_iff hholds (zero_not_mem_words h.no_zero (List.getElem_mem hpos)), StageIsCd,
      List.head?_eq_getElem?, List.getElem?_eq_getElem hpos, Option.some_inj]
  have hexec := cmdExecute_eq hp env i (Words.words blank stage).length
  refine ⟨_, _, (Exec.bind_eq_ok hrun).trans hexec, ⟨?_, ?_, ?_⟩,
    fun hsucc => if_pos ⟨hcd.mpr hsucc.1, hsucc.2⟩, fun hsucc => ?_⟩
  · exact Int.ofNat_le.mpr hpos
  · exact Int.ofNat_le.mpr hroom
  · exact Option.some_ne_none p
  · rw [if_neg fun h => hsucc ⟨hcd.mp h.1, h.2⟩]
    exact hparsed.outside

/-- A stage without words, or with too many, stops the shell. -/
theorem runStage_error (h : Command blank stage eachCmd cmdLen s) (hok : ¬ StageOk stage) (env : CdEnv) (i : ℕ) :
    ∃ e, runStage env i eachCmd s = .error e := by
  by_cases hroom : (Words.words blank stage).length ≤ maxArgNr
  · have hnil : Words.words blank stage = [] := by
      by_contra hne
      exact hok ⟨List.length_pos_iff.mpr hne, hroom⟩
    obtain ⟨s', hrun, hparsed⟩ := cmdParse_ok h hroom
    have hnull : s'.argv 0 = none := by
      rw [hparsed.others 0 (.inr (by rw [hnil]; exact Nat.le_refl 0))]
      exact cleared_argv (by decide) s
    exact ⟨_, (Exec.bind_eq_ok hrun).trans (cmdExecute_error hnull env i _)⟩
  · exact ⟨_, Exec.bind_eq_error (cmdParse_overrun h (Nat.lt_of_not_le hroom))⟩

/-! ## The stages of a line -/

theorem stages_cons {rest : List UInt8} (h : pipeSymbol ∉ stage) :
    stages (stage ++ pipeSymbol :: rest) = stage :: stages rest := by
  have hstage : ∀ c ∈ stage, (c == pipeSymbol) = false :=
    fun c hc => beq_false_of_ne fun heq => h (heq ▸ hc)
  exact List.splitOnP_append_cons_of_forall_mem hstage pipeSymbol (beq_self_eq_true pipeSymbol) rest

theorem stages_last (h : pipeSymbol ∉ stage) : stages stage = [stage] := by
  rw [stages, List.splitOnP_eq_singleton]
  exact fun c hc => beq_false_of_ne fun heq => h (heq ▸ hc)

/-- Every stage has a command that fits, and no stage but the last is a `cd` that succeeds. -/
def StagesOk (succeeds : ℕ → Bool) : ℕ → List (List UInt8) → Prop
  | _, [] => True
  | _, [stage] => StageOk stage
  | i, stage :: rest => StageOk stage ∧ ¬ (StageIsCd stage ∧ succeeds i = true) ∧ StagesOk succeeds (i + 1) rest

/-- The rest of a line in the buffer. -/
structure Rest (line : List UInt8) (eachCmd : ℕ) (s : CmdState) : Prop where
  holds : s.line.Holds eachCmd line
  no_zero : 0 ∉ line
  length_lt : eachCmd + line.length < cmdLen

theorem Rest.command (h : Rest line eachCmd s) : Command blank line eachCmd cmdLen s :=
  ⟨h.holds, h.no_zero, by decide, h.length_lt⟩

theorem Rest.findPipe_none (h : Rest line eachCmd s) (hpipe : pipeSymbol ∉ line) :
    findPipe eachCmd s = .ok (none, s) := by
  have hlt := h.length_lt
  exact onLine_eq (Str.strchr_none h.holds h.no_zero hpipe hlt (by omega))

section Next

variable {rest : List UInt8} (h : Rest (stage ++ pipeSymbol :: rest) eachCmd s) (hpipe : pipeSymbol ∉ stage)

include h

theorem Rest.lengths : eachCmd + stage.length + 1 + rest.length < cmdLen := by
  have hlt := h.length_lt
  rw [List.length_append, List.length_cons] at hlt
  omega

/-- The stage ends where the pipe symbol was. -/
theorem Rest.stage_command :
    Command blank stage eachCmd cmdLen { s with line := s.line.set (eachCmd + stage.length) 0 } where
  holds := h.holds.reads.cut
  no_zero := fun h0 => h.no_zero (List.mem_append_left _ h0)
  token_ne := by decide
  size_lt := by have := h.lengths; omega

/-- The rest of the line is as it was, if the stage is all that has changed. -/
theorem Rest.behind {s' : CmdState} (hs' : ∀ j, j < eachCmd ∨ eachCmd + stage.length ≤ j →
      s'.line j = (s.line.set (eachCmd + stage.length) 0) j) :
    Rest rest (eachCmd + stage.length + 1) s' where
  holds := by
    have hrest := (Bytes.holds_cons.mp (Bytes.holds_append.mp h.holds).2).2
    apply (hrest.set (.inl (Nat.lt_succ_self _)) 0).congr
    intro j hj _
    exact hs' j (.inr (by omega))
  no_zero := fun h0 => h.no_zero (List.mem_append_right _ (List.mem_cons_of_mem _ h0))
  length_lt := h.lengths

include hpipe

theorem Rest.findPipe_some : findPipe eachCmd s = .ok (some (eachCmd + stage.length), s) := by
  have hlt := h.lengths
  have hreads : s.line.Reads eachCmd (stage ++ [pipeSymbol]) := by
    apply h.holds.reads.of_prefix
    rw [List.append_cons stage pipeSymbol rest]
    exact List.prefix_append _ _
  have h0 : 0 ∉ stage := fun hmem => h.no_zero (List.mem_append_left _ hmem)
  exact onLine_eq (Str.strchr_some hreads h0 hpipe (by decide) (by omega) (by omega))

/-- Another stage: the pipe symbol becomes its end. -/
theorem Rest.pipeLoop_next (env : CdEnv) (fuel i : ℕ) :
    pipeLoop env (fuel + 1) i eachCmd s = (do
      let call ← runStage env i eachCmd
      let calls ← pipeLoop env fuel (i + 1) (eachCmd + stage.length + 1)
      return call :: calls : CmdM (List Call)) { s with line := s.line.set (eachCmd + stage.length) 0 } := by
  have hlt := h.lengths
  have hstore := onLine_eq (s := s) (Str.store_eq (by omega : eachCmd + stage.length < cmdLen) 0 s.line)
  rw [pipeLoop, Exec.bind_eq_ok (h.findPipe_some hpipe)]
  exact Exec.bind_eq_ok hstore

end Next

/-- The last stage. -/
theorem Rest.pipeLoop_last (h : Rest line eachCmd s) (hpipe : pipeSymbol ∉ line) (env : CdEnv) (fuel i : ℕ) :
    pipeLoop env (fuel + 1) i eachCmd s = (do
      let call ← runStage env i eachCmd
      return [call] : CmdM (List Call)) s := by
  rw [pipeLoop, Exec.bind_eq_ok (h.findPipe_none hpipe)]

/-- A line is its last stage, or a stage and a line behind a pipe symbol. -/
theorem stages_cases (line : List UInt8) : (pipeSymbol ∉ line ∧ stages line = [line]) ∨
    ∃ stage rest, line = stage ++ pipeSymbol :: rest ∧ pipeSymbol ∉ stage ∧
      stages line = stage :: stages rest ∧ stages rest ≠ [] := by
  by_cases hmem : pipeSymbol ∈ line
  · obtain ⟨stage, rest, rfl, hpipe⟩ := List.eq_append_cons_of_mem hmem
    exact .inr ⟨stage, rest, rfl, hpipe, stages_cons hpipe, List.splitOnP_ne_nil _ _⟩
  · exact .inl ⟨hmem, stages_last hmem⟩

theorem stagesOk_cons {succeeds : ℕ → Bool} {rest : List (List UInt8)} (h : rest ≠ []) :
    StagesOk succeeds i (stage :: rest) ↔
      StageOk stage ∧ ¬ (StageIsCd stage ∧ succeeds i = true) ∧ StagesOk succeeds (i + 1) rest := by
  obtain ⟨next, rest, rfl⟩ := List.exists_cons_of_ne_nil h
  exact Iff.rfl

/-- The calls for stages that can be executed. -/
theorem Rest.pipeLoop_ok {fuel : ℕ} (h : Rest line eachCmd s) (hfuel : line.length < fuel)
    (hok : StagesOk env.succeeds i (stages line)) :
    Exec.Returns (pipeLoop env fuel i eachCmd) s fun calls _ => ∀ c ∈ calls, c.Named := by
  induction fuel generalizing line eachCmd i s with
  | zero => exact absurd hfuel (Nat.not_lt_zero _)
  | succ fuel ih =>
    rcases stages_cases line with ⟨hpipe, hstages⟩ | ⟨stage, rest, rfl, hpipe, hstages, hne⟩
    · rw [hstages] at hok
      obtain ⟨call, s', hrun, hnamed, -⟩ := runStage_ok h.command hok env i
      rw [Exec.Returns, Exec.post_of_ok ((h.pipeLoop_last hpipe env fuel i).trans (Exec.bind_eq_ok hrun))]
      exact fun c hc => List.mem_singleton.mp hc ▸ hnamed
    · rw [hstages, stagesOk_cons hne] at hok
      obtain ⟨hstage, hcd, hrest⟩ := hok
      have hlt : rest.length < fuel := by
        rw [List.length_append, List.length_cons] at hfuel
        omega
      obtain ⟨call, s', hrun, hnamed, -, hsame⟩ := runStage_ok h.stage_command hstage env i
      obtain ⟨calls, s'', hcalls, hall⟩ := Exec.returns_iff.mp (ih (h.behind (hsame hcd)) hlt hrest)
      have hloop := (h.pipeLoop_next hpipe env fuel i).trans
        ((Exec.bind_eq_ok hrun).trans (Exec.bind_eq_ok hcalls))
      rw [Exec.Returns, Exec.post_of_ok hloop]
      exact List.forall_mem_cons.mpr ⟨hnamed, hall⟩

/-- A memory where nothing is left of the line. -/
def blankState : CmdState := ⟨Bytes.zero, fun _ => none⟩

theorem blankState_rest (h : eachCmd < cmdLen) : Rest [] eachCmd blankState :=
  ⟨⟨trivial, rfl⟩, List.not_mem_nil, h⟩

/-- No stage is left to be executed. -/
theorem pipeLoop_blank (h : eachCmd < cmdLen) (env : CdEnv) (fuel i : ℕ) :
    ∃ e, pipeLoop env (fuel + 1) i eachCmd blankState = .error e := by
  have hrest := blankState_rest h
  obtain ⟨e, he⟩ := runStage_error hrest.command (fun hok => absurd hok.1 (by decide)) env i
  exact ⟨e, (hrest.pipeLoop_last List.not_mem_nil env fuel i).trans (Exec.bind_eq_error he)⟩

/-- Any other stages stop the shell, if what a `cd` clears is the line. -/
theorem Rest.pipeLoop_error {fuel : ℕ} (h : Rest line eachCmd s) (hfuel : line.length < fuel)
    (hbehind : ∀ i, env.behind i = blankState) (hok : ¬ StagesOk env.succeeds i (stages line)) :
    ∃ e, pipeLoop env fuel i eachCmd s = .error e := by
  induction fuel generalizing line eachCmd i s with
  | zero => exact absurd hfuel (Nat.not_lt_zero _)
  | succ fuel ih =>
    rcases stages_cases line with ⟨hpipe, hstages⟩ | ⟨stage, rest, rfl, hpipe, hstages, hne⟩
    · rw [hstages] at hok
      obtain ⟨e, he⟩ := runStage_error h.command hok env i
      rw [h.pipeLoop_last hpipe]
      exact ⟨e, Exec.bind_eq_error he⟩
    · rw [hstages, stagesOk_cons hne, not_and] at hok
      have hlt : rest.length < fuel := by
        rw [List.length_append, List.length_cons] at hfuel
        omega
      rw [h.pipeLoop_next hpipe]
      by_cases hstage : StageOk stage
      · obtain ⟨call, s', hrun, -, hcleared, hsame⟩ := runStage_ok h.stage_command hstage env i
        rw [Exec.bind_eq_ok hrun]
        by_cases hcd : StageIsCd stage ∧ env.succeeds i = true
        · have hlen := h.lengths
          obtain ⟨fuel, rfl⟩ := Nat.exists_eq_add_one.mpr (Nat.zero_lt_of_lt hlt)
          obtain ⟨e, he⟩ := pipeLoop_blank (by omega : eachCmd + stage.length + 1 < cmdLen) env fuel (i + 1)
          rw [hcleared hcd, hbehind]
          exact ⟨e, Exec.bind_eq_error he⟩
        · obtain ⟨e, he⟩ := ih (h.behind (hsame hcd)) hlt fun hrest => hok hstage ⟨hcd, hrest⟩
          exact ⟨e, Exec.bind_eq_error he⟩
      · obtain ⟨e, he⟩ := runStage_error h.stage_command hstage env i
        exact ⟨e, Exec.bind_eq_error he⟩

/-! ## A line -/

/-- A line with a command is executed stage by stage. -/
theorem Rest.shellLine_eq (h : Rest line 0 s) (hne : line ≠ []) (env : CdEnv) :
    shellLine env s = pipeLoop env (cmdLen + 2) 0 0 s := by
  have hfirst : s.line 0 ≠ 0 := by
    obtain ⟨c, rest, rfl⟩ := List.exists_cons_of_ne_nil hne
    rw [h.holds.reads.1]
    exact (List.ne_of_not_mem_cons h.no_zero).symm
  rw [shellLine, Exec.bind_eq_ok (onLine_eq (Str.load_eq (by decide) s.line)), if_neg hfirst, pipeLoop]
  by_cases hmem : pipeSymbol ∈ line
  · obtain ⟨stage, rest, rfl, hpipe⟩ := List.eq_append_cons_of_mem hmem
    rw [Exec.bind_eq_ok (h.findPipe_some hpipe), Exec.bind_eq_ok (h.findPipe_some hpipe)]
  · rw [Exec.bind_eq_ok (h.findPipe_none hmem), Exec.bind_eq_ok (h.findPipe_none hmem)]
    dsimp only
    by_cases hroom : (Words.words blank line).length ≤ maxArgNr
    · obtain ⟨s', hrun, -⟩ := cmdParse_ok h.command hroom
      have hstage : runStage env 0 0 s = cmdExecute env 0 _ s' := Exec.bind_eq_ok hrun
      have hargc : ((Words.words blank line).length : ℤ) ≠ -1 := by omega
      rw [Exec.bind_eq_ok hrun, if_neg hargc]
      cases hexec : cmdExecute env 0 (Words.words blank line).length s' with
      | ok r =>
        obtain ⟨call, s''⟩ := r
        rw [Exec.bind_eq_ok hexec, Exec.bind_eq_ok (hstage.trans hexec)]
      | error e => rw [Exec.bind_eq_error hexec, Exec.bind_eq_error (hstage.trans hexec)]
    · have hover := cmdParse_overrun h.command (Nat.lt_of_not_le hroom)
      have hstage : runStage env 0 0 s = .error .outOfBounds := Exec.bind_eq_error hover
      rw [Exec.bind_eq_error hover, Exec.bind_eq_error hstage]

theorem stagesOk_iff {succeeds : ℕ → Bool} {l : List (List UInt8)} : StagesOk succeeds i l ↔
    (∀ stage ∈ l, StageOk stage) ∧
      ∀ j, (h : j + 1 < l.length) → ¬ (StageIsCd l[j] ∧ succeeds (i + j) = true) := by
  induction l generalizing i with
  | nil => exact iff_of_true trivial ⟨fun _ h => absurd h List.not_mem_nil, fun j h => absurd h (by simp)⟩
  | cons stage rest ih =>
    by_cases hnil : rest = []
    · subst hnil
      constructor
      · intro h
        exact ⟨fun c hc => List.mem_singleton.mp hc ▸ h, fun j hj => absurd hj (by simp)⟩
      · exact fun h => h.1 stage List.mem_cons_self
    · rw [stagesOk_cons hnil, ih, List.forall_mem_cons]
      have hidx : ∀ j, i + (j + 1) = i + 1 + j := fun j => by omega
      constructor
      · rintro ⟨hstage, hcd, hall, hnext⟩
        refine ⟨⟨hstage, hall⟩, fun j hj => ?_⟩
        cases j with
        | zero => exact hcd
        | succ j =>
          rw [hidx]
          exact hnext j (Nat.lt_of_succ_lt_succ hj)
      · rintro ⟨⟨hstage, hall⟩, hnext⟩
        refine ⟨hstage, hnext 0 (Nat.succ_lt_succ (List.length_pos_iff.mpr hnil)), hall, fun j hj => ?_⟩
        have hj' := hnext (j + 1) (Nat.succ_lt_succ hj)
        rw [hidx] at hj'
        exact hj'

/-- What a line needs: every stage has one to sixteen words, and no stage but the last is a `cd`
that succeeds. -/
def LineOk (succeeds : ℕ → Bool) (line : List UInt8) : Prop :=
  line = [] ∨ (∀ stage ∈ stages line, StageOk stage) ∧
    ∀ j, (h : j + 1 < (stages line).length) → ¬ (StageIsCd (stages line)[j] ∧ succeeds j = true)

/-- The shell stops at any other line, if what a `cd` clears is the line. -/
theorem Rest.shellLine_error (h : Rest line 0 s) {succeeds : ℕ → Bool} (hline : ¬ LineOk succeeds line) :
    ∃ e, shellLine ⟨succeeds, fun _ => blankState⟩ s = .error e := by
  rw [LineOk, not_or] at hline
  have hok : ¬ StagesOk succeeds 0 (stages line) := by
    rw [stagesOk_iff]
    simp only [Nat.zero_add]
    exact hline.2
  have hlt : line.length < cmdLen + 2 := by have := h.length_lt; omega
  rw [h.shellLine_eq hline.1]
  exact h.pipeLoop_error hlt (fun _ => rfl) hok

/-- Nothing is executed for an empty line. -/
theorem Rest.shellLine_nil (h : Rest [] 0 s) (env : CdEnv) : shellLine env s = .ok ([], s) := by
  have hzero : s.line 0 = 0 := h.holds.2
  rw [shellLine, Exec.bind_eq_ok (onLine_eq (Str.load_eq (by decide) s.line)), if_pos hzero]
  rfl

/-- Every call of `cmd_execute` for a line has a name and the shell goes on, whatever lies behind
`cwd_cache`, exactly for such a line. -/
theorem shellLine_iff (h : Rest line 0 s) (succeeds : ℕ → Bool) :
    (∀ behind, Exec.Returns (shellLine ⟨succeeds, behind⟩) s fun calls _ => ∀ c ∈ calls, c.Named) ↔
      LineOk succeeds line := by
  constructor
  · intro hall
    by_contra hline
    obtain ⟨e, he⟩ := h.shellLine_error hline
    exact (Exec.post_of_error he).mp (hall fun _ => blankState)
  · rintro (rfl | hok) behind
    · exact (Exec.post_of_ok (h.shellLine_nil _)).mpr (List.forall_mem_nil _)
    · by_cases hne : line = []
      · subst hne
        exact absurd (hok.1 [] List.mem_cons_self).1 (by decide)
      · have hlt : line.length < cmdLen + 2 := by have := h.length_lt; omega
        have hstages : StagesOk (CdEnv.mk succeeds behind).succeeds 0 (stages line) := by
          rw [stagesOk_iff]
          simpa only [Nat.zero_add] using hok
        obtain ⟨calls, s', hrun, hnamed⟩ := Exec.returns_iff.mp (h.pipeLoop_ok hlt hstages)
        exact (Exec.post_of_ok ((h.shellLine_eq hne _).trans hrun)).mpr hnamed

/-- A line as `readline` leaves it in the cleared buffer. -/
theorem typed_rest (h0 : 0 ∉ line) (hlt : line.length < cmdLen) : Rest line 0 (typed line) where
  holds := ⟨Bytes.reads_put, Bytes.put_of_le (Nat.le_refl _)⟩
  no_zero := h0
  length_lt := (Nat.zero_add _).trans_lt hlt

/-- `ls|cat` -/
theorem shellLine_ls : LineOk (fun _ => true) [0x6c, 0x73, 0x7c, 0x63, 0x61, 0x74] ∧ ∀ behind,
    Exec.Returns (shellLine ⟨fun _ => true, behind⟩) (typed [0x6c, 0x73, 0x7c, 0x63, 0x61, 0x74])
      fun calls _ => ∀ c ∈ calls, c.Named := by
  have hcd : ∀ stage ∈ stages [0x6c, 0x73, 0x7c, 0x63, 0x61, 0x74], ¬ StageIsCd stage := by decide
  have hline : LineOk (fun _ => true) [0x6c, 0x73, 0x7c, 0x63, 0x61, 0x74] :=
    .inr ⟨by decide, fun j hj h => hcd _ (List.getElem_mem _) h.1⟩
  exact ⟨hline, (shellLine_iff (typed_rest (by decide) (by decide)) fun _ => true).mpr hline⟩

/-- The shell does not survive a blank. -/
theorem shellLine_blank : ¬ ∀ behind, Exec.Returns (shellLine ⟨fun _ => false, behind⟩) (typed [0x20])
    fun calls _ => ∀ c ∈ calls, c.Named := by
  have hrest : Rest [0x20] 0 (typed [0x20]) := typed_rest (by decide) (by decide)
  have hline : ¬ LineOk (fun _ => false) [0x20] := by
    rintro (h | h)
    · exact absurd h (by decide)
    · exact absurd (h.1 [0x20] (by decide)) (by decide)
  generalize typed [0x20] = s at hrest ⊢
  generalize ([0x20] : List UInt8) = line at hrest hline
  intro hall
  obtain ⟨e, he⟩ := hrest.shellLine_error hline
  exact (Exec.post_of_error he).mp (hall fun _ => blankState)

end Shell
end Winx
