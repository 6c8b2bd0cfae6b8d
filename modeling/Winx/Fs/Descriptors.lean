import Winx.Fs.Syscall

/-! # Descriptors

A descriptor of a process names an entry of the global file table. The number
of descriptors that name an entry is a sum over the processes, which changes by
what one process does to its own table.
-/

namespace Winx

/-- Change a descriptor of a process. -/
@[simps -fullyApplied] def Task.setFd (t : Task) (k : ℕ) (v : Int) : Task :=
  { t with fdTable := Function.update t.fdTable k v }

/-- How many descriptors of a process, from `localFd` on and `n` of them, name an entry. -/
def Task.namesFrom (t : Task) (localFd n g : ℕ) : ℕ :=
  (List.range' localFd n).countP fun k => t.fdTable k = g

/-- How many descriptors of a process name an entry. -/
def Task.names (t : Task) (g : ℕ) : ℕ := t.namesFrom 3 (maxFilesOpenPerProc - 3) g

/-- How many descriptors of the live processes name an entry. -/
def Fs.names (s : Fs) (g : ℕ) : ℕ := (s.tasks.map fun t => t.names g).sum

/-- How many descriptors of the processes that do not run name an entry. -/
def Fs.namesOther (s : Fs) (g : ℕ) : ℕ :=
  ((s.tasks.filter fun t => t.pid ≠ s.cur).map fun t => t.names g).sum

/-- The first free entry of the global file table, which is what `get_free_slot_in_global` finds. -/
def Fs.freeSlot (s : Fs) : Option ℕ :=
  (List.range' 3 (maxFileOpen - 3)).find? fun fdIdx => (s.fileTable fdIdx).fdInode.isNone

/-- The process that runs. -/
def Fs.Running (s : Fs) (t : Task) : Prop := s.tasks.find? (·.pid = s.cur) = some t

/-- The processes have different numbers. -/
def Fs.PidsDistinct (s : Fs) : Prop := (s.tasks.map (·.pid)).Nodup

/-- Change the table of the process that runs. -/
def Fs.setFd (s : Fs) (k : ℕ) (v : Int) : Fs :=
  s.setTasks (s.tasks.map fun t =>
    if t.pid = s.cur then t.setFd k v else t)

section Names

variable {t : Task} {localFd n g k : ℕ} {v : Int}

@[simp] theorem Task.namesFrom_zero : t.namesFrom localFd 0 g = 0 := rfl

theorem Task.namesFrom_succ : t.namesFrom localFd (n + 1) g =
    (if t.fdTable localFd = g then 1 else 0) + t.namesFrom (localFd + 1) n g := by
  rw [namesFrom, List.range'_succ, List.countP_cons, Nat.add_comm, namesFrom]
  simp

theorem Task.namesFrom_le : t.namesFrom localFd n g ≤ n := by
  refine List.countP_le_length.trans ?_
  rw [List.length_range']

/-- A change outside of the range. -/
theorem Task.namesFrom_update_of_lt (hk : k < localFd) :
    (t.setFd k v).namesFrom localFd n g =
      t.namesFrom localFd n g := by
  refine List.countP_congr fun j hj => ?_
  have hjk : j ≠ k := by
    rw [List.mem_range'_1] at hj
    omega
  rw [setFd_fdTable, Function.update_of_ne hjk]

/-- A change of one descriptor moves it from one entry to another. -/
theorem Task.namesFrom_update (hk : localFd ≤ k) (hlt : k < localFd + n) :
    (t.setFd k v).namesFrom localFd n g +
        (if t.fdTable k = g then 1 else 0) =
      t.namesFrom localFd n g + if v = g then 1 else 0 := by
  induction n generalizing localFd with
  | zero => omega
  | succ n ih =>
    rw [namesFrom_succ, namesFrom_succ]
    by_cases heq : k = localFd
    · subst heq
      rw [namesFrom_update_of_lt (Nat.lt_add_one k), setFd_fdTable, Function.update_self]
      omega
    · have hrest := ih (show localFd + 1 ≤ k by omega) (by omega)
      rw [setFd_fdTable, Function.update_of_ne (Ne.symm heq)]
      omega

theorem Task.names_update (hk : 3 ≤ k) (hlt : k < maxFilesOpenPerProc) :
    (t.setFd k v).names g +
        (if t.fdTable k = g then 1 else 0) = t.names g + if v = g then 1 else 0 :=
  namesFrom_update hk (by omega)

end Names

section Sums

variable {s : Fs} {t : Task} {g k : ℕ} {v : Int}

theorem Fs.Running.mem (h : s.Running t) : t ∈ s.tasks ∧ t.pid = s.cur := by
  refine ⟨List.mem_of_find?_eq_some h, ?_⟩
  simpa using List.find?_some h

/-- A live process runs once it is the current one. -/
theorem Fs.exists_running (h : ∃ t ∈ s.tasks, t.pid = s.cur) : ∃ t, s.Running t := by
  obtain ⟨t, ht, hpid⟩ := h
  refine Option.isSome_iff_exists.mp ?_
  rw [List.find?_isSome]
  exact ⟨t, ht, by simpa using hpid⟩

/-- Changing the element with a given key changes a sum by what that element contributes. -/
theorem sum_map_update {α : Type} (key : α → ℕ) (F : α → ℕ) (f : α → α) {l : List α} {a : α} {c : ℕ}
    (hnodup : (l.map key).Nodup) (ha : a ∈ l) (hc : key a = c) :
    ((l.map fun x => if key x = c then f x else x).map F).sum + F a = (l.map F).sum + F (f a) := by
  induction l with
  | nil => cases ha
  | cons b l ih =>
    rw [List.map_cons, List.nodup_cons] at hnodup
    obtain ⟨hb, hnodup⟩ := hnodup
    simp only [List.map_cons, List.sum_cons]
    by_cases hbc : key b = c
    · have hab : a = b := by
        refine (List.mem_cons.mp ha).resolve_right fun hmem => hb ?_
        exact List.mem_map.mpr ⟨a, hmem, hc.trans hbc.symm⟩
      subst hab
      have hrest : (l.map fun x => if key x = c then f x else x) = l := by
        refine (List.map_congr_left fun x hx => if_neg fun hxc => hb ?_).trans (List.map_id l)
        exact List.mem_map.mpr ⟨x, hx, hxc.trans hbc.symm⟩
      rw [hrest, if_pos hbc]
      omega
    · have hab : a ≠ b := by
        rintro rfl
        exact hbc hc
      have hrest := ih hnodup ((List.mem_cons.mp ha).resolve_left hab)
      rw [if_neg hbc]
      omega

/-- A sum as what one element contributes and the rest. -/
theorem sum_map_filter_ne {α : Type} (key : α → ℕ) (F : α → ℕ) {l : List α} {a : α} {c : ℕ}
    (hnodup : (l.map key).Nodup) (ha : a ∈ l) (hc : key a = c) :
    (l.map F).sum = ((l.filter fun x => key x ≠ c).map F).sum + F a := by
  induction l with
  | nil => cases ha
  | cons b l ih =>
    rw [List.map_cons, List.nodup_cons] at hnodup
    obtain ⟨hb, hnodup⟩ := hnodup
    rw [List.map_cons, List.sum_cons, List.filter_cons]
    by_cases hbc : key b = c
    · have hab : a = b := by
        refine (List.mem_cons.mp ha).resolve_right fun hmem => hb ?_
        exact List.mem_map.mpr ⟨a, hmem, hc.trans hbc.symm⟩
      subst hab
      have hrest : (l.filter fun x => key x ≠ c) = l := by
        refine List.filter_eq_self.mpr fun x hx => decide_eq_true fun hxc => hb ?_
        exact List.mem_map.mpr ⟨x, hx, hxc.trans hbc.symm⟩
      rw [if_neg (by simpa using hbc), hrest]
      omega
    · have hab : a ≠ b := by
        rintro rfl
        exact hbc hc
      have hrest := ih hnodup ((List.mem_cons.mp ha).resolve_left hab)
      rw [if_pos (by simpa using hbc), List.map_cons, List.sum_cons]
      omega

theorem Fs.names_eq (hpids : s.PidsDistinct) (ht : s.Running t) :
    s.names g = s.namesOther g + t.names g :=
  sum_map_filter_ne (fun t : Task => t.pid) (fun t : Task => t.names g) hpids ht.mem.1 ht.mem.2

/-- A descriptor of a live process is counted. -/
theorem Fs.names_pos (ht : t ∈ s.tasks) (hk : 3 ≤ k) (hlt : k < maxFilesOpenPerProc)
    (hg : t.fdTable k = g) : 0 < s.names g := by
  have htask : 0 < t.names g := by
    refine List.countP_pos_iff.mpr ⟨k, ?_, by simpa using hg⟩
    rw [List.mem_range'_1]
    omega
  exact htask.trans_le (List.le_sum_of_mem (List.mem_map_of_mem ht))

/-- A number bounds how many processes have numbers up to it. -/
theorem Fs.names_le (hpids : s.PidsDistinct) {m : ℕ} (hm : ∀ t ∈ s.tasks, t.pid ≤ m) :
    s.names g ≤ (m + 1) * (maxFilesOpenPerProc - 3) := by
  have hlength : s.tasks.length ≤ m + 1 := by
    have hsub : s.tasks.map (·.pid) ⊆ List.range (m + 1) := by
      intro pid hpid
      obtain ⟨t, ht, rfl⟩ := List.mem_map.mp hpid
      have := hm t ht
      rw [List.mem_range]
      omega
    have hle := (List.subperm_of_subset hpids hsub).length_le
    rwa [List.length_map, List.length_range] at hle
  have hsum : s.names g ≤ s.tasks.length * (maxFilesOpenPerProc - 3) := by
    have hle := List.sum_le_card_nsmul (s.tasks.map fun t => t.names g) (maxFilesOpenPerProc - 3)
      fun n hn => by
        obtain ⟨t, -, rfl⟩ := List.mem_map.mp hn
        exact Task.namesFrom_le
    rwa [List.length_map, smul_eq_mul] at hle
  exact hsum.trans (Nat.mul_le_mul_right _ hlength)

/-- A new process with the table of another one. -/
theorem Fs.names_append (u : Task) :
    (s.setTasks (s.tasks ++ [u])).names g = s.names g + u.names g := by
  simp [names]

/-- The other processes stay as they are. -/
theorem Fs.others_setFd : ((s.setFd k v).tasks.filter fun t => t.pid ≠ s.cur) =
    s.tasks.filter fun t => t.pid ≠ s.cur := by
  rw [Fs.setFd, setTasks_tasks]
  induction s.tasks with
  | nil => rfl
  | cons u l ih =>
    rw [List.map_cons, List.filter_cons, List.filter_cons, ih]
    by_cases hu : u.pid = s.cur
    · simp [hu]
    · simp [hu]

theorem Fs.names_setFd (hpids : s.PidsDistinct) (ht : s.Running t) (hk : 3 ≤ k)
    (hlt : k < maxFilesOpenPerProc) :
    (s.setFd k v).names g + (if t.fdTable k = g then 1 else 0) =
      s.names g + if v = g then 1 else 0 := by
  obtain ⟨hmem, hpid⟩ := ht.mem
  have hsum := sum_map_update (fun t : Task => t.pid) (fun t : Task => t.names g)
    (fun t : Task => t.setFd k v) hpids hmem hpid
  have htask := Task.names_update (t := t) (g := g) (v := v) hk hlt
  rw [Fs.names, Fs.names, Fs.setFd, Fs.setTasks_tasks]
  omega

/-- The numbers of the processes stay. -/
theorem Fs.pids_setFd : (s.setFd k v).tasks.map (·.pid) = s.tasks.map (·.pid) := by
  rw [Fs.setFd, Fs.setTasks_tasks, List.map_map]
  refine List.map_congr_left fun t _ => ?_
  simp only [Function.comp_apply]
  split <;> rfl

/-- The process that runs, with its table changed. -/
theorem Fs.Running.setFd (ht : s.Running t) :
    (s.setFd k v).Running (t.setFd k v) := by
  unfold Fs.Running Fs.setFd at *
  rw [Fs.setTasks_tasks, Fs.setTasks_cur, List.find?_map]
  have hkey : ((fun u : Task => decide (u.pid = s.cur)) ∘ fun u =>
      if u.pid = s.cur then u.setFd k v else u) =
        fun u => decide (u.pid = s.cur) := by
    funext u
    simp only [Function.comp_apply]
    split <;> rfl
  rw [hkey, ht, Option.map_some, if_pos (by simpa using List.find?_some ht)]

/-- A descriptor after a change of the table of the process that runs. -/
theorem Fs.mem_setFd {u : Task} (hu : u ∈ (s.setFd k v).tasks) : ∃ t ∈ s.tasks,
    u.pid = t.pid ∧ (u = t ∨ u = t.setFd k v) := by
  obtain ⟨t, ht, rfl⟩ := List.mem_map.mp hu
  refine ⟨t, ht, ?_⟩
  split
  · exact ⟨rfl, Or.inr rfl⟩
  · exact ⟨rfl, Or.inl rfl⟩

theorem post_modifyThread_setFd {Q : Unit → Fs → Prop} {E : Fault → Prop} :
    Exec.Post (modifyThread fun t => { t with fdTable := Function.update t.fdTable k v }) s Q E ↔
      Q () (s.setFd k v) := Iff.rfl

end Sums

section Specs

variable {s : Fs} {t : Task} {g k : ℕ} {E : Fault → Prop}

theorem post_runningThread (ht : s.Running t) {Q : Task → Fs → Prop} :
    Exec.Post runningThread s Q E ↔ Q t s := by
  rw [runningThread]
  simp only [Exec.post_bind, Exec.post_get, post_deref]
  rw [show s.tasks.find? (·.pid = s.cur) = some t from ht]
  simp

@[simp] theorem post_getFreeSlotInGlobal {Q : Option ℕ → Fs → Prop} :
    Exec.Post getFreeSlotInGlobal s Q E ↔ Q s.freeSlot s := Iff.rfl

theorem Fs.of_freeSlot (h : s.freeSlot = some g) :
    3 ≤ g ∧ g < maxFileOpen ∧ (s.fileTable g).fdInode = none := by
  have hmem := List.mem_of_find?_eq_some h
  rw [List.mem_range'_1] at hmem
  have hfree := List.find?_some h
  exact ⟨hmem.1, by unfold maxFileOpen at *; omega, by simpa using hfree⟩

/-- `pcb_fd_install` takes a free descriptor, if there is one. -/
theorem pcbFdInstall_spec (ht : s.Running t) : Exec.Returns (pcbFdInstall g) s fun r s' =>
    (∃ k, 3 ≤ k ∧ k < maxFilesOpenPerProc ∧ t.fdTable k = -1 ∧ r = k ∧ s' = s.setFd k g) ∨
      (∀ k, 3 ≤ k → k < maxFilesOpenPerProc → t.fdTable k ≠ -1) ∧ r = -1 ∧ s' = s := by
  rw [Exec.Returns, pcbFdInstall, Exec.post_bind, post_runningThread ht]
  split
  · rename_i k hk
    have hmem := List.mem_of_find?_eq_some hk
    rw [List.mem_range'_1] at hmem
    have hfree := List.find?_some hk
    refine Exec.post_bind.mpr (Or.inl ⟨k, hmem.1, ?_, by simpa using hfree, rfl, rfl⟩)
    unfold maxFilesOpenPerProc at *
    omega
  · rename_i hnone
    refine Or.inr ⟨fun k hle hlt => ?_, rfl, rfl⟩
    have := List.find?_eq_none.mp hnone k (by rw [List.mem_range'_1]; omega)
    simpa using this

/-- `fd_local2global` reads the table of the process that runs. -/
theorem fdLocal2global_spec (ht : s.Running t) {fd : Int} :
    Exec.Ensures (fdLocal2global fd) s fun g s' => s' = s ∧ 0 ≤ fd ∧ fd < maxFilesOpenPerProc ∧
      t.fdTable fd.toNat = g ∧ g < maxFileOpen := by
  rw [Exec.Ensures, fdLocal2global, Exec.post_bind, post_runningThread ht]
  simp only [Exec.post_bind, post_inBounds, post_assert, Exec.post_pure, implies_true, and_true,
    true_and]
  rintro ⟨hle, hlt⟩ ⟨hge, hmax⟩
  exact ⟨hle, hlt, (Int.toNat_of_nonneg hge).symm, by omega⟩

/-- `is_pipe` reads the flag of the entry. -/
theorem isPipe_spec (ht : s.Running t) : Exec.Ensures (isPipe k) s fun b s' => s' = s ∧
    ∃ g : ℕ, t.fdTable k = g ∧ g < maxFileOpen ∧
      b = ((s.fileTable g).fdFlag == pipeFlag) := by
  refine (fdLocal2global_spec ht).bind fun g s' => ?_
  rintro ⟨rfl, -, -, hg, hlt⟩
  exact ⟨rfl, g, hg, hlt, rfl⟩

/-- `file_close` changes one entry and no process. -/
theorem fileClose_frame : Exec.Ensures (fileClose g) s fun _ s' => s'.tasks = s.tasks ∧
    s'.cur = s.cur ∧
    s'.fileTable = Function.update s.fileTable g { s.fileTable g with fdInode := none } := by
  simp [fileClose, inodeClose, derefInode, storeInode]

end Specs

end Winx
