import Winx.Memory.FreePages

/-! # Page directories

A process gets a page directory with the entries of the kernel half and the
directory itself, and no page of its own. `process_execute` asks for the pages
of a process, and a switch activates the directory of the next thread.
-/

namespace Winx

/-- A page directory without user pages. -/
structure EmptyDir (m : Memory) (dir : ℕ) : Prop where
  user : ∀ i < 768, m.phys dir i = 0
  kernel : ∀ i, 768 ≤ i → i < 1023 → m.phys dir i = m.phys bootDir i
  self : m.phys dir 1023 = entry dir

section Dirs

variable {m : Memory} {dir vaddr frame : ℕ}

/-- The kernel half of the active directory. -/
theorem PageInv.active_kernel (h : PageInv m) {i : ℕ} (hlo : 768 ≤ i) (hhi : i < 1023) :
    m.phys m.cr3 i = m.phys bootDir i := by
  rcases h.cr3 with heq | hdir
  · rw [heq]
  · exact h.kernelHalf _ hdir i hlo hhi

/-- `create_page_dir` -/
theorem createPageDir_spec (h : PageInv m) :
    Exec.Returns createPageDir m fun r m' => PageInv m' ∧ GotKernelPages m m' 1 r ∧
      ∀ pageDir, r = some pageDir → ∃ dir, m'.Holds (.kernelPage pageDir) dir ∧ EmptyDir m' dir := by
  rw [createPageDir, Exec.Returns, Exec.post_bind]
  refine Exec.Post.mono (getKernelPages_spec h) (fun r m₁ ⟨h₁, hgot, hzero⟩ => ?_)
    fun e ⟨_, hcnt⟩ => hcnt (by decide)
  cases r with
  | none => exact ⟨h₁, hgot, nofun⟩
  | some pageDir =>
    obtain ⟨hpages, i, hscan, hvaddr, hbitmap⟩ := hgot
    obtain ⟨hnot, dir, hdir⟩ := hpages.not_isTaskPage h le_rfl (show pageDir < pageDir + 1 by omega)
    obtain ⟨hlo, hhi, hwalk⟩ := hdir
    have hzero := hzero pageDir rfl pageDir dir le_rfl (by omega) ⟨hlo, hhi, hwalk⟩
    have hlt := (h₁.holds_bounds (u := .kernelPage pageDir) ⟨hlo, hhi, hwalk⟩).2
    -- the directory is at the last page of the address space
    have hself : m₁.walk m₁.cr3 0xfffff = some m₁.cr3 := by
      have hlast := h₁.selfMapped.walk_pteBase (show 1023 < 1024 by decide)
      rwa [h₁.selfMapped.self, entryPresent_entry, if_pos rfl,
        entryFrame_entry h₁.selfMapped.lt] at hlast
    have hactive : m₁.walk m₁.cr3 pageDir = some dir := by
      rw [h₁.walk_kernel (kernelBase_le_of_heap hlo) hhi, hwalk]
    obtain ⟨h₂, hw₂⟩ := h₁.wrotePage ⟨hlo, hhi, hwalk⟩ hnot fun i =>
      if 768 ≤ i ∧ i < 1023 then m₁.phys m₁.cr3 i else m₁.phys dir i
    generalize hm₂ : (m₁.setFrame dir fun i =>
      if 768 ≤ i ∧ i < 1023 then m₁.phys m₁.cr3 i else m₁.phys dir i) = m₂ at h₂ hw₂
    have hdir₂ : m₂.Holds (.kernelPage pageDir) dir := (hw₂.same.holds _ _).mpr ⟨hlo, hhi, hwalk⟩
    have hactive₂ : m₂.walk m₂.cr3 pageDir = some dir := by
      rw [h₂.walk_kernel (kernelBase_le_of_heap hlo) hhi, hdir₂.2.2]
    obtain ⟨hp₂, -, hframe₂⟩ := Memory.walk_eq_some.mp hactive₂
    obtain ⟨h₃, hw₃⟩ := h₂.wrotePage hdir₂ (fun htask => hnot (hw₂.same.keeps.isTaskPage.mp htask))
      (Function.update (m₂.phys dir) 1023 (entry dir))
    have hpage : (pageDir * 1024 + 1023) / 1024 = pageDir := by omega
    have hidx : (pageDir * 1024 + 1023) % 1024 = 1023 := by omega
    simp only [addrV2p, translate, store, Exec.post_bind, Exec.post_get, post_deref, hself, hactive,
      Option.some.injEq, forall_eq', Exec.post_modify, reduceCtorEq, false_implies, and_true, hm₂,
      h₂.selfMapped.post_load_ptePtr (lt_trans hhi (by decide)), hp₂, true_implies,
      not_true_eq_false, Exec.post_pure, hframe₂, hpage, hactive₂, hidx]
    have hphys (i : ℕ) : (m₂.setWord dir 1023 (entry dir)).phys dir i =
        if i = 1023 then entry dir else if 768 ≤ i ∧ i < 1023 then m₁.phys m₁.cr3 i else 0 := by
      rw [Memory.setWord_phys_apply, ← hm₂, Memory.setFrame_phys, Function.update_self, hzero]
      simp only [true_and]
    refine ⟨h₃, ⟨(hpages.wrote hw₂ h₁).wrote hw₃ h₂, i, hscan, hvaddr, ?_⟩, dir,
      (hw₃.same.holds _ _).mpr hdir₂, fun i hi => ?_, fun i hlo' hhi' => ?_, ?_⟩
    · change m₂.kernelVaddr.vaddrBitmap = _
      rw [hw₂.kernelVaddr, hbitmap]
    · rw [hphys, if_neg (by omega), if_neg (by omega)]
    · rw [hphys, if_neg (by omega), if_pos ⟨hlo', hhi'⟩, h₁.active_kernel hlo' hhi',
        ← hw₂.same.keeps.boot i hlo']
      exact (hw₃.same.keeps.boot i hlo').symm
    · rw [hphys, if_pos rfl]

/-- A new thread in a page of the kernel heap, with a page directory of its own or without one. -/
theorem PageInv.addTask {p : ℕ} {t : MemTask} (h : PageInv m) (hp : m.Holds (.kernelPage p) frame)
    (hnot : ¬ m.IsTaskPage p)
    (hdir : t.pgdir ≠ 0 → ∃ dir, m.Holds (.kernelPage t.pgdir) dir ∧ EmptyDir m dir ∧
      ¬ m.IsTaskPage t.pgdir) :
    PageInv (m.setTask p (some t)) ∧ (∀ u g, (m.setTask p (some t)).Holds u g ↔ m.Holds u g) ∧
      ∀ d, (m.setTask p (some t)).IsProcDir d ↔
        m.IsProcDir d ∨ t.pgdir ≠ 0 ∧ m.walk bootDir t.pgdir = some d := by
  have hnone : m.task p = none := by
    by_contra hne
    obtain ⟨t', ht'⟩ := Option.ne_none_iff_exists'.mp hne
    exact hnot ⟨p, t', ht', Or.inl ⟨rfl, hp.1⟩⟩
  have htask {q : ℕ} {u : MemTask} : (m.setTask p (some t)).task q = some u ↔
      m.task q = some u ∨ q = p ∧ u = t := by
    rw [Memory.setTask_task, Function.update_apply]
    split
    · rename_i heq
      simp [heq, hnone, eq_comm]
    · rename_i hne
      simp [hne]
  have hproc (d : ℕ) : (m.setTask p (some t)).IsProcDir d ↔
      m.IsProcDir d ∨ t.pgdir ≠ 0 ∧ m.walk bootDir t.pgdir = some d := by
    constructor
    · rintro ⟨q, u, hu, hne, hwalk⟩
      rcases htask.mp hu with hu | ⟨rfl, rfl⟩
      · exact Or.inl ⟨q, u, hu, hne, hwalk⟩
      · exact Or.inr ⟨hne, hwalk⟩
    · rintro (⟨q, u, hu, hne, hwalk⟩ | ⟨hne, hwalk⟩)
      · exact ⟨q, u, htask.mpr (Or.inl hu), hne, hwalk⟩
      · exact ⟨p, t, htask.mpr (Or.inr ⟨rfl, rfl⟩), hne, hwalk⟩
  have hempty {d : ℕ} (hne : t.pgdir ≠ 0) (hwalk : m.walk bootDir t.pgdir = some d) :
      EmptyDir m d := by
    obtain ⟨dir, hu, hemp, -⟩ := hdir hne
    obtain rfl := Option.some.inj (hu.2.2.symm.trans hwalk)
    exact hemp
  have hholds (u : FrameUse) (g : ℕ) : (m.setTask p (some t)).Holds u g ↔ m.Holds u g := by
    cases u with
    | page d v =>
      simp only [Memory.Holds, hproc]
      constructor
      · rintro ⟨hd | ⟨hne, hwalk⟩, hv, hg⟩
        · exact ⟨hd, hv, hg⟩
        · have habs := (Memory.walk_eq_some.mp hg).1
          unfold kernelBase at hv
          change entryPresent (m.phys d (v / 1024)) = true at habs
          rw [(hempty hne hwalk).user _ (by omega)] at habs
          cases habs
      · rintro ⟨hd, hv, hg⟩
        exact ⟨Or.inl hd, hv, hg⟩
    | table d i =>
      simp only [Memory.Holds, hproc]
      constructor
      · rintro ⟨hd | ⟨hne, hwalk⟩, hi, hpres, hg⟩
        · exact ⟨hd, hi, hpres, hg⟩
        · change entryPresent (m.phys d i) = true at hpres
          rw [(hempty hne hwalk).user _ hi] at hpres
          cases hpres
      · rintro ⟨hd, hi, hpres, hg⟩
        exact ⟨Or.inl hd, hi, hpres, hg⟩
    | kernelPage v => rfl
  refine ⟨⟨⟨h.layout.kernelPool, h.layout.userPool, h.layout.memory, h.layout.vaddrStart,
    h.layout.kernelHeap, h.layout.bootTable, h.layout.bootSelf⟩, fun d hd i hlo hhi => ?_, fun d hd => ?_, fun u g hu => ?_, fun u v g hu hv => ?_,
    fun v g hv => h.bits v g hv, fun q u hu hne => ?_, fun q r u w hu hw hne heq => ?_,
    fun q u hu => ?_, ?_⟩, hholds, hproc⟩
  · rcases (hproc d).mp hd with hd | ⟨hne, hwalk⟩
    · exact h.kernelHalf d hd i hlo hhi
    · exact (hempty hne hwalk).kernel i hlo hhi
  · rcases (hproc d).mp hd with hd | ⟨hne, hwalk⟩
    · exact h.self d hd
    · exact (hempty hne hwalk).self
  · exact h.alloc u g ((hholds u g).mp hu)
  · exact h.unique u v g ((hholds u g).mp hu) ((hholds v g).mp hv)
  · rcases htask.mp hu with hu | ⟨rfl, rfl⟩
    · exact h.pgdir q u hu hne
    · obtain ⟨dir, hu, -⟩ := hdir hne
      exact ⟨hu.1, hu.2.1, dir, hu.2.2⟩
  · rcases htask.mp hu with hu' | ⟨rfl, rfl⟩ <;> rcases htask.mp hw with hw' | ⟨rfl, rfl⟩
    · exact h.pgdirs q r u w hu' hw' hne heq
    · obtain ⟨-, -, -, hfree⟩ := hdir (heq ▸ hne)
      exact absurd ⟨q, u, hu', Or.inr ⟨heq.symm, hne⟩⟩ hfree
    · obtain ⟨-, -, -, hfree⟩ := hdir hne
      exact absurd ⟨r, w, hw', Or.inr ⟨heq, heq ▸ hne⟩⟩ hfree
    · rfl
  · rcases htask.mp hu with hu | ⟨rfl, rfl⟩
    · exact h.pcb q u hu
    · exact Or.inr ⟨hp.2.1, frame, hp.2.2⟩
  · exact h.cr3.imp id fun hd => (hproc _).mpr (Or.inl hd)

end Dirs

/-- The page directory that a thread runs on. -/
def Memory.dirOf (m : Memory) (t : MemTask) : ℕ :=
  if t.pgdir = 0 then bootDir else (m.walk bootDir t.pgdir).getD 0

/-- The invariant of the memory and the threads: the active directory is that of the running thread,
and the bitmap of each process covers the user half. -/
structure MemInv (m : Memory) : Prop where
  page : PageInv m
  active : ∃ t, m.task m.cur = some t ∧ m.cr3 = m.dirOf t
  bitmap : ∀ p t, m.task p = some t → t.pgdir ≠ 0 →
    t.userprogVaddr.vaddrStart = userVaddrStart ∧
      t.userprogVaddr.vaddrBitmap.btmpBytesLen = userBitmapLen

section Threads

variable {m m' : Memory} {p : ℕ} {t t' : MemTask}

theorem PageInv.dirOf (h : PageInv m) (ht : m.task p = some t) :
    m.dirOf t = bootDir ∨ m.IsProcDir (m.dirOf t) := by
  unfold Memory.dirOf
  split
  · exact Or.inl rfl
  · rename_i hne
    obtain ⟨-, -, dir, hdir⟩ := h.pgdir p t ht hne
    rw [hdir]
    exact Or.inr ⟨p, t, ht, hne, hdir⟩

theorem PageInv.isProcDir_dirOf (h : PageInv m) (ht : m.task p = some t) (hne : t.pgdir ≠ 0) :
    m.IsProcDir (m.dirOf t) := by
  obtain ⟨-, -, dir, hdir⟩ := h.pgdir p t ht hne
  unfold Memory.dirOf
  rw [if_neg hne, hdir]
  exact ⟨p, t, ht, hne, hdir⟩

theorem PageInv.setCr3 (h : PageInv m) {dir : ℕ} (hdir : dir = bootDir ∨ m.IsProcDir dir) :
    PageInv (m.setCr3 dir) :=
  ⟨⟨h.layout.kernelPool, h.layout.userPool, h.layout.memory, h.layout.vaddrStart,
    h.layout.kernelHeap, h.layout.bootTable, h.layout.bootSelf⟩, h.kernelHalf, h.self, h.alloc,
    h.unique, h.bits, h.pgdir, h.pgdirs, h.pcb, hdir⟩

theorem PageInv.setCur (h : PageInv m) (p : ℕ) : PageInv (m.setCur p) :=
  ⟨⟨h.layout.kernelPool, h.layout.userPool, h.layout.memory, h.layout.vaddrStart,
    h.layout.kernelHeap, h.layout.bootTable, h.layout.bootSelf⟩, h.kernelHalf, h.self, h.alloc,
    h.unique, h.bits, h.pgdir, h.pgdirs, h.pcb, h.cr3⟩

/-- `page_dir_activate` finds the directory through the active one, since the kernel half is the
same in all. -/
theorem post_pageDirActivate (h : PageInv m) (ht : m.task p = some t) {Q : Unit → Memory → Prop}
    {E : Fault → Prop} :
    Exec.Post (pageDirActivate t) m Q E ↔ Q () (m.setCr3 (m.dirOf t)) := by
  unfold pageDirActivate Memory.dirOf
  by_cases hne : t.pgdir = 0
  · simp [hne]
  · obtain ⟨hlo, hhi, dir, hdir⟩ := h.pgdir p t ht hne
    have hactive : m.walk m.cr3 t.pgdir = some dir := by
      rw [h.walk_kernel (kernelBase_le_of_heap hlo) hhi, hdir]
    obtain ⟨hp, -, hframe⟩ := Memory.walk_eq_some.mp hactive
    simp only [if_neg hne, addrV2p, Exec.post_bind, Exec.post_pure, Exec.post_modify, hdir,
      h.selfMapped.post_load_ptePtr (lt_trans hhi (by decide)), hp, true_implies, hframe,
      not_true_eq_false, false_implies, and_true, Option.getD_some]

theorem KeepsDirs.dirOf (hk : KeepsDirs m m') (ht : m.task p = some t)
    (hpgdir : t'.pgdir = t.pgdir) : m'.dirOf t' = m.dirOf t := by
  unfold Memory.dirOf
  rw [hpgdir]
  split
  · rfl
  · rename_i hne
    rw [hk.mapped _ ⟨p, t, ht, Or.inr ⟨rfl, hne⟩⟩]

/-- The directory of the running process is active. -/
theorem MemInv.isProcDir (h : MemInv m) (ht : m.task m.cur = some t) (hne : t.pgdir ≠ 0) :
    m.IsProcDir m.cr3 := by
  obtain ⟨t', ht', hcr3⟩ := h.active
  obtain rfl := Option.some.inj (ht.symm.trans ht')
  rw [hcr3]
  exact h.page.isProcDir_dirOf ht hne

/-- A step that leaves the directories and the ranges of the bitmaps. -/
theorem MemInv.of_keepsDirs (h : MemInv m) (h' : PageInv m') (hk : KeepsDirs m m')
    (hcr3 : m'.cr3 = m.cr3) (hcur : m'.cur = m.cur)
    (htask : ∀ p t', m'.task p = some t' → ∃ t, m.task p = some t ∧
      t'.userprogVaddr.vaddrStart = t.userprogVaddr.vaddrStart ∧
      t'.userprogVaddr.vaddrBitmap.btmpBytesLen = t.userprogVaddr.vaddrBitmap.btmpBytesLen) :
    MemInv m' := by
  refine ⟨h', ?_, fun p t' ht' hne => ?_⟩
  · obtain ⟨t, ht, hactive⟩ := h.active
    obtain ⟨t', ht', hpgdir⟩ := hk.to_task ht
    rw [hcur, hcr3]
    exact ⟨t', ht', by rw [hactive, hk.dirOf ht hpgdir]⟩
  · obtain ⟨t, ht, hstart, hlen⟩ := htask p t' ht'
    obtain ⟨u, hu, hpgdir⟩ := hk.of_task ht'
    obtain rfl := Option.some.inj (ht.symm.trans hu)
    rw [hstart, hlen]
    exact h.bitmap p t ht (hpgdir ▸ hne)

theorem MemInv.of_task_eq (h : MemInv m) (h' : PageInv m') (hk : KeepsDirs m m')
    (hcr3 : m'.cr3 = m.cr3) (hcur : m'.cur = m.cur) (htask : m'.task = m.task) : MemInv m' :=
  h.of_keepsDirs h' hk hcr3 hcur fun p t' ht' => ⟨t', by rwa [← htask], rfl, rfl⟩

/-- The running process changes its bitmap. -/
theorem MemInv.of_setBitmap (h : MemInv m) (h' : PageInv m') (hk : KeepsDirs m m')
    (hcr3 : m'.cr3 = m.cr3) (hcur : m'.cur = m.cur) (ht : m.task m.cur = some t) {b : Bitmap}
    (hlen : b.btmpBytesLen = t.userprogVaddr.vaddrBitmap.btmpBytesLen)
    (htask : m'.task = Function.update m.task m.cur (some (t.setBitmap b))) : MemInv m' := by
  refine h.of_keepsDirs h' hk hcr3 hcur fun p t' ht' => ?_
  rw [htask, Function.update_apply] at ht'
  split at ht'
  · rename_i heq
    obtain rfl := Option.some.inj ht'
    exact ⟨t, heq ▸ ht, rfl, hlen⟩
  · exact ⟨t', ht', rfl, rfl⟩

/-- A switch to another thread. -/
theorem switchTo_spec (h : MemInv m) : Exec.Ensures (switchTo p) m fun _ m' => MemInv m' ∧
    ∃ t, m.task p = some t ∧ m' = (m.setCur p).setCr3 (m.dirOf t) := by
  simp only [switchTo, Exec.post_bind, Exec.post_get, post_deref, Exec.post_modify]
  refine ⟨fun t ht => ?_, fun _ => trivial⟩
  rw [post_pageDirActivate (h.page.setCur p) ht]
  exact ⟨⟨(h.page.setCur p).setCr3 (h.page.dirOf ht), ⟨t, ht, rfl⟩, h.bitmap⟩, t, ht, rfl⟩

/-- `process_execute`, as far as it returns. -/
theorem processExecute_spec (h : MemInv m) : Exec.Ensures processExecute m fun _ m' => MemInv m' ∧
    (∀ d v g, m'.Holds (.page d v) g ↔ m.Holds (.page d v) g) ∧
    m'.cur = m.cur ∧ (∀ p t, m.task p = some t → m'.dirOf t = m.dirOf t) ∧
    ∃ p t, m.task p = none ∧ m'.task = Function.update m.task p (some t) ∧
      t.userprogVaddr.vaddrBitmap.bits = Bytes.zero := by
  simp only [processExecute, createUserVaddrBitmap, storeTask, Exec.post_bind]
  refine Exec.Post.mono (getKernelPages_spec h.page) (fun r₁ m₁ ⟨h₁, hgot₁, _⟩ => ?_) fun _ _ => trivial
  rw [post_deref]
  refine ⟨fun thread hr₁ => ?_, fun _ => trivial⟩
  subst hr₁
  refine Exec.Post.mono (getKernelPages_spec h₁) (fun r₂ m₂ ⟨h₂, hgot₂, _⟩ => ?_) fun _ _ => trivial
  rw [post_deref]
  refine ⟨fun bits hr₂ => ?_, fun _ => trivial⟩
  subst hr₂
  rw [Exec.post_pure]
  refine Exec.Returns.post (createPageDir_spec h₂) fun r₃ m₃ ⟨h₃, hgot₃, hempty⟩ => ?_
  rw [Exec.post_modify]
  obtain ⟨hpages₁, -⟩ := hgot₁
  obtain ⟨hpages₂, -⟩ := hgot₂
  obtain ⟨vaddr₃, n₃, hpages₃⟩ := hgot₃.pages
  have hgrows : GivesFrames m₁ m₃ := hpages₂.grows.trans h₂ hpages₃.grows
  obtain ⟨hnot, g, hg⟩ := hpages₁.not_isTaskPage h.page le_rfl (show thread < thread + 1 by omega)
  have hnot₃ : ¬ m₃.IsTaskPage thread := fun htask => hnot (hgrows.keeps.isTaskPage.mp htask)
  have htask₃ : m₃.task = m.task := hpages₃.task.trans (hpages₂.task.trans hpages₁.task)
  have hcur₃ : m₃.cur = m.cur := hpages₃.cur.trans (hpages₂.cur.trans hpages₁.cur)
  have hkeeps₃ : KeepsDirs m m₃ := (hpages₁.grows.trans h₁ hgrows).keeps
  have hinv₃ : MemInv m₃ := h.of_task_eq h₃ hkeeps₃
    (hpages₃.cr3.trans (hpages₂.cr3.trans hpages₁.cr3)) hcur₃ htask₃
  have hadd := h₃.addTask (t := ⟨r₃.getD 0, ⟨⟨userBitmapLen, Bytes.zero⟩, bits, userVaddrStart⟩⟩)
    (hgrows.holds _ g hg) hnot₃ fun hne => ?_
  · obtain ⟨h', hholds, -⟩ := hadd
    have hnone : m₃.task thread = none := by
      by_contra hne
      obtain ⟨u, hu⟩ := Option.ne_none_iff_exists'.mp hne
      exact hnot₃ ⟨thread, u, hu, Or.inl ⟨rfl, hg.1⟩⟩
    refine ⟨⟨h', ?_, fun p t ht hne => ?_⟩, fun d v g => ?_, hcur₃,
      fun p t ht => hkeeps₃.dirOf ht rfl, thread,
      ⟨r₃.getD 0, ⟨⟨userBitmapLen, Bytes.zero⟩, bits, userVaddrStart⟩⟩, ?_, ?_, rfl⟩
    · obtain ⟨t, ht, hactive⟩ := hinv₃.active
      refine ⟨t, ?_, hactive⟩
      have hne : m₃.cur ≠ thread := fun heq => by
        rw [heq] at ht
        cases ht.symm.trans hnone
      rw [Memory.setTask_task, Memory.setTask_cur, Function.update_of_ne hne, ht]
    · rw [Memory.setTask_task, Function.update_apply] at ht
      split at ht
      · obtain rfl := Option.some.inj ht
        exact ⟨rfl, rfl⟩
      · exact hinv₃.bitmap p t ht hne
    · rw [hholds, hpages₃.page, hpages₂.page, hpages₁.page]
    · rw [← htask₃]
      exact hnone
    · rw [Memory.setTask_task, htask₃]
  · cases r₃ with
    | none => exact absurd rfl hne
    | some pageDir =>
      obtain ⟨dir, hdir, hemp⟩ := hempty pageDir rfl
      exact ⟨dir, hdir, hemp, (hgot₃.1.not_isTaskPage h₂ le_rfl (by simp)).1⟩

end Threads

end Winx
