import Winx.Fs.InodeTable
import Winx.Fs.Opening
import Winx.Lib.Run

/-! # One writer for each file

`write_deny` is to keep a second writer from opening a file. `file_open` tests and
sets it, after the entry of the refused one is marked; `file_create` leaves it
clear and `file_close` clears it, whatever the mode of the entry.
-/

namespace Winx

/-- An entry of the file table is open for writing. -/
def Fs.Writes (s : Fs) (g p : ℕ) : Prop :=
  g < maxFileOpen ∧ (s.fileTable g).fdInode = some p ∧ wantsWrite (s.fileTable g).fdFlag = true

/-- At most one entry of an inode is open for writing, and `write_deny` of an open inode tells whether
there is one. -/
structure SingleWriter (s : Fs) : Prop where
  unique : ∀ g h p, s.Writes g p → s.Writes h p → g = h
  deny : ∀ p ∈ s.part.openInodes, ∀ i, s.inodes p = some i →
    (i.writeDeny = true ↔ ∃ g, s.Writes g p)

/-- The law with what it takes to keep it: new inodes have new addresses. -/
structure WriterInv (s : Fs) : Prop extends SingleWriter s where
  opened : ∀ p ∈ s.part.openInodes, p < s.nextInode
  entries : ∀ g p, (s.fileTable g).fdInode = some p → p < s.nextInode

/-- Going on to this target keeps one writer: a file created for writing is given up again, and one
opened for writing has no writer; if it must be loaded, then without a writer too. -/
def OpenTarget.KeepsWriter (flag : UInt32) (s : Fs) : OpenTarget → Prop
  | refused => True
  | create parentDir filename => wantsWrite flag = true →
      ∀ x ∈ (fileCreateStart parentDir filename flag s).toOption, x.1 = none
  | existing inodeNo => s.freeSlot ≠ none →
      (∀ p ∈ findOpenInode s inodeNo, wantsWrite flag = true →
        ∀ i ∈ s.inodes p, i.writeDeny = false) ∧
      (findOpenInode s inodeNo = none → ∀ i ∈ s.loadedInode inodeNo, i.writeDeny = false)

instance OpenTarget.decidableKeepsWriter (flag : UInt32) (s : Fs) (target : OpenTarget) :
    Decidable (target.KeepsWriter flag s) := by
  cases target <;> unfold KeepsWriter <;> infer_instance

/-- The calls that open and close files. -/
inductive FileCall
  | sysOpen (pathname : List UInt8) (flags : UInt8)
  | sysClose (fd : Int)

/-- Process `pid` runs, with these values on its stack. -/
@[simps -fullyApplied] def Fs.enter (s : Fs) (pid : ℕ) (junk : ℕ → UInt32) : Fs :=
  { s with cur := pid, junk := junk }

namespace FileCall

/-- A call by the running process. -/
def body : FileCall → FsM Int
  | sysOpen pathname flags => Winx.sysOpen pathname flags
  | sysClose fd => Winx.sysClose fd

/-- A call by process `pid`. -/
def run (x : ℕ × (ℕ → UInt32) × FileCall) : FsM Int := do
  modify fun s => s.enter x.1 x.2.1
  x.2.2.body

/-- The calls that keep one writer. No directory that `sys_open` leaves open was stored with
`write_deny`, and its target is as above; `sys_close` of an entry that is not open for writing finds
no writer. -/
def KeepsWriter (s : Fs) : FileCall → Prop
  | sysOpen pathname flags => ∀ x ∈ (openTarget pathname flags s).toOption,
      (∀ p ∈ x.2.part.openInodes, s.nextInode ≤ p → ∀ i ∈ x.2.inodes p, i.writeDeny = false) ∧
        x.1.KeepsWriter flags.toUInt32 x.2
  | sysClose fd => 2 < fd → ∀ x ∈ (fdLocal2global fd s).toOption,
      wantsWrite (s.fileTable x.1).fdFlag = false →
        ∀ p ∈ (s.fileTable x.1).fdInode, ∀ i ∈ s.inodes p, i.writeDeny = false

instance decidableKeepsWriter (s : Fs) (c : FileCall) : Decidable (c.KeepsWriter s) := by
  cases c <;> unfold KeepsWriter <;> infer_instance

end FileCall

section Steps

variable {s s' : Fs} {g h p : ℕ} {f : File} {i : Inode}

theorem writes_congr (hfile : s'.fileTable = s.fileTable) : s'.Writes g p ↔ s.Writes g p := by
  rw [Fs.Writes, Fs.Writes, hfile]

theorem WriterInv.walk (hw : WriterInv s) (h : Walk s s')
    (hnew : ∀ p ∈ s'.part.openInodes, s.nextInode ≤ p → ∀ i, s'.inodes p = some i →
      i.writeDeny = false) : WriterInv s' where
  unique g h' p hg hh := by
    rw [writes_congr h.fileTable] at hg hh
    exact hw.unique g h' p hg hh
  deny p hp i' hi' := by
    simp only [writes_congr h.fileTable]
    by_cases hle : s.nextInode ≤ p
    · -- an inode that was brought in
      have hnone : ¬ ∃ g, s.Writes g p := by
        rintro ⟨g, hg⟩
        have := hw.entries g p hg.2.1
        omega
      rw [hnew p hp hle i' hi']
      exact ⟨nofun, fun hg => absurd hg hnone⟩
    · have hmem : p ∈ s.part.openInodes := (h.opened p hp).resolve_right fun hp => hle hp.1
      obtain ⟨i, hi, hdeny⟩ := (h.inode p i' hi').resolve_right fun hp => hle hp.1
      rw [hdeny]
      exact hw.deny p hmem i hi
  opened p hp := by
    have hle := h.next
    rcases h.opened p hp with hp | hp
    · exact (hw.opened p hp).trans_le hle
    · exact hp.2
  entries g p hg := by
    rw [h.fileTable] at hg
    exact (hw.entries g p hg).trans_le h.next

theorem WriterInv.quiet (hw : WriterInv s) (h : QuietFs s s') : WriterInv s' where
  unique g h' p hg hh := by
    rw [writes_congr h.fileTable] at hg hh
    exact hw.unique g h' p hg hh
  deny p hp i' hi' := by
    simp only [writes_congr h.fileTable]
    rw [h.openInodes] at hp
    have hinode := h.inode p
    rw [hi', Option.map_some] at hinode
    obtain ⟨i, hi, hdeny⟩ := Option.map_eq_some_iff.mp hinode.symm
    rw [← hdeny]
    exact hw.deny p hp i hi
  opened p hp := by
    rw [h.openInodes] at hp
    rw [h.next]
    exact hw.opened p hp
  entries g p hg := by
    rw [h.fileTable] at hg
    rw [h.next]
    exact hw.entries g p hg

/-- A step that is about one inode only. -/
theorem WriterInv.change (hw : WriterInv s) (p : ℕ)
    (hwrites : ∀ h q, q ≠ p → (s'.Writes h q ↔ s.Writes h q))
    (hopen : ∀ q ∈ s'.part.openInodes, q ≠ p → q ∈ s.part.openInodes)
    (hinode : ∀ q i', q ≠ p → s'.inodes q = some i' →
      ∃ i, s.inodes q = some i ∧ i'.writeDeny = i.writeDeny)
    (hunique : ∀ g h, s'.Writes g p → s'.Writes h p → g = h)
    (hdeny : p ∈ s'.part.openInodes → ∀ i, s'.inodes p = some i →
      (i.writeDeny = true ↔ ∃ g, s'.Writes g p))
    (hopened : ∀ q ∈ s'.part.openInodes, q < s'.nextInode)
    (hentries : ∀ g q, (s'.fileTable g).fdInode = some q → q < s'.nextInode) : WriterInv s' where
  unique g h q hg hh := by
    by_cases hq : q = p
    · subst hq
      exact hunique g h hg hh
    · rw [hwrites _ _ hq] at hg hh
      exact hw.unique g h q hg hh
  deny q hq i' hi' := by
    by_cases hqp : q = p
    · subst hqp
      exact hdeny hq i' hi'
    · obtain ⟨i, hi, heq⟩ := hinode q i' hqp hi'
      simp only [hwrites _ _ hqp, heq]
      exact hw.deny q (hopen q hq hqp) i hi
  opened := hopened
  entries := hentries

theorem writes_of_ne (hfile : s'.fileTable = Function.update s.fileTable g f) (hne : h ≠ g) :
    s'.Writes h p ↔ s.Writes h p := by
  rw [Fs.Writes, Fs.Writes, hfile, Function.update_of_ne hne]

theorem writes_self (hfile : s'.fileTable = Function.update s.fileTable g f) :
    s'.Writes g p ↔ g < maxFileOpen ∧ f.fdInode = some p ∧ wantsWrite f.fdFlag = true := by
  rw [Fs.Writes, hfile, Function.update_self]

/-- An entry that is not in use is not open for writing. -/
theorem not_writes_of_free (hfree : (s.fileTable g).fdInode = none) : ¬ s.Writes g p := by
  rintro ⟨-, hp, -⟩
  rw [hfree] at hp
  cases hp

/-- A free entry is marked for an inode that no entry of the table has open for writing. -/
theorem WriterInv.mark (hw : WriterInv s) (hfree : (s.fileTable g).fdInode = none)
    (hfile : s'.fileTable = Function.update s.fileTable g f) (hf : f.fdInode = some p)
    (hnone : wantsWrite f.fdFlag = true → ∀ h, ¬ s.Writes h p)
    (hopen : s'.part.openInodes = s.part.openInodes) (hnext : s'.nextInode = s.nextInode)
    (hlt : p < s.nextInode)
    (hinode : ∀ q, q ≠ p → s'.inodes q = s.inodes q)
    (hdeny : p ∈ s.part.openInodes → ∀ i, s'.inodes p = some i →
      (i.writeDeny = true ↔ ∃ g, s'.Writes g p)) : WriterInv s' := by
  have hwrites (h q : ℕ) (hq : q ≠ p) : s'.Writes h q ↔ s.Writes h q := by
    by_cases hne : h = g
    · subst hne
      rw [writes_self hfile, hf]
      exact ⟨fun hh => absurd (Option.some.inj hh.2.1).symm hq,
        fun hh => absurd hh (not_writes_of_free hfree)⟩
    · exact writes_of_ne hfile hne
  refine hw.change p hwrites (fun q hq _ => hopen ▸ hq)
    (fun q i' hq hi' => ⟨i', (hinode q hq).symm.trans hi', rfl⟩) (fun a b ha hb => ?_)
    (fun hp => hdeny (hopen ▸ hp)) (fun q hq => ?_) fun h q hq => ?_
  · by_cases hag : a = g <;> by_cases hbg : b = g
    · rw [hag, hbg]
    · subst hag
      rw [writes_self hfile] at ha
      exact absurd ((writes_of_ne hfile hbg).mp hb) (hnone ha.2.2 b)
    · subst hbg
      rw [writes_self hfile] at hb
      exact absurd ((writes_of_ne hfile hag).mp ha) (hnone hb.2.2 a)
    · exact hw.unique a b p ((writes_of_ne hfile hag).mp ha) ((writes_of_ne hfile hbg).mp hb)
  · rw [hnext]
    exact hw.opened q (hopen ▸ hq)
  · rw [hnext]
    rw [hfile, Function.update_apply] at hq
    split at hq
    · rw [hf] at hq
      exact Option.some.inj hq ▸ hlt
    · exact hw.entries h q hq

/-- An entry is cleared. -/
theorem WriterInv.unmark (hw : WriterInv s)
    (hfile : s'.fileTable = Function.update s.fileTable g f) (hf : f.fdInode = none)
    (hopen : ∀ q ∈ s'.part.openInodes, q ∈ s.part.openInodes) (hnext : s'.nextInode = s.nextInode)
    (hinode : ∀ q i', q ≠ p → s'.inodes q = some i' →
      ∃ i, s.inodes q = some i ∧ i'.writeDeny = i.writeDeny)
    (hold : ∀ q, (s.fileTable g).fdInode = some q → q = p)
    (hdeny : p ∈ s'.part.openInodes → ∀ i, s'.inodes p = some i →
      (i.writeDeny = true ↔ ∃ g, s'.Writes g p)) : WriterInv s' := by
  have hself (q : ℕ) : ¬ s'.Writes g q := by
    rw [writes_self hfile, hf]
    rintro ⟨-, hq, -⟩
    cases hq
  have hsub (h q : ℕ) (hh : s'.Writes h q) : s.Writes h q := by
    by_cases hne : h = g
    · exact absurd (hne ▸ hh) (hself q)
    · exact (writes_of_ne hfile hne).mp hh
  refine hw.change p (fun h q hq => ⟨hsub h q, fun hh => ?_⟩) (fun q hq _ => hopen q hq) hinode
    (fun a b ha hb => hw.unique a b p (hsub a p ha) (hsub b p hb)) hdeny (fun q hq => ?_)
    fun h q hq => ?_
  · by_cases hne : h = g
    · subst hne
      exact absurd (hold q hh.2.1) hq
    · exact (writes_of_ne hfile hne).mpr hh
  · rw [hnext]
    exact hw.opened q (hopen q hq)
  · rw [hnext]
    rw [hfile, Function.update_apply] at hq
    split at hq
    · rw [hf] at hq
      cases hq
    · exact hw.entries h q hq

end Steps

section Calls

variable {s s' : Fs} {g : ℕ} {r : Int} {inodeNo flag : UInt32}

theorem InstalledIn.writerInv (h : InstalledIn s g r s') (hw : WriterInv s) : WriterInv s' := by
  obtain ⟨t, -, ⟨k, -, -, -, -, rfl⟩ | ⟨-, -, rfl⟩⟩ := h
  · exact ⟨⟨hw.unique, hw.deny⟩, hw.opened, hw.entries⟩
  · exact hw

/-- `file_open` of a file that has no writer. -/
theorem FileOpened.writerInv (h : FileOpened s inodeNo flag r s') (hw : WriterInv s)
    (hkeeps : (OpenTarget.existing inodeNo).KeepsWriter flag s) : WriterInv s' := by
  -- an inode that was loaded is not denied, one that was found only to readers
  have hopened {g p : ℕ} {i : Inode} {s₁ : Fs} (hslot : s.freeSlot = some g)
      (hopen : Opens s inodeNo p i s₁) : WriterInv s₁ ∧ p < s₁.nextInode ∧
        (s₁.fileTable g).fdInode = none ∧ (wantsWrite flag = true → i.writeDeny = false) := by
    have hkeeps := hkeeps (by rw [hslot]; nofun)
    have hfree := (Fs.of_freeSlot hslot).2.2
    rw [← hopen.walk.fileTable] at hfree
    rcases hopen.origin with ⟨hfind, hdeny⟩ | ⟨hfind, hle, j, hload, hdeny⟩
    · have hold : p ∈ s.part.openInodes := List.mem_of_find?_eq_some hfind
      obtain ⟨j, hj, hji⟩ := Option.map_eq_some_iff.mp hdeny
      have hw₁ : WriterInv s₁ := hw.walk hopen.walk fun q hq hle i' hi' => by
        have hlt := hw.opened q ((hopen.new q hq).elim id fun heq => heq ▸ hold)
        omega
      exact ⟨hw₁, hw₁.opened p hopen.mem, hfree, fun hwants => hji ▸ hkeeps.1 p hfind hwants j hj⟩
    · have hnot : i.writeDeny = false := hdeny.trans (hkeeps.2 hfind j hload)
      have hw₁ : WriterInv s₁ := hw.walk hopen.walk fun q hq hle' i' hi' => by
        rcases hopen.new q hq with hold | rfl
        · have := hw.opened q hold
          omega
        · rwa [Option.some.inj (hi'.symm.trans hopen.obj)]
      exact ⟨hw₁, hw₁.opened p hopen.mem, hfree, fun _ => hnot⟩
  cases h with
  | full hslot hr hs => exact hs ▸ hw
  | denied hslot hopen hwants hdeny hr hs =>
    have hnot := (hopened hslot hopen).2.2.2 hwants
    rw [hdeny] at hnot
    cases hnot
  | @writer g p i s₁ hslot hopen hwants hdeny hs =>
    obtain ⟨hw₁, hlt, hfree, hnot⟩ := hopened hslot hopen
    have hnone (h : ℕ) : ¬ s₁.Writes h p := by
      intro hh
      have := (hw₁.deny p hopen.mem i hopen.obj).mpr ⟨h, hh⟩
      rw [hdeny] at this
      cases this
    refine hs.writerInv (hw₁.mark (p := p) (g := g) hfree rfl rfl (fun _ => hnone) rfl rfl hlt
      (fun q hq => Function.update_of_ne hq _ _) fun _ j hj => ?_)
    rw [Fs.setInode_inodes, Function.update_self] at hj
    obtain rfl := Option.some.inj hj
    exact ⟨fun _ => ⟨g, (writes_self rfl).mpr ⟨(Fs.of_freeSlot hslot).2.1, rfl, hwants⟩⟩,
      fun _ => rfl⟩
  | @reader g p i s₁ hslot hopen hwants hs =>
    obtain ⟨hw₁, hlt, hfree, -⟩ := hopened hslot hopen
    refine hs.writerInv (hw₁.mark (p := p) (g := g) hfree rfl rfl (fun hwrite => ?_) rfl rfl hlt
      (fun q hq => rfl) fun _ j hj => ?_)
    · rw [hwants] at hwrite
      cases hwrite
    · rw [hw₁.deny p hopen.mem j hj]
      refine exists_congr fun h => ?_
      by_cases hne : h = g
      · subst hne
        refine ⟨fun hh => absurd hh (not_writes_of_free hfree), fun hh => ?_⟩
        have := ((writes_self rfl).mp hh).2.2
        rw [hwants] at this
        cases this
      · exact (writes_of_ne rfl hne).symm

/-- `file_close` of an entry that is open for writing, or of a file without a writer. -/
theorem fileClose_writerInv (hw : WriterInv s)
    (hkeeps : wantsWrite (s.fileTable g).fdFlag = false → ∀ p ∈ (s.fileTable g).fdInode,
      ∀ i ∈ s.inodes p, i.writeDeny = false) (hlt : g < maxFileOpen) :
    Exec.Ensures (fileClose g) s fun _ s' => WriterInv s' := by
  refine fileClose_closed.mono fun _ s' h => ?_
  obtain ⟨p, hp, -, -, hfile, hnext, hopen, hne, hself⟩ := h
  refine hw.unmark (p := p) hfile rfl hopen hnext
    (fun q i' hq hi' => ⟨i', (hne q hq).symm.trans hi', rfl⟩)
    (fun q hq => Option.some.inj (hq.symm.trans hp)) fun hmem i' hi' => ?_
  obtain ⟨hdeny, i, hi⟩ := hself i' hi'
  rw [hdeny]
  refine ⟨nofun, fun ⟨h, hh⟩ => ?_⟩
  have hne' : h ≠ g := by
    rintro rfl
    rw [writes_self hfile] at hh
    exact nomatch hh.2.1
  rw [writes_of_ne hfile hne'] at hh
  cases hwants : wantsWrite (s.fileTable g).fdFlag with
  | true => exact absurd (hw.unique h g p hh ⟨hlt, hp, hwants⟩) hne'
  | false =>
    have hwriter := (hw.deny p (hopen p hmem) i hi).mpr ⟨h, hh⟩
    rw [hkeeps hwants p hp i hi] at hwriter
    cases hwriter

/-- An inode that is not open is created, changed or freed. -/
theorem WriterInv.setInode (hw : WriterInv s) {p n : ℕ} {o : Option Inode}
    (hp : p ∉ s.part.openInodes) (hinodes : s'.inodes = Function.update s.inodes p o)
    (hopen : s'.part.openInodes = s.part.openInodes) (hfile : s'.fileTable = s.fileTable)
    (hnext : s'.nextInode = s.nextInode + n) : WriterInv s' := by
  refine hw.change p (fun h q _ => writes_congr hfile) (fun q hq _ => hopen ▸ hq)
    (fun q i' hq hi' => ⟨i', ?_, rfl⟩) (fun a b ha hb => ?_) (fun hmem => ?_) (fun q hq => ?_)
    fun h q hq => ?_
  · rwa [hinodes, Function.update_of_ne hq] at hi'
  · rw [writes_congr hfile] at ha hb
    exact hw.unique a b p ha hb
  · exact absurd (hopen ▸ hmem) hp
  · have := hw.opened q (hopen ▸ hq)
    omega
  · rw [hfile] at hq
    have := hw.entries h q hq
    omega

/-- The new file of `file_create`: not yet on the list, and held by one entry. -/
structure Pending (s : Fs) (p g : ℕ) (flag : UInt32) : Prop where
  closed : p ∉ s.part.openInodes
  fresh : p < s.nextInode
  deny : (s.inodes p).map Inode.writeDeny = some false
  entry : s.fileTable g = ⟨0, flag, some p⟩
  only : ∀ h, h ≠ g → (s.fileTable h).fdInode ≠ some p

theorem Pending.quiet {p : ℕ} (hp : Pending s p g flag) (h : QuietFs s s') : Pending s' p g flag where
  closed := by
    rw [h.openInodes]
    exact hp.closed
  fresh := by
    rw [h.next]
    exact hp.fresh
  deny := (h.inode p).trans hp.deny
  entry := by
    rw [h.fileTable]
    exact hp.entry
  only := by
    rw [h.fileTable]
    exact hp.only

theorem quiet_tick (s : Fs) : QuietFs s s.tick := ⟨rfl, rfl, rfl, rfl, rfl, fun _ => rfl⟩

/-- `file_create` from the new inode up to the directory entry. -/
theorem fileCreateEntry_writerInv (hw : WriterInv s) {p : ℕ} (hclosed : p ∉ s.part.openInodes)
    (hfresh : p < s.nextInode) (hdeny : (s.inodes p).map Inode.writeDeny = some false)
    (hentries : ∀ h, (s.fileTable h).fdInode ≠ some p) (parentDir : DirPtr)
    (filename : List UInt8) (inodeNo : UInt32) :
    Exec.Ensures (fileCreateEntry parentDir filename flag inodeNo p) s fun r s' =>
      WriterInv s' ∧ ∀ x ∈ r, Pending s' x.2.1 x.2.2 flag := by
  have hgiveUp {s' : Fs} (hw : WriterInv s') (hclosed : p ∉ s'.part.openInodes) :
      Exec.Ensures (do modify (·.setInode p none); clearInodeBit inodeNo; pure none) s'
        fun (r : Option (UInt32 × ℕ × ℕ)) s' =>
          WriterInv s' ∧ ∀ x ∈ r, Pending s' x.2.1 x.2.2 flag := by
    have hw₁ : WriterInv (s'.setInode p none) := hw.setInode (n := 0) hclosed rfl rfl rfl rfl
    rw [Exec.Ensures, Exec.post_bind, Exec.post_modify]
    refine Exec.Post.bind (clearInodeBit_quiet _) fun _ s₂ h₂ => ?_
    exact ⟨hw₁.quiet h₂, by simp⟩
  rw [Exec.Ensures, fileCreateEntry, Exec.post_bind, post_getFreeSlotInGlobal]
  cases hslot : s.freeSlot with
  | none => exact hgiveUp hw hclosed
  | some g =>
    have hfree := (Fs.of_freeSlot hslot).2.2
    have hw₁ : WriterInv (s.setFile g ⟨0, flag, some p⟩) :=
      hw.mark hfree rfl rfl (fun _ h hh => hentries h hh.2.1) rfl rfl hfresh (fun _ _ => rfl)
        fun hmem => absurd hmem hclosed
    have hpending : Pending (s.setFile g ⟨0, flag, some p⟩) p g flag := by
      refine ⟨hclosed, hfresh, hdeny, Function.update_self .., fun h hne => ?_⟩
      rw [Fs.setFile_fileTable, Function.update_of_ne hne]
      exact hentries h
    rw [Exec.post_bind, Exec.post_modify]
    refine Exec.Post.bind (createDirEntry_same _ _ _) fun entry s₂ h₂ => ?_
    subst h₂
    refine Exec.Post.bind (syncDirEntry_quiet _ _) fun ok s₃ h₃ => ?_
    have hw₃ := hw₁.quiet h₃
    have hpending₃ := hpending.quiet h₃
    split
    · exact ⟨hw₃, fun x hx => by obtain rfl := Option.some.inj hx; exact hpending₃⟩
    · rw [Exec.post_bind, Exec.post_modify]
      have hw₄ : WriterInv (s₃.setFile g ⟨0, 0, none⟩) :=
        hw₃.unmark (p := p) rfl rfl (fun q hq => hq) rfl (fun q i' _ hi' => ⟨i', hi', rfl⟩)
          (fun q hq => by rw [hpending₃.entry] at hq; exact (Option.some.inj hq).symm)
          fun hmem => absurd hmem hpending₃.closed
      exact hgiveUp hw₄ hpending₃.closed

/-- `file_create` up to the directory entry keeps the law whatever the mode. -/
theorem fileCreateStart_writerInv (hw : WriterInv s) (parentDir : DirPtr) (filename : List UInt8) :
    Exec.Ensures (fileCreateStart parentDir filename flag) s fun r s' => WriterInv s' ∧
      ∀ x ∈ r, Pending s' x.2.1 x.2.2 flag := by
  have hnothing {s' : Fs} (hw : WriterInv s') : WriterInv s' ∧
      ∀ x ∈ (none : Option (UInt32 × ℕ × ℕ)), Pending s' x.2.1 x.2.2 flag := ⟨hw, nofun⟩
  rw [Exec.Ensures, fileCreateStart, Exec.post_bind, post_sysMalloc]
  split
  · refine Exec.Post.bind inodeBitmapAlloc_quiet fun bit s₁ h₁ => ?_
    have hw₁ : WriterInv s₁ := (hw.quiet (quiet_tick s)).quiet h₁
    cases bit with
    | none => exact hnothing hw₁
    | some inodeNo =>
      rw [Exec.post_bind, post_sysMalloc]
      have hw₂ : WriterInv s₁.tick := hw₁.quiet (quiet_tick s₁)
      split
      · generalize s₁.tick = s₂ at hw₂
        have hclosed : s₂.nextInode ∉ s₂.part.openInodes := fun hp => (hw₂.opened _ hp).ne rfl
        have hentries (h : ℕ) : (s₂.fileTable h).fdInode ≠ some s₂.nextInode :=
          fun hp => (hw₂.entries h _ hp).ne rfl
        have hw₃ : WriterInv (s₂.setInode s₂.nextInode
            (some (inodeInit inodeNo zeroInode))).bumpInode :=
          hw₂.setInode (n := 1) hclosed rfl rfl rfl rfl
        rw [Exec.post_bind, post_newInode]
        exact fileCreateEntry_writerInv hw₃ hclosed (Nat.lt_succ_self _)
          (by rw [Fs.bumpInode_inodes, Fs.setInode_inodes, Function.update_self]; rfl) hentries
          parentDir filename inodeNo
      · refine Exec.Post.bind (clearInodeBit_quiet _) fun _ s₂ h₂ => ?_
        exact hnothing (hw₂.quiet h₂)
  · exact hnothing (hw.quiet (quiet_tick s))

/-- The new file goes on the list. -/
theorem Pending.push (hw : WriterInv s) {p : ℕ} (hp : Pending s p g flag)
    (hwants : wantsWrite flag = false) {i : Inode} (hdeny : i.writeDeny = false) :
    WriterInv ((s.setPart (s.part.setOpenInodes (p :: s.part.openInodes))).setInode p (some i)) := by
  refine hw.change p (fun h q _ => Iff.rfl) (fun q hq hne => (List.mem_cons.mp hq).resolve_left hne)
    (fun q i' hq hi' => ⟨i', (Function.update_of_ne hq _ _).symm.trans hi', rfl⟩)
    (fun a b ha hb => hw.unique a b p ha hb) (fun _ j hj => ?_) (fun q hq => ?_) hw.entries
  · rw [Fs.setInode_inodes, Function.update_self] at hj
    obtain rfl := Option.some.inj hj
    rw [hdeny]
    refine ⟨nofun, fun ⟨h, hh⟩ => ?_⟩
    obtain rfl : h = g := by
      by_contra hne
      exact hp.only h hne hh.2.1
    have hflag := hh.2.2
    change wantsWrite (s.fileTable h).fdFlag = true at hflag
    rw [hp.entry, hwants] at hflag
    cases hflag
  · rcases List.mem_cons.mp hq with rfl | hq
    · exact hp.fresh
    · exact hw.opened q hq

theorem fileCreateFinish_writerInv (hw : WriterInv s) {p : ℕ} (hp : Pending s p g flag)
    (hwants : wantsWrite flag = false) (parentDir : DirPtr) :
    Exec.Ensures (fileCreateFinish parentDir inodeNo p g) s fun _ s' => WriterInv s' := by
  refine Exec.Post.bind (derefDir_same _) fun dir s₁ h₁ => ?_
  subst h₁
  refine Exec.Post.bind derefInode_same fun parentInode s₁ h₁ => ?_
  obtain ⟨rfl, -⟩ := h₁
  refine Exec.Post.bind (inodeSync_quiet _) fun _ s₂ h₂ => ?_
  refine Exec.Post.bind derefInode_same fun inode s₃ h₃ => ?_
  obtain ⟨rfl, hinode⟩ := h₃
  refine Exec.Post.bind (inodeSync_quiet _) fun _ s₄ h₄ => ?_
  refine Exec.Post.bind (bitmapSync_quiet _ _) fun _ s₅ h₅ => ?_
  have hdeny : inode.writeDeny = false := by
    have := (hp.quiet h₂).deny
    rw [hinode] at this
    exact Option.some.inj this
  have hquiet := (h₂.trans h₄).trans h₅
  rw [pushOpenInode, storeInode, Exec.post_bind, Exec.post_modify, Exec.post_bind,
    Exec.post_modify]
  exact pcbFdInstall_ensures.mono fun r s' h =>
    h.writerInv ((hp.quiet hquiet).push (hw.quiet hquiet) hwants hdeny)

/-- What `sys_open` does with its target. -/
theorem OpenTarget.run_writerInv (hw : WriterInv s) {target : OpenTarget}
    (hkeeps : target.KeepsWriter flag s) :
    Exec.Ensures (target.run flag) s fun _ s' => WriterInv s' := by
  cases target with
  | refused => exact hw
  | existing inodeNo => exact fileOpen_opened.mono fun r s' h => h.writerInv hw hkeeps
  | create parentDir filename =>
    have hcreate : Exec.Ensures (fileCreate parentDir filename flag) s fun _ s' => WriterInv s' := by
      rw [fileCreate_eq]
      refine Exec.Post.bind ((fileCreateStart_writerInv hw parentDir filename).and
        (Exec.ensures_iff.mpr fun r s' h => h)) fun r s₁ h₁ => ?_
      obtain ⟨⟨hw₁, hpending⟩, hcall⟩ := h₁
      cases r with
      | none => exact hw₁
      | some x =>
        obtain ⟨inodeNo, p, g⟩ := x
        refine fileCreateFinish_writerInv hw₁ (hpending _ rfl) ?_ parentDir
        -- a file created for writing does not get here
        cases hwants : wantsWrite flag with
        | false => rfl
        | true =>
          have hnone := hkeeps hwants (some (inodeNo, p, g), s₁) (by rw [hcall]; rfl)
          cases hnone
    refine Exec.Post.bind hcreate fun fd s₁ hw₁ => ?_
    refine Exec.Post.bind ((dirClose_walk parentDir).and (dirClose_next parentDir))
      fun _ s₂ h₂ => ?_
    refine hw₁.walk h₂.1 fun p hp hle i hi => ?_
    have hnext := h₂.2
    rcases h₂.1.opened p hp with hold | hnew
    · have := hw₁.opened p hold
      omega
    · omega

theorem sysClose_writerInv (hw : WriterInv s) {fd : Int}
    (hkeeps : (FileCall.sysClose fd).KeepsWriter s) :
    Exec.Ensures (sysClose fd) s fun _ s' => WriterInv s' := by
  rw [Exec.Ensures, sysClose]
  split
  · rename_i hfd
    have hstate : Exec.Ensures (fdLocal2global fd) s fun g s' => s' = s ∧ g < maxFileOpen := by
      simp only [fdLocal2global, runningThread, Exec.post_bind, Exec.post_get, post_deref,
        post_inBounds, post_assert, Exec.post_pure, implies_true, and_true, true_and]
      intro t _ _ hglobal
      omega
    refine Exec.Post.bind (hstate.and (Exec.ensures_iff.mpr fun r s' h => h)) fun g s₁ h₁ => ?_
    obtain ⟨⟨rfl, hlt⟩, hcall⟩ := h₁
    have hclose := fileClose_writerInv hw (hkeeps hfd (g, s₁) (by rw [hcall]; rfl)) hlt
    refine Exec.Post.bind hclose fun ret s₂ hw₂ => ?_
    rw [modifyThread, Exec.post_bind, Exec.post_modify]
    exact ⟨⟨hw₂.unique, hw₂.deny⟩, hw₂.opened, hw₂.entries⟩
  · exact hw

/-- One call. -/
theorem FileCall.run_writerInv (hw : WriterInv s) {x : ℕ × (ℕ → UInt32) × FileCall}
    (hkeeps : x.2.2.KeepsWriter (s.enter x.1 x.2.1)) :
    Exec.Ensures (FileCall.run x) s fun _ s' => WriterInv s' := by
  obtain ⟨pid, junk, c⟩ := x
  have hw₁ : WriterInv (s.enter pid junk) := ⟨⟨hw.unique, hw.deny⟩, hw.opened, hw.entries⟩
  rw [Exec.Ensures, FileCall.run, Exec.post_bind, Exec.post_modify]
  cases c with
  | sysClose fd => exact sysClose_writerInv hw₁ hkeeps
  | sysOpen pathname flags =>
    rw [FileCall.body, sysOpen_eq]
    refine Exec.Post.bind ((openTarget_walk pathname flags).and
      (Exec.ensures_iff.mpr fun r s' h => h)) fun target s₂ h₂ => ?_
    obtain ⟨hwalk, hcall⟩ := h₂
    obtain ⟨hnew, hkeeps⟩ := hkeeps (target, s₂) (by rw [hcall]; rfl)
    exact OpenTarget.run_writerInv (hw₁.walk hwalk hnew) hkeeps

end Calls

section Runs

variable {s s₀ : Fs}

/-- Nothing is open for writing: no file at all, and no directory. -/
structure NoWriters (s : Fs) : Prop where
  files : ∀ g, (s.fileTable g).fdInode = none
  deny : ∀ p ∈ s.part.openInodes, p < s.nextInode ∧ ∀ i, s.inodes p = some i → i.writeDeny = false

theorem NoWriters.writerInv (h : NoWriters s) : WriterInv s where
  unique g _ _ hg := absurd hg (not_writes_of_free (h.files g))
  deny p hp i hi := by
    rw [(h.deny p hp).2 i hi]
    exact ⟨nofun, fun ⟨g, hg⟩ => absurd hg (not_writes_of_free (h.files g))⟩
  opened p hp := (h.deny p hp).1
  entries g p hp := by
    rw [h.files] at hp
    cases hp

/-- Runs of the calls that open and close files, by any processes. -/
abbrev FileRun (ok : Fs → ℕ × (ℕ → UInt32) × FileCall → Prop) : Fs → Fs → Prop :=
  Exec.Run FileCall.run ok

/-- A file has one writer in every run whose calls keep one. -/
theorem singleWriter_of_run (hstart : NoWriters s₀)
    (hrun : FileRun (fun s x => x.2.2.KeepsWriter (s.enter x.1 x.2.1)) s₀ s) : SingleWriter s :=
  (hrun.invariant hstart.writerInv fun _ _ hw hkeeps =>
    FileCall.run_writerInv hw hkeeps).toSingleWriter

theorem noWriters_rootFs : NoWriters rootFs where
  files _ := rfl
  deny p hp := by
    obtain rfl : p = 0 := List.mem_singleton.mp hp
    exact ⟨Nat.zero_lt_one, fun i hi => by rw [← Option.some.inj hi]; rfl⟩

/-- The file `/a` is created and closed, and then opened twice: for writing and for reading. -/
theorem singleWriter_of_run_a : ∃ s : Fs, (s.fileTable 3).fdFlag = oWronly ∧
    (s.fileTable 4).fdInode = (s.fileTable 3).fdInode ∧ SingleWriter s := by
  have h : (Exec.runList FileCall.run (fun s x => x.2.2.KeepsWriter (s.enter x.1 x.2.1))
      [(1, fun _ => 0, .sysOpen [47, 97] 4), (1, fun _ => 0, .sysClose 3),
        (1, fun _ => 0, .sysOpen [47, 97] 1), (1, fun _ => 0, .sysOpen [47, 97] 0)] rootFs).any
        (fun s => (s.fileTable 3).fdFlag == oWronly &&
          (s.fileTable 4).fdInode == (s.fileTable 3).fdInode) = true := by
    decide +kernel
  obtain ⟨s, hrun, hs⟩ := Exec.Run.exists_of_any h
  obtain ⟨hflag, hsame⟩ : (s.fileTable 3).fdFlag = oWronly ∧
      (s.fileTable 4).fdInode = (s.fileTable 3).fdInode := by simpa using hs
  exact ⟨s, hflag, hsame, singleWriter_of_run noWriters_rootFs hrun⟩

/-- The file `/a` is opened for writing twice: the second call fails, and leaves a second entry. -/
theorem not_singleWriter_of_run : ¬ ∀ s₀ s, NoWriters s₀ → FileRun (fun _ _ => True) s₀ s →
    SingleWriter s := by
  intro hall
  have h : (Exec.runList FileCall.run (fun _ _ => True)
      [(1, fun _ => 0, .sysOpen [47, 97] 4), (1, fun _ => 0, .sysClose 3),
        (1, fun _ => 0, .sysOpen [47, 97] 1), (1, fun _ => 0, .sysOpen [47, 97] 1)] rootFs).any
        (fun s => (s.fileTable 3).fdInode == some 2 && (s.fileTable 4).fdInode == some 2 &&
          (s.fileTable 3).fdFlag == oWronly && (s.fileTable 4).fdFlag == oWronly) = true := by
    decide +kernel
  obtain ⟨s, hrun, hs⟩ := Exec.Run.exists_of_any h
  simp only [Bool.and_eq_true, beq_iff_eq] at hs
  obtain ⟨⟨⟨hthree, hfour⟩, hflag⟩, hflag'⟩ := hs
  have hwrites : s.Writes 3 2 := ⟨by decide, hthree, by rw [hflag]; decide⟩
  have hwrites' : s.Writes 4 2 := ⟨by decide, hfour, by rw [hflag']; decide⟩
  exact absurd ((hall _ s noWriters_rootFs hrun).unique 3 4 2 hwrites hwrites') (by decide)

end Runs

end Winx
