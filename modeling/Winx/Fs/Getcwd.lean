import Winx.Fs.NewDir

/-! # The path of the current directory

`sys_getcwd` climbs from the current directory to the root, collecting the name of each
directory in its parent, and then copies the names into the buffer of the user in the
opposite order. The length it checks leaves out the zero at the end of the path.
-/

namespace Winx

/-- The image of a string. -/
def strBytes (str : List UInt8) : Bytes := fun i => str.getD i 0

/-- `strlen` of the string in a buffer of `size` bytes. -/
def strlen (buf : Bytes) (size : ℕ) : FsM ℕ :=
  match (List.range size).find? fun i => buf i == 0 with
  | some n => pure n
  | none => throw .outOfBounds

/-- `strcpy(buf + off, str)` in a buffer of `size` bytes. -/
def strcpy (buf : Bytes) (size off : ℕ) (str : List UInt8) : FsM Bytes := do
  inBounds (off + str.length < size)
  pure (buf.splice off (str.length + 1) (strBytes str))

/-- Directory `d` has its name in slot `a` of directory `p`, and its entry `..` leads back there. -/
structure ChildDir (s : Fs) (p d : UInt32) (a : ℕ × ℕ) : Prop where
  nonzero : d ≠ 0
  number : d < 4096
  parent : p < 4096
  block : s.part.sb.dataStartLba ≤ (curInode s d.toNat).sector 0 ∧
    (curInode s d.toNat).sector 0 ≤ maxLba
  dotDot : (slotEntry s.disk ((curInode s d.toNat).sector 0) 1).iNo = p ∧
    (slotEntry s.disk ((curInode s d.toNat).sector 0) 1).fType = ftDirectory
  readable : DirReadable s.disk (curInode s p.toNat)
  slot : a.1 < 140 ∧ blockLba s.disk (curInode s p.toNat) a.1 ≠ 0 ∧ a.2 < entrysPerSec
  entry : (entryAt s.disk (curInode s p.toNat) a).iNo = d
  only : ∀ k < 140, blockLba s.disk (curInode s p.toNat) k ≠ 0 → ∀ m < entrysPerSec,
    (entryAt s.disk (curInode s p.toNat) (k, m)).iNo = d → (k, m) = a
  short : (entryAt s.disk (curInode s p.toNat) a).filename.length < 16
  name : slash ∉ (entryAt s.disk (curInode s p.toNat) a).filename ∧
    0 ∉ (entryAt s.disk (curInode s p.toNat) a).filename

/-- The directory with the given names on the way from the root. -/
inductive DirAt (s : Fs) : UInt32 → List (List UInt8) → Prop
  | root : DirAt s 0 []
  | child {p d : UInt32} {names : List (List UInt8)} {a : ℕ × ℕ} : DirAt s p names →
      ChildDir s p d a → DirAt s d (names ++ [(entryAt s.disk (curInode s p.toNat) a).filename])

variable {s : Fs} {buf : Bytes} {size off : ℕ} {str done : List UInt8} {names : List (List UInt8)}

section Strings

end Strings

section CopyOut

end CopyOut

section Spent

/-- The state is the same but for addresses and answers of `sys_malloc` that were used up. -/
def Spent (s u : Fs) : Prop := ∃ a b k, u = s.advance a b k

variable {u v : Fs} {no p d : UInt32} {a : ℕ × ℕ}

theorem Spent.refl (s : Fs) : Spent s s := ⟨0, 0, 0, rfl⟩

theorem Spent.trans (h : Spent s u) (h' : Spent u v) : Spent s v := by
  obtain ⟨a, b, k, rfl⟩ := h
  obtain ⟨a', b', k', rfl⟩ := h'
  refine ⟨a + a', b + b', k' + k, ?_⟩
  simp only [Fs.advance, Nat.add_assoc]

theorem Spent.layout (h : Spent s u) (hl : Layout s.part) : Layout u.part := by
  obtain ⟨a, b, k, rfl⟩ := h
  exact hl

theorem Spent.childDir (h : Spent s u) (hc : ChildDir s p d a) : ChildDir u p d a := by
  obtain ⟨a', b, k, rfl⟩ := h
  exact ⟨hc.1, hc.2, hc.3, hc.4, hc.5, hc.6, hc.7, hc.8, hc.9, hc.10, hc.11⟩

/-- What `sys_malloc` refused later, it refuses. -/
theorem Spent.refused (h : Spent s u) (hn : ∃ n, u.mallocs n = false) : ∃ n, s.mallocs n = false := by
  obtain ⟨a, b, k, rfl⟩ := h
  obtain ⟨n, hn⟩ := hn
  exact ⟨n + k, hn⟩

end Spent

section Climb

variable {u : Fs} {p d : UInt32} {a : ℕ × ℕ} {path : List UInt8}

end Climb

section Path

variable {d : UInt32} {size : UInt32}

theorem DirAt.withMallocs (h : DirAt s d names) (f : ℕ → Bool) : DirAt (s.withMallocs f) d names := by
  induction h with
  | root => exact .root
  | child _ hc ih =>
    exact .child ih ⟨hc.1, hc.2, hc.3, hc.4, hc.5, hc.6, hc.7, hc.8, hc.9, hc.10, hc.11⟩

theorem DirAt.number (h : DirAt s d names) : d < 4096 := by
  cases h with
  | root => decide
  | child _ hc => exact hc.number

end Path

end Winx
