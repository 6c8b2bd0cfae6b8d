import Winx.Fs.File

/-! # Path names

A path is split into its components at runs of slashes. `search_file` walks
the components from the root, closing the handle of each directory as it opens
the next, and hands its caller the handle of the directory it ended in.
-/

namespace Winx

/-- `'/'` -/
def slash : UInt8 := 47

/-- `path_parse`: the name it stores and the rest of the path, `none` for a null result. -/
def pathParse (pathname : List UInt8) : List UInt8 × Option (List UInt8) :=
  let pathname := pathname.dropWhile (· == slash)
  let rest := pathname.dropWhile (· != slash)
  (pathname.takeWhile (· != slash), if rest = [] then none else some rest)

/-- The loop of `path_depth_cnt`; the name counted last had fewer than 17 bytes. -/
def pathDepthLoop : ℕ → Option (List UInt8) → FsM ℕ
  | 0, _ => throw .diverged
  | _ + 1, none => pure 0
  | fuel + 1, some p => do
    let (name, rest) := pathParse p
    inBounds (name.length ≤ 16)
    if name = [] then pure 0
    else
      let depth ← pathDepthLoop fuel rest
      pure (depth + 1)

/-- `path_depth_cnt`. Its name buffer is not initialised, so a path without components counts one
if the first byte of the buffer happens not to be zero. -/
def pathDepthCnt (pathname : List UInt8) : FsM ℕ := do
  let s ← get
  let (name, rest) := pathParse pathname
  inBounds (name.length ≤ 16)
  if name = [] ∧ s.junk 0 = 0 then pure 0
  else
    let depth ← pathDepthLoop (pathname.length + 1) rest
    pure (depth + 1)

/-- `struct path_search_record` -/
structure PathSearchRecord where
  searchedPath : List UInt8
  parentDir : DirPtr
  fileType : FileType

/-- `strrchr(path, '/') + 1`: what follows the last slash. -/
def afterLastSlash (path : List UInt8) : FsM (List UInt8) :=
  if slash ∈ path then pure ((path.reverse.takeWhile (· != slash)).reverse)
  else throw .badPointer

/-- The name `path_parse` leaves in a cleared buffer of `MAX_FILE_NAME_LEN` bytes. -/
def storeName (name : List UInt8) : FsM Unit := inBounds (name.length < 16)

/-- The local variables of `search_file` at the head of its loop. -/
structure SearchState where
  subPath : Option (List UInt8)
  name : List UInt8
  parentDir : DirPtr
  dirE : UInt32
  parentInodeNo : UInt32
  record : PathSearchRecord

/-- The next component into the cleared name buffer. -/
def nextName : Option (List UInt8) → FsM (List UInt8 × Option (List UInt8))
  | none => pure ([], none)
  | some p => do
    let (name, rest) := pathParse p
    storeName name
    pure (name, rest)

/-- The loop of `search_file` and what follows it. -/
def searchLoop : ℕ → SearchState → FsM (Int × PathSearchRecord)
  | 0, _ => throw .diverged
  | fuel + 1, st => do
    if st.name = [] then
      dirClose st.record.parentDir
      let parentDir ← dirOpen st.parentInodeNo
      pure (toI32 st.dirE, { st.record with parentDir := parentDir, fileType := ftDirectory })
    else
      assert (st.record.searchedPath.length < 512)
      let record :=
        { st.record with searchedPath := st.record.searchedPath ++ slash :: st.name }
      match ← searchDirEntry st.parentDir st.name with
      | none => pure (-1, record)
      | some e =>
        let (name, subPath) ← nextName st.subPath
        if e.fType = ftDirectory then
          let dir ← derefDir st.parentDir
          let inode ← derefInode dir.inode
          dirClose st.parentDir
          let parentDir ← dirOpen e.iNo
          searchLoop fuel ⟨subPath, name, parentDir, e.iNo, inode.iNo,
            { record with parentDir := parentDir }⟩
        else if e.fType = ftRegular then
          pure (toI32 e.iNo, { record with fileType := ftRegular })
        else searchLoop fuel ⟨subPath, name, st.parentDir, e.iNo, st.parentInodeNo, record⟩

/-- `search_file` with a zeroed record: its result and the record. -/
def searchFile (pathname : List UInt8) : FsM (Int × PathSearchRecord) := do
  if pathname = [slash] ∨ pathname = [slash, 46] ∨ pathname = [slash, 46, 46] then
    pure (0, ⟨[], .rootDir, ftDirectory⟩)
  else
    let s ← get
    assert (pathname.head? = some slash ∧ 1 < pathname.length ∧ pathname.length < 512)
    let (name, subPath) := pathParse pathname
    storeName name
    searchLoop (pathname.length + 1)
      ⟨subPath, name, .rootDir, s.junk 1, 0, ⟨[], .rootDir, ftUnknown⟩⟩

end Winx
