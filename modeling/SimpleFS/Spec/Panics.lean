import SimpleFS.Requests.AllOrNothing
import SimpleFS.Spec.StoreRuns

/-! Which requests the program panics on. Their replies never come, so the runs of the store stop
before them. -/
namespace SimpleFS
open Runs Bitmap

section Answers

variable {fs : Fs} {n p : ℕ} {now : ℕ → Int64}

theorem StoreSound.dirFind_some (hs : StoreSound fs) (hp : fs.disk.IsDirectory p) (name : String) :
    ∃ found, dirFind fs.disk (fs.disk.inode p) name = some found :=
  SimpleFS.dirFind_some (hs.placed hp.1) ((hs.nodes p hp.1).listing hp.2).readable name

end Answers

section Panicking

variable {fs : Fs} {n p : ℕ} {now : ℕ → Int64}

end Panicking

end SimpleFS
