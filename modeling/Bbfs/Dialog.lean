import Bbfs.Files
import Bbfs.Streams

/-!
# The dialog

`main` reads an operation and a path, asks for the operands of the operation
and makes the call. Every read takes from the file given as `argv[1]` while
that is good, unless the branch names `cin` itself. What is to be played back
is put down in `record`.
-/

set_option autoImplicit false

namespace Bbfs.Dialog
open Bbfs.Files Bbfs.Streams

structure Console where
  myin : Stream
  cin : Stream
  record : Text
  deriving DecidableEq, Repr

inductive Op where
  | help | play | save | mkdir | rmdir | show | ls | lstat | exit | break | lslr | creat | chown
  | chmod | access | link | unlink | cwd | rename | pread | pwrite | symlink | readlink | utime
  | truncate | statvfs | lsetxattr | lgetxattr | lremovexattr | llistxattr
  /-- Any other word prints the usage. -/
  | usage
  deriving DecidableEq, Repr

def opNames : List (Text × Op) :=
  [("help".toList, .help), ("play".toList, .play), ("save".toList, .save),
    ("mkdir".toList, .mkdir), ("rmdir".toList, .rmdir), ("show".toList, .show), ("ls".toList, .ls),
    ("lstat".toList, .lstat), ("exit".toList, .exit), ("break".toList, .break),
    ("lslr".toList, .lslr), ("creat".toList, .creat), ("touch".toList, .creat),
    ("chown".toList, .chown), ("chmod".toList, .chmod), ("access".toList, .access),
    ("link".toList, .link), ("unlink".toList, .unlink), ("cwd".toList, .cwd),
    ("rename".toList, .rename), ("pread".toList, .pread), ("pwrite".toList, .pwrite),
    ("symlink".toList, .symlink), ("readlink".toList, .readlink), ("utime".toList, .utime),
    ("truncate".toList, .truncate), ("statvfs".toList, .statvfs), ("lsetxattr".toList, .lsetxattr),
    ("lgetxattr".toList, .lgetxattr), ("lremovexattr".toList, .lremovexattr),
    ("llistxattr".toList, .llistxattr)]

def opOf (w : Text) : Op := (opNames.lookup w).getD .usage

/-- What a branch does to the file system: the function it calls, with the
operands. A handle is looked up from the path at the time of the call. -/
inductive Action where
  | mkdir (file : Text) (mode : Mode)
  | rmdir (file : Text)
  | show (file : Text)
  | ls (file : Text)
  | lstat (file : Text)
  | visit (file : Text)
  | creat (file : Text) (mode : Mode)
  | chown (file : Text) (u g : ℤ)
  | chmod (file : Text) (mode : Mode)
  | access (file : Text) (mode : Mode)
  | link (file newpath : Text)
  | unlink (file : Text)
  | rename (file newpath : Text)
  | pread (file : Text) (size offset : ℤ)
  | pwrite (file data : Text) (offset : ℤ)
  | symlink (file link : Text)
  | readlink (file : Text)
  | utime (file : Text) (actime modtime : ℤ)
  | truncate (file : Text) (n : ℤ)
  | statvfs (file : Text)
  | lsetxattr (file name val : Text)
  | lgetxattr (file name : Text) (size : ℤ)
  | lremovexattr (file name : Text)
  | llistxattr (file : Text)
  deriving DecidableEq, Repr

inductive Outcome where
  | went (action : Option Action)
  /-- An operand was refused. -/
  | error
  | exit (file : Text)
  | left
  deriving DecidableEq, Repr

variable {α : Type}

def ask (f : Stream → α × Stream) (s : Console) : α × Console :=
  if s.myin.good then ((f s.myin).1, { s with myin := (f s.myin).2 })
  else ((f s.cin).1, { s with cin := (f s.cin).2 })

def askCin (f : Stream → α × Stream) (s : Console) : α × Console :=
  ((f s.cin).1, { s with cin := (f s.cin).2 })

def inBase (b : ℕ) (f : Stream → α × Stream) (st : Stream) : α × Stream := f (st.inBase b)

def getUnsigned (st : Stream) : Option ℤ × Stream := getNumber (fitUnsigned 32) st

def getInt (st : Stream) : Option ℤ × Stream := getNumber (fitSigned 32) st

def getLong (st : Stream) : Option ℤ × Stream := getNumber (fitSigned 64) st

def word (st : Stream) : Text × Stream := ((getWord st).1.getD [], (getWord st).2)

def words (st : Stream) : (Text × Text) × Stream :=
  (((word st).1, (word (word st).2).1), (word (word st).2).2)

/-- `reset_cin`, which looks at `cin` whichever stream was read. -/
def resetCin (s : Console) : Bool × Console :=
  if s.cin.fail then (true, { s with cin := (getLine s.cin.clear).2 }) else (false, s)

def note (line : Text) (s : Console) : Console := { s with record := s.record++line++['\n'] }

def withMode (stale : ℕ → ℤ) (act : Mode → Action) (s : Console) : Outcome × Console :=
  let (v, s) := ask (inBase 8 getUnsigned) s
  let mode := v.getD (stale 0 % 2^32)
  let (refused, s) := resetCin s
  if refused then (.error, s)
  else (.went (some (act (BitVec.ofInt 32 mode))), note (printed 8 mode.toNat) s)

def chown (stale : ℕ → ℤ) (file : Text) (s : Console) : Outcome × Console :=
  let (v, s) := ask (inBase 10 getUnsigned) s
  let u := v.getD (stale 0 % 2^32)
  let (refused, s) := resetCin s
  if refused then (.error, s) else
  let s := note (printed 10 u.toNat) s
  let (v, s) := ask (inBase 10 getUnsigned) s
  let g := v.getD (stale 1 % 2^32)
  let (refused, s) := resetCin s
  if refused then (.error, s)
  else (.went (some (.chown file u g)), note (printed 10 g.toNat) s)

def withPath (act : Text → Action) (s : Console) : Outcome × Console :=
  let (newpath, s) := ask word s
  (.went (some (act newpath)), note newpath s)

def pread (stale : ℕ → ℤ) (file : Text) (s : Console) : Outcome × Console :=
  let (offset, s) := ask getInt s
  let (size, s) := ask (inBase 10 getInt) s
  (.went (some (.pread file (size.getD (stale 1)) (offset.getD (stale 0)))), s)

def pwrite (stale : ℕ → ℤ) (file : Text) (s : Console) : Outcome × Console :=
  let (offset, s) := ask getInt s
  let s := { s with cin := ignore s.cin }
  let (data, s) := askCin getLine s
  (.went (some (.pwrite file data (offset.getD (stale 0)))), note data s)

def symlink (file : Text) (s : Console) : Outcome × Console :=
  let (link, s) := ask word s
  (.went (some (.symlink file link)), s)

def utime (stale : ℕ → ℤ) (file : Text) (s : Console) : Outcome × Console :=
  let (actime, s) := askCin getLong s
  let (modtime, s) := askCin getLong s
  (.went (some (.utime file (actime.getD (stale 0)) (modtime.getD (stale 1)))), s)

def truncate (stale : ℕ → ℤ) (file : Text) (s : Console) : Outcome × Console :=
  let (n, s) := askCin getInt s
  (.went (some (.truncate file (n.getD (stale 0)))), s)

def lsetxattr (file : Text) (s : Console) : Outcome × Console :=
  let (name, s) := askCin word s
  let (val, s) := askCin word s
  (.went (some (.lsetxattr file name val)), s)

def lgetxattr (stale : ℕ → ℤ) (file : Text) (s : Console) : Outcome × Console :=
  let (name, s) := askCin word s
  let (size, s) := askCin getInt s
  (.went (some (.lgetxattr file name (size.getD (stale 0)))), s)

def lremovexattr (file : Text) (s : Console) : Outcome × Console :=
  let (name, s) := askCin word s
  (.went (some (.lremovexattr file name)), s)

def branch (stale : ℕ → ℤ) (file : Text) : Op → Console → Outcome × Console
  | .help, s | .play, s | .save, s | .cwd, s | .usage, s => (.went none, s)
  | .exit, s => (.exit file, s)
  | .break, s => (.left, s)
  | .mkdir, s => withMode stale (.mkdir file) s
  | .creat, s => withMode stale (.creat file) s
  | .chmod, s => withMode stale (.chmod file) s
  | .access, s => withMode stale (.access file) s
  | .chown, s => chown stale file s
  | .link, s => withPath (.link file) s
  | .rename, s => withPath (.rename file) s
  | .rmdir, s => (.went (some (.rmdir file)), s)
  | .show, s => (.went (some (.show file)), s)
  | .ls, s => (.went (some (.ls file)), s)
  | .lstat, s => (.went (some (.lstat file)), s)
  | .lslr, s => (.went (some (.visit file)), s)
  | .unlink, s => (.went (some (.unlink file)), s)
  | .readlink, s => (.went (some (.readlink file)), s)
  | .statvfs, s => (.went (some (.statvfs file)), s)
  | .llistxattr, s => (.went (some (.llistxattr file)), s)
  | .pread, s => pread stale file s
  | .pwrite, s => pwrite stale file s
  | .symlink, s => symlink file s
  | .utime, s => utime stale file s
  | .truncate, s => truncate stale file s
  | .lsetxattr, s => lsetxattr file s
  | .lgetxattr, s => lgetxattr stale file s
  | .lremovexattr, s => lremovexattr file s

/-- One round of the loop of `main`. -/
def command (stale : ℕ → ℤ) (s : Console) : Outcome × Console :=
  let ((op, file), s) := ask words s
  let s := if op = "exit".toList then s else note (op++[' ']++file) s
  branch stale file (opOf op) s

def nextOp (s : Console) : Op := opOf (ask words s).1.1

def closed : Stream := { rest := [], fail := true }

def prompt (typed : Text) : Console := ⟨closed,{ rest := typed },[]⟩

def given (saved typed : Text) : Console := ⟨{ rest := saved },{ rest := typed },[]⟩

/-- A dialog that ends in `exit` and in which every operand is read as asked:
its operations, what they do, and the record that is saved. -/
inductive Saves (stale : Console → ℕ → ℤ) : Console → List Op → List Action → Text → Prop
  | exit {s s' : Console} {file : Text} (h : command (stale s) s = (.exit file, s'))
      (read : s'.cin.fail = false) : Saves stale s [] [] s'.record
  | step {s s' : Console} {a : Option Action} {ops : List Op} {acts : List Action} {record : Text}
      (h : command (stale s) s = (.went a, s')) (read : s'.cin.fail = false)
      (rest : Saves stale s' ops acts record) :
      Saves stale s (nextOp s::ops) (a.toList++acts) record

def plays (stale : Console → ℕ → ℤ) : ℕ → Console → Option (List Action)
  | 0, _ => none
  | fuel+1, s =>
    if s.myin.good then
      match command (stale s) s with
      | (.went a, s) => (plays stale fuel s).map (a.toList++·)
      | (.error, s) => plays stale fuel s
      | _ => some []
    else some []

end Bbfs.Dialog
