import Bbfs.Calls
import Bbfs.Runs

/-!
# Calls as labels and sessions

A session is a run of calls from the state that the start-up of the program
leaves. Each call brings the environment it meets. The inode counter is an
`int`: a state in which it has run out has no next state, and neither has a
call that leaves with an uncaught exception.
-/

set_option autoImplicit false

namespace Bbfs.Session
open Bbfs.Strings Bbfs.Files Bbfs.Resolve Bbfs.Calls Bbfs.Runs

inductive Call where
  | lstat (path : Str)
  | fstat (fh : ℕ)
  | mknod (path : Str) (mode : Mode) (dev : ℕ)
  | mkdir (path : Str) (mode : Mode)
  | creat (path : Str) (mode : Mode)
  | link (path newpath : Str)
  | unlink (path : Str)
  | rmdir (path : Str)
  | symlink (path link : Str)
  | readlink (path : Str) (size : ℕ)
  | rename (path newpath : Str)
  | access (path : Str) (mask : Mode)
  | chmod (path : Str) (mode : Mode)
  | chown (path : Str) (uid gid : ℕ)
  | utime (path : Str) (ubuf : Option (ℤ × ℤ))
  | openFile (path : Str) (flags : ℕ)
  | close (fh : ℕ)
  | pread (fh : ℕ) (size : ℕ) (offset : ℤ)
  | pwrite (fh : ℕ) (buf : Str) (size : ℕ) (offset : ℤ)
  | statvfs (path : Str) (statv : Bool)
  | fdatasync (fh : ℕ)
  | fsync (fh : ℕ)
  | lsetxattr (path name value : Str)
  | lgetxattr (path name value : Str)
  | llistxattr (path : Str) (size : ℕ)
  | lremovexattr (path name : Str)
  | ftruncate (fh : ℕ) (offset : ℤ)
  | truncate (path : Str) (newsize : ℤ)
  | opendir (path : Str)
  deriving DecidableEq

def readResult : ReadOut × Fs → Option (ℤ × Fs)
  | (.failed, s) => some (anErr, s)
  | (.threw, _) => none
  | (.stored ret _, s) => some (ret, s)

def answer (env : Env) : Call → Fs → Option (ℤ × Fs)
  | .lstat path, s => some ((myLstat path s).1.1, (myLstat path s).2)
  | .fstat fh, s => some ((myFstat fh s).1, s)
  | .mknod path mode dev, s => some (myMknod env path mode dev s)
  | .mkdir path mode, s => some (myMkdir env path mode s)
  | .creat path mode, s => some (myCreat env path mode s)
  | .link path newpath, s => some (myLink path newpath s)
  | .unlink path, s => some (myUnlink path s)
  | .rmdir path, s => some (myRmdir path s)
  | .symlink path link, s => mySymlink env path link s
  | .readlink path size, s => readResult (myReadlink path size s)
  | .rename path newpath, s => some (myRename path newpath s)
  | .access path mask, s => some (myAccess path mask s)
  | .chmod path mode, s => some (myChmod path mode s)
  | .chown path uid gid, s => some (myChown path uid gid s)
  | .utime path ubuf, s => some (myUtime path ubuf s)
  | .openFile path flags, s => some (myOpen env path flags s)
  | .close fh, s => some (myClose fh s)
  | .pread fh size offset, s => readResult (myPread fh size offset s)
  | .pwrite fh buf size offset, s => myPwrite fh buf size offset s
  | .statvfs path statv, s => some ((myStatvfs path statv s).1.1, (myStatvfs path statv s).2)
  | .fdatasync fh, s => some (myFdatasync fh, s)
  | .fsync fh, s => some (myFsync fh, s)
  | .lsetxattr path name value, s => some (myLsetxattr path name value s)
  | .lgetxattr path name value, s =>
    some ((myLgetxattr path name value s).1.1, (myLgetxattr path name value s).2)
  | .llistxattr path size, s => some ((myLlistxattr path size s).1.1, (myLlistxattr path size s).2)
  | .lremovexattr path name, s => some (myLremovexattr path name s)
  | .ftruncate fh offset, s => some (myFtruncate fh offset s)
  | .truncate path newsize, s => some (myTruncate path newsize s)
  | .opendir path, s => some (if (myOpendir path s).1.isNone then 0 else 1, (myOpendir path s).2)

abbrev Label := Env × Call

def advance (l : Label) (s : Fs) : Option Fs :=
  if s.count < 2^31 then (answer l.1 l.2 s).map Prod.snd else none

/-- The states of the sessions whose calls meet `cond`. -/
def Sessions (env : Env) (cond : Label → Fs → Prop) (s : Fs) : Prop :=
  Reaches advance cond (initialized env) s

def anyCall (_ : Label) (_ : Fs) : Prop := True

instance (l : Label) (s : Fs) : Decidable (anyCall l s) := isTrue trivial

theorem advance_some {l : Label} {s s' : Fs} (h : advance l s = some s') :
    s.count < 2^31 ∧ ∃ r, answer l.1 l.2 s = some (r,s') := by
  unfold advance at h
  split_ifs at h with hc
  obtain ⟨⟨r,t⟩,ha,rfl⟩ := Option.map_eq_some_iff.mp h
  exact ⟨hc,r,ha⟩

def Call.isNamespace : Call → Bool
  | .mkdir .. | .creat .. | .link .. | .unlink .. | .rmdir .. | .symlink .. | .rename .. => true
  | _ => false

def namespaceCall (l : Label) (_ : Fs) : Prop := l.2.isNamespace = true

instance (l : Label) (s : Fs) : Decidable (namespaceCall l s) :=
  inferInstanceAs (Decidable (_ = _))

def Call.edits : Call → Bool
  | .mknod .. => true
  | c => c.isNamespace

theorem edits_of_isNamespace {c : Call} (h : c.isNamespace = true) : c.edits = true := by
  cases c with
  | mknod path mode dev => rfl
  | _ => exact h

def Call.permModes : Call → Bool
  | .mknod _ mode _ | .mkdir _ mode | .creat _ mode | .chmod _ mode => typeBits mode == 0
  | _ => true

def Call.created : Call → Option Str
  | .mknod path _ _ | .mkdir path _ | .creat path _ => some path
  | .symlink _ newpath => some newpath
  | _ => none

theorem created_cases {c : Call} {path : Str} (h : c.created = some path) :
    (∃ mode dev, c = .mknod path mode dev) ∨ (∃ mode, c = .mkdir path mode) ∨
      (∃ mode, c = .creat path mode) ∨ ∃ target, c = .symlink target path := by
  cases c with
  | mknod p mode dev =>
    cases h
    exact Or.inl ⟨mode,dev,rfl⟩
  | mkdir p mode =>
    cases h
    exact Or.inr (Or.inl ⟨mode,rfl⟩)
  | creat p mode =>
    cases h
    exact Or.inr (Or.inr (Or.inl ⟨mode,rfl⟩))
  | symlink target p =>
    cases h
    exact Or.inr (Or.inr (Or.inr ⟨target,rfl⟩))
  | _ => simp [Call.created] at h

def Call.makes (r : ℤ) : Call → Mode
  | .mknod _ mode _ => typeBits mode
  | .mkdir _ mode => typeBits (S_IFDIR ||| mode)
  | .creat _ mode => typeBits (S_IFREG ||| mode)
  | .symlink .. => if r = ok then S_IFLNK else S_IFREG
  | _ => 0

def plainEnv : Env where
  oldUmask := 0o022#32
  umask_perm := by decide
  euid := 0
  egid := 0
  clock := fun _ => 0

def plain (cs : List Call) : List Label := cs.map (fun c => (plainEnv,c))

def after (cs : List Call) : Fs := (exec advance (plain cs) (initialized plainEnv)).getD blank

theorem exec_after {cs : List Call}
    (h : (exec advance (plain cs) (initialized plainEnv)).isSome = true) :
    exec advance (plain cs) (initialized plainEnv) = some (after cs) := by
  obtain ⟨s,hs⟩ := Option.isSome_iff_exists.mp h
  rw [after, hs, Option.getD_some]

theorem exec_after_append {cs ds : List Call}
    (h : (exec advance (plain (cs++ds)) (initialized plainEnv)).isSome = true) :
    exec advance (plain ds) (after cs) = some (after (cs++ds)) := by
  have he := exec_after h
  rw [plain, List.map_append, exec_append] at he
  obtain ⟨s,hs,hd⟩ := Option.bind_eq_some_iff.mp he
  have hc : after cs = s := by
    rw [after, plain, hs, Option.getD_some]
  rw [hc]
  exact hd

theorem advance_after {cs : List Call} {c : Call}
    (h : (exec advance (plain (cs++[c])) (initialized plainEnv)).isSome = true) :
    advance (plainEnv,c) (after cs) = some (after (cs++[c])) := by
  obtain ⟨s,hs,hd⟩ := Option.bind_eq_some_iff.mp (exec_after_append h)
  rw [hs, Option.some.inj hd]

theorem answer_after {cs : List Call} {c : Call} {r : ℤ}
    (h : (exec advance (plain (cs++[c])) (initialized plainEnv)).isSome = true)
    (hr : (answer plainEnv c (after cs)).map Prod.fst = some r) :
    answer plainEnv c (after cs) = some (r,after (cs++[c])) := by
  obtain ⟨-,r',ha⟩ := advance_some (advance_after h)
  rw [ha] at hr ⊢
  have hret : r' = r := Option.some.inj hr
  rw [hret]

theorem after_session {cond : Label → Fs → Prop} {cs : List Call}
    (hr : (exec advance (plain cs) (initialized plainEnv)).isSome = true)
    (hm : Meets advance cond (plain cs) (initialized plainEnv)) :
    Sessions plainEnv cond (after cs) :=
  reaches_of_exec (plain cs) hm (exec_after hr)

end Bbfs.Session
