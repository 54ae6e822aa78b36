import Mathlib.Data.BitVec
import Bbfs.InsertingMap
import Bbfs.Strings

/-!
# Files, the inode table and mode words

The table `ilist.entry` is a finite map whose read access inserts a zeroed
file. Inode numbers and handles are natural numbers; `find_ino` returns its
`an_err` as the largest unsigned one. Terminal output and `errno` are not part of the state:
no function of the program reads them back to decide anything.
-/

set_option autoImplicit false

namespace Bbfs.Files
open Bbfs.InsertingMap Bbfs.Strings

abbrev Mode := BitVec 32

def S_IFMT : Mode := 0o170000#32
def S_IFDIR : Mode := 0o040000#32
def S_IFREG : Mode := 0o100000#32
def S_IFLNK : Mode := 0o120000#32

def S_ISDIR (m : Mode) : Bool := m &&& S_IFMT == S_IFDIR
def S_ISREG (m : Mode) : Bool := m &&& S_IFMT == S_IFREG
def S_ISLNK (m : Mode) : Bool := m &&& S_IFMT == S_IFLNK

def ok : ℤ := 0

def anErr : ℤ := -1

/-- The handle `find_ino` returns for `an_err`, converted to `ino_t`. -/
def errIno : ℕ := 2^64-1

def toInt32 (x : ℤ) : ℤ := x.bmod (2^32)

def toU64 (x : ℤ) : ℕ := (x % 2^64).toNat

structure Dirent where
  dName : Str
  dIno : ℕ
  deriving DecidableEq, Repr

structure Stat where
  stDev : ℕ := 0
  stIno : ℕ := 0
  stMode : Mode := 0
  stNlink : ℕ := 0
  stUid : ℕ := 0
  stGid : ℕ := 0
  stRdev : ℕ := 0
  stSize : ℤ := 0
  stBlksize : ℤ := 0
  stBlocks : ℤ := 0
  stAtime : ℤ := 0
  stMtime : ℤ := 0
  stCtime : ℤ := 0
  deriving DecidableEq, Repr

structure File where
  metadata : Stat := {}
  data : Str := []
  dentries : List Dirent := []
  xattr : Finmap (fun _ : Str => Str) := ∅
  deriving DecidableEq

instance : Inhabited File := ⟨{}⟩

/-- The table, the counter behind `Ilist::next` and the static `first_time`
of `my_mknod`. -/
structure Fs where
  count : ℕ
  entry : Finmap (fun _ : ℕ => File)
  firstTime : Bool

/-- The table as a function of the handle; an absent key reads as a zeroed
file. -/
abbrev View := ℕ → File

def put (v : View) (k : ℕ) (f : File → File) : View := Function.update v k (f (v k))

@[simp] theorem put_self (v : View) (k : ℕ) (f : File → File) : put v k f k = f (v k) :=
  Function.update_self k _ v

theorem put_of_ne (v : View) {i k : ℕ} (f : File → File) (h : i ≠ k) : put v k f i = v i :=
  Function.update_of_ne h _ v

/-- What the process supplies to a call. A umask holds permission bits only. -/
structure Env where
  oldUmask : Mode
  umask_perm : oldUmask &&& S_IFMT = 0
  euid : ℕ
  egid : ℕ
  clock : Fin 3 → ℤ

namespace Fs

def file (s : Fs) : View := read s.entry

def touch (s : Fs) (k : ℕ) : Fs := { s with entry := InsertingMap.touch s.entry k }

def modify (s : Fs) (k : ℕ) (f : File → File) : Fs :=
  { s with entry := InsertingMap.modify s.entry k f }

def erase (s : Fs) (k : ℕ) : Fs := { s with entry := s.entry.erase k }

variable (s : Fs) (k : ℕ) (f : File → File)

@[simp] theorem touch_file : (s.touch k).file = s.file := read_touch s.entry k
@[simp] theorem touch_count : (s.touch k).count = s.count := rfl
@[simp] theorem touch_firstTime : (s.touch k).firstTime = s.firstTime := rfl
@[simp] theorem modify_file : (s.modify k f).file = put s.file k f := read_modify s.entry k f
@[simp] theorem modify_count : (s.modify k f).count = s.count := rfl
@[simp] theorem modify_firstTime : (s.modify k f).firstTime = s.firstTime := rfl
@[simp] theorem erase_file :
    (s.erase k).file = Function.update s.file k default := read_erase s.entry k
@[simp] theorem erase_count : (s.erase k).count = s.count := rfl
@[simp] theorem erase_firstTime : (s.erase k).firstTime = s.firstTime := rfl

@[simp] theorem mk_file (n : ℕ) (b : Bool) : (Fs.mk n s.entry b).file = s.file := rfl

def keys (s : Fs) : Set ℕ := {k | k ∈ s.entry}

@[simp] theorem touch_keys : (s.touch k).keys = insert k s.keys :=
  Set.ext (fun _ => mem_touch)

@[simp] theorem modify_keys : (s.modify k f).keys = insert k s.keys :=
  Set.ext (fun _ => mem_modify)

@[simp] theorem erase_keys : (s.erase k).keys = s.keys \ {k} :=
  Set.ext (fun _ => by simp [keys, erase, and_comm])

@[simp] theorem mk_keys (n : ℕ) (b : Bool) : (Fs.mk n s.entry b).keys = s.keys := rfl

theorem touch_of_mem {s : Fs} {k : ℕ} (h : k ∈ s.entry) : s.touch k = s := by
  rw [touch, InsertingMap.touch_of_mem h]

end Fs

namespace File

def push (d : Dirent) (f : File) : File := { f with dentries := f.dentries++[d] }

def dropNamed (name : Str) (f : File) : File :=
  { f with dentries := f.dentries.eraseP (fun d => d.dName == name) }

def dropIno (i : ℕ) (f : File) : File :=
  { f with dentries := f.dentries.eraseP (fun d => d.dIno == i) }

def setStat (g : Stat → Stat) (f : File) : File := { f with metadata := g f.metadata }

def isDir (f : File) : Bool := S_ISDIR f.metadata.stMode
def isReg (f : File) : Bool := S_ISREG f.metadata.stMode
def isLnk (f : File) : Bool := S_ISLNK f.metadata.stMode

variable (d : Dirent) (name : Str) (i : ℕ) (g : Stat → Stat) (f : File)

@[simp] theorem push_metadata : (f.push d).metadata = f.metadata := rfl
@[simp] theorem push_data : (f.push d).data = f.data := rfl
@[simp] theorem push_dentries : (f.push d).dentries = f.dentries++[d] := rfl
@[simp] theorem dropNamed_metadata : (f.dropNamed name).metadata = f.metadata := rfl
@[simp] theorem dropNamed_data : (f.dropNamed name).data = f.data := rfl
theorem dropNamed_nlink : (f.dropNamed name).metadata.stNlink = f.metadata.stNlink := rfl
@[simp] theorem dropIno_metadata : (f.dropIno i).metadata = f.metadata := rfl
@[simp] theorem dropIno_data : (f.dropIno i).data = f.data := rfl
@[simp] theorem setStat_metadata : (f.setStat g).metadata = g f.metadata := rfl
@[simp] theorem setStat_data : (f.setStat g).data = f.data := rfl
@[simp] theorem setStat_dentries : (f.setStat g).dentries = f.dentries := rfl
@[simp] theorem default_dentries : (default : File).dentries = [] := rfl
@[simp] theorem default_isDir : (default : File).isDir = false := by decide
@[simp] theorem default_isReg : (default : File).isReg = false := by decide
@[simp] theorem default_isLnk : (default : File).isLnk = false := by decide
@[simp] theorem default_stIno : (default : File).metadata.stIno = 0 := rfl

end File

/-- The decrement of an unsigned 64-bit counter. The increment is taken without
a bound, since every link that raises the counter also stores an entry. -/
def decrement (n : ℕ) : ℕ := if n = 0 then 2^64-1 else n-1

def incNlink (m : Stat) : Stat := { m with stNlink := m.stNlink+1 }

def decNlink (m : Stat) : Stat := { m with stNlink := decrement m.stNlink }

theorem decrement_succ (n : ℕ) : decrement (n+1) = n := by
  rw [decrement, if_neg (Nat.succ_ne_zero n), Nat.add_sub_cancel]

theorem dec_inc (f : File) : (f.setStat incNlink).setStat decNlink = f := by
  obtain ⟨m,d,es,x⟩ := f
  simp only [File.setStat, incNlink, decNlink, decrement_succ]

def typeBits (m : Mode) : Mode := m &&& S_IFMT

theorem typeBits_or (m n : Mode) : typeBits (m ||| n) = typeBits m ||| typeBits n :=
  BitVec.and_or_distrib_right

theorem typeBits_umask (m : Mode) (env : Env) : typeBits (m &&& ~~~env.oldUmask) = typeBits m := by
  have h : (~~~env.oldUmask) &&& S_IFMT = S_IFMT := by
    have hu := env.umask_perm
    ext i hi
    have hb := congrArg (fun w : Mode => w.getLsbD i) hu
    simp only [BitVec.getLsbD_and] at hb
    simp only [← BitVec.getLsbD_eq_getElem, BitVec.getLsbD_and, BitVec.getLsbD_not, hi]
    cases h1 : env.oldUmask.getLsbD i <;> simp_all
  rw [typeBits, BitVec.and_assoc, h, typeBits]

theorem S_ISDIR_eq (m : Mode) : S_ISDIR m = (typeBits m == S_IFDIR) := rfl

theorem S_ISREG_eq (m : Mode) : S_ISREG m = (typeBits m == S_IFREG) := rfl

theorem S_ISLNK_eq (m : Mode) : S_ISLNK m = (typeBits m == S_IFLNK) := rfl

theorem type_exclusive (f : File) :
    (f.isDir = true → f.isReg = false ∧ f.isLnk = false) ∧
      (f.isReg = true → f.isLnk = false) := by
  simp only [File.isDir, File.isReg, File.isLnk, S_ISDIR_eq, S_ISREG_eq, S_ISLNK_eq,
    beq_iff_eq, beq_eq_false_iff_ne]
  constructor
  · intro h
    rw [h]
    decide
  · intro h
    rw [h]
    decide

theorem isDir_of_isReg {f : File} (h : f.isReg = true) : f.isDir = false := by
  by_contra hd
  have hreg := ((type_exclusive f).1 (Bool.eq_true_of_not_eq_false hd)).1
  exact Bool.false_ne_true (hreg.symm.trans h)

theorem isDir_of_isLnk {f : File} (h : f.isLnk = true) : f.isDir = false := by
  by_contra hd
  have hlnk := ((type_exclusive f).1 (Bool.eq_true_of_not_eq_false hd)).2
  exact Bool.false_ne_true (hlnk.symm.trans h)

section
variable {s : Fs} {k : ℕ}

theorem mem_of_ne_default (h : s.file k ≠ default) : k ∈ s.entry := by
  by_contra hk
  exact h (read_of_notMem hk)

theorem mem_of_isDir (h : (s.file k).isDir = true) : k ∈ s.entry := by
  apply mem_of_ne_default
  intro hd
  rw [hd, File.default_isDir] at h
  exact Bool.false_ne_true h

theorem mem_of_isReg (h : (s.file k).isReg = true) : k ∈ s.entry := by
  apply mem_of_ne_default
  intro hd
  rw [hd, File.default_isReg] at h
  exact Bool.false_ne_true h

theorem mem_of_isLnk (h : (s.file k).isLnk = true) : k ∈ s.entry := by
  apply mem_of_ne_default
  intro hd
  rw [hd, File.default_isLnk] at h
  exact Bool.false_ne_true h

theorem mem_of_entry {d : Dirent} (h : d ∈ (s.file k).dentries) : k ∈ s.entry := by
  apply mem_of_ne_default
  intro hd
  simp [hd] at h

end

end Bbfs.Files
