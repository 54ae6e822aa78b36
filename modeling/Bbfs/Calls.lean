import Mathlib.Data.Char
import Mathlib.Data.Finset.Sort
import Mathlib.Data.List.Lex
import Bbfs.Resolve

/-!
# The file-system calls

Each call takes its arguments and the state and returns an error code or a
length with the next state. A call that can leave with an uncaught exception
returns an option. A `const char*` argument is given by its bytes before the
terminating NUL.
-/

set_option autoImplicit false

namespace Bbfs.Calls
open Bbfs.Strings Bbfs.Files Bbfs.Resolve

def myFstat (fh : ℕ) (s : Fs) : ℤ × Option Stat :=
  if fh ∉ s.entry then (anErr, none) else (ok, some (s.file fh).metadata)

def myLstat (path : Str) (s : Fs) : (ℤ × Option Stat) × Fs :=
  match findRealIno path s with
  | (fh, s) => if fh = 0 then ((anErr, none), s) else (myFstat fh s, s)

def next (s : Fs) : ℕ × Fs := (s.count, { s with count := s.count+1 })

def newStat (env : Env) (theIno : ℕ) (mode : Mode) : Stat where
  stDev := 100
  stIno := theIno
  stMode := mode &&& ~~~env.oldUmask
  stNlink := 1
  stUid := env.euid
  stGid := env.egid
  stRdev := 0
  stSize := 0
  stBlksize := 4096
  stBlocks := 0
  stAtime := env.clock 0
  stMtime := env.clock 1
  stCtime := env.clock 2

def installDots (mode : Mode) (theIno parentIno : ℕ) (s : Fs) : Fs :=
  if S_ISDIR mode then
    (s.modify theIno (File.push ⟨dot,theIno⟩)).modify theIno (File.push ⟨dotdot,parentIno⟩)
  else s

/-- The inode is allocated before any of the checks. The device argument is
overwritten by 100 at once. -/
def myMknod (env : Env) (path : Str) (mode : Mode) (_dev : ℕ) (s : Fs) : ℤ × Fs :=
  match next s with
  | (theIno, s) =>
    let s := s.modify theIno (File.setStat (fun _ => newStat env theIno mode))
    match findIno (parentPath path) s with
    | (parentIno, s) =>
      if parentIno = 0 then (anErr, s)
      else if s.firstTime then
        (ok, installDots mode theIno parentIno { s with firstTime := false })
      else
        match findIno path s with
        | (there, s) =>
          if there ≠ 0 then (anErr, s) else
          match findIno (parentPath path) s with
          | (fh, s) =>
            (ok, installDots mode theIno parentIno (s.modify fh (File.push ⟨tail path,theIno⟩)))

def myMkdir (env : Env) (path : Str) (mode : Mode) (s : Fs) : ℤ × Fs :=
  myMknod env path (S_IFDIR ||| mode) 100 s

def myCreat (env : Env) (fpath : Str) (mode : Mode) (s : Fs) : ℤ × Fs :=
  if IsDots (tail fpath) then (anErr, s) else myMknod env fpath (S_IFREG ||| mode) 100 s

def myLink (path newpath : Str) (s : Fs) : ℤ × Fs :=
  match findIno path s with
  | (fh, s) =>
    if fh = 0 then (anErr, s) else
    let s := s.touch fh
    if (s.file fh).isReg = false then (anErr, s) else
    match findIno (parentPath newpath) s with
    | (parentFh, s) =>
      if parentFh = 0 then (anErr, s) else
      match findIno newpath s with
      | (newFh, s) =>
        if newFh ≠ 0 then (anErr, s) else
        let s := s.modify fh (File.setStat incNlink)
        (ok, s.modify parentFh (File.push ⟨tail newpath,fh⟩))

def myUnlink (path : Str) (s : Fs) : ℤ × Fs :=
  match findIno path s with
  | (fh, s) =>
    let s := s.touch fh
    if fh = 0 then (anErr, s)
    else if IsDots (tail path) then (anErr, s)
    else
      match findIno (parentPath path) s with
      | (parentFh, s) =>
        let s := s.modify parentFh (File.dropNamed (tail path))
        let s := s.modify fh (File.setStat decNlink)
        if (s.file fh).metadata.stNlink = 0 then (ok, s.erase fh) else (ok, s)

/-- The count that is decremented here is the one of a copy of the file. -/
def myRmdir (path : Str) (s : Fs) : ℤ × Fs :=
  match findIno path s with
  | (fh, s) =>
    let s := s.touch fh
    let theDir := s.file fh
    if theDir.isDir = false then (anErr, s)
    else if theDir.dentries.length > 2 then (anErr, s)
    else
      match findIno ('/'::parentPath path) s with
      | (parent, s) =>
        let s := s.modify parent (File.dropIno fh)
        if decrement theDir.metadata.stNlink = 0 then (ok, s.erase fh) else (ok, s)

def myRename (path newpath : Str) (s : Fs) : ℤ × Fs :=
  match findIno path s with
  | (originalFh, s) =>
    match findIno (parentPath path) s with
    | (parentPathFh, s) =>
      if IsDots (tail path) then (anErr, s) else
      match findIno (parentPath newpath) s with
      | (parentNewpathFh, s) =>
        match lookup (tail newpath) parentNewpathFh s with
        | (found, s) =>
          let s := if found ≠ 0 then s.modify parentNewpathFh (File.dropNamed (tail newpath)) else s
          let s := s.modify parentPathFh (File.dropNamed (tail path))
          (ok, s.modify parentNewpathFh (File.push ⟨tail newpath,originalFh⟩))

def myChmod (path : Str) (mode : Mode) (s : Fs) : ℤ × Fs :=
  match findIno path s with
  | (fh, s) =>
    let s := s.touch fh
    let mode := if (s.file fh).isDir then mode ||| S_IFDIR else mode
    if fh = 0 then (anErr, s)
    else (ok, s.modify fh (File.setStat (fun m => { m with stMode := mode })))

def myChown (path : Str) (uid gid : ℕ) (s : Fs) : ℤ × Fs :=
  match findIno path s with
  | (fh, s) =>
    if fh = 0 then (anErr, s)
    else (ok, s.modify fh (File.setStat (fun m => { m with stUid := uid, stGid := gid })))

def myUtime (path : Str) (ubuf : Option (ℤ × ℤ)) (s : Fs) : ℤ × Fs :=
  match ubuf with
  | none => (anErr, s)
  | some (actime, modtime) =>
    match findIno path s with
    | (fh, s) =>
      if fh = 0 then (anErr, s)
      else (ok, s.modify fh (File.setStat
        (fun m => { m with stAtime := actime, stMtime := modtime })))

def S_IRUSR : Mode := 0o400#32
def S_IWUSR : Mode := 0o200#32
def S_IXUSR : Mode := 0o100#32

def myAccess (fpath : Str) (mask : Mode) (s : Fs) : ℤ × Fs :=
  match findIno fpath s with
  | (fh, s) =>
    match myFstat fh s with
    | (_, none) => (anErr, s)
    | (_, some st) =>
      if st.stMode &&& S_IRUSR ≠ mask &&& S_IRUSR then (anErr, s)
      else if st.stMode &&& S_IWUSR ≠ mask &&& S_IWUSR then (anErr, s)
      else if st.stMode &&& S_IXUSR ≠ mask &&& S_IXUSR then (anErr, s)
      else (ok, s)

def O_CREAT : ℕ := 0o100

/-- The test on the unsigned handle holds of every value. -/
def myOpen (env : Env) (path : Str) (flags : ℕ) (s : Fs) : ℤ × Fs :=
  match findIno path s with
  | (fh, s) =>
    if fh ≥ 0 then (toInt32 fh, s.modify fh (File.setStat incNlink))
    else if flags &&& O_CREAT ≠ 0 then
      match myCreat env path 666#32 s with
      | (err, s) =>
        if err = -1 then (anErr, s) else
        match findIno path s with
        | (fh, s) => (toInt32 fh, s)
    else (anErr, s)

def myClose (fh : ℕ) (s : Fs) : ℤ × Fs :=
  if fh = 0 then (anErr, s) else
  let s := s.modify fh (File.setStat decNlink)
  if (s.file fh).metadata.stNlink = 0 then (ok, s.erase fh) else (ok, s)

def resize (n : ℕ) (s : Str) : Str := s.take n++List.replicate (n-s.length) '\x00'

/-- The copying loop of `my_pwrite`; `data.at(i)` throws outside the string.
Every iteration moves one position, so `data.length+1` of them suffice. -/
def writeLoop (str : Str) (stop : ℕ) : ℕ → ℤ → ℕ → Str → Option Str
  | 0, _, _, _ => none
  | fuel+1, i, j, data =>
    if toU64 i < stop then
      if 0 ≤ i ∧ i < data.length then
        writeLoop str stop fuel (i+1) (j+1) (data.set i.toNat (str.getD j '\x00'))
      else none
    else some data

/-- The resized and rewritten contents. The new size is an `int`: a negative
one makes `resize` throw. -/
def overwrite (data str : Str) (size : ℕ) (offset : ℤ) : Option Str :=
  let newSize := toInt32 (data.length+size)
  let offset := if data.length < toU64 offset then (data.length:ℤ) else offset
  if newSize < 0 then none
  else writeLoop str (toU64 (offset+size)) (newSize.toNat+1) (toInt32 offset) 0
    (resize newSize.toNat data)

def stored (data str : Str) (f : File) : File :=
  { f with data := data, metadata := { f.metadata with stSize := str.length } }

def myPwrite (fh : ℕ) (buf : Str) (size : ℕ) (offset : ℤ) (s : Fs) : Option (ℤ × Fs) :=
  let s := s.touch fh
  if fh = 0 then some (anErr, s)
  else if (s.file fh).isReg = false then some (anErr, s)
  else
    match overwrite (s.file fh).data (cstr buf) size offset with
    | none => none
    | some data => some (toInt32 (cstr buf).length, s.modify fh (stored data (cstr buf)))

def myFtruncate (fh : ℕ) (offset : ℤ) (s : Fs) : ℤ × Fs :=
  if fh = 0 then (anErr, s)
  else if offset < 0 then (anErr, s)
  else
    let s := s.touch fh
    if (s.file fh).isDir then (anErr, s)
    else
      let data := resize offset.toNat (s.file fh).data
      (ok, s.modify fh
        (fun f => { f with data := data, metadata := { f.metadata with stSize := data.length } }))

def myTruncate (path : Str) (newsize : ℤ) (s : Fs) : ℤ × Fs :=
  if newsize < 0 then (anErr, s) else
  match findIno path s with
  | (fh, s) =>
    if fh = 0 then (anErr, s) else
    let s := s.touch fh
    if (s.file fh).isDir then (anErr, s) else myFtruncate fh newsize s

/-- A symbolic link is a regular file holding the path, turned into a link by
`my_chmod`. -/
def mySymlink (env : Env) (path link : Str) (s : Fs) : Option (ℤ × Fs) :=
  if IsDots (tail link) then some (anErr, s) else
  match findIno link s with
  | (linkFh, s) =>
    if linkFh ≠ 0 then some (anErr, s) else
    match myCreat env link 666#32 s with
    | (err, s) =>
      if err = -1 then some (anErr, s) else
      match findIno link s with
      | (linkFh, s) =>
        match myPwrite linkFh path path.length 0 s with
        | none => none
        | some (_, s) =>
          let s := s.touch linkFh
          match myChmod link ((s.file linkFh).metadata.stMode ||| S_IFLNK) s with
          | (err, s) => if err = -1 then some (anErr, s) else some (ok, s)

structure Statvfs where
  fBsize : ℕ := 0
  fFrsize : ℕ := 0
  fBlocks : ℕ := 0
  fBfree : ℕ := 0
  fBavail : ℕ := 0
  fFiles : ℕ
  fFfree : ℕ := 0
  fFavail : ℕ := 0
  fFsid : ℕ := 0
  fFlag : ℕ := 0
  fNamemax : ℕ := 255
  deriving DecidableEq, Repr

def myStatvfs (fpath : Str) (statv : Bool) (s : Fs) : (ℤ × Option Statvfs) × Fs :=
  match findIno fpath s with
  | (fh, s) =>
    if fh = 0 then ((anErr, none), s)
    else if statv = false then ((anErr, none), s)
    else ((ok, some { fFiles := s.entry.keys.card }), s)

def myFdatasync (_fh : ℕ) : ℤ := anErr

def myFsync (_fh : ℕ) : ℤ := anErr

def mySetXattr (name value : Str) (f : File) : File :=
  { f with xattr := f.xattr.insert name value }

def myLsetxattr (fpath name value : Str) (s : Fs) : ℤ × Fs :=
  match findRealIno fpath s with
  | (fh, s) =>
    if fh = 0 then (anErr, s) else
    let s := s.touch fh
    if name ∈ (s.file fh).xattr then (anErr, s) else (ok, s.modify fh (mySetXattr name value))

/-- The caller's buffer comes back as it was: only the local pointer `value`
is redirected. -/
def myLgetxattr (fpath name value : Str) (s : Fs) : (ℤ × Str) × Fs :=
  match findRealIno fpath s with
  | (fh, s) =>
    if fh = 0 then ((anErr, value), s) else
    let s := s.touch fh
    match (s.file fh).xattr.lookup name with
    | none => ((anErr, value), s)
    | some x => ((toInt32 (cstr x).length, value), s)

/-- The order of an iteration over the attributes. -/
def xattrNames (f : File) : List Str := f.xattr.keys.sort (· ≤ ·)

def nameWrites (name : Str) (curPos tmpsize : ℤ) : List (ℤ × Char) :=
  (List.range tmpsize.toNat).map (fun i : ℕ => (toInt32 (curPos+i),name.getD i '\x00'))++
    [(toInt32 (curPos+tmpsize),'\x00')]

/-- `curPos` at the end, and the writes to the caller's array in order, each
a position and a byte. -/
def listLoop (size : ℕ) : List Str → ℤ → List (ℤ × Char) → ℤ × List (ℤ × Char)
  | [], curPos, list => (curPos, list)
  | name::names, curPos, list =>
    let tmpsize := toInt32 (cstr name).length
    if toU64 (toInt32 (curPos+tmpsize+1)) < size then
      listLoop size names (toInt32 (curPos+tmpsize+1)) (list++nameWrites name curPos tmpsize)
    else (curPos, list)

def myLlistxattr (path : Str) (size : ℕ) (s : Fs) : (ℤ × List (ℤ × Char)) × Fs :=
  match findRealIno path s with
  | (fh, s) =>
    if fh = 0 then ((anErr, []), s) else
    let s := s.touch fh
    (listLoop size (xattrNames (s.file fh)) 0 [], s)

def myLremovexattr (path name : Str) (s : Fs) : ℤ × Fs :=
  match findIno path s with
  | (fh, s) =>
    if fh = 0 then (anErr, s) else
    let s := s.touch fh
    if name ∈ (s.file fh).xattr then
      (ok, s.modify fh (fun f => { f with xattr := f.xattr.erase name }))
    else (anErr, s)

def myOpendir (path : Str) (s : Fs) : Option MyDir × Fs :=
  match findIno path s with
  | (fh, s) => fopendir fh s

def blank : Fs := { count := 2, entry := ∅, firstTime := true }

def initialized (env : Env) : Fs := (myMkdir env slash 0o700#32 blank).2

end Bbfs.Calls
