import Mathlib.Data.Finset.Lattice.Fold
import Bbfs.Files
import Bbfs.Runs

/-!
# The FUSE variant

`my_calls.cc` keeps inodes in an ordered map by number and walks paths from
inode 0, which no function installs. An open file points to an inode; the
pointer is given as the identity of the map node that holds the inode, and
every insertion makes a node of its own. A call that dereferences the end of a
map, indexes outside a list or leaves with an exception has no result.
-/

set_option autoImplicit false

namespace Bbfs.FuseCalls
open Bbfs.Strings Bbfs.Files

structure MyDirent where
  dIno : ℕ
  dName : Str
  deriving DecidableEq, Repr

/-- An inode, with the identity of the map node that holds it. -/
structure MyInode where
  iIno : ℕ
  iMode : Mode
  buf : Str := []
  direntBuf : List MyDirent := []
  node : ℕ
  deriving DecidableEq, Repr

structure MyFile where
  fDesc : ℕ
  fMode : Mode
  fPos : ℕ
  flags : ℕ
  fCount : ℕ := 0
  fInode : ℕ
  deriving DecidableEq, Repr

structure Fuse where
  ilist : Finmap (fun _ : ℕ => MyInode)
  openFT : Finmap (fun _ : ℕ => MyFile)
  nodes : ℕ

/-- The loop of `split`, which keeps no empty pieces. The first argument bounds
the number of iterations. -/
def splitLoop (pat : Str) : ℕ → Str → Option (List Str)
  | 0, _ => none
  | fuel+1, rest =>
    match find pat rest with
    | none => some (if rest = [] then [] else [rest])
    | some t => (splitLoop pat fuel (rest.drop (t+pat.length))).map
      (fun v => if rest.take t = [] then v else rest.take t::v)

def split (s pat : Str) : Option (List Str) := splitLoop pat (s.length+1) s

def dirNames (path : Str) : List Str := (split path slash).getD []

def parentPath (names : List Str) : Str := (names.map (fun w => slash++w)).flatten

def creatPath (names : List Str) : Str := slash++(names.map (fun w => w++slash)).flatten

def getInodeLoop (ilist : Finmap (fun _ : ℕ => MyInode)) : List Str → MyInode → Option ℕ
  | [], temp => some temp.iIno
  | it::v, temp =>
    match temp.direntBuf.find? (fun d => d.dName == it) with
    | none => none
    | some d =>
      match ilist.lookup d.dIno with
      | none => none
      | some temp => getInodeLoop ilist v temp

/-- No result stands for -1. -/
def getInodeNumber (pathname : Str) (s : Fuse) : Option ℕ :=
  match s.ilist.lookup 0 with
  | none => none
  | some root => getInodeLoop s.ilist (dirNames pathname) root

def maxInode (s : Fuse) : ℕ := s.ilist.keys.sup (fun k => (s.ilist.lookup k).elim 0 MyInode.iIno)

/-- `insert` leaves an entry that is there alone. -/
def insertNew {V : Type} (m : Finmap (fun _ : ℕ => V)) (k : ℕ) (a : V) :
    Finmap (fun _ : ℕ => V) :=
  if k ∈ m then m else m.insert k a

def inodeInit (mode : Mode) (s : Fuse) : ℕ × Fuse :=
  let num := maxInode s+1
  let i : MyInode := { iIno := num, iMode := mode, node := s.nodes }
  (num, { s with ilist := insertNew s.ilist num i, nodes := s.nodes+1 })

def maxFd (s : Fuse) : ℕ := s.openFT.keys.sup (fun k => (s.openFT.lookup k).elim 0 MyFile.fDesc)

def fileInit (m : Mode) (pos flags inode : ℕ) (s : Fuse) : ℕ × Fuse :=
  let fd := maxFd s+1
  let fi : MyFile := { fDesc := fd, fMode := m, fPos := pos, flags := flags, fInode := inode }
  (fd, { s with openFT := insertNew s.openFT fd fi })

def modifyInode (k : ℕ) (f : MyInode → MyInode) (s : Fuse) : Option Fuse :=
  (s.ilist.lookup k).map (fun i => { s with ilist := s.ilist.insert k (f i) })

def pushDirent (d : MyDirent) (i : MyInode) : MyInode := { i with direntBuf := i.direntBuf++[d] }

def dropDirent (name : Str) (i : MyInode) : MyInode :=
  { i with direntBuf := i.direntBuf.eraseP (fun d => d.dName == name) }

@[simp] theorem pushDirent_direntBuf (d : MyDirent) (i : MyInode) :
    (pushDirent d i).direntBuf = i.direntBuf++[d] := rfl

@[simp] theorem dropDirent_direntBuf (name : Str) (i : MyInode) :
    (dropDirent name i).direntBuf = i.direntBuf.eraseP (fun d => d.dName == name) := rfl

def myMkdir (pathname : Str) (mode : Mode) (s : Fuse) : Option (ℤ × Fuse) :=
  if (getInodeNumber pathname s).isSome then some (anErr, s) else
  let names := dirNames pathname
  if names = [] then some (anErr, s) else
  let parent := if names.length = 1 then some 0 else
    getInodeNumber (parentPath names.dropLast) s
  match parent with
  | none => some (anErr, s)
  | some parentInode =>
    match inodeInit mode s with
    | (newInode, s) =>
      (modifyInode parentInode (pushDirent ⟨newInode,names.getLastD []⟩) s).map
        (fun s => (toInt32 newInode, s))

/-- With the root as parent the entry is pushed into a copy of the root. -/
def myCreat (pathname : Str) (mode : Mode) (s : Fuse) : Option (ℤ × Fuse) :=
  match inodeInit mode s with
  | (inum, s) =>
    let names := dirNames pathname
    if names = [] then none
    else if 0 ∉ s.ilist then some (anErr, s)
    else if names.dropLast = [] then some (toInt32 inum, s)
    else
      match getInodeNumber (creatPath names.dropLast) s with
      | none => none
      | some tempInode =>
        (modifyInode tempInode (pushDirent ⟨inum,names.getLastD []⟩) s).map
          (fun s => (toInt32 inum, s))

def myRmdir (pathname : Str) (s : Fuse) : Option (ℤ × Fuse) :=
  match getInodeNumber pathname s with
  | none => some (anErr, s)
  | some currentInode =>
    if currentInode = 0 then some (anErr, s) else
    match s.ilist.lookup currentInode with
    | none => none
    | some inode =>
      if inode.direntBuf.length > 0 then some (anErr, s) else
      let names := dirNames pathname
      if names = [] then none else
      match getInodeNumber (parentPath names.dropLast) s with
      | none => some (anErr, s)
      | some parentInode =>
        match s.ilist.lookup parentInode with
        | none => none
        | some parent =>
          if (parent.direntBuf.find? (fun d => d.dName == names.getLastD [])).isNone then
            some (anErr, s)
          else
            (modifyInode parentInode (dropDirent (names.getLastD [])) s).map
              (fun s => (ok, { s with ilist := s.ilist.erase currentInode }))

def myChmod (path : Str) (mode : Mode) (s : Fuse) : Option (ℤ × Fuse) :=
  match getInodeNumber path s with
  | none => some (0, s)
  | some iNum => (modifyInode iNum (fun i => { i with iMode := mode }) s).map (fun s => (0, s))

def toU16 (n : ℤ) : ℕ := (n % 2^16).toNat

def openWith (mode : Mode) (pathname : Str) (flags : ℕ) (s : Fuse) : ℤ × Fuse :=
  match getInodeNumber pathname s with
  | none => (anErr, s)
  | some tempInum =>
    match s.ilist.lookup tempInum with
    | none => (anErr, s)
    | some tempInode =>
      match fileInit mode 0 flags tempInode.node s with
      | (fd, s) => (toInt32 fd, s)

/-- The mode is the hexadecimal number 644. -/
def myOpen1 (pathname : Str) (flags : ℤ) (s : Fuse) : ℤ × Fuse :=
  openWith 0x644#32 pathname (toU16 flags) s

def myOpen2 (pathname : Str) (flags : ℤ) (mode : Mode) (s : Fuse) : ℤ × Fuse :=
  openWith mode pathname (toU16 flags) s

def myClose (fd : ℤ) (s : Fuse) : ℤ × Fuse :=
  if toU64 fd ∈ s.openFT then (0, { s with openFT := s.openFT.erase (toU64 fd) }) else (anErr, s)

inductive FuseCall where
  | mkdir (pathname : Str) (mode : Mode)
  | creat (pathname : Str) (mode : Mode)
  | rmdir (pathname : Str)
  | chmod (path : Str) (mode : Mode)
  | open1 (pathname : Str) (flags : ℤ)
  | open2 (pathname : Str) (flags : ℤ) (mode : Mode)
  | close (fd : ℤ)
  deriving DecidableEq

def answer : FuseCall → Fuse → Option (ℤ × Fuse)
  | .mkdir pathname mode, s => myMkdir pathname mode s
  | .creat pathname mode, s => myCreat pathname mode s
  | .rmdir pathname, s => myRmdir pathname s
  | .chmod path mode, s => myChmod path mode s
  | .open1 pathname flags, s => some (myOpen1 pathname flags s)
  | .open2 pathname flags mode, s => some (myOpen2 pathname flags mode s)
  | .close fd, s => some (myClose fd s)

def advance (c : FuseCall) (s : Fuse) : Option Fuse := (answer c s).map Prod.snd

def rootOnly (mode : Mode) : Fuse where
  ilist := Finmap.singleton 0 { iIno := 0, iMode := mode, node := 0 }
  openFT := ∅
  nodes := 1

end Bbfs.FuseCalls
