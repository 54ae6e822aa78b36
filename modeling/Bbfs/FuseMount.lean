import Bbfs.FuseBytes
import Bbfs.FuseRename
import Bbfs.FuseStat

/-!
# The mount

`bbfs.c` passes its calls on to the host, all but `bb_create`, which makes the
file with `my_creat`. The tables are empty when the program starts and no function
installs the root, so no path leads anywhere and every file made is lost.
-/

set_option autoImplicit false

namespace Bbfs.FuseMount
open Bbfs.Strings Bbfs.Files Bbfs.FuseCalls Bbfs.FuseTable Bbfs.FuseBytes Bbfs.FuseRename
open Bbfs.FuseStat (myFstat myLstat)
open Bbfs.Runs

def PATH_MAX : ℕ := 4096

/-- Both copies must fit into the buffer, with a NUL behind them. -/
def bbFullpath (rootdir path : Str) : Option Str :=
  if rootdir.length+(path.take PATH_MAX).length < PATH_MAX then
    some (rootdir++path.take PATH_MAX)
  else none

def bbError (errno : ℤ) : ℤ := -errno

/-- The return value and the handle stored in `fi->fh`, where `errno` is what the
host's calls left there. -/
def bbCreate (rootdir path : Str) (mode : Mode) (errno : ℤ) (s : Fuse) :
    Option ((ℤ × ℕ) × Fuse) :=
  match bbFullpath rootdir path with
  | none => none
  | some fpath =>
    match myCreat fpath mode s with
    | none => none
    | some (fd, s) => some ((if fd < 0 then bbError errno else 0, toU64 fd), s)

def unfilled : Fuse := ⟨∅,∅,0⟩

def newModes (cs : List FuseCall) : List Mode :=
  cs.filterMap (fun c => match c with
    | .creat _ mode => some mode
    | _ => none)

structure Request where
  path : Str
  mode : Mode
  errno : ℤ

def mounted (rootdir : Str) (q : Request) (s : Fuse) : Option Fuse :=
  (bbCreate rootdir q.path q.mode q.errno s).map Prod.snd

/-- What a call returns as long as there is no root; a directory to be made below
it has no parent to enter. -/
def reply : FuseCall → Option ℤ
  | .mkdir pathname _ => if (dirNames pathname).length = 1 then none else some anErr
  | .creat pathname _ => if dirNames pathname = [] then none else some anErr
  | .chmod _ _ => some 0
  | _ => some anErr

/-- An inode without entries for each file made, numbered from 1 on, and nothing open. -/
structure Rootless (s : Fuse) (ms : List Mode) : Prop where
  inode : ∀ k, s.ilist.lookup k = if k = 0 then none else
    ms[k-1]?.map (fun mode => { iIno := k, iMode := mode, node := k-1 })
  closed : s.openFT = ∅
  nodes : s.nodes = ms.length

variable {s s' : Fuse} {ms : List Mode} {c : FuseCall} {cs : List FuseCall} {mode : Mode}
  {path oldpath newpath rootdir : Str}

theorem unfilled_rootless : Rootless unfilled [] := by
  refine ⟨fun k => ?_,rfl,rfl⟩
  rw [List.getElem?_nil, Option.map_none, ite_self]
  exact Finmap.lookup_empty k

namespace Rootless

theorem root (h : Rootless s ms) : s.ilist.lookup 0 = none := h.inode 0

theorem number (h : Rootless s ms) (path : Str) : getInodeNumber path s = none := by
  rw [getInodeNumber, h.root]

theorem mem (h : Rootless s ms) {k : ℕ} : k ∈ s.ilist ↔ k ≠ 0 ∧ k ≤ ms.length := by
  rw [← Finmap.lookup_isSome, h.inode]
  split_ifs with h0
  · simp [h0]
  · rw [Option.isSome_map, isSome_getElem?]
    omega

theorem max (h : Rootless s ms) : maxInode s = ms.length := by
  apply le_antisymm
  · apply Finset.sup_le
    intro k hk
    obtain ⟨h0,hle⟩ := h.mem.mp (Finmap.mem_keys.mp hk)
    rw [h.inode, if_neg h0]
    cases ms[k-1]? with
    | none => exact Nat.zero_le _
    | some mode => exact hle
  · rcases Nat.eq_zero_or_pos ms.length with h0 | hpos
    · omega
    have hlast : ms.length-1 < ms.length := Nat.sub_lt hpos Nat.one_pos
    have hin := h.inode ms.length
    rw [if_neg hpos.ne', List.getElem?_eq_getElem hlast, Option.map_some] at hin
    have hle := Finset.le_sup (f := fun k => (s.ilist.lookup k).elim 0 MyInode.iIno)
      (Finmap.mem_keys.mpr (mem_of_lookup hin))
    simp only [hin, Option.elim_some] at hle
    exact hle

theorem inodeInit (h : Rootless s ms) (mode : Mode) :
    Rootless (FuseCalls.inodeInit mode s).2 (ms++[mode]) := by
  have hnew : ms.length+1 ∉ s.ilist := by
    rw [h.mem]
    omega
  have hilist : (FuseCalls.inodeInit mode s).2.ilist = s.ilist.insert (ms.length+1)
      { iIno := ms.length+1, iMode := mode, node := ms.length } := by
    rw [FuseCalls.inodeInit, h.max, h.nodes, insertNew, if_neg hnew]
  refine ⟨fun k => ?_,h.closed,?_⟩
  · rw [hilist]
    rcases Nat.lt_trichotomy k (ms.length+1) with hlt | rfl | hgt
    · rw [Finmap.lookup_insert_of_ne _ hlt.ne, h.inode]
      split_ifs with h0
      · rfl
      · rw [List.getElem?_append_left (by omega)]
    · rw [Finmap.lookup_insert, if_neg (Nat.succ_ne_zero _), Nat.add_sub_cancel,
        List.getElem?_concat_length, Option.map_some]
    · rw [Finmap.lookup_insert_of_ne _ hgt.ne', h.inode, if_neg (by omega),
        if_neg (by omega), List.getElem?_eq_none (by omega),
        List.getElem?_eq_none (by rw [List.length_append, List.length_singleton]; omega)]
  · rw [List.length_append, ← h.nodes]
    rfl

theorem myMkdir (h : Rootless s ms) (path : Str) (mode : Mode) : FuseCalls.myMkdir path mode s =
    if (dirNames path).length = 1 then none else some (anErr, s) := by
  have hroot : ∀ f, modifyInode 0 f (FuseCalls.inodeInit mode s).2 = none := by
    intro f
    rw [modifyInode, (h.inodeInit mode).root]
    rfl
  rw [FuseCalls.myMkdir, h.number, Option.isSome_none, if_neg Bool.false_ne_true]
  by_cases hnil : dirNames path = []
  · rw [if_pos hnil, if_neg (by rw [hnil]; decide)]
  · rw [if_neg hnil]
    by_cases hone : (dirNames path).length = 1
    · simp only [if_pos hone, hroot, Option.map_none]
    · simp only [if_neg hone, h.number]

theorem myCreat (h : Rootless s ms) (path : Str) (mode : Mode) :
    FuseCalls.myCreat path mode s =
      if dirNames path = [] then none else some (anErr, (FuseCalls.inodeInit mode s).2) := by
  have hroot : 0 ∉ (FuseCalls.inodeInit mode s).2.ilist := by
    rw [← Finmap.lookup_eq_none]
    exact (h.inodeInit mode).root
  rw [FuseCalls.myCreat]
  simp only [if_pos hroot]

theorem answer (h : Rootless s ms) (c : FuseCall) :
    ∃ t, FuseCalls.answer c s = (reply c).map (fun r => (r, t)) ∧
      Rootless t (ms++newModes [c]) := by
  have hsame : newModes [c] = [] → Rootless s (ms++newModes [c]) := by
    intro hc
    rw [hc, List.append_nil]
    exact h
  cases c with
  | mkdir path mode =>
    refine ⟨s,?_,hsame rfl⟩
    rw [FuseCalls.answer, h.myMkdir, reply]
    split_ifs <;> rfl
  | creat path mode =>
    refine ⟨_,?_,h.inodeInit mode⟩
    rw [FuseCalls.answer, h.myCreat, reply]
    split_ifs <;> rfl
  | rmdir path =>
    refine ⟨s,?_,hsame rfl⟩
    simp only [FuseCalls.answer, myRmdir, h.number]
    rfl
  | chmod path mode =>
    refine ⟨s,?_,hsame rfl⟩
    simp only [FuseCalls.answer, myChmod, h.number]
    rfl
  | open1 path flags =>
    refine ⟨s,?_,hsame rfl⟩
    simp only [FuseCalls.answer, myOpen1, openWith, h.number]
    rfl
  | open2 path flags mode =>
    refine ⟨s,?_,hsame rfl⟩
    simp only [FuseCalls.answer, myOpen2, openWith, h.number]
    rfl
  | close fd =>
    refine ⟨s,?_,hsame rfl⟩
    rw [FuseCalls.answer, myClose, h.closed, if_neg Finmap.notMem_empty]
    rfl

theorem advance (h : Rootless s ms) (hm : FuseCalls.advance c s = some s') :
    Rootless s' (ms++newModes [c]) := by
  obtain ⟨t,hanswer,ht⟩ := h.answer c
  obtain ⟨x,hx,rfl⟩ := Option.map_eq_some_iff.mp hm
  rw [hanswer] at hx
  obtain ⟨r,-,rfl⟩ := Option.map_eq_some_iff.mp hx
  exact ht

theorem bbCreate (h : Rootless s ms) (rootdir path : Str) (mode : Mode) (errno : ℤ) :
    FuseMount.bbCreate rootdir path mode errno s =
      if (bbFullpath rootdir path).any (fun fpath => dirNames fpath ≠ []) = true then
        some ((-errno, 2^64-1), (FuseCalls.inodeInit mode s).2)
      else none := by
  rw [FuseMount.bbCreate]
  cases bbFullpath rootdir path with
  | none => rfl
  | some fpath =>
    by_cases hnil : dirNames fpath = []
    · simp [h.myCreat, hnil]
    · have hfd : anErr < 0 ∧ toU64 anErr = 2^64-1 := by decide
      simp only [h.myCreat, if_neg hnil, if_pos hfd.1, hfd.2, bbError]
      rw [Option.any_some, if_pos (decide_eq_true hnil)]

end Rootless

/-- Nothing is found, opened, read, written or renamed, and every call fails. -/
structure Lost (s : Fuse) (ms : List Mode) : Prop where
  table : Rootless s ms
  number : ∀ path, getInodeNumber path s = none
  replies : ∀ c, (answer c s).map Prod.fst = reply c
  renames : ∀ oldpath newpath, myRename oldpath newpath s = some (anErr, s)
  reads : ∀ fd count offset, myPread fd count offset s = some (anErr, none)
  writes : ∀ fd buf count offset, myPwrite fd buf count offset s = some (anErr, s)
  fstats : ∀ fd, myFstat fd s = some (anErr, none)
  lstats : ms.length < 2^64-1 → ∀ path, myLstat path s = none
  creates : ∀ rootdir path mode errno out s', bbCreate rootdir path mode errno s = some (out,s') →
    out = (-errno, 2^64-1)

theorem Rootless.lost (h : Rootless s ms) : Lost s ms where
  table := h
  number := h.number
  replies := by
    intro c
    obtain ⟨t,ht,-⟩ := h.answer c
    rw [ht]
    cases reply c <;> rfl
  renames := by
    intro oldpath newpath
    rw [myRename, h.number]
  reads := by
    intro fd count offset
    rw [myPread, h.closed, Finmap.lookup_empty]
  writes := by
    intro fd buf count offset
    rw [myPwrite, h.closed, Finmap.lookup_empty]
  fstats := by
    intro fd
    rw [myFstat, h.closed, Finmap.lookup_empty]
  lstats := by
    intro hlen path
    rw [myLstat, h.number, Option.getD_none, h.inode, if_neg (by decide),
      List.getElem?_eq_none (by omega)]
    rfl
  creates := by
    intro rootdir path mode errno out s' hout
    rw [h.bbCreate] at hout
    split_ifs at hout
    exact (Prod.mk.inj (Option.some.inj hout)).1.symm

theorem newModes_cons (c : FuseCall) (cs : List FuseCall) :
    newModes (c::cs) = newModes [c]++newModes cs := by
  cases c <;> rfl

theorem calls_rootless (h : Rootless s ms) (he : exec advance cs s = some s') :
    Rootless s' (ms++newModes cs) := by
  induction cs generalizing s ms with
  | nil =>
    rw [newModes, List.filterMap_nil, List.append_nil]
    exact Option.some.inj he ▸ h
  | cons c cs ih =>
    obtain ⟨t,hm,hrest⟩ := Option.bind_eq_some_iff.mp he
    rw [newModes_cons, ← List.append_assoc]
    exact ih (h.advance hm) hrest

theorem requests_rootless {qs : List Request} (h : Rootless s ms)
    (he : exec (mounted rootdir) qs s = some s') : Rootless s' (ms++qs.map Request.mode) := by
  induction qs generalizing s ms with
  | nil =>
    rw [List.map_nil, List.append_nil]
    exact Option.some.inj he ▸ h
  | cons q qs ih =>
    obtain ⟨t,hm,hrest⟩ := Option.bind_eq_some_iff.mp he
    rw [mounted, h.bbCreate] at hm
    split_ifs at hm
    · obtain rfl := Option.some.inj hm
      have hnext := ih (h.inodeInit q.mode) hrest
      rwa [List.append_assoc, List.singleton_append, ← List.map_cons] at hnext
    · exact absurd hm.symm (Option.some_ne_none _)

/-- However the program goes on from its empty tables, by calls or by what the
mount is asked to create, it holds one inode without a name for each file made,
and every further call fails; `bb_create` returns what `errno` happens to be. -/
theorem tables_stay_rootless :
    (∀ cs s, exec advance cs unfilled = some s → Lost s (newModes cs)) ∧
      ∀ rootdir qs s, exec (mounted rootdir) qs unfilled = some s → Lost s (qs.map Request.mode) :=
  ⟨fun _ _ he => (calls_rootless unfilled_rootless he).lost,
    fun _ _ _ he => (requests_rootless unfilled_rootless he).lost⟩

theorem tables_stay_rootless_run : ∃ s,
    exec (mounted ['/','r']) [⟨['/','f'],0o644#32,0⟩,⟨['/','g'],0o600#32,0⟩] unfilled = some s ∧
      s.ilist.lookup 2 = some { iIno := 2, iMode := 0o600#32, node := 1 } ∧
      getInodeNumber ['/','r','/','g'] s = none := by
  obtain ⟨s,hs⟩ : ∃ s, exec (mounted ['/','r'])
      [⟨['/','f'],0o644#32,0⟩,⟨['/','g'],0o600#32,0⟩] unfilled = some s :=
    Option.isSome_iff_exists.mp (by decide)
  have hlost := tables_stay_rootless.2 _ _ _ hs
  exact ⟨s,hs,hlost.table.inode 2,hlost.number _⟩

end Bbfs.FuseMount
