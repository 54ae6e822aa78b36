import Bbfs.Session
import Bbfs.Walks

/-!
# What a call can do

`Settled` collects the facts about numbers that every call relies on. In a
settled state a call does one of the things listed by `Effect`, with its
return value and the guards it passed; the invariants are derived from that
list and do not open the calls again. The keys of the table are given up to
the sentinel 0.
-/

set_option autoImplicit false

namespace Bbfs.Effects
open Bbfs.Strings Bbfs.Files Bbfs.Resolve Bbfs.Calls Bbfs.Session Bbfs.Walks

/-- The counter is above every stored number, the file at a number not yet
given out is blank, and handle 0 is no file type. -/
structure Numbers (v : View) (n : ℕ) : Prop where
  bounded : ∀ k, ∀ d ∈ (v k).dentries, d.dIno < n ∨ d.dIno = errIno
  spare : ∀ k, n ≤ k → k ≠ errIno → (v k).dentries = [] ∧ typeBits (v k).metadata.stMode = 0
  numbered : ∀ k, (v k).metadata.stIno = 0 ∨ (v k).metadata.stIno = k ∧ k < n
  sentinel : typeBits (v 0).metadata.stMode = 0
  slashFree : ∀ k, ∀ d ∈ (v k).dentries, '/' ∉ d.dName

structure Settled (s : Fs) : Prop extends Numbers s.file s.count where
  started : s.firstTime = false
  low : 3 ≤ s.count
  high : s.count ≤ 2^31

theorem untyped {f : File} (h : typeBits f.metadata.stMode = 0) :
    f.isDir = false ∧ f.isReg = false ∧ f.isLnk = false := by
  simp only [File.isDir, File.isReg, File.isLnk, S_ISDIR_eq, S_ISREG_eq, S_ISLNK_eq, h]
  decide

theorem Settled.fresh {s : Fs} (h : Settled s) : Fresh s.file s.count where
  ne_zero := by
    have := h.low
    omega
  ne_root := by
    have := h.low
    omega
  ne_err := by
    have := h.high
    simp only [errIno]
    omega
  unnamed := by
    intro k d hd he
    rcases h.bounded k d hd with hb | hb
    · omega
    · have := h.high
      simp only [he, errIno] at hb
      omega

theorem Numbers.resolve_lt {v : View} {n : ℕ} (h : Numbers v n) (hl : 3 ≤ n) (path : Str) :
    resolve v path < n ∨ resolve v path = errIno := by
  rcases resolve_origin (v := v) path with he | h0 | h2 | ⟨k,-,d,hd,hi⟩
  · exact Or.inr he
  · exact Or.inl (by omega)
  · exact Or.inl (by omega)
  · rw [← hi]
    exact h.bounded k d hd

/-- The guards a namespace call passes before it edits an entry. -/
def Proceeds (v : View) : Call → Prop
  | .mknod path _ _ | .mkdir path _ => resolve v (parentPath path) ≠ 0 ∧ resolve v path = 0
  | .creat path _ | .symlink _ path =>
    ¬ IsDots (tail path) ∧ resolve v (parentPath path) ≠ 0 ∧ resolve v path = 0
  | .link path newpath => resolve v path ≠ 0 ∧ (v (resolve v path)).isReg = true ∧
    resolve v (parentPath newpath) ≠ 0 ∧ resolve v newpath = 0
  | .unlink path => resolve v path ≠ 0 ∧ ¬ IsDots (tail path)
  | .rmdir path => (v (resolve v path)).isDir = true ∧ (v (resolve v path)).dentries.length ≤ 2
  | .rename path _ => ¬ IsDots (tail path)
  | _ => False

instance (v : View) (c : Call) : Decidable (Proceeds v c) := by
  induction c using Call.casesOn <;> unfold Proceeds <;> infer_instance

theorem not_proceeds {c : Call} (h : c.edits = false) (v : View) : ¬ Proceeds v c := by
  cases c <;> first | exact id | simp [Call.edits, Call.isNamespace] at h

def Takes (v : View) : Call → Prop
  | .mknod .. | .mkdir .. => True
  | .creat path _ => ¬ IsDots (tail path)
  | .symlink _ path => ¬ IsDots (tail path) ∧ resolve v path = 0
  | _ => False

def mknodTouches (v : View) (path : Str) : List ℕ :=
  real v (parentPath path) :: if resolve v (parentPath path) = 0 then [] else
    real v path :: if resolve v path ≠ 0 then [] else [resolve v (parentPath path)]

/-- The keys a call inserts, apart from 0 and the number of a new file. -/
def touches (v : View) : Call → List ℕ
  | .mknod path _ _ | .mkdir path _ => mknodTouches v path
  | .creat path _ => if IsDots (tail path) then [] else mknodTouches v path
  | .symlink _ path => if IsDots (tail path) then [] else
    real v path :: if resolve v path ≠ 0 then [] else mknodTouches v path
  | .link path newpath => real v path :: if resolve v path = 0 then [] else
    resolve v path :: if (v (resolve v path)).isReg = false then [] else
    real v (parentPath newpath) :: if resolve v (parentPath newpath) = 0 then [] else
    real v newpath :: if resolve v newpath ≠ 0 then [] else [resolve v (parentPath newpath)]
  | .unlink path => real v path :: resolve v path ::
    if resolve v path = 0 ∨ IsDots (tail path) then [] else
      [real v (parentPath path),resolve v (parentPath path)]
  | .rmdir path => real v path :: resolve v path ::
    if (v (resolve v path)).isDir = false ∨ (v (resolve v path)).dentries.length > 2 then [] else
      [real v (parentPath path),resolve v (parentPath path)]
  | .rename path newpath => real v path :: real v (parentPath path) ::
    if IsDots (tail path) then [] else [real v (parentPath newpath),
      resolve v (parentPath newpath),resolve v (parentPath path)]
  | .access path _ | .statvfs path _ | .readlink path _ | .lsetxattr path _ _
  | .lgetxattr path _ _ | .llistxattr path _ => [real v path]
  | .chmod path _ | .chown path _ _ | .openFile path _ | .lremovexattr path _ | .opendir path =>
    [real v path,resolve v path]
  | .utime path ubuf => if ubuf.isNone then [] else [real v path,resolve v path]
  | .truncate path newsize => if newsize < 0 then [] else [real v path,resolve v path]
  | .close fh | .pread fh _ _ | .pwrite fh _ _ _ => [fh]
  | .ftruncate fh offset => if offset < 0 then [] else [fh]
  | .lstat _ | .fstat _ | .fdatasync _ | .fsync _ => []

/-- Two sets of keys that agree except at 0. -/
def SameKeys (K K' : Set ℕ) : Prop := ∀ k, k ≠ 0 → (k ∈ K ↔ k ∈ K')

def touched (v : View) (K : Set ℕ) (c : Call) : Set ℕ := {k | k ∈ K ∨ k ∈ touches v c}

structure NewFile (n : ℕ) (kind : Mode) (f : File) : Prop where
  ino : f.metadata.stIno = n
  nlink : f.metadata.stNlink = 1
  type : typeBits f.metadata.stMode = kind

def dotEntries (n P : ℕ) (f : File) : List Dirent :=
  if f.isDir then [⟨dot,n⟩,⟨dotdot,P⟩] else []

def enterView (v : View) (n P : ℕ) (name : Str) (f : File) : View :=
  put (Function.update v n f) P (File.push ⟨name,n⟩)

def linkView (v : View) (P : ℕ) (name : Str) (fh : ℕ) : View :=
  put (put v fh (File.setStat incNlink)) P (File.push ⟨name,fh⟩)

def LastLink (v : View) (fh : ℕ) : Prop := decrement (v fh).metadata.stNlink = 0

instance (v : View) (fh : ℕ) : Decidable (LastLink v fh) := inferInstanceAs (Decidable (_ = _))

theorem lastLink_iff {v : View} {fh : ℕ} : LastLink v fh ↔ (v fh).metadata.stNlink = 1 := by
  unfold LastLink decrement
  by_cases h : (v fh).metadata.stNlink = 0
  · rw [if_pos h, h]
    decide
  · rw [if_neg h]
    omega

theorem mem_of_lastLink {s : Fs} {k : ℕ} (h : LastLink s.file k) : k ∈ s.entry := by
  apply mem_of_ne_default
  intro hd
  rw [lastLink_iff, hd] at h
  exact absurd h (by decide)

def dropLink (v : View) (fh : ℕ) : View :=
  if LastLink v fh then Function.update v fh default else put v fh (File.setStat decNlink)

theorem dropLink_of_ne (v : View) {i fh : ℕ} (h : i ≠ fh) : dropLink v fh i = v i := by
  unfold dropLink
  split_ifs
  · exact Function.update_of_ne h _ v
  · exact put_of_ne v _ h

def dropKey (v : View) (fh : ℕ) (K : Set ℕ) : Set ℕ := {k | k ∈ K ∧ ¬ (k = fh ∧ LastLink v fh)}

theorem mem_dropKey {v : View} {fh k : ℕ} {K : Set ℕ} :
    k ∈ dropKey v fh K ↔ k ∈ K ∧ ¬ (k = fh ∧ LastLink v fh) := Iff.rfl

def unlinkView (v : View) (P : ℕ) (name : Str) (fh : ℕ) : View :=
  dropLink (put v P (File.dropNamed name)) fh

def rmdirView (v : View) (P fh : ℕ) : View :=
  if LastLink v fh then Function.update (put v P (File.dropIno fh)) fh default
  else put v P (File.dropIno fh)

theorem lastLink_put {v : View} {k fh : ℕ} {g : File → File}
    (hg : ∀ f, (g f).metadata.stNlink = f.metadata.stNlink) :
    LastLink (put v k g) fh ↔ LastLink v fh := by
  unfold LastLink
  by_cases h : fh = k
  · rw [h, put_self, hg]
  · rw [put_of_ne v g h]

theorem lastLink_dropNamed (v : View) (P : ℕ) (name : Str) (fh : ℕ) :
    LastLink (put v P (File.dropNamed name)) fh ↔ LastLink v fh :=
  lastLink_put (File.dropNamed_nlink name)

/-- Whether the file goes can be read off before the entry is dropped. -/
theorem unlinkView_eq (v : View) (P : ℕ) (name : Str) (fh : ℕ) :
    unlinkView v P name fh =
      if LastLink v fh then Function.update (put v P (File.dropNamed name)) fh default
      else put (put v P (File.dropNamed name)) fh (File.setStat decNlink) := by
  rw [unlinkView, dropLink]
  exact if_congr (lastLink_dropNamed v P name fh) rfl rfl

theorem lastLink_inc {v : View} {k : ℕ} :
    LastLink (put v k (File.setStat incNlink)) k ↔ (v k).metadata.stNlink = 0 := by
  rw [LastLink, put_self, File.setStat_metadata, incNlink, decrement_succ]

/-- What is left of the entries once `my_rename` has removed the entry in the
way and the old entry. -/
def clearView (v : View) (P Q : ℕ) (name newname : Str) : View :=
  put (if nameIn v newname Q ≠ 0 then put v Q (File.dropNamed newname) else v) P
    (File.dropNamed name)

def renameView (v : View) (P Q : ℕ) (name newname : Str) (fh : ℕ) : View :=
  put (clearView v P Q name newname) Q (File.push ⟨newname,fh⟩)

def chmodStat (mode : Mode) (f : File) : File :=
  f.setStat (fun m => { m with stMode := if f.isDir then mode ||| S_IFDIR else mode })

theorem chmodStat_isDir {mode : Mode} (hm : typeBits mode = 0) (f : File) :
    (chmodStat mode f).isDir = f.isDir := by
  unfold chmodStat
  by_cases hd : f.isDir = true
  · rw [hd, File.isDir, File.setStat_metadata, if_pos rfl, S_ISDIR_eq, typeBits_or, hm]
    decide
  · rw [Bool.not_eq_true] at hd
    rw [hd, File.isDir, File.setStat_metadata, S_ISDIR_eq]
    simp only [Bool.false_eq_true, if_false, hm]
    decide

/-- A change that leaves alone everything the name space depends on. -/
structure Keeps (g : File → File) : Prop where
  dentries : ∀ f, (g f).dentries = f.dentries
  stIno : ∀ f, (g f).metadata.stIno = f.metadata.stIno
  stMode : ∀ f, (g f).metadata.stMode = f.metadata.stMode
  stNlink : ∀ f, (g f).metadata.stNlink = f.metadata.stNlink

theorem keeps_stored (data str : Str) : Keeps (stored data str) :=
  ⟨fun _ => rfl,fun _ => rfl,fun _ => rfl,fun _ => rfl⟩

structure SameNames (f f' : File) : Prop where
  dentries : f'.dentries = f.dentries
  stIno : f'.metadata.stIno = f.metadata.stIno
  stMode : f'.metadata.stMode = f.metadata.stMode
  stNlink : f'.metadata.stNlink = f.metadata.stNlink

theorem Keeps.put {g : File → File} (h : Keeps g) (v : View) (k i : ℕ) :
    SameNames (v i) (put v k g i) := by
  by_cases hi : i = k
  · subst hi
    rw [put_self]
    exact ⟨h.dentries _,h.stIno _,h.stMode _,h.stNlink _⟩
  · rw [put_of_ne _ _ hi]
    exact ⟨rfl,rfl,rfl,rfl⟩

theorem SameNames.isDir {f f' : File} (h : SameNames f f') : f'.isDir = f.isDir := by
  rw [File.isDir, h.stMode, File.isDir]

theorem SameNames.isReg {f f' : File} (h : SameNames f f') : f'.isReg = f.isReg := by
  rw [File.isReg, h.stMode, File.isReg]

theorem SameNames.isLnk {f f' : File} (h : SameNames f f') : f'.isLnk = f.isLnk := by
  rw [File.isLnk, h.stMode, File.isLnk]

inductive Effect (v : View) (K : Set ℕ) (n : ℕ) : Call → ℤ → View → Set ℕ → ℕ → Prop
  | idle {c : Call} {r : ℤ} {K' : Set ℕ} (stopped : ¬ Proceeds v c)
      (unspent : ¬ Takes v c) (keys : SameKeys (touched v K c) K') : Effect v K n c r v K' n
  | leaked {c : Call} {K' : Set ℕ} (f : File) (create : c.created.isSome)
      (spent : Takes v c) (stopped : ¬ Proceeds v c) (new : NewFile n (c.makes anErr) f)
      (empty : f.dentries = [])
      (keys : SameKeys (insert n (touched v K c)) K') :
      Effect v K n c anErr (Function.update v n f) K' (n+1)
  | entered {c : Call} {r : ℤ} {K' : Set ℕ} (path : Str) (f : File) (create : c.created = some path)
      (spent : Takes v c) (go : Proceeds v c) (new : NewFile n (c.makes r) f)
      (dots : f.dentries = dotEntries n (resolve v (parentPath path)) f)
      (keys : SameKeys (insert n (touched v K c)) K') :
      Effect v K n c r (enterView v n (resolve v (parentPath path)) (tail path) f) K' (n+1)
  | linked (path newpath : Str) {K' : Set ℕ} (go : Proceeds v (.link path newpath))
      (keys : SameKeys (touched v K (.link path newpath)) K') :
      Effect v K n (.link path newpath) ok
        (linkView v (resolve v (parentPath newpath)) (tail newpath) (resolve v path)) K' n
  | unlinked (path : Str) {K' : Set ℕ} (go : Proceeds v (.unlink path))
      (keys : SameKeys (dropKey v (resolve v path) (touched v K (.unlink path))) K') :
      Effect v K n (.unlink path) ok
        (unlinkView v (resolve v (parentPath path)) (tail path) (resolve v path)) K' n
  | removed (path : Str) {K' : Set ℕ} (go : Proceeds v (.rmdir path))
      (keys : SameKeys (dropKey v (resolve v path) (touched v K (.rmdir path))) K') :
      Effect v K n (.rmdir path) ok
        (rmdirView v (resolve v (parentPath path)) (resolve v path)) K' n
  | renamed (path newpath : Str) {K' : Set ℕ} (go : Proceeds v (.rename path newpath))
      (keys : SameKeys (touched v K (.rename path newpath)) K') :
      Effect v K n (.rename path newpath) ok
        (renameView v (resolve v (parentPath path)) (resolve v (parentPath newpath)) (tail path)
          (tail newpath) (resolve v path)) K' n
  | retyped (path : Str) (mode : Mode) {K' : Set ℕ} (source : resolve v path ≠ 0)
      (keys : SameKeys (touched v K (.chmod path mode)) K') :
      Effect v K n (.chmod path mode) ok (put v (resolve v path) (chmodStat mode)) K' n
  | opened {r : ℤ} {K' : Set ℕ} (path : Str) (flags : ℕ)
      (keys : SameKeys (touched v K (.openFile path flags)) K') :
      Effect v K n (.openFile path flags) r (put v (resolve v path) (File.setStat incNlink)) K' n
  | closed (fh : ℕ) {K' : Set ℕ} (source : fh ≠ 0)
      (keys : SameKeys (dropKey v fh (touched v K (.close fh))) K') :
      Effect v K n (.close fh) ok (dropLink v fh) K' n
  | written (fh : ℕ) (buf : Str) (size : ℕ) (offset : ℤ) (data : Str) {K' : Set ℕ}
      (source : fh ≠ 0) (reg : (v fh).isReg = true)
      (keys : SameKeys (touched v K (.pwrite fh buf size offset)) K') :
      Effect v K n (.pwrite fh buf size offset) (toInt32 (cstr buf).length)
        (put v fh (stored data (cstr buf))) K' n
  | patched {c : Call} {K' : Set ℕ} (k : ℕ) (g : File → File) (keeps : Keeps g)
      (other : c.edits = false) (source : k ≠ 0) (keys : SameKeys (touched v K c) K') :
      Effect v K n c ok (put v k g) K' n

theorem Effect.enters {v w : View} {K K' : Set ℕ} {n n' : ℕ} {c : Call} {r : ℤ} {path : Str}
    (he : Effect v K n c r w K' n') (create : c.created = some path) (go : Proceeds v c) :
    ∃ f, NewFile n (c.makes r) f ∧
      w = enterView v n (resolve v (parentPath path)) (tail path) f := by
  cases he with
  | idle stopped => exact absurd go stopped
  | leaked f made spent stopped => exact absurd go stopped
  | entered p f made spent _ new =>
    obtain rfl := Option.some.inj (made.symm.trans create)
    exact ⟨f,new,rfl⟩
  | patched k g keeps other => exact absurd go (not_proceeds other v)
  | _ => simp [Call.created] at create

section
variable {v w : View} {K K' : Set ℕ} {n n' fh : ℕ} {r : ℤ} {path newpath : Str}

theorem Effect.link (he : Effect v K n (.link path newpath) r w K' n') :
    SameKeys (touched v K (.link path newpath)) K' ∧
      (¬ Proceeds v (.link path newpath) ∧ w = v ∨ Proceeds v (.link path newpath) ∧
        w = linkView v (resolve v (parentPath newpath)) (tail newpath) (resolve v path)) := by
  cases he with
  | idle stopped _ keys => exact ⟨keys,Or.inl ⟨stopped,rfl⟩⟩
  | leaked f create => simp [Call.created] at create
  | entered p f create => simp [Call.created] at create
  | linked _ _ go keys => exact ⟨keys,Or.inr ⟨go,rfl⟩⟩
  | patched k g keeps other => simp [Call.edits, Call.isNamespace] at other

theorem Effect.unlink (he : Effect v K n (.unlink path) r w K' n') :
    ¬ Proceeds v (.unlink path) ∧ w = v ∧ SameKeys (touched v K (.unlink path)) K' ∨
      Proceeds v (.unlink path) ∧
        w = unlinkView v (resolve v (parentPath path)) (tail path) (resolve v path) ∧
        SameKeys (dropKey v (resolve v path) (touched v K (.unlink path))) K' := by
  cases he with
  | idle stopped _ keys => exact Or.inl ⟨stopped,rfl,keys⟩
  | leaked f create => simp [Call.created] at create
  | entered p f create => simp [Call.created] at create
  | unlinked _ go keys => exact Or.inr ⟨go,rfl,keys⟩
  | patched k g keeps other => simp [Call.edits, Call.isNamespace] at other

theorem Effect.rmdir (he : Effect v K n (.rmdir path) r w K' n') :
    ¬ Proceeds v (.rmdir path) ∧ w = v ∧ SameKeys (touched v K (.rmdir path)) K' ∨
      Proceeds v (.rmdir path) ∧ w = rmdirView v (resolve v (parentPath path)) (resolve v path) ∧
        SameKeys (dropKey v (resolve v path) (touched v K (.rmdir path))) K' := by
  cases he with
  | idle stopped _ keys => exact Or.inl ⟨stopped,rfl,keys⟩
  | leaked f create => simp [Call.created] at create
  | entered p f create => simp [Call.created] at create
  | removed _ go keys => exact Or.inr ⟨go,rfl,keys⟩
  | patched k g keeps other => simp [Call.edits, Call.isNamespace] at other

theorem Effect.rename (he : Effect v K n (.rename path newpath) r w K' n')
    (go : Proceeds v (.rename path newpath)) :
    w = renameView v (resolve v (parentPath path)) (resolve v (parentPath newpath)) (tail path)
        (tail newpath) (resolve v path) ∧ SameKeys (touched v K (.rename path newpath)) K' := by
  cases he with
  | idle stopped => exact absurd go stopped
  | leaked f create => simp [Call.created] at create
  | entered p f create => simp [Call.created] at create
  | renamed _ _ _ keys => exact ⟨rfl,keys⟩
  | patched k g keeps other => simp [Call.edits, Call.isNamespace] at other

end

end Bbfs.Effects
