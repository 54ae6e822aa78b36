import Bbfs.FuseBytes

/-!
# Descriptors of the FUSE variant

`my_fstat` goes through the pointer of the open file, `my_lstat` through the path.
As long as no open directory is removed, a descriptor stays with the inode that was
opened and shows what the paths to it show, whatever is made, changed, opened or
closed in between.
-/

set_option autoImplicit false

namespace Bbfs.FuseStat
open Bbfs.Strings Bbfs.Files Bbfs.FuseCalls Bbfs.FuseTable Bbfs.FuseOpen Bbfs.FuseBytes Bbfs.Runs

def myFstat (fd : ℤ) (s : Fuse) : Option (ℤ × Option (ℕ × Mode)) :=
  match s.openFT.lookup (toU64 fd) with
  | none => some (anErr, none)
  | some fi =>
    match deref s.ilist fi.fInode with
    | none => none
    | some (_, i) => some (ok, some (i.iIno, i.iMode))

/-- Where it fills in the stat it ends without a value to return. -/
def myLstat (path : Str) (s : Fuse) : Option (ℕ × Mode) :=
  match s.ilist.lookup ((getInodeNumber path s).getD (2^64-1)) with
  | none => none
  | some tempInode => some (tempInode.iIno, tempInode.iMode)

variable {s s' t : Fuse} {c : FuseCall} {f : MyFile} {k fd : ℕ} {path : Str}

def PointsTo (s : Fuse) (fd k : ℕ) : Prop :=
  ∃ f, s.openFT.lookup fd = some f ∧ nodeAt s.ilist k = some f.fInode

def Leaves (fd : ℕ) (c : FuseCall) : Prop := ∀ d, c = .close d → toU64 d ≠ fd

theorem notMem_maxFd (hs : Settled s) : maxFd s+1 ∉ s.openFT := by
  intro hmem
  obtain ⟨e,he⟩ := Finmap.mem_iff.mp hmem
  have hle := le_maxFd hs.desc he
  omega

theorem lookup_kept (hs : Settled s) (hm : Move s c s') (hl : Leaves fd c)
    (h : s.openFT.lookup fd = some f) : s'.openFT.lookup fd = some f := by
  cases hm with
  | idle => exact h
  | remode => exact h
  | added => exact h
  | named hc hp hmod =>
    obtain ⟨i,-,rfl⟩ := modifyInode_some hmod
    exact h
  | removed => exact h
  | opened hc hi =>
    have hne : fd ≠ maxFd s+1 := by
      have hle := le_maxFd hs.desc h
      omega
    simp only [fileInit, insertNew, if_neg (notMem_maxFd hs)]
    rw [Finmap.lookup_insert_of_ne _ hne, h]
  | @closed d =>
    have hne : fd ≠ toU64 d := (hl d rfl).symm
    change (s.openFT.erase (toU64 d)).lookup fd = some f
    rw [Finmap.lookup_erase_ne hne, h]

theorem nodeAt_kept (hs : Settled s) (hm : Move s c s') (hc : Spares c s) (h : PointsTo s fd k) :
    nodeAt s'.ilist k = nodeAt s.ilist k := by
  obtain ⟨f,hf,hk⟩ := h
  cases move_shifts hs.table hm with
  | still _ hn => rw [hn]
  | grown _ hn =>
    have hne : k ≠ maxInode s+1 := by
      rintro rfl
      obtain ⟨i,hi,-⟩ := Option.map_eq_some_iff.mp hk
      exact next_notMem hs.table (mem_of_lookup hi)
    rw [hn, Function.update_of_ne hne]
  | shrunk pathname j hcall hj hn =>
    subst hcall
    have hne : k ≠ j := by
      rintro rfl
      apply hc k hj.1 hj
      exact ⟨fd,Finmap.mem_keys.mpr (Finmap.mem_of_lookup_eq_some hf),by rw [hf, Option.map_some, hk]⟩
    rw [hn, Function.update_of_ne hne]
  | opened _ _ hi => rw [hi]
  | closed _ _ hi => rw [hi]

theorem pointsTo_step (hs : Settled s) (hm : Move s c s') (hc : Spares c s) (hl : Leaves fd c)
    (h : PointsTo s fd k) : PointsTo s' fd k := by
  have hnode := nodeAt_kept hs hm hc h
  obtain ⟨f,hf,hk⟩ := h
  exact ⟨f,lookup_kept hs hm hl hf,hnode.trans hk⟩

def opens : FuseCall → Option Str
  | .open1 path _ | .open2 path _ _ => some path
  | _ => none

theorem pointsTo_opened {r : ℤ} (hs : Settled s) (ho : opens c = some path)
    (hr : answer c s = some (r,s')) (hne : r ≠ anErr) :
    r = toInt32 ((maxFd s+1:ℕ):ℤ) ∧ ∃ k, getInodeNumber path s = some k ∧
      PointsTo s' (maxFd s+1) k := by
  have hwith : ∃ mode flags, openWith mode path flags s = (r,s') := by
    cases c with
    | open1 p flags =>
      obtain rfl := Option.some.inj ho
      exact ⟨_,_,Option.some.inj hr⟩
    | open2 p flags mode =>
      obtain rfl := Option.some.inj ho
      exact ⟨_,_,Option.some.inj hr⟩
    | _ => exact nomatch ho
  obtain ⟨mode,flags,hwith⟩ := hwith
  rw [openWith] at hwith
  split at hwith
  · exact absurd (Prod.mk.inj hwith).1.symm hne
  next k hk =>
    split at hwith
    · exact absurd (Prod.mk.inj hwith).1.symm hne
    next i hi =>
      obtain ⟨rfl,rfl⟩ := Prod.mk.inj hwith
      refine ⟨rfl,k,hk,⟨maxFd s+1,mode,0,flags,0,i.node⟩,?_,?_⟩
      · simp only [insertNew, if_neg (notMem_maxFd hs)]
        exact Finmap.lookup_insert _
      · exact congrArg (Option.map MyInode.node) hi

theorem myFstat_points (hs : Settled s) {d : ℤ} (h : PointsTo s (toU64 d) k) :
    ∃ m, myFstat d s = some (ok, some (k,m)) ∧
      ∀ p, getInodeNumber p s = some k → myLstat p s = some (k,m) := by
  obtain ⟨f,hf,hk⟩ := h
  obtain ⟨i,hi⟩ := deref_held hk (fun k' hk' => hs.apart k' k _ hk' hk)
  have hlookup := (deref_some.mp hi).2
  have hino := hs.table.number k i hlookup
  refine ⟨i.iMode,?_,fun p hp => ?_⟩
  · simp only [myFstat, hf, hi, hino]
  · have hnum : (getInodeNumber p s).getD (2^64-1) = k := by rw [hp, Option.getD_some]
    rw [myLstat, hnum, hlookup]
    simp only [hino]

theorem reaches_settled {cond : FuseCall → Fuse → Prop} (h : Reaches advance cond s t)
    (hs : Settled s) : Settled t :=
  h.invariant hs (fun _ _ _ ht _ hm => settled_step ht (advance_some ht.table hm))

/-- From any state of any run, an open that succeeds gives a descriptor that was
not in use. After any calls that do not close it and remove no open directory, its
stat is filled in with the number of the inode that was opened, and with the mode
that `my_lstat` finds by any path that leads there then. -/
theorem descriptor_keeps_inode {rootMode : Mode} {r : ℤ}
    (h : Reaches advance (fun _ _ => True) (rootOnly rootMode) s) (ho : opens c = some path)
    (hr : answer c s = some (r,s')) (hne : r ≠ anErr) (hfit : maxFd s+1 < 2^31)
    (hrun : Reaches advance (fun c t => Spares c t ∧ Leaves (toU64 r) c) s' t) :
    toU64 r ∉ s.openFT ∧ ∃ k m, getInodeNumber path s = some k ∧
      myFstat r t = some (ok, some (k,m)) ∧
      ∀ p, getInodeNumber p t = some k → myLstat p t = some (k,m) := by
  have hs := reaches_settled h (rootOnly_settled rootMode)
  obtain ⟨hfd,k,hk,hpoints⟩ := pointsTo_opened hs ho hr hne
  have hu : toU64 r = maxFd s+1 := by rw [hfd, toU64_count hfit]
  have hs' : Settled s' := by
    refine settled_step hs (advance_some hs.table (c := c) ?_)
    rw [advance, hr, Option.map_some]
  have hboth : Settled t ∧ PointsTo t (toU64 r) k := by
    have hstep : ∀ c t t', Settled t ∧ PointsTo t (toU64 r) k →
        Spares c t ∧ Leaves (toU64 r) c → advance c t = some t' →
        Settled t' ∧ PointsTo t' (toU64 r) k := by
      rintro c t t' ⟨ht,hp⟩ ⟨hspares,hleaves⟩ hm
      have hmove := advance_some ht.table hm
      exact ⟨settled_step ht hmove,pointsTo_step ht hmove hspares hleaves hp⟩
    exact hrun.invariant ⟨hs',hu.symm ▸ hpoints⟩ hstep
  obtain ⟨m,hfstat,hlstat⟩ := myFstat_points hboth.1 hboth.2
  exact ⟨hu.symm ▸ notMem_maxFd hs,k,m,hk,hfstat,hlstat⟩

def openedCalls : List FuseCall :=
  [.mkdir ['/','a'] 0o755#32,.creat ['/','a','/','f'] 0o644#32]

def heldCalls : List FuseCall := [.chmod ['/','a','/','f'] 0o600#32,.mkdir ['/','b'] 0o755#32]

theorem descriptor_keeps_inode_run : ∃ s r s' t,
    exec advance openedCalls (rootOnly 0o755#32) = some s ∧
      answer (.open1 ['/','a','/','f'] 0) s = some (r,s') ∧ exec advance heldCalls s' = some t ∧
      ∃ k m, myFstat r t = some (ok, some (k,m)) ∧
        ∀ p, getInodeNumber p t = some k → myLstat p t = some (k,m) := by
  refine ⟨_,_,_,_,rfl,rfl,rfl,?_⟩
  have hbefore : Reaches advance (fun _ _ => True) (rootOnly 0o755#32) _ :=
    reaches_of_exec openedCalls (meets_of_forall (fun _ _ => trivial) _ _) rfl
  obtain ⟨-,k,m,-,hstat⟩ := descriptor_keeps_inode (c := .open1 ['/','a','/','f'] 0) hbefore rfl rfl
    (by decide +kernel) (by decide +kernel) (reaches_of_exec heldCalls
      ⟨⟨trivial,nofun⟩,⟨trivial,nofun⟩,trivial⟩ rfl)
  exact ⟨k,m,hstat⟩

end Bbfs.FuseStat
