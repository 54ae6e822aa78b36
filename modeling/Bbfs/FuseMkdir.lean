import Bbfs.FuseTable

/-!
# Directories made and removed in the FUSE variant

`my_mkdir` appends a dirent for a new inode to the parent, so that every path
leads where it did and the new one to the new inode; `my_rmdir` takes both
back. The number of the inode is returned as an `int`.
-/

set_option autoImplicit false

namespace Bbfs.FuseMkdir
open Bbfs.Strings Bbfs.Files Bbfs.FuseCalls Bbfs.FuseTable Bbfs.Runs

variable {s s' : Fuse} {t t' : Table} {i j : MyInode} {k p q : ℕ} {names ws : List Str}
  {path : Str} {mode : Mode}

def Extends (t t' : Table) : Prop :=
  ∀ k i, t.lookup k = some i →
    ∃ j, t'.lookup k = some j ∧ j.iIno = i.iIno ∧ i.direntBuf <+: j.direntBuf

theorem find?_longer {α : Type} {f : α → Bool} {xs ys : List α} {a : α} (h : xs <+: ys)
    (ha : xs.find? f = some a) : ys.find? f = some a := by
  obtain ⟨zs,rfl⟩ := h
  rw [List.find?_append, ha]
  rfl

theorem getInodeLoop_extends (he : Extends t t') (hi : t.lookup p = some i)
    (hj : t'.lookup p = some j) (h : getInodeLoop t names i = some k) :
    getInodeLoop t' names j = some k := by
  obtain ⟨j',hj',hino,hpre⟩ := he p i hi
  obtain rfl := Option.some.inj (hj.symm.trans hj')
  induction names generalizing p i j with
  | nil =>
    rw [getInodeLoop] at h ⊢
    rw [hino]
    exact h
  | cons w ws ih =>
    obtain ⟨d,i',hd,hn,h⟩ := getInodeLoop_cons.mp h
    obtain ⟨j'',hj'',hino',hpre'⟩ := he d.dIno i' hn
    exact getInodeLoop_cons.mpr
      ⟨d,j'',find?_longer hpre hd,hj'',ih hn hj'' h hj'' hino' hpre'⟩

theorem getInodeNumber_extends (he : Extends s.ilist s'.ilist)
    (h : getInodeNumber path s = some k) : getInodeNumber path s' = some k := by
  cases hroot : s.ilist.lookup 0 with
  | none =>
    simp [getInodeNumber, hroot] at h
  | some root =>
    obtain ⟨root',hroot',-⟩ := he 0 root hroot
    rw [getInodeNumber_eq hroot] at h
    rw [getInodeNumber_eq hroot']
    exact getInodeLoop_extends he hroot hroot' h

theorem getInodeLoop_append (hn : ∀ k i, t.lookup k = some i → i.iIno = k)
    (hi : t.lookup p = some i) (h : getInodeLoop t names i = some q)
    (hj : t.lookup q = some j) : getInodeLoop t (names++ws) i = getInodeLoop t ws j := by
  induction names generalizing p i with
  | nil =>
    rw [getInodeLoop, hn p i hi] at h
    obtain rfl := Option.some.inj h
    obtain rfl := Option.some.inj (hi.symm.trans hj)
    rfl
  | cons w ws ih =>
    obtain ⟨d,i',hd,hl,h⟩ := getInodeLoop_cons.mp h
    rw [List.cons_append, getInodeLoop, hd]
    simp only [hl]
    exact ih hl h

theorem getInodeNumber_last (hn : ∀ k i, s.ilist.lookup k = some i → i.iIno = k)
    (hne : dirNames path ≠ [])
    (hq : getInodeNumber (FuseCalls.parentPath (dirNames path).dropLast) s = some q)
    (hj : s.ilist.lookup q = some j) :
    getInodeNumber path s = getInodeLoop s.ilist [(dirNames path).getLastD []] j := by
  cases hroot : s.ilist.lookup 0 with
  | none =>
    simp [getInodeNumber, hroot] at hq
  | some root =>
    rw [getInodeNumber_eq hroot, dirNames_parentPath (dirNames_pieces path).dropLast] at hq
    rw [getInodeNumber_eq hroot, ← getInodeLoop_append hn hroot hq hj, dropLast_getLastD hne]

def Makes (path : Str) (s : Fuse) : Prop :=
  getInodeNumber path s = none ∧ dirNames path ≠ [] ∧
    (getInodeNumber (FuseCalls.parentPath (dirNames path).dropLast) s).isSome = true

instance (path : Str) (s : Fuse) : Decidable (Makes path s) :=
  inferInstanceAs (Decidable (_ ∧ _ ∧ _))

def newInode (mode : Mode) (s : Fuse) : MyInode :=
  { iIno := maxInode s+1, iMode := mode, node := s.nodes }

def entered (mode : Mode) (s : Fuse) (q : ℕ) (i : MyInode) (name : Str) : Table :=
  (s.ilist.insert (maxInode s+1) (newInode mode s)).insert q (pushDirent ⟨maxInode s+1,name⟩ i)

def made (mode : Mode) (s : Fuse) (q : ℕ) (i : MyInode) (name : Str) : Fuse :=
  { s with ilist := entered mode s q i name, nodes := s.nodes+1 }

theorem entered_extends (hw : WellFormed s.ilist) (hi : s.ilist.lookup q = some i) (name : Str) :
    Extends s.ilist (entered mode s q i name) := by
  intro k i' hk
  by_cases hkq : k = q
  · subst hkq
    obtain rfl := Option.some.inj (hi.symm.trans hk)
    exact ⟨_,Finmap.lookup_insert _,rfl,List.prefix_append _ _⟩
  · have hkn : k ≠ maxInode s+1 := by
      rintro rfl
      exact next_notMem hw (mem_of_lookup hk)
    refine ⟨i',?_,rfl,List.prefix_rfl⟩
    rw [entered, Finmap.lookup_insert_of_ne _ hkq, Finmap.lookup_insert_of_ne _ hkn, hk]

theorem entered_lookup_new (hw : WellFormed s.ilist) (hi : s.ilist.lookup q = some i) (name : Str) :
    (entered mode s q i name).lookup (maxInode s+1) = some (newInode mode s) := by
  have hne : maxInode s+1 ≠ q := by
    rintro rfl
    exact next_notMem hw (mem_of_lookup hi)
  rw [entered, Finmap.lookup_insert_of_ne _ hne, Finmap.lookup_insert]

theorem entered_number (hw : WellFormed s.ilist) (hi : s.ilist.lookup q = some i) (name : Str) :
    ∀ k j, (entered mode s q i name).lookup k = some j → j.iIno = k := by
  have hnew : ∀ k j, (s.ilist.insert (maxInode s+1) (newInode mode s)).lookup k = some j →
      j.iIno = k := fun k j => lookup_number hw.number rfl
  exact fun k j => lookup_number hnew (hw.number q i hi)

theorem last_missing (hw : WellFormed s.ilist) (hne : dirNames path ≠ [])
    (hq : getInodeNumber (FuseCalls.parentPath (dirNames path).dropLast) s = some q)
    (hi : s.ilist.lookup q = some i) :
    getInodeNumber path s = none ↔
      i.direntBuf.find? (fun d => d.dName == (dirNames path).getLastD []) = none := by
  rw [getInodeNumber_last hw.number hne hq hi, getInodeLoop]
  cases hd : i.direntBuf.find? (fun d => d.dName == (dirNames path).getLastD []) with
  | none => simp
  | some d =>
    have hmem : d ∈ dirents s.ilist q := by
      rw [dirents_of_lookup hi]
      exact List.mem_of_find?_eq_some hd
    obtain ⟨j,hj⟩ := Finmap.mem_iff.mp (hw.ahead q d hmem).1
    simp [hj, getInodeLoop]

theorem myMkdir_makes (hw : WellFormed s.ilist) (mode : Mode) (h : Makes path s) :
    ∃ q i, getInodeNumber (FuseCalls.parentPath (dirNames path).dropLast) s = some q ∧
      s.ilist.lookup q = some i ∧
      i.direntBuf.find? (fun d => d.dName == (dirNames path).getLastD []) = none ∧
      myMkdir path mode s = some (toInt32 ((maxInode s+1:ℕ):ℤ),
        made mode s q i ((dirNames path).getLastD [])) := by
  obtain ⟨hnone,hne,hsome⟩ := h
  obtain ⟨q,hq⟩ := Option.isSome_iff_exists.mp hsome
  obtain ⟨i,hi⟩ := Finmap.mem_iff.mp (getInodeNumber_mem hw hq)
  refine ⟨q,i,hq,hi,(last_missing hw hne hq hi).mp hnone,?_⟩
  -- a single piece has the empty parent path, which leads to the root
  have hparent : (if (dirNames path).length = 1 then some 0 else
      getInodeNumber (FuseCalls.parentPath (dirNames path).dropLast) s) = some q := by
    split_ifs with hone
    · obtain ⟨w,hw1⟩ := List.length_eq_one_iff.mp hone
      obtain ⟨root,hroot⟩ := hw.lookup_root
      rw [← hq, hw1, getInodeNumber_eq hroot]
      exact congrArg some (hw.number 0 root hroot).symm
    · exact hq
  have hnew : (inodeInit mode s).2.ilist.lookup q = some i :=
    (inodeInit_lookup hw mode (mem_of_lookup hi)).trans hi
  have hmodify : modifyInode q (pushDirent ⟨(inodeInit mode s).1,(dirNames path).getLastD []⟩)
      (inodeInit mode s).2 = some (made mode s q i ((dirNames path).getLastD [])) := by
    rw [modifyInode, hnew, inodeInit_ilist hw]
    rfl
  simp only [myMkdir, hnone, Option.isSome_none, Bool.false_eq_true, if_false, hne, hparent,
    hmodify, Option.map_some]
  rfl

theorem myMkdir_refuses (hw : WellFormed s.ilist) (mode : Mode) (h : ¬ Makes path s) :
    myMkdir path mode s = some (anErr,s) := by
  simp only [myMkdir]
  split_ifs with hthere hempty hone
  · rfl
  · rfl
  · obtain ⟨w,hw1⟩ := List.length_eq_one_iff.mp hone
    obtain ⟨root,hroot⟩ := hw.lookup_root
    refine absurd ⟨by simpa using hthere,hempty,?_⟩ h
    rw [hw1, getInodeNumber_eq hroot]
    rfl
  · cases hq : getInodeNumber (FuseCalls.parentPath (dirNames path).dropLast) s with
    | none => rfl
    | some q => exact absurd ⟨by simpa using hthere,hempty,by rw [hq]; rfl⟩ h

theorem made_found (hw : WellFormed s.ilist) (hne : dirNames path ≠ [])
    (hq : getInodeNumber (FuseCalls.parentPath (dirNames path).dropLast) s = some q)
    (hi : s.ilist.lookup q = some i)
    (hfree : i.direntBuf.find? (fun d => d.dName == (dirNames path).getLastD []) = none) :
    getInodeNumber path (made mode s q i ((dirNames path).getLastD [])) = some (maxInode s+1) := by
  have hparent : getInodeNumber (FuseCalls.parentPath (dirNames path).dropLast)
      (made mode s q i ((dirNames path).getLastD [])) = some q :=
    getInodeNumber_extends (entered_extends hw hi _) hq
  have hlookup : (made mode s q i ((dirNames path).getLastD [])).ilist.lookup q =
      some (pushDirent ⟨maxInode s+1,(dirNames path).getLastD []⟩ i) := Finmap.lookup_insert _
  have hnew : (entered mode s q i ((dirNames path).getLastD [])).lookup (maxInode s+1) =
      some (newInode mode s) := entered_lookup_new hw hi _
  rw [getInodeNumber_last (entered_number hw hi _) hne hparent hlookup]
  refine getInodeLoop_cons.mpr ⟨⟨maxInode s+1,(dirNames path).getLastD []⟩,_,?_,hnew,rfl⟩
  rw [pushDirent_direntBuf, List.find?_append, hfree]
  simp

theorem myRmdir_made (hw : WellFormed s.ilist) (hne : dirNames path ≠ [])
    (hq : getInodeNumber (FuseCalls.parentPath (dirNames path).dropLast) s = some q)
    (hi : s.ilist.lookup q = some i)
    (hfree : i.direntBuf.find? (fun d => d.dName == (dirNames path).getLastD []) = none) :
    ∃ s', myRmdir path (made mode s q i ((dirNames path).getLastD [])) = some (ok,s') ∧
      s'.ilist = s.ilist := by
  set name := (dirNames path).getLastD [] with hname
  have hparent : getInodeNumber (FuseCalls.parentPath (dirNames path).dropLast)
      (made mode s q i name) = some q := getInodeNumber_extends (entered_extends hw hi _) hq
  have hlookup : (made mode s q i name).ilist.lookup q =
      some (pushDirent ⟨maxInode s+1,name⟩ i) := Finmap.lookup_insert _
  have hnew : (made mode s q i name).ilist.lookup (maxInode s+1) = some (newInode mode s) :=
    entered_lookup_new hw hi name
  have hfound : getInodeNumber path (made mode s q i name) = some (maxInode s+1) :=
    made_found hw hne hq hi hfree
  have hdirent : (pushDirent ⟨maxInode s+1,name⟩ i).direntBuf.find? (fun d => d.dName == name) =
      some ⟨maxInode s+1,name⟩ := by
    rw [pushDirent_direntBuf, List.find?_append, hfree]
    simp
  refine ⟨_,myRmdir_removes hfound (Nat.succ_ne_zero _) hnew rfl hne hparent hlookup hdirent,?_⟩
  -- the dirent dropped is the one appended
  have hback : dropDirent name (pushDirent ⟨maxInode s+1,name⟩ i) = i := by
    have hnone : ∀ d ∈ i.direntBuf, ¬ (d.dName == name) = true := List.find?_eq_none.mp hfree
    simp only [dropDirent, pushDirent]
    rw [List.eraseP_append_right _ (fun d hd => hnone d hd)]
    simp
  rw [← hname, hback]
  apply Finmap.ext_lookup
  intro k
  by_cases hkn : k = maxInode s+1
  · rw [hkn, Finmap.lookup_erase, Finmap.lookup_eq_none.mpr (next_notMem hw)]
  · rw [Finmap.lookup_erase_ne hkn]
    by_cases hkq : k = q
    · rw [hkq, Finmap.lookup_insert, hi]
    · rw [Finmap.lookup_insert_of_ne _ hkq]
      show (entered mode s q i name).lookup k = s.ilist.lookup k
      rw [entered, Finmap.lookup_insert_of_ne _ hkq, Finmap.lookup_insert_of_ne _ hkn]

theorem toInt32_kept (n : ℕ) :
    (toInt32 n ≠ anErr → toInt32 n = n) ↔ n < 2^31 ∨ n % 2^32 = 2^32-1 := by
  rw [toInt32, anErr, Int.bmod_def]
  omega

/-- A number other than -1 that `my_mkdir` returns is the one its path leads to
then, other paths lead where they did, and `my_rmdir` restores the table. -/
def MkdirKept (path : Str) (mode : Mode) (s : Fuse) : Prop :=
  ∀ r s', myMkdir path mode s = some (r,s') → r ≠ anErr →
    (∃ k : ℕ, getInodeNumber path s' = some k ∧ r = k) ∧
      (∀ other k, getInodeNumber other s = some k → getInodeNumber other s' = some k) ∧
      ∃ s'', myRmdir path s' = some (ok,s'') ∧ s''.ilist = s.ilist

theorem mkdirKept_makes (hw : WellFormed s.ilist) (hm : Makes path s) (mode : Mode) :
    MkdirKept path mode s ↔ maxInode s+1 < 2^31 ∨ (maxInode s+1) % 2^32 = 2^32-1 := by
  obtain ⟨q,i,hq,hi,hfree,hmade⟩ := myMkdir_makes hw mode hm
  have hne := hm.2.1
  have hfound : getInodeNumber path (made mode s q i ((dirNames path).getLastD [])) =
      some (maxInode s+1) := made_found hw hne hq hi hfree
  rw [← toInt32_kept]
  constructor
  · intro hkept hr
    obtain ⟨⟨k,hk,hrk⟩,-⟩ := hkept _ _ hmade hr
    obtain rfl := Option.some.inj (hfound.symm.trans hk)
    exact hrk
  · intro hsame r s' hr hreturn
    obtain ⟨rfl,rfl⟩ := Prod.mk.inj (Option.some.inj (hmade.symm.trans hr))
    refine ⟨⟨_,hfound,hsame hreturn⟩,?_,myRmdir_made hw hne hq hi hfree⟩
    exact fun other k hk => getInodeNumber_extends (entered_extends hw hi _) hk

/-- In every state reached, this holds exactly if nothing is made, or the next
number is an `int`, or its conversion is the error value. -/
theorem mkdir_kept_iff {rootMode : Mode} (h : Reaches advance Resolving (rootOnly rootMode) s)
    (path : Str) (mode : Mode) :
    MkdirKept path mode s ↔
      (Makes path s → maxInode s+1 < 2^31 ∨ (maxInode s+1) % 2^32 = 2^32-1) := by
  have hw := reaches_wellFormed h
  by_cases hm : Makes path s
  · rw [mkdirKept_makes hw hm]
    exact ⟨fun hfits _ => hfits,fun hfits => hfits hm⟩
  · have hrefused := myMkdir_refuses hw mode hm
    refine iff_of_true ?_ (fun hm' => absurd hm' hm)
    intro r s' hr hne
    rw [hrefused] at hr
    exact absurd (Prod.mk.inj (Option.some.inj hr)).1.symm hne

theorem mkdir_kept_root : MkdirKept ['/','d'] 0o755#32 (rootOnly 0o755#32) :=
  (mkdir_kept_iff Reaches.start _ _).mpr (fun _ => Or.inl (by decide))

def oneName (a : Bool) : Str := if a then ['a'] else ['b']

def onePath (a : Bool) : Str := '/'::oneName a

theorem dirNames_onePath (a : Bool) : dirNames (onePath a) = [oneName a] := by
  cases a <;> decide

structure Pair (n : ℕ) (a : Bool) (s : Fuse) : Prop where
  keys : s.ilist.keys = {0,n}
  names : dirents s.ilist 0 = [⟨n,oneName a⟩]

theorem Pair.maxInode_eq {n : ℕ} {a : Bool} (h : Pair n a s) (hw : WellFormed s.ilist) :
    maxInode s = n := by
  have hvalue : ∀ k ∈ s.ilist.keys, (s.ilist.lookup k).elim 0 MyInode.iIno = k := by
    intro k hk
    obtain ⟨i,hi⟩ := Finmap.mem_iff.mp (Finmap.mem_keys.mp hk)
    rw [hi]
    exact hw.number k i hi
  rw [maxInode, Finset.sup_congr rfl hvalue, h.keys]
  simp

theorem onePath_parent (hw : WellFormed s.ilist) (a : Bool) :
    getInodeNumber (FuseCalls.parentPath (dirNames (onePath a)).dropLast) s = some 0 := by
  obtain ⟨root,hroot⟩ := hw.lookup_root
  rw [dirNames_onePath, getInodeNumber_eq hroot]
  exact congrArg some (hw.number 0 root hroot)

theorem oneName_not (a : Bool) : oneName a ≠ oneName (!a) := by
  cases a <;> decide

theorem Pair.makes {n : ℕ} {a : Bool} (h : Pair n a s) (hw : WellFormed s.ilist) :
    Makes (onePath (!a)) s := by
  obtain ⟨root,hroot⟩ := hw.lookup_root
  have hnames : root.direntBuf = [⟨n,oneName a⟩] := (dirents_of_lookup hroot).symm.trans h.names
  have hne : dirNames (onePath (!a)) ≠ [] := by simp [dirNames_onePath]
  refine ⟨(last_missing hw hne (onePath_parent hw _) hroot).mpr ?_,hne,?_⟩
  · simp [hnames, dirNames_onePath, oneName_not]
  · rw [onePath_parent hw]
    rfl

theorem onePath_last (a : Bool) : (dirNames (onePath a)).getLastD [] = oneName a := by
  rw [dirNames_onePath]
  rfl

structure Both (m n : ℕ) (a : Bool) (s : Fuse) : Prop where
  keys : s.ilist.keys = {0,m,n}
  names : dirents s.ilist 0 = [⟨m,oneName a⟩,⟨n,oneName (!a)⟩]
  empty : dirents s.ilist m = []

theorem Pair.empty {n : ℕ} {a : Bool} (h : Pair n a s) (hw : WellFormed s.ilist) :
    n ≠ 0 ∧ dirents s.ilist n = [] := by
  have hpos : 0 < n := (hw.ahead 0 ⟨n,oneName a⟩ (by simp [h.names])).2
  apply And.intro hpos.ne'
  rw [List.eq_nil_iff_forall_not_mem]
  intro d hd
  obtain ⟨hin,hlt⟩ := hw.ahead n d hd
  have hkey : d.dIno ∈ s.ilist.keys := Finmap.mem_keys.mpr hin
  rw [h.keys, Finset.mem_insert, Finset.mem_singleton] at hkey
  omega

theorem Pair.mkdir {rootMode : Mode} {n : ℕ} {a : Bool} (h : Pair n a s)
    (hr : Reaches advance Resolving (rootOnly rootMode) s) :
    ∃ s', Both n (n+1) a s' ∧ Reaches advance Resolving (rootOnly rootMode) s' := by
  have hw := reaches_wellFormed hr
  have hmax := h.maxInode_eq hw
  obtain ⟨hn0,hempty⟩ := h.empty hw
  obtain ⟨q,j,hq,hj,-,hmade⟩ := myMkdir_makes hw 0 (h.makes hw)
  obtain rfl := Option.some.inj (hq.symm.trans (onePath_parent hw _))
  have hnames : j.direntBuf = [⟨n,oneName a⟩] := (dirents_of_lookup hj).symm.trans h.names
  rw [onePath_last] at hmade
  refine ⟨made 0 s 0 j (oneName (!a)),?_,?_⟩
  · constructor
    · ext k
      have hkey : k ∈ s.ilist ↔ k = 0 ∨ k = n := by
        rw [← Finmap.mem_keys, h.keys, Finset.mem_insert, Finset.mem_singleton]
      simp only [made, entered, Finmap.mem_keys, Finmap.mem_insert, hkey, hmax, Finset.mem_insert,
        Finset.mem_singleton]
      omega
    · show dirents (entered 0 s 0 j (oneName (!a))) 0 = _
      rw [entered, dirents_insert, Function.update_self, pushDirent_direntBuf, hnames, hmax]
      rfl
    · show dirents (entered 0 s 0 j (oneName (!a))) n = _
      rw [entered, dirents_insert, Function.update_of_ne hn0, dirents_insert,
        Function.update_of_ne (by omega), hempty]
  · refine Reaches.step (FuseCall.mkdir (onePath (!a)) 0) hr trivial ?_
    rw [advance, answer, hmade]
    rfl

theorem Both.rmdir {rootMode : Mode} {m n : ℕ} {a : Bool} (h : Both m n a s)
    (hr : Reaches advance Resolving (rootOnly rootMode) s) :
    ∃ s', Pair n (!a) s' ∧ Reaches advance Resolving (rootOnly rootMode) s' := by
  have hw := reaches_wellFormed hr
  have hne : dirNames (onePath a) ≠ [] := by simp [dirNames_onePath]
  obtain ⟨hmem,hm0⟩ : m ∈ s.ilist ∧ 0 < m := hw.ahead 0 ⟨m,oneName a⟩ (by simp [h.names])
  have hn0 : 0 < n := (hw.ahead 0 ⟨n,oneName (!a)⟩ (by simp [h.names])).2
  obtain ⟨i,hi⟩ := Finmap.mem_iff.mp hmem
  obtain ⟨j,hj⟩ := hw.lookup_root
  have hnames : j.direntBuf = [⟨m,oneName a⟩,⟨n,oneName (!a)⟩] :=
    (dirents_of_lookup hj).symm.trans h.names
  have hd : j.direntBuf.find? (fun d => d.dName == (dirNames (onePath a)).getLastD []) =
      some ⟨m,oneName a⟩ := by
    simp [hnames, dirNames_onePath]
  have hold : getInodeNumber (onePath a) s = some m := by
    rw [getInodeNumber_last hw.number hne (onePath_parent hw a) hj]
    exact getInodeLoop_cons.mpr ⟨⟨m,oneName a⟩,i,hd,hi,congrArg some (hw.number m i hi)⟩
  have hremoved := myRmdir_removes hold hm0.ne' hi ((dirents_of_lookup hi).symm.trans h.empty) hne
    (onePath_parent hw a) hj hd
  rw [onePath_last] at hremoved
  refine ⟨_,?_,Reaches.step (FuseCall.rmdir (onePath a)) hr trivial
    (by rw [advance, answer, hremoved]; rfl)⟩
  have hdiff : m ≠ n := by
    rintro rfl
    have honce := hw.once m
    have hcount := timesNamed_insert (Finmap.mem_iff.mpr ⟨j,hj⟩) { j with direntBuf := [] } m
    simp [h.names] at hcount
    omega
  constructor
  · ext k
    have hkey : k ∈ s.ilist ↔ k = 0 ∨ k = m ∨ k = n := by
      rw [← Finmap.mem_keys, h.keys, Finset.mem_insert, Finset.mem_insert, Finset.mem_singleton]
    simp only [Finmap.mem_keys, Finmap.mem_erase, Finmap.mem_insert, hkey, Finset.mem_insert,
      Finset.mem_singleton]
    omega
  · rw [dirents, Finmap.lookup_erase_ne hm0.ne, Finmap.lookup_insert]
    simp [dropDirent, hnames]

theorem pair_reached (n : ℕ) :
    ∃ a s, Pair (n+1) a s ∧ Reaches advance Resolving (rootOnly 0o755#32) s := by
  induction n with
  | zero =>
    have hmeets : Meets advance Resolving [.mkdir (onePath true) 0o755#32]
      (rootOnly 0o755#32) := by decide
    exact ⟨true,_,⟨by decide,by decide⟩,reaches_of_exec _ hmeets rfl⟩
  | succ n ih =>
    obtain ⟨a,s,hp,hr⟩ := ih
    obtain ⟨s₁,hb,hr₁⟩ := hp.mkdir hr
    obtain ⟨s',hp',hr'⟩ := hb.rmdir hr₁
    exact ⟨!a,s',hp',hr'⟩

/-- The number `2^31` is returned as a negative one. -/
theorem mkdir_kept_fails :
    ¬ ∀ (rootMode : Mode) (s : Fuse) (path : Str) (mode : Mode),
      Reaches advance Resolving (rootOnly rootMode) s → MkdirKept path mode s := by
  intro hall
  obtain ⟨a,s,hp,hr⟩ := pair_reached (2^31-2)
  have hw := reaches_wellFormed hr
  have hmax := hp.maxInode_eq hw
  have hfits := (mkdirKept_makes hw (hp.makes hw) 0).mp (hall _ s _ 0 hr)
  omega

end Bbfs.FuseMkdir
