import Bbfs.FuseRename
import Bbfs.PathTree

/-!
# The inode table as a tree of modes

What the inodes and dirents stand for is a tree with a mode at every node. A
call that returns changes the tree at the one node its path names, or not at
all, and its return value is decided by the tree and the next numbers.
-/

set_option autoImplicit false

namespace Bbfs.FuseTree
open Bbfs.Strings Bbfs.Files Bbfs.FuseCalls Bbfs.FuseTable Bbfs.FuseMkdir Bbfs.FuseCreat
  Bbfs.FuseRename Bbfs.Counting Bbfs.PathTree Bbfs.Runs

abbrev ModeTree := Tree Str Mode

variable {s s' : Fuse} {t : Table} {T : ModeTree} {i : MyInode} {k p q : ℕ} {ws : List Str}
  {path w : Str} {mode : Mode}

/-- A file in the root gets no dirent. -/
noncomputable def treeNext (T : ModeTree) : FuseCall → ModeTree
  | .mkdir pathname mode => T.grow (dirNames pathname) mode
  | .creat pathname mode =>
    if (dirNames pathname).dropLast = [] then T else T.grow (dirNames pathname) mode
  | .rmdir pathname => T.prune (dirNames pathname)
  | .chmod path mode => T.relabel (dirNames path) mode
  | .open1 _ _ | .open2 _ _ _ | .close _ => T

def Allowed : FuseCall → ModeTree → Prop
  | .creat pathname _, T => T.CanGrow (dirNames pathname)
  | _, _ => True

/-- The return values, given the next inode number and the next descriptor; the
answer of `my_close` does not depend on the tree. -/
def Answers (T : ModeTree) (number fd r : ℤ) : FuseCall → Prop
  | .mkdir pathname _ => T.CanGrow (dirNames pathname) ∧ r = number ∨
      ¬ T.CanGrow (dirNames pathname) ∧ r = anErr
  | .creat _ _ => r = number
  | .rmdir pathname => T.CanPrune (dirNames pathname) ∧ r = ok ∨
      ¬ T.CanPrune (dirNames pathname) ∧ r = anErr
  | .chmod _ _ => r = 0
  | .open1 pathname _ | .open2 pathname _ _ => r = if (T.label (dirNames pathname)).isSome then fd
      else anErr
  | .close _ => True

def child (t : Table) (k : ℕ) (w : Str) : Option ℕ :=
  ((dirents t k).find? (fun d => d.dName == w)).map MyDirent.dIno

def modeAt (t : Table) (ws : List Str) : Option Mode :=
  ((t.lookup 0).bind (getInodeLoop t ws)).bind (fun k => (t.lookup k).map MyInode.iMode)

theorem child_some (h : child t k w = some p) : ∃ d ∈ dirents t k, d.dName = w ∧ d.dIno = p := by
  obtain ⟨d,hd,rfl⟩ := Option.map_eq_some_iff.mp h
  exact ⟨d,List.mem_of_find?_eq_some hd,by simpa using List.find?_some hd,rfl⟩

theorem child_congr {t t' : Table} (h : dirents t = dirents t') : child t = child t' := by
  funext k w
  rw [child, child, h]

theorem child_none_iff : (∀ w, child t k w = none) ↔ dirents t k = [] := by
  constructor
  · intro h
    by_contra hne
    obtain ⟨d,hd⟩ := List.exists_mem_of_ne_nil _ hne
    have hfind := Option.map_eq_none_iff.mp (h d.dName)
    simpa using List.find?_eq_none.mp hfind d hd
  · intro h w
    rw [child, h]
    rfl

theorem walkKey_find (hw : WellFormed t) (ws : List Str) : walkKey t ws 0 = find 0 (child t) ws := by
  induction ws using List.reverseRecOn with
  | nil => rfl
  | append_singleton ws w ih =>
    rw [walkKey_append, find_concat, ih]
    congr 1
    funext k
    rw [walkKey_single, child]
    cases hd : (dirents t k).find? (fun d => d.dName == w) with
    | none => rfl
    | some d =>
      rw [Option.bind_some, if_pos (hw.ahead k d (List.mem_of_find?_eq_some hd)).1]
      rfl

theorem getInodeLoop_find (hw : WellFormed t) (ws : List Str) :
    (t.lookup 0).bind (getInodeLoop t ws) = find 0 (child t) ws := by
  obtain ⟨root,hroot⟩ := hw.lookup_root
  rw [hroot, Option.bind_some, getInodeLoop_walk hroot, walkKey_number hw (Or.inr hw.root),
    walkKey_find hw]

theorem getInodeNumber_find (hw : WellFormed s.ilist) (path : Str) :
    getInodeNumber path s = find 0 (child s.ilist) (dirNames path) := by
  obtain ⟨root,hroot⟩ := hw.lookup_root
  rw [getInodeNumber_eq hroot, ← getInodeLoop_find hw, hroot, Option.bind_some]

theorem find_mem (hw : WellFormed t) (h : find 0 (child t) ws = some k) : k ∈ t := by
  obtain ⟨root,hroot⟩ := hw.lookup_root
  rw [← getInodeLoop_find hw, hroot, Option.bind_some] at h
  exact getInodeLoop_mem hw hroot h

theorem modeAt_find (hw : WellFormed t) (ws : List Str) :
    modeAt t ws = (find 0 (child t) ws).bind (fun k => (t.lookup k).map MyInode.iMode) := by
  rw [modeAt, getInodeLoop_find hw]

theorem modeAt_isSome (hw : WellFormed t) (ws : List Str) :
    (modeAt t ws).isSome = (find 0 (child t) ws).isSome := by
  rw [modeAt_find hw]
  cases h : find 0 (child t) ws with
  | none => rfl
  | some k =>
    obtain ⟨i,hi⟩ := Finmap.mem_iff.mp (find_mem hw h)
    rw [Option.bind_some, hi]
    rfl

theorem onePath (hw : WellFormed t) : OnePath 0 (child t) := by
  apply onePath_of_injective
  · intro k w k' w' j hj hj'
    obtain ⟨d,hd,rfl,hdj⟩ := child_some hj
    obtain ⟨e,he,rfl,hej⟩ := child_some hj'
    obtain ⟨hk,hde⟩ := census_one (hw.once j) (keys_of_dirents (List.ne_nil_of_mem hd))
      (keys_of_dirents (List.ne_nil_of_mem he)) hd he (by simpa using hdj) (by simpa using hej)
    exact ⟨hk,congrArg MyDirent.dName hde⟩
  · intro k w h
    obtain ⟨d,hd,-,h0⟩ := child_some h
    have hlt := (hw.ahead k d hd).2
    omega

structure Represents (s : Fuse) (T : ModeTree) : Prop where
  wellFormed : WellFormed s.ilist
  distinct : Distinct s.ilist
  label : ∀ ws, modeAt s.ilist ws = T.label ws

theorem Represents.isSome (h : Represents s T) (ws : List Str) :
    (T.label ws).isSome = (find 0 (child s.ilist) ws).isSome := by
  rw [← h.label, modeAt_isSome h.wellFormed]

theorem Represents.eq_none (h : Represents s T) (ws : List Str) :
    T.label ws = none ↔ find 0 (child s.ilist) ws = none := by
  rw [← Option.not_isSome_iff_eq_none, ← Option.not_isSome_iff_eq_none, h.isSome]

theorem getInodeNumber_parent (hw : WellFormed s.ilist) (path : Str) :
    getInodeNumber (FuseCalls.parentPath (dirNames path).dropLast) s =
      find 0 (child s.ilist) (dirNames path).dropLast := by
  rw [getInodeNumber_find hw, dirNames_parentPath (dirNames_pieces path).dropLast]

theorem Represents.makes_iff (h : Represents s T) (path : Str) :
    Makes path s ↔ T.CanGrow (dirNames path) := by
  rw [Makes, getInodeNumber_parent h.wellFormed, getInodeNumber_find h.wellFormed, Tree.CanGrow,
    h.eq_none, h.isSome]
  exact ⟨fun ⟨h1,h2,h3⟩ => ⟨h2,h1,h3⟩,fun ⟨h2,h1,h3⟩ => ⟨h1,h2,h3⟩⟩

theorem dirents_entered (mode : Mode) (hi : s.ilist.lookup q = some i) (hw : WellFormed s.ilist)
    (w : Str) :
    dirents (entered mode s q i w) =
      Function.update (dirents s.ilist) q (dirents s.ilist q++[⟨maxInode s+1,w⟩]) := by
  have hnew : dirents (s.ilist.insert (maxInode s+1) (newInode mode s)) = dirents s.ilist :=
    dirents_insert_new (next_notMem hw) rfl
  rw [entered, dirents_insert, hnew, pushDirent_direntBuf, dirents_of_lookup hi]

theorem mode_entered (hi : s.ilist.lookup q = some i) (hw : WellFormed s.ilist) (w : Str) (k : ℕ) :
    ((entered mode s q i w).lookup k).map MyInode.iMode =
      if k = maxInode s+1 then some mode else (s.ilist.lookup k).map MyInode.iMode := by
  by_cases hn : k = maxInode s+1
  · rw [if_pos hn, hn, entered_lookup_new hw hi]
    rfl
  · rw [if_neg hn, entered]
    by_cases hq : k = q
    · rw [hq, Finmap.lookup_insert, hi]
      rfl
    · rw [Finmap.lookup_insert_of_ne _ hq, Finmap.lookup_insert_of_ne _ hn]

theorem child_update_other {D D' : Table} {l : List MyDirent} {u : Str}
    (hd : dirents D' = Function.update (dirents D) q l)
    (hl : k = q → l.find? (fun d => d.dName == u) =
      (dirents D q).find? (fun d => d.dName == u)) : child D' k u = child D k u := by
  rw [child, child, hd]
  by_cases hk : k = q
  · rw [hk, Function.update_self, hl hk]
  · rw [Function.update_of_ne hk]

theorem modeAt_entered (hw : WellFormed s.ilist) (hw' : WellFormed (entered mode s q i w))
    (hi : s.ilist.lookup q = some i) {p : List Str} (hp : find 0 (child s.ilist) p = some q)
    (hfree : i.direntBuf.find? (fun d => d.dName == w) = none) (ws : List Str) :
    modeAt (entered mode s q i w) ws = if ws = p++[w] then some mode else modeAt s.ilist ws := by
  have hd := dirents_entered mode hi hw w
  have hbuf : dirents s.ilist q = i.direntBuf := dirents_of_lookup hi
  have hnq : maxInode s+1 ≠ q := fun he => next_notMem hw (he ▸ mem_of_lookup hi)
  have hn : ∀ u, child s.ilist (maxInode s+1) u = none := by
    apply child_none_iff.mpr
    by_contra hne
    exact next_notMem hw (Finmap.mem_keys.mp (keys_of_dirents hne))
  have hnone : child s.ilist q w = none := by
    rw [child, hbuf, hfree]
    rfl
  have hadd : child (entered mode s q i w) q w = some (maxInode s+1) := by
    rw [child, hd, Function.update_self, hbuf, List.find?_append, hfree]
    simp
  have hkeep : ∀ k u, ¬ (k = q ∧ u = w) → child (entered mode s q i w) k u = child s.ilist k u := by
    intro k u hku
    apply child_update_other hd
    intro hk
    have hu : w ≠ u := fun hu => hku ⟨hk,hu.symm⟩
    simp [List.find?_append, hu]
  have hlink := find_link ((onePath hw).find_iff hp) hnone hnq hn hadd hkeep ws
  rw [modeAt_find hw', modeAt_find hw, hlink]
  by_cases hnew : ws = p++[w]
  · rw [if_pos hnew, if_pos hnew, Option.bind_some, mode_entered hi hw, if_pos rfl]
  · rw [if_neg hnew, if_neg hnew]
    cases hws : find 0 (child s.ilist) ws with
    | none => rfl
    | some k =>
      have hk : k ≠ maxInode s+1 := fun he => next_notMem hw (he ▸ find_mem hw hws)
      rw [Option.bind_some, Option.bind_some, mode_entered hi hw, if_neg hk]

theorem Represents.entered (h : Represents s T) (hg : T.CanGrow ws)
    (hp : find 0 (child s.ilist) ws.dropLast = some q) (hi : s.ilist.lookup q = some i)
    (hfree : i.direntBuf.find? (fun d => d.dName == ws.getLastD []) = none)
    (hs : s'.ilist = FuseMkdir.entered mode s q i (ws.getLastD [])) (hw' : WellFormed s'.ilist) :
    Represents s' (T.grow ws mode) := by
  refine ⟨hw',?_,?_⟩
  · rw [hs]
    have hnew : ((newInode mode s).direntBuf.map MyDirent.dName).Nodup := List.nodup_nil
    exact (h.distinct.insert hnew).insert (nodup_push (h.distinct.of_lookup hi) hfree)
  · intro vs
    rw [hs] at hw' ⊢
    rw [modeAt_entered h.wellFormed hw' hi hp hfree, dropLast_getLastD hg.1]
    by_cases hvs : vs = ws
    · rw [if_pos hvs, hvs, Tree.grow_self mode hg]
    · rw [if_neg hvs, Tree.grow_ne mode hvs, h.label]

theorem Represents.parent (h : Represents s T) (hg : T.CanGrow ws) :
    ∃ q i, find 0 (child s.ilist) ws.dropLast = some q ∧ s.ilist.lookup q = some i ∧
      i.direntBuf.find? (fun d => d.dName == ws.getLastD []) = none := by
  obtain ⟨hne,hnone,hparent⟩ := hg
  rw [h.isSome] at hparent
  rw [h.eq_none, ← dropLast_getLastD hne, find_concat] at hnone
  obtain ⟨q,hq⟩ := Option.isSome_iff_exists.mp hparent
  obtain ⟨i,hi⟩ := Finmap.mem_iff.mp (find_mem h.wellFormed hq)
  rw [hq, Option.bind_some, child, dirents_of_lookup hi] at hnone
  exact ⟨q,i,hq,hi,Option.map_eq_none_iff.mp hnone⟩

def nextFd (s : Fuse) : ℤ := toInt32 ((maxFd s+1:ℕ):ℤ)

/-- The call returns what the tree says and changes the tables as the tree. -/
def Refines (s : Fuse) (T : ModeTree) (c : FuseCall) : Prop :=
  ∃ r s', answer c s = some (r,s') ∧ Answers T (nextInt s) (nextFd s) r c ∧
    (WellFormed s'.ilist → Represents s' (treeNext T c))

theorem mkdir_refines (h : Represents s T) (path : Str) (mode : Mode) :
    Refines s T (.mkdir path mode) := by
  by_cases hg : T.CanGrow (dirNames path)
  · obtain ⟨q,i,hq,hi,hfree,hmade⟩ :=
      myMkdir_makes h.wellFormed mode ((h.makes_iff path).mpr hg)
    rw [getInodeNumber_parent h.wellFormed] at hq
    exact ⟨_,_,hmade,Or.inl ⟨hg,rfl⟩,h.entered hg hq hi hfree rfl⟩
  · have hstay := myMkdir_refuses h.wellFormed mode (fun hm => hg ((h.makes_iff path).mp hm))
    refine ⟨_,_,hstay,Or.inr ⟨hg,rfl⟩,fun _ => ?_⟩
    rw [treeNext, Tree.grow_of_not mode hg]
    exact h

theorem Represents.added (h : Represents s T) (mode : Mode)
    (hw' : WellFormed (inodeInit mode s).2.ilist) : Represents (inodeInit mode s).2 T := by
  have hd := inodeInit_dirents mode s
  refine ⟨hw',?_,?_⟩
  · intro k
    rw [hd]
    exact h.distinct k
  · intro ws
    rw [← h.label, modeAt_find hw', modeAt_find h.wellFormed, child_congr hd]
    cases hws : find 0 (child s.ilist) ws with
    | none => rfl
    | some k =>
      rw [Option.bind_some, Option.bind_some,
        inodeInit_lookup h.wellFormed mode (find_mem h.wellFormed hws)]

theorem creat_refines (h : Represents s T) {path : Str} (hg : T.CanGrow (dirNames path))
    (mode : Mode) : Refines s T (.creat path mode) := by
  have hw := h.wellFormed
  by_cases htop : (dirNames path).dropLast = []
  · refine ⟨_,_,myCreat_root hw.root hg.1 htop mode,rfl,fun hw' => ?_⟩
    rw [treeNext, if_pos htop]
    exact h.added mode hw'
  · obtain ⟨q,i,hq,hi,hfree⟩ := h.parent hg
    have hparent : getInodeNumber (creatPath (dirNames path).dropLast) (inodeInit mode s).2 =
        some q := by
      rw [getInodeNumber_inodeInit hw, getInodeNumber_creatPath hw, getInodeNumber_parent hw, hq]
    have hcall : myCreat path mode s = some (nextInt s,pushed path mode s q i) := by
      rw [myCreat_parent hw.root htop, hparent, Option.bind_some,
        inodeInit_lookup hw mode (mem_of_lookup hi), hi, Option.map_some]
    have hpushed : (pushed path mode s q i).ilist =
        entered mode s q i ((dirNames path).getLastD []) := by
      rw [pushed, inodeInit_ilist hw]
      rfl
    refine ⟨_,_,hcall,rfl,fun hw' => ?_⟩
    rw [treeNext, if_neg htop]
    exact h.entered hg hq hi hfree hpushed hw'

theorem Represents.removes_iff (h : Represents s T) (path : Str) :
    (∃ k, Removes path k s) ↔ T.CanPrune (dirNames path) := by
  have hw := h.wellFormed
  have hroot : ∀ k, find 0 (child s.ilist) (dirNames path) = some k →
      (k ≠ 0 ↔ dirNames path ≠ []) := by
    intro k hk
    rw [not_iff_not]
    constructor
    · rintro rfl
      exact onePath hw _ [] 0 hk rfl
    · intro hnil
      rw [hnil] at hk
      exact (Option.some.inj hk).symm
  have hleaf : ∀ k, find 0 (child s.ilist) (dirNames path) = some k →
      ((∀ w, T.label (dirNames path++[w]) = none) ↔ dirents s.ilist k = []) := by
    intro k hk
    rw [← child_none_iff]
    apply forall_congr'
    intro w
    rw [h.eq_none, find_concat, hk, Option.bind_some]
  rw [Tree.CanPrune, h.isSome]
  constructor
  · intro ⟨k,hk,h0,hnil⟩
    rw [getInodeNumber_find hw] at hk
    exact ⟨(hroot k hk).mp h0,by rw [hk]; rfl,(hleaf k hk).mpr hnil⟩
  · intro ⟨hne,hsome,hnone⟩
    obtain ⟨k,hk⟩ := Option.isSome_iff_exists.mp hsome
    exact ⟨k,(getInodeNumber_find hw path).trans hk,(hroot k hk).mpr hne,(hleaf k hk).mp hnone⟩

theorem myRmdir_refuses (hw : WellFormed s.ilist) (hno : ∀ k, ¬ Removes path k s) :
    myRmdir path s = some (anErr,s) := by
  rw [myRmdir]
  cases hk : getInodeNumber path s with
  | none => rfl
  | some k =>
    obtain ⟨i,hi⟩ := Finmap.mem_iff.mp (getInodeNumber_mem hw hk)
    simp only [hi]
    split_ifs with h0 hfull
    · rfl
    · rfl
    all_goals
      refine absurd ⟨hk,h0,?_⟩ (hno k)
      rw [dirents_of_lookup hi]
      exact List.length_eq_zero_iff.mp (Nat.eq_zero_of_not_pos hfull)

theorem find?_dropped {α : Type} {f g : α → Bool} (hfg : ∀ a, g a = true → f a = false)
    (xs : List α) : (xs.eraseP f).find? g = xs.find? g := by
  induction xs with
  | nil => rfl
  | cons a xs ih =>
    by_cases hf : f a = true
    · have hg : ¬ g a = true := fun hg => Bool.false_ne_true ((hfg a hg).symm.trans hf)
      rw [List.eraseP_cons_of_pos hf, List.find?_cons_of_neg hg]
    · rw [List.eraseP_cons_of_neg hf, List.find?_cons, List.find?_cons, ih]

theorem find?_dropped_none {xs : List MyDirent} (h : (xs.map MyDirent.dName).Nodup) (w : Str) :
    (xs.eraseP (fun d => d.dName == w)).find? (fun d => d.dName == w) = none := by
  induction xs with
  | nil => rfl
  | cons a xs ih =>
    rw [List.map_cons, List.nodup_cons] at h
    by_cases hw : (a.dName == w) = true
    · rw [List.eraseP_cons_of_pos (p := fun d : MyDirent => d.dName == w) hw, List.find?_eq_none]
      intro d hd hdw
      refine h.1 (List.mem_map.mpr ⟨d,hd,?_⟩)
      rw [beq_iff_eq.mp hdw, beq_iff_eq.mp hw]
    · rw [List.eraseP_cons_of_neg (p := fun d : MyDirent => d.dName == w) hw,
        List.find?_cons_of_neg (p := fun d : MyDirent => d.dName == w) hw]
      exact ih h.2

theorem dirents_removed (hne : k ≠ q)
    (hnil : dirents s.ilist k = []) (w : Str) :
    dirents ((s.ilist.insert q (dropDirent w i)).erase k) =
      Function.update (dirents s.ilist) q (i.direntBuf.eraseP (fun d => d.dName == w)) := by
  have hinsert := dirents_insert s.ilist q (dropDirent w i)
  funext j
  by_cases hj : j = k
  · rw [hj, Function.update_of_ne hne, hnil, dirents, Finmap.lookup_erase]
    rfl
  · rw [dirents, Finmap.lookup_erase_ne hj]
    exact congrFun hinsert j

theorem mode_removed {j : ℕ} (hi : s.ilist.lookup q = some i) (hj : j ≠ k) (w : Str) :
    (((s.ilist.insert q (dropDirent w i)).erase k).lookup j).map MyInode.iMode =
      (s.ilist.lookup j).map MyInode.iMode := by
  rw [Finmap.lookup_erase_ne hj]
  by_cases hq : j = q
  · rw [hq, Finmap.lookup_insert, hi]
    rfl
  · rw [Finmap.lookup_insert_of_ne _ hq]

theorem Represents.removed (h : Represents s T) (hp : T.CanPrune ws)
    (hk : find 0 (child s.ilist) ws = some k) (hnil : dirents s.ilist k = [])
    (hq : find 0 (child s.ilist) ws.dropLast = some q) (hi : s.ilist.lookup q = some i)
    (hs : s'.ilist = (s.ilist.insert q (dropDirent (ws.getLastD []) i)).erase k)
    (hw' : WellFormed s'.ilist) : Represents s' (T.prune ws) := by
  have hw := h.wellFormed
  have hws := dropLast_getLastD hp.1
  have hlink : child s.ilist q (ws.getLastD []) = some k := by
    rw [← hws, find_concat, hq, Option.bind_some] at hk
    exact hk
  have hne : k ≠ q := by
    rintro rfl
    obtain ⟨d,hd,-,-⟩ := child_some hlink
    rw [hnil] at hd
    exact List.not_mem_nil hd
  have hd := dirents_removed (i := i) hne hnil (ws.getLastD [])
  have hbuf : dirents s.ilist q = i.direntBuf := dirents_of_lookup hi
  rw [← hs] at hd
  have hgone : child s'.ilist q (ws.getLastD []) = none := by
    rw [child, hd, Function.update_self, find?_dropped_none (h.distinct.of_lookup hi)]
    rfl
  have hkeep : ∀ j u, ¬ (j = q ∧ u = ws.getLastD []) →
      child s'.ilist j u = child s.ilist j u := by
    intro j u hju
    apply child_update_other hd
    intro hj
    rw [hbuf]
    apply find?_dropped
    intro d hdu
    have hu : u ≠ ws.getLastD [] := fun hu => hju ⟨hj,hu⟩
    simpa [beq_iff_eq.mp hdu] using hu
  have hunlink := find_unlink ((onePath hw).find_iff hq) hlink (child_none_iff.mpr hnil) hgone hkeep
  rw [hws] at hunlink
  refine ⟨hw',?_,?_⟩
  · rw [hs]
    have hsub : ((dropDirent (ws.getLastD []) i).direntBuf.map MyDirent.dName).Sublist
        (i.direntBuf.map MyDirent.dName) := List.eraseP_sublist.map _
    exact (h.distinct.insert ((h.distinct.of_lookup hi).sublist hsub)).erase k
  · intro vs
    rw [modeAt_find hw', hunlink]
    by_cases hvs : vs = ws
    · rw [if_pos hvs, hvs, Tree.prune_self hp]
      rfl
    · rw [if_neg hvs, Tree.prune_ne hvs, ← h.label, modeAt_find hw]
      cases hj : find 0 (child s.ilist) vs with
      | none => rfl
      | some j =>
        have hjk : j ≠ k := fun he => hvs (onePath hw vs ws k (he ▸ hj) hk)
        rw [Option.bind_some, Option.bind_some, hs, mode_removed hi hjk]

theorem rmdir_refines (h : Represents s T) (path : Str) : Refines s T (.rmdir path) := by
  have hw := h.wellFormed
  by_cases hp : T.CanPrune (dirNames path)
  · obtain ⟨k,hk,h0,hnil⟩ := (h.removes_iff path).mpr hp
    obtain ⟨i,hi⟩ := Finmap.mem_iff.mp (getInodeNumber_mem hw hk)
    obtain ⟨q,j,d,hq,hj,hd,hdk⟩ := getInodeNumber_snoc hw hp.1 hk
    have hcall := myRmdir_removes hk h0 hi (by rw [← dirents_of_lookup hi, hnil]) hp.1 hq hj hd
    rw [getInodeNumber_find hw] at hk
    rw [getInodeNumber_parent hw] at hq
    exact ⟨_,_,hcall,Or.inl ⟨hp,rfl⟩,h.removed hp hk hnil hq hj rfl⟩
  · have hno : ∀ k, ¬ Removes path k s := fun k hk => hp ((h.removes_iff path).mp ⟨k,hk⟩)
    refine ⟨_,_,myRmdir_refuses hw hno,Or.inr ⟨hp,rfl⟩,fun _ => ?_⟩
    rw [treeNext, Tree.prune_of_not hp]
    exact h

theorem chmod_refines (h : Represents s T) (path : Str) (mode : Mode) :
    Refines s T (.chmod path mode) := by
  have hw := h.wellFormed
  cases hk : getInodeNumber path s with
  | none =>
    have hnone : (T.label (dirNames path)).isSome = false := by
      rw [h.isSome, ← getInodeNumber_find hw, hk]
      rfl
    refine ⟨0,s,by rw [answer, myChmod, hk],rfl,fun _ => ?_⟩
    rw [treeNext, Tree.relabel_of_not mode hnone]
    exact h
  | some k =>
    obtain ⟨i,hi⟩ := Finmap.mem_iff.mp (getInodeNumber_mem hw hk)
    rw [getInodeNumber_find hw] at hk
    have hsome : (T.label (dirNames path)).isSome = true := by
      rw [h.isSome, hk]
      rfl
    have hcall : myChmod path mode s =
        some (0,{ s with ilist := s.ilist.insert k { i with iMode := mode } }) := by
      rw [myChmod, getInodeNumber_find hw, hk]
      simp only [modifyInode, hi, Option.map_some]
    have hsame : (i.direntBuf.map MyDirent.dName).Nodup := h.distinct.of_lookup hi
    refine ⟨_,_,hcall,rfl,fun hw' => ⟨hw',h.distinct.insert hsame,?_⟩⟩
    intro ws
    rw [modeAt_find hw', child_congr (dirents_remode hi mode)]
    by_cases hws : ws = dirNames path
    · rw [hws, hk, treeNext, Tree.relabel_self mode hsome, Option.bind_some, Finmap.lookup_insert]
      rfl
    · rw [treeNext, Tree.relabel_ne mode hws, ← h.label, modeAt_find hw]
      cases hj : find 0 (child s.ilist) ws with
      | none => rfl
      | some j =>
        have hjk : j ≠ k := fun he => hws (onePath hw ws _ k (he ▸ hj) hk)
        rw [Option.bind_some, Option.bind_some, Finmap.lookup_insert_of_ne _ hjk]

theorem openWith_refines (h : Represents s T) (mode : Mode) (path : Str) (flags : ℕ) :
    (openWith mode path flags s).1 =
        (if (T.label (dirNames path)).isSome then nextFd s else anErr) ∧
      (openWith mode path flags s).2.ilist = s.ilist := by
  have hw := h.wellFormed
  rw [h.isSome, ← getInodeNumber_find hw]
  cases hk : getInodeNumber path s with
  | none =>
    constructor
    · simp only [openWith, hk]
      rfl
    · simp only [openWith, hk]
  | some k =>
    obtain ⟨i,hi⟩ := Finmap.mem_iff.mp (getInodeNumber_mem hw hk)
    constructor
    · simp only [openWith, hk, hi, fileInit, nextFd, Option.isSome_some, if_true]
    · simp only [openWith, hk, hi, fileInit]

theorem Represents.frame (h : Represents s T) (hs : s'.ilist = s.ilist) : Represents s' T :=
  ⟨hs ▸ h.wellFormed,hs ▸ h.distinct,hs ▸ h.label⟩

theorem call_refines (h : Represents s T) (c : FuseCall) (hc : Allowed c T) : Refines s T c := by
  cases c with
  | mkdir pathname mode => exact mkdir_refines h pathname mode
  | creat pathname mode => exact creat_refines h hc mode
  | rmdir pathname => exact rmdir_refines h pathname
  | chmod path mode => exact chmod_refines h path mode
  | open1 pathname flags =>
    obtain ⟨hr,hs⟩ := openWith_refines h 0x644#32 pathname (toU16 flags)
    exact ⟨_,_,rfl,hr,fun _ => h.frame hs⟩
  | open2 pathname flags mode =>
    obtain ⟨hr,hs⟩ := openWith_refines h mode pathname (toU16 flags)
    exact ⟨_,_,rfl,hr,fun _ => h.frame hs⟩
  | close fd =>
    refine ⟨(myClose fd s).1,(myClose fd s).2,rfl,trivial,fun _ => h.frame ?_⟩
    simp only [myClose]
    split_ifs <;> rfl

theorem rootOnly_represents (mode : Mode) : Represents (rootOnly mode) (Tree.leaf mode) := by
  have hw := rootOnly_wellFormed mode
  refine ⟨hw,fun k => by rw [rootOnly_dirents]; exact List.nodup_nil,?_⟩
  intro ws
  rw [modeAt_find hw]
  cases ws using List.reverseRecOn with
  | nil =>
    have hroot : (rootOnly mode).ilist.lookup 0 = some { iIno := 0, iMode := mode, node := 0 } :=
      Finmap.lookup_singleton_eq
    rw [find_nil, Option.bind_some, hroot]
    rfl
  | append_singleton ws w =>
    have hnone : ∀ k, child (rootOnly mode).ilist k w = none :=
      fun k => child_none_iff.mpr (rootOnly_dirents mode k) w
    have hfind : find 0 (child (rootOnly mode).ilist) (ws++[w]) = none := by
      rw [find_concat]
      cases find 0 (child (rootOnly mode).ilist) ws with
      | none => rfl
      | some k => exact hnone k
    rw [hfind]
    simp [Tree.leaf]

theorem represents_step (c : FuseCall) (s : Fuse) (T : ModeTree) (h : Represents s T)
    (hc : Allowed c T) : ∃ s', advance c s = some s' ∧ Represents s' (treeNext T c) := by
  obtain ⟨r,s',hr,-,hrep⟩ := call_refines h c hc
  have hstep : advance c s = some s' := by rw [advance, hr, Option.map_some]
  exact ⟨s',hstep,hrep ((advance_some h.wellFormed hstep).wellFormed h.wellFormed)⟩

end Bbfs.FuseTree
